/-
# The frame that goes back to the host

`OFP_encode_back_to_host` answers a flow mod for a buffered packet with a frame of its own: the
MAC addresses and the IP addresses of the learned frame the other way round, and the match value
and the set-field value of the flow mod as the payload of a UDP datagram.  It fills the structures
of `ip_codec.c` without ever setting `opt_pad`, `data` or the checksums, and counts the length of
the frame beside the encoders.  `reply_of_flowMod` is what `DECODE_IP_PKT` and `DECODE_UDP_PKT` make
of the result.
-/
import Ofpagent.Agent.Main
import Ofpagent.Util.RoundTrip

namespace Ofpagent.Agent

open Ofpagent.Lib

/-! ## 1. The flow mod -/

/-- A flow mod of the fixed layout, as far as the source reads it: the id of a buffered packet,
the value of the one OXM in the match, and a first action that sets the IPv4 destination. -/
structure FlowModLayout (mu : Mem) (bufferId : UInt32) (matchValue setValue : List UInt8) :
    Prop where
  bufferId : mu.Holds 32 (beBytes 4 bufferId.toNat)
  matchLength : matchValue.length = 4
  matchValue : mu.Holds 56 matchValue
  actionType : mu.Holds 72 [0, 25]
  oxmField : (mu 78).toNat / 2 = 12
  setLength : setValue.length = 4
  setValue : mu.Holds 80 setValue

section Layout

variable {mu : Mem} {b : UInt32} {matchValue setValue : List UInt8}

/-- Four bytes as a `U32`, and back. -/
theorem leBytes_u32At {off : ℕ} {l : List UInt8} (hl : l.length = 4) (h : mu.Holds off l) :
    leBytes 4 (u32At mu off).toNat = l := by
  have hlt : leNat l < 2 ^ 32 := by simpa [hl] using leNat_lt l
  have hnat : (u32At mu off).toNat = leNat l := by
    rw [u32At, Mem.readLe, h.read_eq hl, UInt32.toNat_ofNat_of_lt' hlt]
  rw [hnat, ← hl, leBytes_leNat]

theorem u32Bytes_u32At (mu : Mem) (off : ℕ) : (u32Bytes (u32At mu off)).toList = mu.read off 4 :=
  leBytes_u32At (Mem.read_length mu off 4) (by rw [Mem.Holds, Mem.read_length])

/-- The type of the action is two bytes of the flow mod. -/
theorem isSetField_iff : isSetField mu = true ↔ mu 72 = 0 ∧ mu 73 = 25 := by
  have hread : mu.read 72 2 = [mu 72, mu 73] := rfl
  have hlt : leNat [mu 72, mu 73] < 2 ^ 16 := by simpa using leNat_lt [mu 72, mu 73]
  have h25 : htons 25 = UInt16.ofNat (leNat [0, 25]) := by decide
  rw [isSetField, beq_iff_eq, h25, u16At, Mem.readLe]
  simp only [flowActionOff, Nat.reduceAdd, hread]
  constructor
  · intro h
    have hnat := congrArg UInt16.toNat h
    rw [UInt16.toNat_ofNat_of_lt' hlt] at hnat
    have hbytes : leBytes 2 (leNat [mu 72, mu 73]) = [mu 72, mu 73] :=
      leBytes_leNat [mu 72, mu 73]
    rw [hnat] at hbytes
    have hlist : [mu 72, mu 73] = [0, 25] := hbytes.symm.trans (by decide)
    simpa using hlist
  · rintro ⟨h0, h1⟩
    rw [h0, h1]

theorem FlowModLayout.isSetField (h : FlowModLayout mu b matchValue setValue) :
    isSetField mu = true := by
  have htype := h.actionType
  simp only [Mem.holds_cons, Nat.reduceAdd] at htype
  exact isSetField_iff.mpr ⟨htype.1, htype.2.1⟩

theorem flowBufferId_of_holds (h : mu.Holds 32 (beBytes 4 b.toNat)) : flowBufferId mu = b := by
  have hbytes : leBytes 4 (u32At mu 32).toNat = beBytes 4 b.toNat :=
    leBytes_u32At (beBytes_length 4 _) h
  rw [flowBufferId, flowBufferIdOff, htonl, beBytes, hbytes, beBytes, List.reverse_reverse,
    leNat_leBytes, Nat.mod_eq_of_lt (show b.toNat < 256 ^ 4 from b.toNat_lt)]
  exact UInt32.ofNat_toNat

theorem FlowModLayout.flowBufferId_eq (h : FlowModLayout mu b matchValue setValue) :
    flowBufferId mu = b := flowBufferId_of_holds h.bufferId

/-- The field of the OXM header is in the upper seven bits of its third byte. -/
theorem oxmField_eq (mu : Mem) (cls : UInt16) (off : ℕ) :
    (OfpOxmHeader.oxmField ⟨cls, htons (u16At mu off)⟩).toNat = (mu off).toNat / 2 := by
  have hread : mu.read off 2 = [mu off, mu (off + 1)] := rfl
  have h0 := (mu off).toNat_lt
  have h1 := (mu (off + 1)).toNat_lt
  have hval : (htons (u16At mu off)).toNat = (mu off).toNat * 256 + (mu (off + 1)).toNat := by
    rw [u16At, Mem.readLe, htons_ofNat_leNat (Mem.read_length mu off 2), hread]
    simp only [List.reverse_cons, List.reverse_nil, List.nil_append, List.cons_append, leNat]
    rw [UInt16.toNat_ofNat']
    omega
  have hshift : (9 : UInt16).toNat % 16 = 9 := rfl
  rw [OfpOxmHeader.oxmField, UInt16.toNat_shiftRight, hval, hshift, Nat.shiftRight_eq_div_pow]
  omega

/-- `dst_ip`, by the field of the OXM header. -/
theorem flowDstIp_eq (mu : Mem) (e : Env) :
    flowDstIp mu e = if (mu 78).toNat / 2 = 12 then u32At mu flowValueOff else e.dstIp := by
  have hfield : OfpOxmHeader.oxmField ⟨u16At mu flowOxmOff, htons (u16At mu (flowOxmOff + 2))⟩ = 12
      ↔ (mu 78).toNat / 2 = 12 := by
    rw [← UInt16.toNat_inj, oxmField_eq]
    exact Iff.rfl
  rw [flowDstIp]
  exact if_congr hfield rfl rfl

end Layout

/-! ## 2. The frame -/

/-- The strings `OFP_encode_back_to_host` puts behind each other: the datagram, and the frame. -/
def backToHostDatagram (node : HostLearn) (srcIp dstIp : UInt32) (e : Env) : List (List UInt8) :=
  let ip := Util.encodeIpPkt (ipHdrInit e.ipHdr node.srcIp node.dstIp)
  let payload := leBytes 4 srcIp.toNat ++ leBytes 4 dstIp.toNat
  let udp := Util.encodeUdpPkt ip.1 (udpHdrInit e.udpHdr) (Mem.write (fun _ => 0) 0 payload)
  [ip.2, udp.2.1, payload]

def backToHostFrame (node : HostLearn) (srcIp dstIp : UInt32) (e : Env) : List (List UInt8) :=
  node.srcMac.toList :: node.dstMac.toList :: leBytes 2 (htons 0x0800).toNat ::
    backToHostDatagram node srcIp dstIp e

theorem backToHostCopies_eq (node : HostLearn) (srcIp dstIp : UInt32) (e : Env) :
    backToHostCopies node srcIp dstIp e
      = Mem.consecutive 0 (backToHostFrame node srcIp dstIp e) := by
  simp [backToHostCopies, backToHostFrame, backToHostDatagram, Mem.consecutive]

theorem backToHostFrame_length (node : HostLearn) (srcIp dstIp : UInt32) (e : Env) :
    (backToHostFrame node srcIp dstIp e).flatten.length = 50 := by
  simp [backToHostFrame, backToHostDatagram, encodeIpPkt_init_length, Util.encodeUdpPkt_length]

theorem OfpPort.holds_reply (p : OfpPort) (node : HostLearn) (srcIp dstIp : UInt32) (e : Env) :
    (p.reply node srcIp dstIp e).block.Holds 0 (backToHostFrame node srcIp dstIp e).flatten := by
  have hholds := Mem.holds_consecutive p.block 0 (backToHostFrame node srcIp dstIp e)
  rw [← backToHostCopies_eq] at hholds
  refine hholds.congr fun k _ hk => ?_
  rw [backToHostFrame_length] at hk
  exact Mem.write_apply_of_disjoint (Or.inl (by simp only [ofpbufLenOff, ethMtu]; omega))

/-- What `drv_xmit` is given of the answer. -/
theorem OfpPort.frame_reply (p : OfpPort) (node : HostLearn) (srcIp dstIp : UInt32) (e : Env) :
    (p.reply node srcIp dstIp e).frame = (backToHostFrame node srcIp dstIp e).flatten := by
  rw [OfpPort.frame, OfpPort.reply, OfpPort.ofpbufLen_setOfpbufLen]
  exact (p.holds_reply node srcIp dstIp e).read_eq (backToHostFrame_length node srcIp dstIp e)

/-- The last four bytes are `dst_ip`. -/
theorem backToHostFrame_drop (node : HostLearn) (srcIp dstIp : UInt32) (e : Env) :
    (backToHostFrame node srcIp dstIp e).flatten.drop 46 = leBytes 4 dstIp.toNat := by
  simp only [backToHostFrame, backToHostDatagram, List.flatten_cons, List.flatten_nil,
    List.append_nil, ← List.append_assoc]
  refine List.drop_left' ?_
  simp [encodeIpPkt_init_length, Util.encodeUdpPkt_length]

section Parts

variable (p : OfpPort) (node : HostLearn) (srcIp dstIp : UInt32) (e : Env)

/-- The Ethernet header, and the datagram behind it. -/
theorem OfpPort.reply_parts :
    (p.reply node srcIp dstIp e).block.read 0 6 = node.srcMac.toList ∧
      (p.reply node srcIp dstIp e).block.read 6 6 = node.dstMac.toList ∧
      (p.reply node srcIp dstIp e).block.read 12 2 = [0x08, 0x00] ∧
      (p.reply node srcIp dstIp e).block.Holds 14 (backToHostDatagram node srcIp dstIp e).flatten := by
  have hframe := p.holds_reply node srcIp dstIp e
  simp only [backToHostFrame, List.flatten_cons, Mem.holds_append, Vector.length_toList,
    leBytes_length, Nat.zero_add, Nat.reduceAdd] at hframe
  obtain ⟨hdst, hsrc, htype, hrest⟩ := hframe
  refine ⟨hdst.read_eq Vector.length_toList, hsrc.read_eq Vector.length_toList, ?_, hrest⟩
  have hbytes : (p.reply node srcIp dstIp e).block.read 12 2 = leBytes 2 (htons 0x0800).toNat :=
    htype.read_eq rfl
  rw [hbytes]
  rfl

/-- The decoders accept the datagram. -/
theorem OfpPort.reply_accepted (ip0 : Util.IpPkt) (udp0 : Util.UdpPkt) :
    ∃ data ip udp,
      (Util.decodeIpPkt ip0 (p.reply node srcIp dstIp e).block 14 36).data = some data ∧
      Util.Accepted (Util.decodeIpPkt ip0 (p.reply node srcIp dstIp e).block 14 36)
        (Util.decodeUdpPkt udp0 (Util.decodeIpPkt ip0 (p.reply node srcIp dstIp e).block 14 36).ip
          data (p.reply node srcIp dstIp e).block
          (Util.decodeIpPkt ip0 (p.reply node srcIp dstIp e).block 14 36).len) ip udp
        (leBytes 4 srcIp.toNat ++ leBytes 4 dstIp.toNat) ∧
      ip.totalLen = 36 ∧ udp.len = 16 ∧
      ip.cSA = u32Bytes node.dstIp ∧ ip.cDA = u32Bytes node.srcIp := by
  set payload := leBytes 4 srcIp.toNat ++ leBytes 4 dstIp.toNat with hpl
  have hread : (Mem.write (fun _ => 0) 0 payload).read 0 8 = payload :=
    (Mem.holds_write _ 0 payload).read_eq (by simp [hpl])
  have hdatagram := (p.reply_parts node srcIp dstIp e).2.2.2
  simp only [backToHostDatagram, List.flatten_cons, List.flatten_nil, List.append_nil, ← hpl,
    ← List.append_assoc] at hdatagram
  have hihl : 5 ≤ (5 : BitVec 4).toNat := by decide
  have hnot : ¬ 5 < (5 : BitVec 4).toNat := by decide
  obtain ⟨data, hdata, hacc⟩ := Util.accepted_of_holds (n := 8) rfl hihl (fun h => absurd h hnot)
    rfl rfl (hread.symm ▸ hdatagram) ip0 udp0
  exact ⟨data, _, _, hdata, hread ▸ hacc, rfl, rfl, rfl, rfl⟩

end Parts

/-- **A well-formed answer** to the learned `frame`, with this payload: what a receiver that
looks at the Ethernet header and then calls the two decoders finds in `ofpbuf`. -/
structure WellFormedReply (p : OfpPort) (frame : Mem) (payload : List UInt8) : Prop where
  ofpbufLen : p.ofpbufLen = 50
  dstMac : p.block.read 0 6 = frame.read 6 6
  srcMac : p.block.read 6 6 = frame.read 0 6
  etherType : p.block.read 12 2 = [0x08, 0x00]
  datagram : ∀ ip0 udp0, ∃ data ip udp,
    (Util.decodeIpPkt ip0 p.block 14 36).data = some data ∧
      Util.Accepted (Util.decodeIpPkt ip0 p.block 14 36)
        (Util.decodeUdpPkt udp0 (Util.decodeIpPkt ip0 p.block 14 36).ip data p.block
          (Util.decodeIpPkt ip0 p.block 14 36).len) ip udp payload ∧
      ip.totalLen = 36 ∧ udp.len = 16 ∧
      ip.cSA.toList = frame.read (ipSrcOff + 4) 4 ∧ ip.cDA.toList = frame.read ipSrcOff 4

/-- **The answer is well formed**, for every record of a learned frame and every flow mod of the
layout that names it, whatever the stack and the port held before. -/
theorem reply_of_flowMod {s : Ofpd} {mu frame : Mem} {b : UInt32} {matchValue setValue : List UInt8}
    {hp : Heap} {a : Addr} {node : HostLearn} (hlayout : FlowModLayout mu b matchValue setValue)
    (hfind : findNode s.heap s.port.head b = some (hp, some a)) (hnode : hp.lookup a = some node)
    (hrec : node.record = hostOf frame b) (e : Env) :
    ∃ s', ofpEncodeBackToHost s mu e = some s' ∧
      WellFormedReply s'.port frame (matchValue ++ setValue) := by
  have hsrcMac : node.srcMac = macAt frame 6 := congrArg HostLearn.srcMac hrec
  have hdstMac : node.dstMac = macAt frame 0 := congrArg HostLearn.dstMac hrec
  have hsrcIp : node.srcIp = u32At frame ipSrcOff := congrArg HostLearn.srcIp hrec
  have hdstIp : node.dstIp = u32At frame (ipSrcOff + 4) := congrArg HostLearn.dstIp hrec
  have hmatch : leBytes 4 (u32At mu flowMatchOff).toNat = matchValue :=
    leBytes_u32At hlayout.matchLength hlayout.matchValue
  have hset : leBytes 4 (u32At mu flowValueOff).toNat = setValue :=
    leBytes_u32At hlayout.setLength hlayout.setValue
  set p := s.port.reply node (u32At mu flowMatchOff) (u32At mu flowValueOff) e
  have hrun : ofpEncodeBackToHost s mu e = some { s with port := p, heap := hp.erase a } := by
    rw [ofpEncodeBackToHost_eq hlayout.isSetField (hlayout.flowBufferId_eq.symm ▸ hfind) hnode,
      flowDstIp_eq, if_pos hlayout.oxmField]
  refine ⟨_, hrun, ?_⟩
  obtain ⟨hdst, hsrc, htype, -⟩ :=
    s.port.reply_parts node (u32At mu flowMatchOff) (u32At mu flowValueOff) e
  refine ⟨OfpPort.ofpbufLen_setOfpbufLen _ _, ?_, ?_, htype, ?_⟩
  · rw [hdst, hsrcMac]
    rfl
  · rw [hsrc, hdstMac]
    rfl
  · intro ip0 udp0
    obtain ⟨data, ip, udp, hdata, hacc, htotal, hlen, hsa, hda⟩ := s.port.reply_accepted node
      (u32At mu flowMatchOff) (u32At mu flowValueOff) e ip0 udp0
    rw [hmatch, hset] at hacc
    refine ⟨data, ip, udp, hdata, hacc, htotal, hlen, ?_, ?_⟩
    · rw [hsa, hdstIp, u32Bytes_u32At]
    · rw [hda, hsrcIp, u32Bytes_u32At]

/-- The process when the one host it has learned is that of `frame60`. -/
def learnedOne : Ofpd :=
  { started with
    port := started.port.setHead (some addr2)
    heap := AList.singleton addr2 (hostOf (dpMail frame60).mu 1) }

/-- The flow mod that consumes it: the answer goes to the Ethernet address of the frame's sender, and
from the address that the frame was sent to. -/
theorem reply_of_flowMod_first : ∃ s',
    ofpEncodeBackToHost learnedOne (Mem.write (fun _ => 0) 0 (flowModMsg 1)) (Env.plain addr1) = some s' ∧
    WellFormedReply s'.port (dpMail frame60).mu [10, 0, 0, 1, 10, 0, 0, 2] ∧
    s'.port.block.read 0 12 = [2, 0, 0, 0, 0, 1] ++ [2, 0, 0, 0, 0, 138] := by
  have hlayout : FlowModLayout (Mem.write (fun _ => 0) 0 (flowModMsg 1)) 1 [10, 0, 0, 1]
      [10, 0, 0, 2] := ⟨by decide, rfl, by decide, by decide, by decide, rfl, by decide⟩
  have hfind : findNode learnedOne.heap learnedOne.port.head 1 = some (learnedOne.heap, some addr2) := by
    rw [learnedOne, OfpPort.head_setHead]
    rfl
  obtain ⟨s', hs', hreply⟩ := reply_of_flowMod hlayout hfind rfl rfl (Env.plain addr1)
  have hto : (dpMail frame60).mu.read 6 6 = [2, 0, 0, 0, 0, 1] := by decide +kernel
  have hby : (dpMail frame60).mu.read 0 6 = [2, 0, 0, 0, 0, 138] := by decide +kernel
  refine ⟨s', hs', hreply, ?_⟩
  rw [← hto, ← hby, ← hreply.dstMac, ← hreply.srcMac]
  rfl

end Ofpagent.Agent
