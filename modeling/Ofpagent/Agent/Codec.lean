/-
# `ofp_codec.c`: decoding a mail, and the two encoders

`ofpDecodeFrame` looks at the mail that `main` took from its queue and leaves the outcome in
the port block: the event in `event`, a copy of the message or the frame to send in the other
fields.  Two of its branches encode at once: a data-plane frame becomes a PACKET_IN and a
learned host (`ofpEncodePacketIn`), a flow mod the frame that goes back to the host
(`ofpEncodeBackToHost`).

`none` stands for undefined behaviour: a pointer followed that leads to no node, or a loop
along a list that does not end.
-/
import Ofpagent.Lib.Chain
import Ofpagent.Agent.Port

namespace Ofpagent.Agent

open Ofpagent.Lib

/-! ## 1. The list of learned hosts -/

/-- `insert_node`: the list head and the nodes behind the call. -/
def insertNode (hp : Heap) (head : Ptr) (node : Addr) : Option (Heap × Ptr) :=
  match head with
  | none => some (hp, some node)
  | some _ =>
    match scan hp.link (fun cur => hp.link cur == some none) hp.fuel none head with
    | some (_, some cur) => some (hp.setNext cur (some node), head)
    | _ => none

/-- The test of `find_node`. -/
def hasBufferId (hp : Heap) (bufferId : UInt32) (cur : Addr) : Bool :=
  (hp.lookup cur).any fun n => n.bufferId == bufferId

/-- `find_node`: the nodes behind the call, and the node found.  The unlinking is for the node
before the one found only. -/
def findNode (hp : Heap) (head : Ptr) (bufferId : UInt32) : Option (Heap × Ptr) :=
  match scan hp.link (hasBufferId hp bufferId) hp.fuel none head with
  | none => none
  | some (_, none) => some (hp, none)
  | some (none, some cur) => some (hp, some cur)
  | some (some prev, some cur) =>
    (hp.link cur).map fun nxt => (hp.setNext prev nxt, some cur)

/-! ## 2. `OFP_encode_packet_in` -/

/-- `ETH_HDR_LEN + ETH_TYPE_LEN + 12`: where the source reads the addresses of a frame. -/
def ipSrcOff : ℕ := 12 + 2 + 12

/-- The bytes of a mail behind the five of the `tOFP_MSG` header. -/
def muMax : ℕ := ethMtu - 5

/-- The assignments to `port_ccb->ofp_packet_in`. -/
def fillPacketIn (p : OfpPacketIn) (bufferId : UInt32) (mulen : UInt16) : OfpPacketIn :=
  let length := mulen + 32 + 4 + 2 + 4
  let oxm := ((({ p.match.oxmHeader with oxmClass := htons 0x8000 }).setField 0).setHasmask 0).setLength 4
  let ofpMatchLength := 8 + oxm.oxmLength
  { header := ⟨ofp13Version, ofptPacketIn, htons length, 0⟩
    bufferId := htonl bufferId
    totalLen := htons mulen
    reason := 0
    tableId := 0
    cookie := 0
    «match» := ⟨htons 1, htons ofpMatchLength, { oxm with oxmValue := htons oxm.oxmValue }⟩ }

/-- The `memset` and the copies into `ofpbuf`, in order. -/
def packetInCopies (pkt : OfpPacketIn) (mu : Mem) (mulen : UInt16) : List (ℕ × List UInt8) :=
  [(0, List.replicate ethMtu 0), (0, pkt.bytes), (32, leBytes 4 (htonl 1).toNat),
    (32 + 4 + 6, mu.read 0 mulen.toNat)]

/-- The part of `OFP_encode_packet_in` ahead of `malloc`. -/
def encodePacketIn (p : OfpPort) (bufferId : UInt32) (mu : Mem) (mulen : UInt16) : OfpPort :=
  let pkt := fillPacketIn p.ofpPacketIn bufferId mulen
  { p with ofpPacketIn := pkt, block := p.block.writeAll (packetInCopies pkt mu mulen) }.setOfpbufLen
    (mulen.toNat + 32 + 2 + 4 + 4)

/-- The node that is filled from the frame. -/
def hostOf (mu : Mem) (bufferId : UInt32) : HostLearn :=
  { dstMac := macAt mu 0, srcMac := macAt mu 6, srcIp := u32At mu ipSrcOff
    dstIp := u32At mu (ipSrcOff + 4), bufferId := bufferId, next := none }

/-- `OFP_encode_packet_in`.  A length that is more than a mail can hold reads behind it. -/
def ofpEncodePacketIn (s : Ofpd) (mu : Mem) (mulen : UInt16) (e : Env) : Option Ofpd :=
  if muMax < mulen.toNat then none
  else
    let p := encodePacketIn s.port s.bufferId mu mulen
    (insertNode (s.heap.insert e.node (hostOf mu s.bufferId)) p.head e.node).map fun r =>
      { s with port := p.setHead r.2, heap := r.1, bufferId := s.bufferId + 1 }

/-! ## 3. `OFP_encode_back_to_host` -/

/-- A `U32` in memory as the four bytes `memcpy` moves. -/
def u32Bytes (x : UInt32) : Vector UInt8 4 := ⟨⟨leBytes 4 x.toNat⟩, by simp⟩

/-- `ip_hdr_init`. -/
def ipHdrInit (ipHdr : Util.IpPkt) (srcIp dstIp : UInt32) : Util.IpPkt :=
  { ipHdr with
    ver := 4, ihl := 5, tos := 0, totalLen := 36, id := 1, flag := 2, fragOff := 0, ttl := 64
    proto := Util.protoTypeUdp, cSA := u32Bytes dstIp, cDA := u32Bytes srcIp }

/-- `udp_hdr_init`; the payload is a local array. -/
def udpHdrInit (udpHdr : Util.UdpPkt) : Util.UdpPkt :=
  { udpHdr with src := 6655, dst := 8000, len := 16, data := 0 }

/-- The copies into `ofpbuf`, in order: both MAC addresses, the EtherType, the IP header, the UDP
header and the payload. -/
def backToHostCopies (node : HostLearn) (srcIp dstIp : UInt32) (e : Env) :
    List (ℕ × List UInt8) :=
  let ip := Util.encodeIpPkt (ipHdrInit e.ipHdr node.srcIp node.dstIp)
  let payload := leBytes 4 srcIp.toNat ++ leBytes 4 dstIp.toNat
  let udp := Util.encodeUdpPkt ip.1 (udpHdrInit e.udpHdr) (Mem.write (fun _ => 0) 0 payload)
  let tmp := 14 + ip.2.length
  [(0, node.srcMac.toList), (6, node.dstMac.toList), (12, leBytes 2 (htons 0x0800).toNat), (14, ip.2),
    (tmp, udp.2.1), (tmp + udp.2.1.length, payload)]

/-- Where the fields of a flow mod are that the source reads at fixed offsets: `buffer_id`, the
match value, the first action, its OXM header and its value. -/
def flowBufferIdOff : ℕ := 32
def flowMatchOff : ℕ := 56
def flowActionOff : ℕ := 56 + 4 + 4 + 8
def flowOxmOff : ℕ := flowActionOff + 4
def flowValueOff : ℕ := flowActionOff + 8

/-- `ofp_action_set_field->type == htons(OFPAT_SET_FIELD)`. -/
def isSetField (mu : Mem) : Bool := u16At mu flowActionOff == htons 25

/-- The `buffer_id` of a flow mod. -/
def flowBufferId (mu : Mem) : UInt32 := htonl (u32At mu flowBufferIdOff)

/-- `dst_ip`: the value of the action when its field is `OFPXMT_OFB_IPV4_DST`, else what the
local variable held. -/
def flowDstIp (mu : Mem) (e : Env) : UInt32 :=
  let oxm : OfpOxmHeader := ⟨u16At mu flowOxmOff, htons (u16At mu (flowOxmOff + 2))⟩
  if oxm.oxmField = 12 then u32At mu flowValueOff else e.dstIp

/-- `OFP_encode_back_to_host`. -/
def ofpEncodeBackToHost (s : Ofpd) (mu : Mem) (e : Env) : Option Ofpd :=
  if isSetField mu then
    match findNode s.heap s.port.head (flowBufferId mu) with
    | some (hp, some a) =>
      (hp.lookup a).map fun node =>
        let block := s.port.block.writeAll
          (backToHostCopies node (u32At mu flowMatchOff) (flowDstIp mu e) e)
        { s with
          port := { s.port with block := block }.setOfpbufLen (14 + 20 + 8 + 8)
          heap := hp.erase a }
    | _ => none
  else some (s.setEvent eOthers)

/-! ## 4. `OFP_decode_frame` -/

/-- `tOFP_MBX`, less its `type`; the array `refp` has `ETH_MTU` bytes. -/
structure OfpMbx where
  refp : Mem
  len : ℤ

/-- `DRIV_CP`, `DRIV_DP` and `DRIV_CP_FAIL` of `ofp_sock.h`, and `CP_RESTART` and `DP_RESTART`. -/
def drivCp : UInt8 := 0
def drivDp : UInt8 := 1
def drivCpFail : UInt8 := 2
def cpRestart : UInt8 := 1
def dpRestart : UInt8 := 2

/-- `((tOFP_MSG *)mail->refp)->type`, `->sockfd` and `->buffer`. -/
def OfpMbx.type (mail : OfpMbx) : UInt8 := mail.refp 0
def OfpMbx.sockfd (mail : OfpMbx) : ℤ := intAt mail.refp 1
def OfpMbx.mu (mail : OfpMbx) : Mem := fun i => mail.refp (5 + i)

/-- `mail->len - (sizeof(int) + 1)` as a `U16`. -/
def OfpMbx.mulen (mail : OfpMbx) : UInt16 := UInt16.ofNat ((mail.len - 5) % 2 ^ 16).toNat

/-- `STATUS`, as far as `OFP_decode_frame` returns it. -/
inductive Status
  | ok
  | error
  | restart
  deriving DecidableEq

/-- The `switch` of `OFP_decode_frame` over the type of a control message. -/
def decodeControl (s : Ofpd) (mu : Mem) (e : Env) : Option Ofpd :=
  if mu 1 = ofptHello then
    some { s.setEvent eRecvHello with port.ofpHeader := .ofMem mu 0 }
  else if mu 1 = ofptFeaturesRequest then
    some { s.setEvent eFeatureRequest with port.ofpHeader := .ofMem mu 0 }
  else if mu 1 = ofptMultipartRequest then
    some { s.setEvent eMultipartRequest with port.ofpMultipart := .ofMem mu 0 }
  else if mu 1 = ofptEchoReply then
    some (s.setEvent eEchoReply)
  else if mu 1 = ofptFlowMod then
    ofpEncodeBackToHost (s.setEvent eFlowMod) mu e
  else if mu 1 = ofptPacketOut then
    some (s.setEvent ePacketOut)
  else some s

/-- `OFP_decode_frame`. -/
def ofpDecodeFrame (s : Ofpd) (mail : OfpMbx) (e : Env) : Option (Status × Ofpd) :=
  if (ethMtu : ℤ) < mail.len then some (.error, s)
  else
    let s1 := s.setSockfd mail.sockfd
    if mail.type = drivDp then
      (ofpEncodePacketIn s1 mail.mu mail.mulen e).map fun s2 =>
        (.ok, s2.setEvent ePacketIn)
    else if mail.type = drivCpFail then
      some (.restart, { s1 with restart := s1.restart ||| cpRestart })
    else (decodeControl s1 mail.mu e).map fun s2 => (.ok, s2)

/-- The decoder on a control message. -/
theorem ofpDecodeFrame_control {s : Ofpd} {mail : OfpMbx} {e : Env} (hlen : mail.len ≤ ethMtu)
    (hdp : mail.type ≠ drivDp) (hfail : mail.type ≠ drivCpFail) :
    ofpDecodeFrame s mail e
      = (decodeControl (s.setSockfd mail.sockfd) mail.mu e).map fun s2 => (.ok, s2) := by
  rw [ofpDecodeFrame, if_neg (not_lt.mpr hlen), if_neg hdp, if_neg hfail]

/-- The decoder on a data-plane frame. -/
theorem ofpDecodeFrame_dp {s : Ofpd} {mail : OfpMbx} {e : Env} (hlen : mail.len ≤ ethMtu)
    (hdp : mail.type = drivDp) :
    ofpDecodeFrame s mail e
      = (ofpEncodePacketIn (s.setSockfd mail.sockfd) mail.mu mail.mulen e).map fun s2 =>
          (.ok, s2.setEvent ePacketIn) := by
  rw [ofpDecodeFrame, if_neg (not_lt.mpr hlen), if_pos hdp]

/-- A flow mod goes to the second encoder. -/
theorem decodeControl_flowMod {s : Ofpd} {mu : Mem} {e : Env} (h : mu 1 = ofptFlowMod) :
    decodeControl s mu e = ofpEncodeBackToHost (s.setEvent eFlowMod) mu e := by
  simp [decodeControl, h, ofptFlowMod, ofptHello, ofptFeaturesRequest, ofptMultipartRequest,
    ofptEchoReply]

/-! ## 5. What the encoders write -/

/-- The last copy of a PACKET_IN is the one that depends on the frame. -/
theorem packetInCopies_within (pkt : OfpPacketIn) (mu : Mem) {mulen : UInt16} {n : ℕ}
    (hn : ethMtu ≤ n) (h : mulen.toNat + 42 ≤ n) :
    ∀ c ∈ packetInCopies pkt mu mulen, c.1 + c.2.length ≤ n := by
  simp only [packetInCopies, List.forall_mem_cons, List.length_replicate, OfpPacketIn.bytes_length,
    leBytes_length, Mem.read_length]
  simp only [ethMtu] at hn ⊢
  refine ⟨by omega, by omega, by omega, by omega, by simp⟩

theorem encodeIpPkt_init_length (ipHdr : Util.IpPkt) (srcIp dstIp : UInt32) :
    (Util.encodeIpPkt (ipHdrInit ipHdr srcIp dstIp)).2.length = 20 := Util.encodeIpPkt_length rfl

/-- The frame for the host has 50 bytes. -/
theorem backToHostCopies_within (node : HostLearn) (srcIp dstIp : UInt32) (e : Env) :
    ∀ c ∈ backToHostCopies node srcIp dstIp e, c.1 + c.2.length ≤ 50 := by
  simp only [backToHostCopies, List.forall_mem_cons, encodeIpPkt_init_length,
    Util.encodeUdpPkt_length, leBytes_length, Vector.length_toList, List.length_append]
  simp

/-- `head` is what it was when the copies stop ahead of it. -/
theorem OfpPort.head_writeAll (p : OfpPort) {cs : List (ℕ × List UInt8)} (n : ℕ)
    (h : ∀ c ∈ cs, c.1 + c.2.length ≤ headOff) :
    ({ p with block := p.block.writeAll cs }.setOfpbufLen n).head = p.head := by
  rw [OfpPort.head_setOfpbufLen]
  exact OfpPort.head_congr (Mem.read_writeAll_of_disjoint fun c hc => Or.inr (h c hc))

theorem head_encodePacketIn (p : OfpPort) (bufferId : UInt32) (mu : Mem) {mulen : UInt16}
    (h : mulen.toNat + 42 ≤ headOff) : (encodePacketIn p bufferId mu mulen).head = p.head :=
  OfpPort.head_writeAll { p with ofpPacketIn := fillPacketIn p.ofpPacketIn bufferId mulen } _
    (packetInCopies_within _ mu (by decide) h)

/-- The port block behind the copies for the host and the assignment of `ofpbuf_len`. -/
def OfpPort.reply (p : OfpPort) (node : HostLearn) (srcIp dstIp : UInt32) (e : Env) : OfpPort :=
  { p with block := p.block.writeAll (backToHostCopies node srcIp dstIp e) }.setOfpbufLen
    (14 + 20 + 8 + 8)

theorem OfpPort.head_reply (p : OfpPort) (node : HostLearn) (srcIp dstIp : UInt32) (e : Env) :
    (p.reply node srcIp dstIp e).head = p.head :=
  OfpPort.head_writeAll p (14 + 20 + 8 + 8) fun c hc =>
    (backToHostCopies_within node srcIp dstIp e c hc).trans (show 50 ≤ headOff by decide)

/-- `OFP_encode_back_to_host` for a host that is found. -/
theorem ofpEncodeBackToHost_eq {s : Ofpd} {mu : Mem} {e : Env} {hp : Heap} {a : Addr}
    {node : HostLearn} (hset : isSetField mu = true)
    (hfind : findNode s.heap s.port.head (flowBufferId mu) = some (hp, some a))
    (hnode : hp.lookup a = some node) :
    ofpEncodeBackToHost s mu e = some
      { s with port := s.port.reply node (u32At mu flowMatchOff) (flowDstIp mu e) e,
               heap := hp.erase a } := by
  simp only [ofpEncodeBackToHost, if_pos hset, hfind, hnode, Option.map_some]
  rfl

/-! ## 6. What a decoded mail leaves -/

/-- The types `OFP_decode_frame` has a case for. -/
def handledTypes : List UInt8 :=
  [ofptHello, ofptFeaturesRequest, ofptMultipartRequest, ofptEchoReply, ofptFlowMod, ofptPacketOut]

/-- The event a control message is decoded to, if its type has a case. -/
def controlEvent (mu : Mem) : Option UInt16 :=
  if mu 1 = ofptHello then some eRecvHello
  else if mu 1 = ofptFeaturesRequest then some eFeatureRequest
  else if mu 1 = ofptMultipartRequest then some eMultipartRequest
  else if mu 1 = ofptEchoReply then some eEchoReply
  else if mu 1 = ofptFlowMod then some (if isSetField mu then eFlowMod else eOthers)
  else if mu 1 = ofptPacketOut then some ePacketOut
  else none

theorem controlEvent_eq_none {mu : Mem} : controlEvent mu = none ↔ mu 1 ∉ handledTypes := by
  unfold controlEvent handledTypes
  split_ifs <;> simp_all

/-- What decoding does not change. -/
structure SameCtl (s s' : Ofpd) : Prop where
  state : s'.port.state = s.port.state
  queryCnt : s'.port.queryCnt = s.port.queryCnt
  ccb : s'.ccb = s.ccb
  ofpIoFds : s'.ofpIoFds = s.ofpIoFds
  ofpQid : s'.ofpQid = s.ofpQid

theorem SameCtl.trans {s s1 s' : Ofpd} (h : SameCtl s s1) (h' : SameCtl s1 s') : SameCtl s s' :=
  ⟨h'.state.trans h.state, h'.queryCnt.trans h.queryCnt, h'.ccb.trans h.ccb,
    h'.ofpIoFds.trans h.ofpIoFds, h'.ofpQid.trans h.ofpQid⟩

theorem SameCtl.setEvent (s : Ofpd) (event : UInt16) : SameCtl s (s.setEvent event) :=
  ⟨rfl, rfl, rfl, rfl, rfl⟩

theorem SameCtl.setSockfd (s : Ofpd) (sockfd : ℤ) : SameCtl s (s.setSockfd sockfd) :=
  ⟨rfl, rfl, rfl, rfl, rfl⟩

/-- What the two encoders do where they return, -/
theorem ofpEncodePacketIn_cases {s s' : Ofpd} {mu : Mem} {mulen : UInt16} {e : Env}
    (h : ofpEncodePacketIn s mu mulen e = some s') :
    mulen.toNat ≤ muMax ∧
      ∃ r, insertNode (s.heap.insert e.node (hostOf mu s.bufferId))
          (encodePacketIn s.port s.bufferId mu mulen).head e.node = some r ∧
        s' = { s with
          port := (encodePacketIn s.port s.bufferId mu mulen).setHead r.2
          heap := r.1
          bufferId := s.bufferId + 1 } := by
  unfold ofpEncodePacketIn at h
  split_ifs at h with hmax
  obtain ⟨r, hr, heq⟩ := Option.map_eq_some_iff.mp h
  exact ⟨not_lt.mp hmax, r, hr, heq.symm⟩

theorem ofpEncodeBackToHost_cases {s s' : Ofpd} {mu : Mem} {e : Env}
    (h : ofpEncodeBackToHost s mu e = some s') :
    ¬ isSetField mu = true ∧ s' = s.setEvent eOthers ∨
      isSetField mu = true ∧ ∃ hp a node,
        findNode s.heap s.port.head (flowBufferId mu) = some (hp, some a) ∧
        hp.lookup a = some node ∧
        s' = { s with
          port := s.port.reply node (u32At mu flowMatchOff) (flowDstIp mu e) e
          heap := hp.erase a } := by
  unfold ofpEncodeBackToHost at h
  split at h
  · next hset =>
    split at h
    · next hp a hfind =>
      obtain ⟨node, hnode, heq⟩ := Option.map_eq_some_iff.mp h
      exact .inr ⟨hset, hp, a, node, hfind, hnode, heq.symm⟩
    · cases h
  · next hset => exact .inl ⟨hset, (Option.some.inj h).symm⟩

/-- and what a control message other than a flow mod does. -/
theorem decodeControl_cases {s s' : Ofpd} {mu : Mem} {e : Env} (hflow : mu 1 ≠ ofptFlowMod)
    (h : decodeControl s mu e = some s') :
    ∃ hdr mp, s' = { s with
      port := { s.port with
        event := (controlEvent mu).getD s.port.event
        ofpHeader := hdr
        ofpMultipart := mp } } := by
  unfold decodeControl at h
  unfold controlEvent
  simp only [hflow, if_false] at h ⊢
  split_ifs at h ⊢
  all_goals exact ⟨_, _, (Option.some.inj h).symm⟩

theorem ofpEncodeBackToHost_spec {s s' : Ofpd} {mu : Mem} {e : Env}
    (h : ofpEncodeBackToHost s mu e = some s') :
    SameCtl s s' ∧ s'.port.event = if isSetField mu then s.port.event else eOthers := by
  rcases ofpEncodeBackToHost_cases h with ⟨hset, rfl⟩ | ⟨hset, hp, a, node, -, -, rfl⟩
  · rw [if_neg hset]
    exact ⟨.setEvent s eOthers, rfl⟩
  · rw [if_pos hset]
    exact ⟨⟨rfl, rfl, rfl, rfl, rfl⟩, rfl⟩

theorem ofpEncodePacketIn_spec {s s' : Ofpd} {mu : Mem} {mulen : UInt16} {e : Env}
    (h : ofpEncodePacketIn s mu mulen e = some s') : SameCtl s s' := by
  obtain ⟨-, r, -, rfl⟩ := ofpEncodePacketIn_cases h
  exact ⟨rfl, rfl, rfl, rfl, rfl⟩

/-- **A control message sets the event of its type, and one without a case leaves the event that
is there.** -/
theorem decodeControl_spec {s s' : Ofpd} {mu : Mem} {e : Env}
    (h : decodeControl s mu e = some s') :
    SameCtl s s' ∧ s'.port.event = (controlEvent mu).getD s.port.event := by
  by_cases hflow : mu 1 = ofptFlowMod
  · rw [decodeControl_flowMod hflow] at h
    obtain ⟨hsame, hev⟩ := ofpEncodeBackToHost_spec h
    refine ⟨(SameCtl.setEvent s eFlowMod).trans hsame, hev.trans ?_⟩
    simp [controlEvent, hflow, ofptFlowMod, ofptHello, ofptFeaturesRequest, ofptMultipartRequest,
      ofptEchoReply]
  · obtain ⟨hdr, mp, rfl⟩ := decodeControl_cases hflow h
    exact ⟨⟨rfl, rfl, rfl, rfl, rfl⟩, rfl⟩

/-- The event a mail is decoded to. -/
def OfpMbx.event (mail : OfpMbx) : Option UInt16 :=
  if mail.type = drivDp then some ePacketIn else controlEvent mail.mu

/-- What `OFP_decode_frame` does, by what it returns. -/
inductive Decoded (s : Ofpd) (mail : OfpMbx) : Status → Ofpd → Prop
  | error : (ethMtu : ℤ) < mail.len → Decoded s mail .error s
  | restart : mail.len ≤ ethMtu → mail.type = drivCpFail →
      Decoded s mail .restart { s.setSockfd mail.sockfd with restart := s.restart ||| cpRestart }
  | ok {s' : Ofpd} : mail.len ≤ ethMtu → mail.type ≠ drivCpFail → SameCtl s s' →
      s'.port.event = mail.event.getD s.port.event → Decoded s mail .ok s'

theorem ofpDecodeFrame_decoded {s s' : Ofpd} {mail : OfpMbx} {e : Env} {st : Status}
    (h : ofpDecodeFrame s mail e = some (st, s')) : Decoded s mail st s' := by
  unfold ofpDecodeFrame at h
  split at h
  · next hlen => cases h; exact .error hlen
  · next hlen =>
    have hlen : mail.len ≤ ethMtu := not_lt.mp hlen
    simp only at h
    split at h
    · next hdp =>
      obtain ⟨s2, hs2, h⟩ := Option.map_eq_some_iff.mp h
      have hsame := (SameCtl.setSockfd s mail.sockfd).trans (ofpEncodePacketIn_spec hs2)
      cases h
      refine .ok hlen (by rw [hdp]; decide) (hsame.trans (.setEvent s2 ePacketIn)) ?_
      simp [OfpMbx.event, hdp]
    · next hdp =>
      split at h
      · next hfail => cases h; exact .restart hlen hfail
      · next hfail =>
        obtain ⟨s2, hs2, h⟩ := Option.map_eq_some_iff.mp h
        obtain ⟨hsame, hev⟩ := decodeControl_spec hs2
        cases h
        refine .ok hlen hfail ((SameCtl.setSockfd s mail.sockfd).trans hsame) ?_
        simpa [OfpMbx.event, hdp] using hev

end Ofpagent.Agent
