/-
# The PACKET_IN as a controller reads it

`OFP_encode_packet_in` fills a structure that it has filled before, swaps the bytes of the OXM
word where it stands, and writes down three lengths, each with its own sum.  What comes out is
the same from every state: the parser of the OpenFlow library reads back the frame, its length
and the id, and a match of the one TLV that the port is 1 (`packetIn_parses`).
-/
import Ofpagent.Lib.OpenFlow
import Ofpagent.Agent.Buffers

namespace Ofpagent.Agent

open Ofpagent.Lib
open Ofpagent.Lib.OpenFlow (Match PacketIn parsePacketIn)

/-! ## 1. The structure -/

/-- The assignments to the bit-fields leave nothing of the word. -/
theorem OfpOxmHeader.assigned (o : OfpOxmHeader) :
    ((o.setField 0).setHasmask 0).setLength 4 = ⟨o.oxmClass, 4⟩ := by
  have hfield : (0 : UInt16) <<< 9 = 0 := by decide
  have hmask : ((0 : UInt16) &&& 1) <<< 8 = 0 := by decide
  have hbits : (0x1ff : UInt16) &&& ((0xfeff : UInt16) &&& (0xff00 : UInt16)) = 0 := by decide
  simp only [setLength, setHasmask, setField]
  rw [hfield, hmask, UInt16.or_zero, UInt16.or_zero, UInt16.and_assoc, UInt16.and_assoc, hbits,
    UInt16.and_zero, UInt16.zero_or]
  rfl

/-- The match of the TLV OFPXMT_OFB_IN_PORT with the port 1. -/
def inPortMatch : Match := .single (.inPort 1)

/-- What is to be read of the frame. -/
def packetInOf (b : UInt32) (length mulen : UInt16) (frame : List UInt8) : PacketIn where
  version := 4
  type := 10
  length := length
  xid := 0
  bufferId := b
  totalLen := mulen
  reason := 0
  tableId := 0
  cookie := 0
  «match» := inPortMatch
  data := frame

/-- The structure, the port, the padding and the frame are the message. -/
theorem fillPacketIn_bytes (p : OfpPacketIn) (b : UInt32) (mulen : UInt16) (frame : List UInt8) :
    (fillPacketIn p b mulen).bytes ++ (leBytes 4 (htonl 1).toNat ++
        (List.replicate 6 0 ++ frame)) =
      (packetInOf b (mulen + 32 + 4 + 2 + 4) mulen frame).bytes := by
  have hmatch : (fillPacketIn p b mulen).match.bytes = [0, 1, 0, 12, 0x80, 0, 0, 4] := by
    simp only [fillPacketIn, OfpMatch.bytes, OfpOxmHeader.oxmLength, OfpOxmHeader.assigned,
      leBytes_htons]
    rfl
  have hport : inPortMatch.bytes =
      [0, 1, 0, 12, 0x80, 0, 0, 4] ++ (leBytes 4 (htonl 1).toNat ++ List.replicate 4 0) := by decide
  rw [OfpPacketIn.bytes, hmatch, PacketIn.bytes, packetInOf, hport]
  simp only [fillPacketIn, OfpHeader.bytes, PacketIn.front, leBytes_htons, leBytes_htonl]
  rfl

/-! ## 2. The frame -/

/-- What the copies leave in `ofpbuf`. -/
theorem holds_packetIn (p : OfpPort) (b : UInt32) (mu : Mem) {mulen : UInt16}
    (hfit : mulen.toNat + 42 ≤ ethMtu) :
    (encodePacketIn p b mu mulen).block.Holds 0
      (packetInOf b (mulen + 32 + 4 + 2 + 4) mulen (mu.read 0 mulen.toNat)).bytes := by
  set n := mulen.toNat with hn
  set front := (p.block.write 0 (List.replicate ethMtu 0)).write 0
    (fillPacketIn p.ofpPacketIn b mulen).bytes with hfront
  have hblock : (encodePacketIn p b mu mulen).block =
      ((front.write 32 (leBytes 4 (htonl 1).toNat)).write 42 (mu.read 0 n)).writeLe ofpbufLenOff 2
        (n + 32 + 2 + 4 + 4) := rfl
  simp only [ethMtu] at hfit
  rw [← fillPacketIn_bytes p.ofpPacketIn, Mem.holds_append, Mem.holds_append, Mem.holds_append]
  simp only [OfpPacketIn.bytes_length, leBytes_length, List.length_replicate, Nat.zero_add,
    Nat.reduceAdd]
  have hbehind : 42 + (mu.read 0 n).length ≤ ofpbufLenOff := by
    rw [Mem.read_length]
    simp only [ofpbufLenOff, ethMtu]
    omega
  refine ⟨holds_encodePacketIn p b mu mulen, ?_, ?_, ?_⟩
  · rw [hblock]
    exact ((Mem.holds_write front 32 _).write (.inl (by simp))).write (.inl (by simp; decide))
  · -- nothing is copied over the zeros of the `memset` here
    have hzeros := Mem.holds_write p.block 0 (List.replicate ethMtu 0)
    have hsplit : List.replicate ethMtu (0 : UInt8) =
        List.replicate 36 0 ++ (List.replicate 6 0 ++ List.replicate 1458 0) := by
      rw [List.replicate_append_replicate, List.replicate_append_replicate]
      rfl
    rw [hsplit, Mem.holds_append, Mem.holds_append] at hzeros
    have hpad := hzeros.2.1
    simp only [List.length_replicate, Nat.zero_add] at hpad
    rw [hblock, hfront, hsplit]
    refine (((hpad.write ?_).write ?_).write ?_).write ?_
    · right
      simp
    · right
      simp
    · left
      simp
    · left
      simp [ofpbufLenOff, ethMtu]
  · rw [hblock]
    exact (Mem.holds_write _ 42 _).write (.inl hbehind)

theorem packetInOf_length (b : UInt32) (length mulen : UInt16) (frame : List UInt8) :
    (packetInOf b length mulen frame).bytes.length = frame.length + 42 := by
  have hmatch : (packetInOf b length mulen frame).match.bytes.length = 16 := by
    change inPortMatch.bytes.length = 16
    rfl
  rw [PacketIn.bytes, List.length_append, List.length_append, List.length_append, hmatch,
    PacketIn.front_length]
  change 24 + (16 + (2 + frame.length)) = frame.length + 42
  omega

/-- The three sums are one. -/
theorem frame_of_packetIn {s s' : Ofpd} {mu : Mem} {mulen : UInt16} {e : Env}
    (hfit : mulen.toNat + 42 ≤ ethMtu) (h : ofpEncodePacketIn s mu mulen e = some s') :
    s'.port.ofpbufLen = mulen + 32 + 4 + 2 + 4 ∧ s'.port.ofpbufLen.toNat = mulen.toNat + 42 ∧
      s'.port.frame =
        (packetInOf s.bufferId (mulen + 32 + 4 + 2 + 4) mulen (mu.read 0 mulen.toNat)).bytes := by
  have hlen := ofpEncodePacketIn_ofpbufLen h
  obtain ⟨-, r, -, rfl⟩ := ofpEncodePacketIn_cases h
  set p := (encodePacketIn s.port s.bufferId mu mulen).setHead r.2 with hp
  have hsmall : mulen.toNat + 42 < 2 ^ 16 := by
    simp only [ethMtu] at hfit
    omega
  have hnat : p.ofpbufLen.toNat = mulen.toNat + 42 := by
    rw [hlen, UInt16.toNat_ofNat']
    omega
  have hsum : p.ofpbufLen = mulen + 32 + 4 + 2 + 4 := by
    refine UInt16.toNat_inj.mp ?_
    have hadd : (mulen + 32 + 4 + 2 + 4).toNat = mulen.toNat + 42 := by
      simp only [UInt16.toNat_add, UInt16.reduceToNat]
      omega
    rw [hnat, hadd]
  have hbytes := packetInOf_length s.bufferId (mulen + 32 + 4 + 2 + 4) mulen
    (mu.read 0 mulen.toNat)
  rw [Mem.read_length] at hbytes
  have hholds : p.block.Holds 0 (packetInOf s.bufferId (mulen + 32 + 4 + 2 + 4) mulen
      (mu.read 0 mulen.toNat)).bytes := by
    refine (holds_packetIn s.port s.bufferId mu hfit).write (.inl ?_)
    rw [hbytes, headOff]
    omega
  refine ⟨hsum, hnat, ?_⟩
  rw [OfpPort.frame, hnat]
  exact hholds.read_eq hbytes

/-- What a controller reads. -/
theorem parse_of_packetIn {s s' : Ofpd} {mu : Mem} {mulen : UInt16} {e : Env}
    (hfit : mulen.toNat + 42 ≤ ethMtu) (h : ofpEncodePacketIn s mu mulen e = some s') :
    parsePacketIn s'.port.frame
      = some (packetInOf s.bufferId s'.port.ofpbufLen mulen (mu.read 0 mulen.toNat)) := by
  obtain ⟨hsum, -, hframe⟩ := frame_of_packetIn hfit h
  rw [hframe, hsum, Lib.OpenFlow.parsePacketIn_bytes]

/-- **What is sent parses**, from every state of the port: back to the current id, the length of
what is sent, the one TLV, which takes 12 bytes and is padded to 16, and the frame.  And where
there is a list, something is sent. -/
theorem packetIn_parses (s : Ofpd) (mu : Mem) (mulen : UInt16) (e : Env)
    (hfit : mulen.toNat + 42 ≤ ethMtu) :
    (∀ s', ofpEncodePacketIn s mu mulen e = some s' →
      s'.port.frame.length = s'.port.ofpbufLen.toNat ∧
        parsePacketIn s'.port.frame = some
          (packetInOf s.bufferId s'.port.ofpbufLen mulen (mu.read 0 mulen.toNat))) ∧
      (inPortMatch.length = 12 ∧ inPortMatch.bytes.length = 16) ∧
      ∀ l, Hosts s.heap s.port.head l → e.node ∉ s.heap →
        ∃ s', ofpEncodePacketIn s mu mulen e = some s' := by
  refine ⟨?_, ⟨rfl, rfl⟩, ?_⟩
  · intro s' h
    obtain ⟨hsum, -, hframe⟩ := frame_of_packetIn hfit h
    refine ⟨Mem.read_length _ _ _, ?_⟩
    rw [hframe, hsum, Lib.OpenFlow.parsePacketIn_bytes]
  · intro l hl hnode
    have hkeep : mulen.toNat + 42 ≤ headOff := hfit.trans (by decide)
    obtain ⟨s', hs', -⟩ : ∃ s', ofpEncodePacketIn s mu mulen e = some s' ∧ _ :=
      ofpEncodePacketIn_hosts hl hnode hkeep
    exact ⟨s', hs'⟩

/-- A frame of 60 bytes. -/
theorem packetIn_parses_60 : ∃ s',
    ofpEncodePacketIn started (dpMail frame60).mu 60 (Env.plain addr2) = some s' ∧
      parsePacketIn s'.port.frame = some
        (packetInOf started.bufferId s'.port.ofpbufLen 60 frame60) := by
  have h := packetIn_parses started (dpMail frame60).mu 60 (Env.plain addr2) (by decide)
  have hread : (dpMail frame60).mu.read 0 60 = frame60 := by decide +kernel
  have hhead : started.port.head = none := (ofpdReady_restarted _ _).head
  obtain ⟨s', hs'⟩ := h.2.2 [] (hhead ▸ Hosts.empty _) (by decide)
  refine ⟨s', hs', ?_⟩
  rw [(h.1 s' hs').2]
  exact congrArg (fun frame => some (packetInOf started.bufferId s'.port.ofpbufLen 60 frame)) hread

end Ofpagent.Agent
