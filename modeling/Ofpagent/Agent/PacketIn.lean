/-
# The size of a PACKET_IN

A data-plane frame is counted four times: `recvfrom` takes up to `ETH_MTU` bytes,
`ofp_send2mailbox` and `OFP_decode_frame` compare the length with five bytes added with
`ETH_MTU`, and `OFP_encode_packet_in` puts 42 bytes ahead of the frame.  Nothing compares the
last sum with the size of `ofpbuf`.  So the PACKET_IN is inside `ofpbuf` exactly for the frames of
at most `ETH_MTU - 42` bytes (`packetIn_of_frame`); a longer one writes `ofpbuf_len`, which is
assigned behind the copy, and from two bytes more on `head`, which the next line follows.
-/
import Ofpagent.Agent.Main

namespace Ofpagent.Agent

open Ofpagent.Lib

/-! ## 1. The length of a frame on its way -/

/-- The bytes a call of `drv_xmit` is given. -/
def Xmit.mu : Xmit → List UInt8
  | send _ mu | sendto _ mu => mu

/-- What the reader does with `rxlen` bytes that the two length checks let through. -/
theorem ofpSockdDp_spec {fd rxlen : ℤ} {buffer stack : Mem} {mail : OfpMbx}
    (h : ofpSockdDp fd rxlen buffer stack = some mail) :
    0 < rxlen ∧ rxlen ≤ muMax ∧ mail.type = drivDp ∧ mail.len = rxlen + 5 := by
  unfold ofpSockdDp ofpSend2mailbox at h
  split_ifs at h with hpos hlen
  obtain ⟨n, rfl⟩ : ∃ n : ℕ, rxlen = n + 1 := ⟨(rxlen - 1).toNat, by omega⟩
  have htoNat : ((n : ℤ) + 1 + 4 + 1).toNat = n + 6 := by omega
  rw [htoNat] at h
  cases h
  refine ⟨by omega, ?_, ?_, rfl⟩
  · simp only [muMax, ethMtu] at hlen ⊢
    omega
  · -- the first byte of the copy into `refp` is `type`
    simp [OfpMbx.type, Mem.write, Mem.read, ofpMsg]

/-- The `U16` of the decoder is the number of bytes received. -/
theorem mulen_of_ofpSockdDp {fd rxlen : ℤ} {buffer stack : Mem} {mail : OfpMbx}
    (h : ofpSockdDp fd rxlen buffer stack = some mail) : (mail.mulen.toNat : ℤ) = rxlen := by
  obtain ⟨hpos, hmax, -, hlen⟩ := ofpSockdDp_spec h
  simp only [muMax, ethMtu] at hmax
  rw [OfpMbx.mulen, hlen, UInt16.toNat_ofNat']
  omega

/-! ## 2. The PACKET_IN in `ofpbuf` -/

/-- The copies of `OFP_encode_packet_in` for a mail. -/
def OfpMbx.copies (mail : OfpMbx) (s : Ofpd) : List (ℕ × List UInt8) :=
  packetInCopies (fillPacketIn s.port.ofpPacketIn s.bufferId mail.mulen) mail.mu mail.mulen

/-- What the encoding of a frame should do: it writes inside `ofpbuf`, and what is sent is not
more than that. -/
structure PacketInFits (s : Ofpd) (mail : OfpMbx) : Prop where
  copies : ∀ c ∈ mail.copies s, c.1 + c.2.length ≤ ethMtu
  behind : ∀ i, ethMtu ≤ i → s.port.block.writeAll (mail.copies s) i = s.port.block i
  xmit : ∀ e s', ofpDecodeFrame s mail e = some (.ok, s') →
    ∀ x, .xmit .aSendPacketIn x ∈ (aSendPacketIn s').acts →
      x.mu.length = s'.port.ofpbufLen.toNat ∧ s'.port.ofpbufLen.toNat ≤ ethMtu

/-- `ofpbuf_len` behind the encoding of a frame, wherever the copies went. -/
theorem ofpEncodePacketIn_ofpbufLen {s s' : Ofpd} {mu : Mem} {mulen : UInt16} {e : Env}
    (h : ofpEncodePacketIn s mu mulen e = some s') :
    s'.port.ofpbufLen = UInt16.ofNat (mulen.toNat + 32 + 2 + 4 + 4) := by
  obtain ⟨-, r, -, rfl⟩ := ofpEncodePacketIn_cases h
  exact (OfpPort.ofpbufLen_setHead _ r.2).trans (OfpPort.ofpbufLen_setOfpbufLen _ _)

theorem ofpbufLen_of_packetIn {s s' : Ofpd} {mail : OfpMbx} {e : Env} (hdp : mail.type = drivDp)
    (h : ofpDecodeFrame s mail e = some (.ok, s')) :
    s'.port.ofpbufLen = UInt16.ofNat (mail.mulen.toNat + 32 + 2 + 4 + 4) := by
  simp only [ofpDecodeFrame, hdp, if_true] at h
  split_ifs at h with hlen
  · cases h
  · obtain ⟨s2, hs2, h⟩ := Option.map_eq_some_iff.mp h
    cases h
    have hbuf : s2.port.ofpbufLen = _ := ofpEncodePacketIn_ofpbufLen hs2
    exact hbuf

/-- The copy of the frame is the one that decides. -/
theorem copies_within_iff (s : Ofpd) (mail : OfpMbx) :
    (∀ c ∈ mail.copies s, c.1 + c.2.length ≤ ethMtu) ↔ mail.mulen.toNat + 42 ≤ ethMtu := by
  constructor
  · intro h
    have hmem : (42, mail.mu.read 0 mail.mulen.toNat) ∈ mail.copies s := by
      simp only [OfpMbx.copies, packetInCopies, List.mem_cons, true_or, or_true]
    have hlast := h _ hmem
    rw [Mem.read_length] at hlast
    omega
  · intro h
    exact packetInCopies_within _ _ le_rfl h

/-- **A PACKET_IN fits exactly when the frame leaves 42 bytes of `ETH_MTU`.** -/
theorem packetIn_of_frame (s : Ofpd) {fd rxlen : ℤ} {buffer stack : Mem} {mail : OfpMbx}
    (h : ofpSockdDp fd rxlen buffer stack = some mail) :
    PacketInFits s mail ↔ rxlen + 42 ≤ ethMtu := by
  have hmulen := mulen_of_ofpSockdDp h
  have hcopies := copies_within_iff s mail
  constructor
  · intro hfits
    have hle := hcopies.mp hfits.copies
    omega
  · intro hle
    have hin := hcopies.mpr (by omega)
    refine ⟨hin, ?_, ?_⟩
    · intro i hi
      exact Mem.writeAll_apply_of_disjoint fun c hc => Or.inr ((hin c hc).trans hi)
    · intro e s' hs' x hx
      have hbuf := ofpbufLen_of_packetIn (ofpSockdDp_spec h).2.2.1 hs'
      obtain rfl : x = drvXmit s' s'.port.frame (s'.ofpIoFds .cp) := by simpa [aSendPacketIn] using hx
      refine ⟨?_, ?_⟩
      · unfold drvXmit
        split <;> exact Mem.read_length _ _ _
      · rw [hbuf, UInt16.toNat_ofNat']
        simp only [ethMtu] at hle ⊢
        omega

/-- A frame of 60 bytes. -/
theorem packetIn_of_frame_60 : PacketInFits started (dpMail frame60) := by
  have hmail : ofpSockdDp 4 60 (Mem.write (fun _ => 0) 0 frame60) (fun _ => 0)
      = some (dpMail frame60) := rfl
  exact (packetIn_of_frame started hmail).mpr (by decide)

/-- A frame of 1495 bytes. -/
def longFrame : List UInt8 := hostFrame (List.replicate 1453 1)

/-- **A frame of 1495 bytes** gets through both checks.  The copy ends 37 bytes behind `ofpbuf`:
on a port without learned hosts, `head` is not NULL when `insert_node` reads it. -/
theorem packetIn_of_long_frame : longFrame.length = 1495 ∧
    ¬ PacketInFits started (dpMail longFrame) ∧ started.port.head = none ∧
    (encodePacketIn started.port started.bufferId (dpMail longFrame).mu
      (dpMail longFrame).mulen).head ≠ none := by
  refine ⟨by rw [longFrame, hostFrame_length, List.length_replicate], ?_,
    (ofpdReady_restarted _ _).head, ?_⟩
  · intro h
    exact absurd ((copies_within_iff _ _).mp h.copies) (by decide +kernel)
  · decide +kernel

end Ofpagent.Agent
