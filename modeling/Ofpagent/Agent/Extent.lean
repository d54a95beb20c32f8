/-
# How much of a mail is read

`OFP_decode_frame` knows how many bytes were received and uses the number for the copy of a frame
only.  Every other read is at a fixed place: the type of a message, its header, the first 34
bytes of a frame, up to 84 bytes of a flow mod.  A mail that ends earlier is decoded with what
the buffer of the reader or the stack of `ofp_send2mailbox` held before.

Two runs tell the difference: `SameDecoding` says that mails which agree on what was received
are decoded alike, and `decodeFrame_extent` says for which mails that is so (`ReadsReceived`).
-/
import Ofpagent.Agent.HostList
import Ofpagent.Agent.Reply

namespace Ofpagent.Agent

open Ofpagent.Lib

/-! ## 1. Two mails, two decodings -/

/-- The number of bytes of the message that were received. -/
def OfpMbx.received (mail : OfpMbx) : ℕ := (mail.len - 5).toNat

/-- The mails differ at most behind what was received. -/
structure OfpMbx.Agree (mail mail' : OfpMbx) : Prop where
  type : mail'.type = mail.type
  sockfd : mail'.sockfd = mail.sockfd
  len : mail'.len = mail.len
  mu : Mem.Agree mail.received mail.mu mail'.mu

/-- What `OFP_decode_frame` returns and leaves, as far as the rest of the agent looks at it. -/
structure Decoding where
  status : Status
  event : UInt16
  ofpHeader : OfpHeader
  ofpMultipart : OfpMultipart
  frame : List UInt8
  head : Ptr
  heap : Heap

def decoding (p : Status × Ofpd) : Decoding :=
  ⟨p.1, p.2.port.event, p.2.port.ofpHeader, p.2.port.ofpMultipart, p.2.port.frame, p.2.port.head,
    p.2.heap⟩

/-- **The decoding depends on what was received only.** -/
def SameDecoding (s : Ofpd) (mail : OfpMbx) (e : Env) : Prop :=
  ∀ mail', mail.Agree mail' →
    (ofpDecodeFrame s mail' e).map decoding = (ofpDecodeFrame s mail e).map decoding

/-! ## 2. What is read -/

/-- The walk of `insert_node` comes to an end, when `malloc` has returned `node`. -/
def WalkEnds (s : Ofpd) (node : Addr) : Prop :=
  ∃ as, Seg (Function.update s.heap.link node (some none)) s.port.head as none

/-- `n` bytes cover what is read of a flow mod: the type of the action, and if it is a SET_FIELD
for a host that is found, the field and, for an IPv4 destination, the value. -/
def FlowModCovered (hp : Heap) (head : Ptr) (mu : Mem) (n : ℕ) : Prop :=
  73 ≤ n ∧ mu 72 ≠ 0 ∨
    74 ≤ n ∧ (isSetField mu = true →
      (∃ hp' a, findNode hp head (flowBufferId mu) = some (hp', some a)) →
        84 ≤ n ∨ 79 ≤ n ∧ (mu 78).toNat / 2 ≠ 12)

/-- `n` bytes cover what is read of a control message. -/
structure ControlCovered (hp : Heap) (head : Ptr) (mu : Mem) (n : ℕ) : Prop where
  type : 2 ≤ n
  header : mu 1 = ofptHello ∨ mu 1 = ofptFeaturesRequest → 8 ≤ n
  multipart : mu 1 = ofptMultipartRequest → 16 ≤ n
  flowMod : mu 1 = ofptFlowMod → FlowModCovered hp head mu n

/-- What is read of the mail was received. -/
def ReadsReceived (s : Ofpd) (mail : OfpMbx) (e : Env) : Prop :=
  if mail.type = drivDp then 34 ≤ mail.received ∨ ¬ WalkEnds s e.node
  else mail.type = drivCpFail ∨ ControlCovered s.heap s.port.head mail.mu mail.received

section Reads

variable {mu mu' : Mem} {n off : ℕ}

theorem u32At_congr (h : Mem.Agree n mu mu') (hoff : off + 4 ≤ n) :
    u32At mu' off = u32At mu off := by
  rw [u32At, h.readLe_eq hoff, u32At]

theorem u16At_congr (h : Mem.Agree n mu mu') (hoff : off + 2 ≤ n) :
    u16At mu' off = u16At mu off := by
  rw [u16At, h.readLe_eq hoff, u16At]

/-- A `U32` tells the bytes it was read from. -/
theorem read_eq_of_u32At (h : u32At mu' off = u32At mu off) : mu'.read off 4 = mu.read off 4 := by
  rw [← u32Bytes_u32At, h, u32Bytes_u32At]

theorem last_eq_of_u32At (off : ℕ) (h : u32At mu' off = u32At mu off) : mu' (off + 3) = mu (off + 3) := by
  have hread := read_eq_of_u32At h
  simpa [Mem.read, List.range_succ] using congrArg (List.getD · 3 0) hread

theorem OfpHeader.ofMem_congr (h : Mem.Agree n mu mu') (hn : 8 ≤ n) :
    OfpHeader.ofMem mu' 0 = OfpHeader.ofMem mu 0 := by
  rw [ofMem, ofMem, h 0 (by omega), h (0 + 1) (by omega), u16At_congr h (by omega),
    u32At_congr h (by omega)]

theorem OfpMultipart.ofMem_congr (h : Mem.Agree n mu mu') (hn : 16 ≤ n) :
    OfpMultipart.ofMem mu' 0 = OfpMultipart.ofMem mu 0 := by
  rw [ofMem, ofMem, OfpHeader.ofMem_congr h (by omega), u16At_congr h (by omega),
    u16At_congr h (by omega), u32At_congr h (by omega)]

theorem flowBufferId_congr (h : Mem.Agree n mu mu') (hn : 36 ≤ n) :
    flowBufferId mu' = flowBufferId mu := by
  rw [flowBufferId, u32At_congr h (by simp only [flowBufferIdOff]; omega), flowBufferId]

theorem hostOf_congr (h : Mem.Agree n mu mu') (hn : 34 ≤ n) (b : UInt32) :
    hostOf mu' b = hostOf mu b := by
  have h0 : mu'.read 0 6 = mu.read 0 6 := h.read_eq (by omega)
  have h6 : mu'.read 6 6 = mu.read 6 6 := h.read_eq (by omega)
  simp only [hostOf, macAt, h0, h6, ipSrcOff]
  rw [u32At_congr h (by omega), u32At_congr h (by omega)]

end Reads

/-! ## 3. A mail that is covered -/

/-- **The walk ends exactly when a frame can be buffered**, as long as its copy leaves `head`
alone; the record is then the one of the frame. -/
theorem ofpEncodePacketIn_isSome_iff {s : Ofpd} {mu : Mem} {mulen : UInt16} {e : Env}
    (hkeep : mulen.toNat + 42 ≤ headOff) (hmax : mulen.toNat ≤ muMax) :
    (ofpEncodePacketIn s mu mulen e).isSome ↔ WalkEnds s e.node := by
  rw [ofpEncodePacketIn, if_neg (not_lt.mpr hmax)]
  simp only [Option.isSome_map]
  rw [insertNode_isSome_iff, head_encodePacketIn _ _ _ hkeep, Heap.link_insert]
  rfl

theorem ofpEncodePacketIn_record {s s' : Ofpd} {mu : Mem} {mulen : UInt16} {e : Env}
    (h : ofpEncodePacketIn s mu mulen e = some s') :
    (s'.heap.lookup e.node).map HostLearn.record = some (hostOf mu s.bufferId) := by
  obtain ⟨-, r, hr, rfl⟩ := ofpEncodePacketIn_cases h
  have hrec := record_insertNode hr e.node
  rw [AList.lookup_insert] at hrec
  exact hrec

section Covered

variable {s : Ofpd} {mu mu' : Mem} {n : ℕ} {e : Env}

theorem ofpEncodePacketIn_congr {mulen : UInt16} (h : Mem.Agree n mu mu') (hn : 34 ≤ n)
    (hmulen : mulen.toNat ≤ n) : ofpEncodePacketIn s mu' mulen e = ofpEncodePacketIn s mu mulen e := by
  have hread : mu'.read 0 mulen.toNat = mu.read 0 mulen.toNat := h.read_eq (by omega)
  simp only [ofpEncodePacketIn, encodePacketIn, packetInCopies, hread, hostOf_congr h hn]

theorem flowDstIp_congr (h : Mem.Agree n mu mu')
    (hn : 84 ≤ n ∨ 79 ≤ n ∧ (mu 78).toNat / 2 ≠ 12) : flowDstIp mu' e = flowDstIp mu e := by
  rw [flowDstIp_eq, flowDstIp_eq, h 78 (by omega)]
  split_ifs with hfield
  · rcases hn with hn | ⟨-, hne⟩
    · exact u32At_congr h hn
    · exact absurd hfield hne
  · rfl

theorem ofpEncodeBackToHost_congr (h : Mem.Agree n mu mu') (hc : FlowModCovered s.heap s.port.head mu n) :
    ofpEncodeBackToHost s mu' e = ofpEncodeBackToHost s mu e := by
  rcases hc with ⟨hn, hne⟩ | ⟨hn, hc⟩
  · have hset : ∀ m : Mem, m 72 = mu 72 → ¬ isSetField m = true := by
      intro m hm hset
      exact hne (hm.symm.trans (isSetField_iff.mp hset).1)
    rw [ofpEncodeBackToHost, if_neg (hset mu' (h 72 (by omega))), ofpEncodeBackToHost,
      if_neg (hset mu rfl)]
  · have hset : isSetField mu' = isSetField mu := by
      rw [Bool.eq_iff_iff, isSetField_iff, isSetField_iff, h 72 (by omega), h 73 (by omega)]
    have hmatch : u32At mu' flowMatchOff = u32At mu flowMatchOff :=
      u32At_congr h (by simp only [flowMatchOff]; omega)
    unfold ofpEncodeBackToHost
    rw [hset, flowBufferId_congr h (by omega), hmatch]
    split_ifs with hs
    · split
      · next hp a hfind => rw [flowDstIp_congr h (hc hs ⟨hp, a, hfind⟩)]
      · rfl
    · rfl

theorem decodeControl_congr (h : Mem.Agree n mu mu') (hc : ControlCovered s.heap s.port.head mu n) :
    decodeControl s mu' e = decodeControl s mu e := by
  have h1 : mu' 1 = mu 1 := h 1 (by have := hc.type; omega)
  unfold decodeControl
  rw [h1]
  split_ifs with hhello hfeatures hmultipart hecho hflow
  · rw [OfpHeader.ofMem_congr h (hc.header (.inl hhello))]
  · rw [OfpHeader.ofMem_congr h (hc.header (.inr hfeatures))]
  · rw [OfpMultipart.ofMem_congr h (hc.multipart hmultipart)]
  · rfl
  · exact ofpEncodeBackToHost_congr h (hc.flowMod hflow)
  · rfl
  · rfl

end Covered

section Mails

variable {s : Ofpd} {mail : OfpMbx} {e : Env}

/-- The `U16` of the decoder is the number of bytes received. -/
theorem OfpMbx.mulen_toNat (hmin : 5 ≤ mail.len) (hlen : mail.len ≤ ethMtu) :
    mail.mulen.toNat = mail.received := by
  simp only [ethMtu] at hlen
  rw [mulen, received, UInt16.toNat_ofNat']
  omega

/-- **A covered mail is decoded alike**, in everything the decoder leaves. -/
theorem ofpDecodeFrame_congr {mail' : OfpMbx} (hmin : 5 ≤ mail.len) (hlen : mail.len ≤ ethMtu)
    (hag : mail.Agree mail') (hc : ReadsReceived s mail e) :
    ofpDecodeFrame s mail' e = ofpDecodeFrame s mail e := by
  have hlen' : mail'.len ≤ ethMtu := hag.len.symm ▸ hlen
  have hmulen : mail'.mulen = mail.mulen := by rw [OfpMbx.mulen, hag.len, OfpMbx.mulen]
  have hn := OfpMbx.mulen_toNat hmin hlen
  unfold ReadsReceived at hc
  split_ifs at hc with hdp
  · rw [ofpDecodeFrame_dp hlen' (hag.type.trans hdp), ofpDecodeFrame_dp hlen hdp, hag.sockfd, hmulen]
    rcases Nat.lt_or_ge mail.received 34 with hshort | hlong
    · have hno := hc.resolve_left (by omega)
      have hnone : ∀ mu, ofpEncodePacketIn (s.setSockfd mail.sockfd) mu mail.mulen e = none := by
        intro mu
        rw [← Option.not_isSome_iff_eq_none, ofpEncodePacketIn_isSome_iff]
        · exact hno
        · simp only [headOff, ethMtu]
          omega
        · simp only [muMax, ethMtu]
          omega
      rw [hnone, hnone]
    · rw [ofpEncodePacketIn_congr hag.mu hlong hn.le]
  · by_cases hfail : mail.type = drivCpFail
    · have hfail' : mail'.type = drivCpFail := hag.type.trans hfail
      have hdp' : mail'.type ≠ drivDp := by rwa [hag.type]
      rw [ofpDecodeFrame, if_neg (not_lt.mpr hlen'), if_neg hdp', if_pos hfail', ofpDecodeFrame,
        if_neg (not_lt.mpr hlen), if_neg hdp, if_pos hfail, hag.sockfd]
    · rw [ofpDecodeFrame_control hlen' (by rwa [hag.type]) (by rwa [hag.type]),
        ofpDecodeFrame_control hlen hdp hfail, hag.sockfd]
      rw [decodeControl_congr hag.mu]
      exact hc.resolve_left hfail

end Mails

/-! ## 4. A mail that is not -/

/-- The mail with `l` in the message at `i`. -/
def OfpMbx.put (mail : OfpMbx) (i : ℕ) (l : List UInt8) : OfpMbx :=
  { mail with refp := mail.refp.write (5 + i) l }

theorem OfpMbx.mu_put (mail : OfpMbx) (i : ℕ) (l : List UInt8) :
    (mail.put i l).mu = mail.mu.write i l := by
  funext j
  simp [mu, put, Mem.write, Nat.add_sub_add_left]

theorem OfpMbx.agree_put (mail : OfpMbx) {i : ℕ} (l : List UInt8) (h : mail.received ≤ i) :
    mail.Agree (mail.put i l) := by
  have hhead : Mem.Agree 5 mail.refp (mail.put i l).refp := Mem.agree_write _ l (by omega)
  refine ⟨hhead 0 (by omega), ?_, rfl, ?_⟩
  · rw [sockfd, intAt, u32At_congr hhead (by omega), sockfd, intAt]
  · rw [mu_put]
    exact Mem.agree_write _ l h

section Short

variable {s : Ofpd} {mail : OfpMbx} {e : Env}

/-- Whatever is written behind what was received, the decoding is the same. -/
theorem SameDecoding.put (h : SameDecoding s mail e) {i : ℕ} (hi : mail.received ≤ i)
    (l l' : List UInt8) : (ofpDecodeFrame s (mail.put i l) e).map decoding
      = (ofpDecodeFrame s (mail.put i l') e).map decoding :=
  (h _ (mail.agree_put l hi)).trans (h _ (mail.agree_put l' hi)).symm

/-- What is left of a decoded control message. -/
def controlDecoding (s : Ofpd) (mu : Mem) (e : Env) : Option Decoding :=
  (decodeControl s mu e).map fun s2 => decoding (.ok, s2)

theorem SameDecoding.control (h : SameDecoding s mail e) (hlen : mail.len ≤ ethMtu)
    (hdp : mail.type ≠ drivDp) (hfail : mail.type ≠ drivCpFail) {i : ℕ} (hi : mail.received ≤ i)
    (l l' : List UInt8) : controlDecoding (s.setSockfd mail.sockfd) (mail.mu.write i l) e
      = controlDecoding (s.setSockfd mail.sockfd) (mail.mu.write i l') e := by
  have hput : ∀ l, (ofpDecodeFrame s (mail.put i l) e).map decoding
      = controlDecoding (s.setSockfd mail.sockfd) (mail.mu.write i l) e := by
    intro l
    have hag := mail.agree_put l hi
    have hrun := ofpDecodeFrame_control (s := s) (e := e) (hag.len.symm ▸ hlen)
      (hag.type.symm ▸ hdp) (hag.type.symm ▸ hfail)
    rw [hrun, hag.sockfd, OfpMbx.mu_put, Option.map_map]
    rfl
  rw [← hput, ← hput]
  exact h.put hi l l'

end Short

section FlowMod

variable {s : Ofpd} {mu mu' : Mem} {e : Env}

/-- The action decides about the event. -/
theorem controlDecoding_ne_of_isSetField (hty : mu 1 = ofptFlowMod) (hty' : mu' 1 = ofptFlowMod)
    (h : ¬ isSetField mu = true) (h' : isSetField mu' = true) :
    controlDecoding s mu e ≠ controlDecoding s mu' e := by
  intro heq
  rw [controlDecoding, decodeControl_flowMod hty, ofpEncodeBackToHost, if_neg h, controlDecoding,
    decodeControl_flowMod hty'] at heq
  obtain ⟨s', hs', heq⟩ := Option.map_eq_some_iff.mp heq.symm
  have hev : s'.port.event = eFlowMod := by
    rw [(ofpEncodeBackToHost_spec hs').2, if_pos h', Ofpd.setEvent_event]
  have hevent : s'.port.event = eOthers := congrArg Decoding.event heq
  rw [hev] at hevent
  exact absurd hevent (by decide)

/-- The value of the action is at the end of the frame. -/
theorem frame_of_backToHost {hp : Heap} {a : Addr} (hset : isSetField mu = true)
    (hfield : (mu 78).toNat / 2 = 12)
    (hfind : findNode s.heap s.port.head (flowBufferId mu) = some (hp, some a)) :
    ∃ s', ofpEncodeBackToHost s mu e = some s' ∧ s'.port.frame.drop 46 = mu.read 80 4 := by
  obtain ⟨node, hnode⟩ := lookup_findNode hfind
  refine ⟨_, ofpEncodeBackToHost_eq hset hfind hnode, ?_⟩
  rw [OfpPort.frame_reply, backToHostFrame_drop, flowDstIp_eq, if_pos hfield]
  exact u32Bytes_u32At mu flowValueOff

/-- Two flow mods for the same host that differ in the value have different frames. -/
theorem value_eq_of_controlDecoding (hty : mu 1 = ofptFlowMod) (hty' : mu' 1 = ofptFlowMod)
    (hset : isSetField mu = true) (hset' : isSetField mu' = true)
    (hfield : (mu 78).toNat / 2 = 12) (hfield' : (mu' 78).toNat / 2 = 12) {hp : Heap} {a : Addr}
    (hfind : findNode s.heap s.port.head (flowBufferId mu) = some (hp, some a))
    (hid : flowBufferId mu' = flowBufferId mu)
    (heq : controlDecoding s mu e = controlDecoding s mu' e) : mu.read 80 4 = mu'.read 80 4 := by
  obtain ⟨s1, hs1, hf1⟩ := frame_of_backToHost (s := s.setEvent eFlowMod) (e := e) hset hfield hfind
  obtain ⟨s2, hs2, hf2⟩ :=
    frame_of_backToHost (s := s.setEvent eFlowMod) (e := e) hset' hfield' (hid.symm ▸ hfind)
  rw [controlDecoding, decodeControl_flowMod hty, hs1, controlDecoding,
    decodeControl_flowMod hty', hs2] at heq
  have hframe : s1.port.frame = s2.port.frame := congrArg Decoding.frame (Option.some.inj heq)
  rw [← hf1, ← hf2, hframe]

end FlowMod

section Converse

variable {s : Ofpd} {mu : Mem} {n : ℕ} {e : Env}

/-- A write at `i` leaves the bytes ahead of it, and puts its own. -/
theorem write_before (mu : Mem) {i j : ℕ} (l : List UInt8) (h : j < i) : mu.write i l j = mu j :=
  Mem.write_apply_of_disjoint (Or.inl h)

theorem flowModCovered_of_same (hty : mu 1 = ofptFlowMod)
    (h : ∀ i l l', n ≤ i → controlDecoding s (mu.write i l) e = controlDecoding s (mu.write i l') e) :
    FlowModCovered s.heap s.port.head mu n := by
  have hty' : ∀ i l, 1 < i → mu.write i l 1 = ofptFlowMod := fun i l hi =>
    (write_before mu l hi).trans hty
  rcases Nat.lt_or_ge n 73 with hn | hn
  · -- neither byte of the action was received
    refine absurd (h 72 [1, 25] [0, 25] (by omega)) ?_
    refine controlDecoding_ne_of_isSetField (hty' 72 _ (by omega)) (hty' 72 _ (by omega)) ?_ ?_
    · rw [isSetField_iff]
      simp [Mem.write]
    · rw [isSetField_iff]
      simp [Mem.write]
  rcases Nat.lt_or_ge n 74 with hn' | hn'
  · -- only the first of them was
    by_cases h72 : mu 72 = 0
    · refine absurd (h 73 [0] [25] (by omega)) ?_
      refine controlDecoding_ne_of_isSetField (hty' 73 _ (by omega)) (hty' 73 _ (by omega)) ?_ ?_
      · rw [isSetField_iff]
        simp [Mem.write]
      · rw [isSetField_iff]
        simp [Mem.write, h72]
    · exact .inl ⟨hn, h72⟩
  refine .inr ⟨hn', fun hset hfound => ?_⟩
  obtain ⟨hp, a, hfind⟩ := hfound
  by_contra hno
  rw [not_or, not_and_or, not_not] at hno
  obtain ⟨hn84, hno⟩ := hno
  -- whatever is written from `i` on, the action is for the same host
  have hsame : ∀ i l, 74 ≤ i → isSetField (mu.write i l) = true ∧
      flowBufferId (mu.write i l) = flowBufferId mu := by
    intro i l hi
    rw [isSetField_iff] at hset ⊢
    exact ⟨⟨(write_before mu l (by omega)).trans hset.1, (write_before mu l (by omega)).trans hset.2⟩,
      flowBufferId_congr (Mem.agree_write mu l hi) (by omega)⟩
  have hvalue : ∀ i l l', 74 ≤ i → n ≤ i → (mu.write i l 78).toNat / 2 = 12 →
      (mu.write i l' 78).toNat / 2 = 12 → (mu.write i l).read 80 4 = (mu.write i l').read 80 4 := by
    intro i l l' hi hni hf hf'
    obtain ⟨hs, hid⟩ := hsame i l hi
    obtain ⟨hs', hid'⟩ := hsame i l' hi
    exact value_eq_of_controlDecoding (hty' i l (by omega)) (hty' i l' (by omega)) hs hs' hf hf'
      (hid.symm ▸ hfind) (hid'.trans hid.symm) (h i l l' hni)
  rcases Nat.lt_or_ge n 79 with hn79 | hn79
  · have hread := hvalue 78 [24, 0, 0, 0, 0, 0] [24, 0, 1, 0, 0, 0] (by omega) (by omega)
      (by simp [Mem.write]) (by simp [Mem.write])
    simp [Mem.read, Mem.write, List.range_succ] at hread
  · have hfield := hno.resolve_left (by omega)
    have hread := hvalue 83 [0] [1] (by omega) (by omega)
      (by rwa [write_before mu _ (by omega)]) (by rwa [write_before mu _ (by omega)])
    simp [Mem.read, Mem.write, List.range_succ] at hread

theorem controlCovered_of_same
    (h : ∀ i l l', n ≤ i → controlDecoding s (mu.write i l) e = controlDecoding s (mu.write i l') e) :
    ControlCovered s.heap s.port.head mu n := by
  -- the last byte of a header that was not received
  have hlast : ∀ i, mu.write i [0] i ≠ mu.write i [1] i := by
    intro i
    simp [Mem.write]
  have h2 : 2 ≤ n := by
    by_contra hn
    have heq := h 1 [ofptHello] [ofptFeaturesRequest] (by omega)
    have hevent := congrArg (Option.map Decoding.event) heq
    simp [controlDecoding, decodeControl, Mem.write, decoding, ofptHello, ofptFeaturesRequest,
      eRecvHello, eFeatureRequest] at hevent
  refine ⟨h2, ?_, ?_, fun hty => flowModCovered_of_same hty h⟩
  · intro hty
    by_contra hn
    have heq := congrArg (Option.map Decoding.ofpHeader) (h 7 [0] [1] (by omega))
    have hrun : ∀ l, (controlDecoding s (mu.write 7 l) e).map Decoding.ofpHeader
        = some (OfpHeader.ofMem (mu.write 7 l) 0) := by
      intro l
      have h1 : mu.write 7 l 1 = mu 1 := write_before mu l (by omega)
      rcases hty with hty | hty <;>
        simp [controlDecoding, decodeControl, h1, hty, decoding, ofptHello, ofptFeaturesRequest]
    rw [hrun, hrun] at heq
    exact hlast 7 (last_eq_of_u32At 4
      (congrArg OfpHeader.xid (Option.some.inj heq)))
  · intro hty
    by_contra hn
    have heq := congrArg (Option.map Decoding.ofpMultipart) (h 15 [0] [1] (by omega))
    have hrun : ∀ l, (controlDecoding s (mu.write 15 l) e).map Decoding.ofpMultipart
        = some (OfpMultipart.ofMem (mu.write 15 l) 0) := by
      intro l
      have h1 : mu.write 15 l 1 = mu 1 := write_before mu l (by omega)
      simp [controlDecoding, decodeControl, h1, hty, decoding, ofptHello, ofptFeaturesRequest,
        ofptMultipartRequest]
    rw [hrun, hrun] at heq
    exact hlast 15 (last_eq_of_u32At 12
      (congrArg OfpMultipart.pad (Option.some.inj heq)))

/-- A frame that can be buffered is read up to the destination address. -/
theorem frame_of_sameDecoding {mail : OfpMbx} (hmin : 5 ≤ mail.len) (hlen : mail.len ≤ ethMtu)
    (hdp : mail.type = drivDp) (h : SameDecoding s mail e) (hwalk : WalkEnds s e.node) :
    34 ≤ mail.received := by
  by_contra hshort
  have hmulen := OfpMbx.mulen_toNat hmin hlen
  have hrecord : ∀ l, ∃ s2, ((ofpDecodeFrame s (mail.put 33 l) e).map decoding).map Decoding.heap
      = some s2 ∧ (s2.lookup e.node).map HostLearn.record
        = some (hostOf (mail.mu.write 33 l) s.bufferId) := by
    intro l
    have hag := mail.agree_put l (i := 33) (by omega)
    have hrun := ofpDecodeFrame_dp (s := s) (e := e) (hag.len.symm ▸ hlen) (hag.type.trans hdp)
    have hsome : (ofpEncodePacketIn (s.setSockfd (mail.put 33 l).sockfd) (mail.put 33 l).mu
        (mail.put 33 l).mulen e).isSome := by
      have hmulen' : (mail.put 33 l).mulen = mail.mulen := rfl
      refine (ofpEncodePacketIn_isSome_iff ?_ ?_).mpr hwalk
      · rw [hmulen']
        simp only [headOff, ethMtu]
        omega
      · rw [hmulen']
        simp only [muMax, ethMtu]
        omega
    obtain ⟨s2, hs2⟩ := Option.isSome_iff_exists.mp hsome
    refine ⟨s2.heap, by rw [hrun, hs2]; rfl, ?_⟩
    rw [ofpEncodePacketIn_record hs2, OfpMbx.mu_put]
    rfl
  obtain ⟨hp, hhp, hrec⟩ := hrecord [0]
  obtain ⟨hp', hhp', hrec'⟩ := hrecord [1]
  have heq := h.put (i := 33) (by omega) [0] [1]
  obtain rfl : hp = hp' := by
    rw [heq, hhp'] at hhp
    exact (Option.some.inj hhp).symm
  have hhost := Option.some.inj (hrec.symm.trans hrec')
  have hbyte := last_eq_of_u32At (ipSrcOff + 4) (congrArg HostLearn.dstIp hhost)
  simp [Mem.write, ipSrcOff] at hbyte

end Converse

/-! ## 5. The result -/

/-- **What a decoding depends on**: it is the same for all mails with the same received bytes
exactly when all that is read was received. -/
theorem decodeFrame_extent (s : Ofpd) (mail : OfpMbx) (e : Env) (hmin : 5 ≤ mail.len)
    (hlen : mail.len ≤ ethMtu) : SameDecoding s mail e ↔ ReadsReceived s mail e := by
  constructor
  · intro h
    unfold ReadsReceived
    split_ifs with hdp
    · by_cases hwalk : WalkEnds s e.node
      · exact .inl (frame_of_sameDecoding hmin hlen hdp h hwalk)
      · exact .inr hwalk
    · by_cases hfail : mail.type = drivCpFail
      · exact .inl hfail
      · refine .inr ?_
        exact controlCovered_of_same (s := s.setSockfd mail.sockfd) (e := e)
          fun i l l' hi => h.control hlen hdp hfail hi l l'
  · intro hc mail' hag
    rw [ofpDecodeFrame_congr hmin hlen hag hc]

/-- A FEATURES_REQUEST of eight bytes. -/
theorem decodeFrame_extent_features :
    SameDecoding started (cpMail (shortMsg ofptFeaturesRequest)) (Env.plain addr2) := by
  have htype : (cpMail (shortMsg ofptFeaturesRequest)).mu 1 = ofptFeaturesRequest := by decide
  refine (decodeFrame_extent _ _ _ (by decide) (by decide)).mpr ?_
  rw [ReadsReceived, if_neg (by decide)]
  refine .inr ⟨by decide, fun _ => by decide, ?_, ?_⟩
  · intro h
    rw [htype] at h
    exact absurd h (by decide)
  · intro h
    rw [htype] at h
    exact absurd h (by decide)

/-- **One byte is received**: the type of the message is what stands behind it. -/
theorem decoding_of_one_byte : ¬ SameDecoding started (cpMail [ofp13Version]) (Env.plain addr2) := by
  intro h
  have heq := h.put (i := 1) (by decide) [ofptHello] [ofptFeaturesRequest]
  have hevent := congrArg (Option.map Decoding.event) heq
  revert hevent
  decide +kernel

end Ofpagent.Agent
