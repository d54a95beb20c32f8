/-
# How TCP cuts the control channel

`ofp_sockd_cp` makes one mail of what one `recv` returns, and `OFP_decode_frame` takes one mail
for one message: nothing reads `header.length`, and nothing keeps bytes for later.  So a chunk
has exactly one event, that of its second byte, whatever messages it holds
(`cpEvents_length`, `cpEvents_cons`).  The events are those of the messages for every content
exactly when the chunks are the messages (`events_of_cut`).
-/
import Ofpagent.Agent.Main

namespace Ofpagent.Agent

open Ofpagent.Lib

/-! ## 1. The channel -/

/-- The events that `main` hands to `OFP_FSM` when `recv` returns these chunks one after another.
`buffer` is what `msg.buffer` of the reader holds, and `g` gives for each chunk what is on the
stack of `ofp_send2mailbox`, and the surroundings of the round. -/
def cpEvents (fd : ℤ) : Ofpd → Mem → (ℕ → Mem × Env) → List (List UInt8) → Option (List UInt16)
  | _, _, _, [] => some []
  | s, buffer, g, c :: cs =>
    match ofpSockdCp fd c.length (buffer.write 0 c) (g 0).1 with
    | none => cpEvents fd s (buffer.write 0 c) (fun i => g (i + 1)) cs
    | some mail =>
      (mainStep s (.drv mail) (g 0).2).bind fun q =>
        (cpEvents fd q.1 (buffer.write 0 c) (fun i => g (i + 1)) cs).map fun evs =>
          q.2.filterMap Act.event ++ evs

/-- A well-formed message: a header at least, and `header.length` is the size. -/
structure IsMsg (m : List UInt8) : Prop where
  header : 8 ≤ m.length
  length : (htons (OfpHeader.ofMem (Mem.write (fun _ => 0) 0 m) 0).length).toNat = m.length

/-- Messages of the lengths `ls` have the same events when they are received in chunks of the
lengths `cs`. -/
def SameEvents (fd : ℤ) (s : Ofpd) (buffer : Mem) (g : ℕ → Mem × Env) (ls cs : List ℕ) : Prop :=
  ∀ msgs chunks : List (List UInt8), msgs.map List.length = ls → (∀ m ∈ msgs, IsMsg m) →
    chunks.map List.length = cs → chunks.flatten = msgs.flatten →
    cpEvents fd s buffer g chunks = cpEvents fd s buffer g msgs

/-! ## 2. A chunk has one event -/

/-- The byte that is taken for the type of a chunk.  One byte alone leaves it to the stack. -/
def typeByte (stack : Mem) (chunk : List UInt8) : UInt8 := chunk.getD 1 (stack 6)

/-- The mail of a chunk. -/
theorem ofpSockdCp_spec (fd : ℤ) (buffer stack : Mem) {chunk : List UInt8}
    (hpos : 0 < chunk.length) (hmax : chunk.length ≤ muMax) :
    ∃ mail, ofpSockdCp fd chunk.length (buffer.write 0 chunk) stack = some mail ∧
      mail.len ≤ ethMtu ∧ mail.type = drivCp ∧ mail.mu 1 = typeByte stack chunk := by
  have hlen : ¬ (ethMtu : ℤ) < chunk.length + 4 + 1 := by
    simp only [muMax, ethMtu] at hmax ⊢
    omega
  have htoNat : ((chunk.length : ℤ) + 4 + 1).toNat = chunk.length + 5 := by omega
  have hmail : ofpSockdCp fd chunk.length (buffer.write 0 chunk) stack
      = some ⟨stack.write 0 ((ofpMsg drivCp fd (buffer.write 0 chunk)).read 0 (chunk.length + 5)),
          chunk.length + 4 + 1⟩ := by
    rw [ofpSockdCp, if_neg (by omega), ofpSend2mailbox, if_neg hlen, htoNat]
  refine ⟨_, hmail, not_lt.mp hlen, ?_, ?_⟩
  · simp [OfpMbx.type, Mem.write, Mem.read, ofpMsg]
  · rw [OfpMbx.mu, typeByte]
    rcases Nat.lt_or_ge 1 chunk.length with h | h
    · have h6 : 6 < chunk.length + 5 := by omega
      simp [Mem.write, Mem.read, ofpMsg, List.getElem?_range h6, h]
    · simp [Mem.write, Mem.read, h]

/-- The round of a control message. -/
theorem mainStep_cp {s s' : Ofpd} {mail : OfpMbx} {e : Env} {acts : List Act}
    (hlen : mail.len ≤ ethMtu) (hcp : mail.type = drivCp)
    (h : mainStep s (.drv mail) e = some (s', acts)) :
    acts.filterMap Act.event = [s'.port.event] ∧
      s'.port.event = (controlEvent mail.mu).getD s.port.event := by
  have hmove : Move s ⟨.drv mail, e⟩ s' acts := mainStep_move h
  cases hmove with
  | none hlong => exact absurd (hlong mail rfl) (not_lt.mpr hlen)
  | timer hm => cases hm
  | restart hm _ hfail =>
    cases hm
    rw [hcp] at hfail
    exact absurd hfail (by decide)
  | decode hm _ _ _ hev hcall =>
    cases hm
    have hevent := hcall.same.event.trans hev
    rw [OfpMbx.event, hcp, if_neg (by decide)] at hevent
    refine ⟨?_, hevent⟩
    rw [hcall.events, hcall.same.event]
    rfl

/-- What a chunk does to the events: the rest of the channel behind it, and the event in front. -/
theorem cpEvents_cons (fd : ℤ) (s : Ofpd) (buffer : Mem) (g : ℕ → Mem × Env)
    {chunk : List UInt8} (hpos : 0 < chunk.length) (hmax : chunk.length ≤ muMax) :
    ∃ mail : OfpMbx, mail.len ≤ ethMtu ∧ mail.type = drivCp ∧
      mail.mu 1 = typeByte (g 0).1 chunk ∧
      (∀ chunks, cpEvents fd s buffer g (chunk :: chunks)
        = (mainStep s (.drv mail) (g 0).2).bind fun q =>
          (cpEvents fd q.1 (buffer.write 0 chunk) (fun i => g (i + 1)) chunks).map fun evs =>
            q.1.port.event :: evs) ∧
      ∀ q, mainStep s (.drv mail) (g 0).2 = some q →
        q.1.port.event = (controlEvent mail.mu).getD s.port.event := by
  obtain ⟨mail, hmail, hlen, hcp, hty⟩ := ofpSockdCp_spec fd buffer (g 0).1 hpos hmax
  have hstep : ∀ q, mainStep s (.drv mail) (g 0).2 = some q →
      q.2.filterMap Act.event = [q.1.port.event] ∧
        q.1.port.event = (controlEvent mail.mu).getD s.port.event :=
    fun q hq => mainStep_cp hlen hcp hq
  refine ⟨mail, hlen, hcp, hty, ?_, fun q hq => (hstep q hq).2⟩
  intro chunks
  rw [cpEvents, hmail]
  refine Option.bind_congr fun q hq => ?_
  rw [(hstep q hq).1]
  rfl

/-- **A chunk has one event**, however many messages are in it. -/
theorem cpEvents_length {fd : ℤ} {chunks : List (List UInt8)} {s : Ofpd} {buffer : Mem}
    {g : ℕ → Mem × Env} {evs : List UInt16}
    (hc : ∀ chunk ∈ chunks, 0 < chunk.length ∧ chunk.length ≤ muMax)
    (h : cpEvents fd s buffer g chunks = some evs) : evs.length = chunks.length := by
  induction chunks generalizing s buffer g evs with
  | nil =>
    cases h
    rfl
  | cons chunk chunks ih =>
    have hchunk := hc chunk List.mem_cons_self
    obtain ⟨mail, -, -, -, heq, -⟩ := cpEvents_cons fd s buffer g hchunk.1 hchunk.2
    rw [heq] at h
    obtain ⟨q, -, h⟩ := Option.bind_eq_some_iff.mp h
    obtain ⟨evs', hevs', rfl⟩ := Option.map_eq_some_iff.mp h
    rw [List.length_cons, List.length_cons,
      ih (fun chunk' h' => hc chunk' (List.mem_cons_of_mem _ h')) hevs']

/-- Behind the event of a HELLO only a FEATURES_REQUEST has its event. -/
theorem controlEvent_getD_hello {mu : Mem} :
    (controlEvent mu).getD eRecvHello = eFeatureRequest ↔ mu 1 = ofptFeaturesRequest := by
  constructor
  · intro h
    by_contra hne
    unfold controlEvent at h
    simp only [if_neg hne] at h
    split_ifs at h <;> exact absurd h (by decide)
  · intro h
    simp [controlEvent, h, ofptFeaturesRequest, ofptHello]

/-- The second of two chunks: a FEATURES_REQUEST is one wherever it comes, and behind the event
of a HELLO nothing else has its event. -/
theorem cpEvents_second {fd : ℤ} {s : Ofpd} {buffer : Mem} {g : ℕ → Mem × Env}
    {c1 c2 : List UInt8} {chunks : List (List UInt8)} {ev : UInt16} {evs : List UInt16}
    (h1 : 0 < c1.length ∧ c1.length ≤ muMax) (h2 : 0 < c2.length ∧ c2.length ≤ muMax)
    (h : cpEvents fd s buffer g (c1 :: c2 :: chunks) = some (eRecvHello :: ev :: evs)) :
    ev = eFeatureRequest ↔ typeByte (g 1).1 c2 = ofptFeaturesRequest := by
  obtain ⟨m1, -, -, -, heq1, -⟩ := cpEvents_cons fd s buffer g h1.1 h1.2
  rw [heq1] at h
  obtain ⟨q1, -, h⟩ := Option.bind_eq_some_iff.mp h
  obtain ⟨evs1, hevs1, h⟩ := Option.map_eq_some_iff.mp h
  obtain ⟨hq1, rfl⟩ := List.cons.inj h
  obtain ⟨m2, -, -, hty, heq2, hev2⟩ :=
    cpEvents_cons fd q1.1 (buffer.write 0 c1) (fun i => g (i + 1)) h2.1 h2.2
  rw [heq2] at hevs1
  obtain ⟨q2, hq2, h⟩ := Option.bind_eq_some_iff.mp hevs1
  obtain ⟨evs2, -, h⟩ := Option.map_eq_some_iff.mp h
  obtain ⟨hq2ev, -⟩ := List.cons.inj h
  rw [← hq2ev, hev2 q2 hq2, hq1, controlEvent_getD_hello, hty]

/-! ## 3. Messages whose events are known -/

/-- A message of `n` bytes with nothing in it but `version`, `type` and `length`. -/
def plainMsg (type : UInt8) (n : ℕ) : List UInt8 :=
  ofp13Version :: type :: (beBytes 2 n ++ List.replicate (n - 4) 0)

theorem plainMsg_length {n : ℕ} (type : UInt8) (h : 8 ≤ n) : (plainMsg type n).length = n := by
  simp only [plainMsg, List.length_cons, List.length_append, beBytes_length, List.length_replicate]
  omega

theorem plainMsg_isMsg {n : ℕ} (type : UInt8) (h : 8 ≤ n) (hmax : n ≤ muMax) :
    IsMsg (plainMsg type n) := by
  have hlen := plainMsg_length type h
  refine ⟨by omega, ?_⟩
  have hread : (Mem.write (fun _ => 0) 0 (plainMsg type n)).read 2 2 = beBytes 2 n := by
    simp [Mem.read, Mem.write, plainMsg, beBytes, leBytes, List.range_succ]
  rw [hlen, OfpHeader.ofMem, u16At, Mem.readLe, hread, htons_ofNat_leNat (beBytes_length 2 n),
    beBytes, List.reverse_reverse, leNat_leBytes, UInt16.toNat_ofNat']
  simp only [muMax, ethMtu] at hmax
  omega

/-- Only the type byte differs. -/
theorem plainMsg_set (type type' : UInt8) (n : ℕ) :
    (plainMsg type n).set 1 type' = plainMsg type' n := rfl

/-- A HELLO or a FEATURES_REQUEST goes through the state machine in every state. -/
theorem mainStep_isSome {s : Ofpd} {mail : OfpMbx} {e : Env} (hlen : mail.len ≤ ethMtu)
    (hcp : mail.type = drivCp) (hty : mail.mu 1 = ofptHello ∨ mail.mu 1 = ofptFeaturesRequest) :
    ∃ q, mainStep s (.drv mail) e = some q := by
  obtain ⟨s1, hs1, hev⟩ : ∃ s1, ofpDecodeFrame s mail e = some (.ok, s1) ∧
      (s1.port.event = eRecvHello ∨ s1.port.event = eFeatureRequest) := by
    rw [ofpDecodeFrame_control hlen (by rw [hcp]; decide) (by rw [hcp]; decide)]
    rcases hty with hty | hty
    · exact ⟨_, by rw [decodeControl, if_pos hty]; rfl, Or.inl rfl⟩
    · have hne : mail.mu 1 ≠ ofptHello := by rw [hty]; decide
      exact ⟨_, by rw [decodeControl, if_neg hne, if_pos hty]; rfl, Or.inr rfl⟩
  have hmulti : s1.port.event ≠ eMultipartRequest := by
    rcases hev with hev | hev <;> rw [hev] <;> decide
  obtain ⟨q, hq⟩ := ofpFsm_eq_some (e := e) hmulti
  exact ⟨q, by rw [mainStep, hs1]; exact hq⟩

/-- The event of a HELLO and of a FEATURES_REQUEST. -/
def plainEvent (type : UInt8) : UInt16 := if type = ofptHello then eRecvHello else eFeatureRequest

theorem controlEvent_eq_plainEvent {mu : Mem} (h : mu 1 = ofptHello ∨ mu 1 = ofptFeaturesRequest) :
    controlEvent mu = some (plainEvent (mu 1)) := by
  unfold controlEvent plainEvent
  rcases h with h | h
  · rw [if_pos h, if_pos h]
  · have hne : mu 1 ≠ ofptHello := by rw [h]; decide
    rw [if_neg hne, if_neg hne, if_pos h]

/-- The messages below are of these types, and within the bounds. -/
def IsPlain (t : UInt8 × ℕ) : Prop :=
  (t.1 = ofptHello ∨ t.1 = ofptFeaturesRequest) ∧ 8 ≤ t.2 ∧ t.2 ≤ muMax

/-- A message in a chunk of its own is followed by the events of the rest. -/
theorem cpEvents_plainMsg (fd : ℤ) (s : Ofpd) (buffer : Mem) (g : ℕ → Mem × Env) {t : UInt8 × ℕ}
    (ht : IsPlain t) :
    ∃ s' buffer', ∀ chunks, cpEvents fd s buffer g (plainMsg t.1 t.2 :: chunks)
      = (cpEvents fd s' buffer' (fun i => g (i + 1)) chunks).map (plainEvent t.1 :: ·) := by
  obtain ⟨hty, hmin, hmax⟩ := ht
  have hlen := plainMsg_length t.1 hmin
  have hpos : 0 < (plainMsg t.1 t.2).length := by omega
  obtain ⟨mail, hle, hcp, hbyte, heq, hev⟩ :=
    cpEvents_cons fd s buffer g hpos (hlen.trans_le hmax)
  have hbyte : mail.mu 1 = t.1 := hbyte
  obtain ⟨q, hq⟩ := mainStep_isSome (s := s) (e := (g 0).2) hle hcp (hbyte ▸ hty)
  have hevq : q.1.port.event = plainEvent t.1 := by
    rw [hev q hq, controlEvent_eq_plainEvent (hbyte ▸ hty), Option.getD_some, hbyte]
  refine ⟨q.1, buffer.write 0 (plainMsg t.1 t.2), ?_⟩
  intro chunks
  rw [heq, hq, Option.bind_some, hevq]

/-- Such messages, one after another. -/
def plainMsgs (ts : List (UInt8 × ℕ)) : List (List UInt8) := ts.map fun t => plainMsg t.1 t.2

theorem plainMsgs_length {ts : List (UInt8 × ℕ)} (h : ∀ t ∈ ts, IsPlain t) :
    (plainMsgs ts).map List.length = ts.map Prod.snd := by
  rw [plainMsgs, List.map_map]
  exact List.map_congr_left fun t ht => plainMsg_length t.1 (h t ht).2.1

theorem plainMsgs_isMsg {ts : List (UInt8 × ℕ)} (h : ∀ t ∈ ts, IsPlain t) :
    ∀ m ∈ plainMsgs ts, IsMsg m := by
  intro m hm
  obtain ⟨t, ht, rfl⟩ := List.mem_map.mp hm
  exact plainMsg_isMsg t.1 (h t ht).2.1 (h t ht).2.2

/-- Messages in chunks of their own have their own events. -/
theorem cpEvents_plain (fd : ℤ) (ts : List (UInt8 × ℕ)) (s : Ofpd) (buffer : Mem)
    (g : ℕ → Mem × Env) (h : ∀ t ∈ ts, IsPlain t) :
    cpEvents fd s buffer g (plainMsgs ts) = some (ts.map fun t => plainEvent t.1) := by
  induction ts generalizing s buffer g with
  | nil => rfl
  | cons t ts ih =>
    obtain ⟨s', buffer', heq⟩ := cpEvents_plainMsg fd s buffer g (h t List.mem_cons_self)
    have hrest := ih s' buffer' (fun i => g (i + 1))
      fun t' ht' => h t' (List.mem_cons_of_mem _ ht')
    rw [plainMsgs, List.map_cons, heq, ← plainMsgs, hrest]
    rfl

/-! ## 4. Cuts -/

section Cuts

variable {fd : ℤ} {s : Ofpd} {buffer : Mem} {g : ℕ → Mem × Env} {ls cs : List ℕ}

/-- The chunks of messages that are HELLO or FEATURES_REQUEST have their events. -/
theorem SameEvents.plain (h : SameEvents fd s buffer g ls cs) (hsum : cs.sum = ls.sum)
    {ts : List (UInt8 × ℕ)} (hts : ts.map Prod.snd = ls) (hp : ∀ t ∈ ts, IsPlain t) :
    (cs.splitLengths (plainMsgs ts).flatten).map List.length = cs ∧
      cpEvents fd s buffer g (cs.splitLengths (plainMsgs ts).flatten)
        = some (ts.map fun t => plainEvent t.1) := by
  have hmsgs : (plainMsgs ts).map List.length = ls := (plainMsgs_length hp).trans hts
  have hlen : (plainMsgs ts).flatten.length = cs.sum := by rw [List.length_flatten, hmsgs, hsum]
  have hchunks := List.map_splitLengths_length _ cs hlen.ge
  have heq := h _ _ hmsgs (plainMsgs_isMsg hp) hchunks (List.flatten_splitLengths _ cs hlen.le)
  exact ⟨hchunks, heq.trans (cpEvents_plain fd ts s buffer g hp)⟩

/-- Messages of these lengths that are all HELLO. -/
def hellos (ls : List ℕ) : List (UInt8 × ℕ) := ls.map fun n => (ofptHello, n)

theorem hellos_snd (ls : List ℕ) : (hellos ls).map Prod.snd = ls := by
  simp [hellos, Function.comp_def]

theorem hellos_isPlain (hls : ∀ n ∈ ls, 8 ≤ n ∧ n ≤ muMax) : ∀ t ∈ hellos ls, IsPlain t := by
  intro t ht
  obtain ⟨n, hn, rfl⟩ := List.mem_map.mp ht
  exact ⟨Or.inl rfl, hls n hn⟩

/-- A cut with the same events has as many chunks as there are messages. -/
theorem SameEvents.length (h : SameEvents fd s buffer g ls cs) (hls : ∀ n ∈ ls, 8 ≤ n ∧ n ≤ muMax)
    (hcs : ∀ n ∈ cs, 0 < n ∧ n ≤ muMax) (hsum : cs.sum = ls.sum) : cs.length = ls.length := by
  obtain ⟨hlen, hev⟩ := h.plain hsum (hellos_snd ls) (hellos_isPlain hls)
  have hchunks : ∀ chunk ∈ cs.splitLengths (plainMsgs (hellos ls)).flatten,
      0 < chunk.length ∧ chunk.length ≤ muMax :=
    fun chunk hc => hcs _ (hlen ▸ List.mem_map_of_mem hc)
  have hcount := cpEvents_length hchunks hev
  rw [List.length_splitLengths, List.length_map, hellos, List.length_map] at hcount
  exact hcount.symm

/-- The messages of a tail go on behind a HELLO. -/
theorem SameEvents.tail {l : ℕ} (h : SameEvents fd s buffer g (l :: ls) (l :: cs))
    (hl : 8 ≤ l ∧ l ≤ muMax) :
    ∃ s' buffer', SameEvents fd s' buffer' (fun i => g (i + 1)) ls cs := by
  have ht : IsPlain (ofptHello, l) := ⟨Or.inl rfl, hl⟩
  have hlen : (plainMsg ofptHello l).length = l := plainMsg_length ofptHello hl.1
  obtain ⟨s', buffer', heq⟩ := cpEvents_plainMsg fd s buffer g ht
  refine ⟨s', buffer', ?_⟩
  intro msgs chunks hmsgs hwf hchunks hflat
  have hsame := h (plainMsg ofptHello l :: msgs) (plainMsg ofptHello l :: chunks)
    (by rw [List.map_cons, hlen, hmsgs])
    (List.forall_mem_cons.mpr ⟨plainMsg_isMsg ofptHello hl.1 hl.2, hwf⟩)
    (by rw [List.map_cons, hlen, hchunks])
    (by rw [List.flatten_cons, List.flatten_cons, hflat])
  rw [heq, heq] at hsame
  exact Option.map_injective (List.cons_injective) hsame

/-- The type byte of the second chunk of a cut. -/
theorem typeByte_set {F : List UInt8} {i c n : ℕ} (stack : Mem) (type : UInt8) (h : c + 1 ≠ i) :
    typeByte stack (((F.set i type).drop c).take n) = typeByte stack ((F.drop c).take n) := by
  simp only [typeByte, List.getD_eq_getElem?_getD, List.getElem?_take, List.getElem?_drop,
    List.getElem?_set_ne h.symm]

/-- The first chunk is the first message: with a second message that is a HELLO or a
FEATURES_REQUEST the type byte of the second chunk would be the same. -/
theorem SameEvents.head {l l2 c c2 : ℕ} (h : SameEvents fd s buffer g (l :: l2 :: ls) (c :: c2 :: cs))
    (hls : ∀ n ∈ l :: l2 :: ls, 8 ≤ n ∧ n ≤ muMax)
    (hcs : ∀ n ∈ c :: c2 :: cs, 0 < n ∧ n ≤ muMax)
    (hsum : (c :: c2 :: cs).sum = (l :: l2 :: ls).sum) : c = l := by
  by_contra hne
  have hrest : ∀ t ∈ hellos ls, IsPlain t := hellos_isPlain
    fun n hn => hls n (List.mem_cons_of_mem _ (List.mem_cons_of_mem _ hn))
  have hl := hls l (by simp)
  have hl2 := hls l2 (by simp)
  -- the second message is of type `type`, and every other one a HELLO
  have hcut : ∀ type, type = ofptHello ∨ type = ofptFeaturesRequest →
      (plainEvent type = eFeatureRequest ↔ typeByte (g 1).1
        (((plainMsgs ((ofptHello, l) :: (type, l2) :: hellos ls)).flatten.drop c).take c2)
          = ofptFeaturesRequest) := by
    intro type htype
    have hsnd : ((ofptHello, l) :: (type, l2) :: hellos ls).map Prod.snd = l :: l2 :: ls := by
      simp [hellos_snd]
    obtain ⟨hlen, hev⟩ := h.plain hsum hsnd
      (List.forall_mem_cons.mpr ⟨⟨Or.inl rfl, hl⟩, List.forall_mem_cons.mpr ⟨⟨htype, hl2⟩, hrest⟩⟩)
    simp only [List.splitLengths_cons, List.map_cons, List.cons.injEq] at hlen hev
    exact cpEvents_second (by rw [hlen.1]; exact hcs c (by simp))
      (by rw [hlen.2.1]; exact hcs c2 (by simp)) hev
  have hset : (plainMsgs ((ofptHello, l) :: (ofptFeaturesRequest, l2) :: hellos ls)).flatten
      = (plainMsgs ((ofptHello, l) :: (ofptHello, l2) :: hellos ls)).flatten.set (l + 1)
          ofptFeaturesRequest := by
    have hlen := plainMsg_length ofptHello hl.1
    have hlen2 := plainMsg_length ofptHello hl2.1
    simp only [plainMsgs, List.map_cons, List.flatten_cons]
    rw [List.set_append_right _ _ (by omega), hlen, Nat.add_sub_cancel_left,
      List.set_append_left _ _ (by omega), plainMsg_set]
  have hA := hcut ofptHello (Or.inl rfl)
  have hB := hcut ofptFeaturesRequest (Or.inr rfl)
  rw [hset, typeByte_set _ _ (by omega), ← hA] at hB
  exact absurd hB (by decide)

/-- **The chunks are the messages.** -/
theorem SameEvents.eq : ∀ {ls cs : List ℕ} {s : Ofpd} {buffer : Mem} {g : ℕ → Mem × Env},
    SameEvents fd s buffer g ls cs → (∀ n ∈ ls, 8 ≤ n ∧ n ≤ muMax) →
    (∀ n ∈ cs, 0 < n ∧ n ≤ muMax) → cs.sum = ls.sum → cs = ls
  | [], [], _, _, _, _, _, _, _ => rfl
  | [], _ :: _, _, _, _, h, hls, hcs, hsum => nomatch h.length hls hcs hsum
  | _ :: _, [], _, _, _, h, hls, hcs, hsum => nomatch h.length hls hcs hsum
  | [l], [c], _, _, _, _, _, _, hsum => by simpa using hsum
  | [_], _ :: _ :: _, _, _, _, h, hls, hcs, hsum => nomatch h.length hls hcs hsum
  | _ :: _ :: _, [_], _, _, _, h, hls, hcs, hsum => nomatch h.length hls hcs hsum
  | l :: l2 :: ls, c :: c2 :: cs, s, buffer, g, h, hls, hcs, hsum => by
    obtain rfl : c = l := h.head hls hcs hsum
    obtain ⟨s', buffer', htail⟩ := h.tail (hls c List.mem_cons_self)
    have heq : c2 :: cs = l2 :: ls :=
      htail.eq (fun n hn => hls n (List.mem_cons_of_mem _ hn))
        (fun n hn => hcs n (List.mem_cons_of_mem _ hn)) (by simpa using hsum)
    rw [heq]

end Cuts

/-- **The events of the channel are those of the messages, whatever they are, exactly when the
chunks are the messages.** -/
theorem events_of_cut (fd : ℤ) (s : Ofpd) (buffer : Mem) (g : ℕ → Mem × Env) {ls cs : List ℕ}
    (hls : ∀ n ∈ ls, 8 ≤ n ∧ n ≤ muMax) (hcs : ∀ n ∈ cs, 0 < n ∧ n ≤ muMax)
    (hsum : cs.sum = ls.sum) : SameEvents fd s buffer g ls cs ↔ cs = ls := by
  constructor
  · intro h
    exact h.eq hls hcs hsum
  · rintro rfl msgs chunks hmsgs - hchunks hflat
    rw [List.eq_iff_flatten_eq.mpr ⟨hflat, hchunks.trans hmsgs.symm⟩]

/-- Nothing on the stack, and plain surroundings, for every chunk. -/
def plainRounds : ℕ → Mem × Env := fun _ => (fun _ => 0, Env.plain addr2)

/-- A message cut inside its header. -/
theorem events_of_cut_split :
    ¬ SameEvents 3 started (fun _ => 0) plainRounds [8, 16] [5, 19] := by
  have hcut : SameEvents 3 started (fun _ => 0) plainRounds [8, 16] [5, 19] ↔ [5, 19] = [8, 16] :=
    events_of_cut 3 started (fun _ => 0) plainRounds (by decide) (by decide) rfl
  rw [hcut]
  decide

/-- **HELLO and FEATURES_REQUEST in one chunk**: the second is lost. -/
theorem events_of_coalesced :
    cpEvents 3 started (fun _ => 0) plainRounds [shortMsg ofptHello, shortMsg ofptFeaturesRequest]
      = some [eRecvHello, eFeatureRequest] ∧
    cpEvents 3 started (fun _ => 0) plainRounds
      [shortMsg ofptHello ++ shortMsg ofptFeaturesRequest] = some [eRecvHello] ∧
    ¬ SameEvents 3 started (fun _ => 0) plainRounds [8, 8] [16] := by
  have hmsgs : cpEvents 3 started (fun _ => 0) plainRounds
      [shortMsg ofptHello, shortMsg ofptFeaturesRequest] = some [eRecvHello, eFeatureRequest] := by
    decide +kernel
  have hchunk : cpEvents 3 started (fun _ => 0) plainRounds
      [shortMsg ofptHello ++ shortMsg ofptFeaturesRequest] = some [eRecvHello] := by
    decide +kernel
  have hwf : ∀ m ∈ [shortMsg ofptHello, shortMsg ofptFeaturesRequest], IsMsg m := by
    intro m hm
    have hm : m = shortMsg ofptHello ∨ m = shortMsg ofptFeaturesRequest := by simpa using hm
    rcases hm with rfl | rfl <;> exact ⟨by decide, by decide +kernel⟩
  refine ⟨hmsgs, hchunk, ?_⟩
  intro h
  have heq := h [shortMsg ofptHello, shortMsg ofptFeaturesRequest]
    [shortMsg ofptHello ++ shortMsg ofptFeaturesRequest] rfl hwf rfl rfl
  rw [hmsgs, hchunk] at heq
  exact absurd heq (by decide)

end Ofpagent.Agent
