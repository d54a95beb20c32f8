/-
# When a timer fires

`Refine.lean` has the timers of the list as a set.  Here is what one of them does, among any others:
`soloStep` is a facility with a single timer, the one with the key `k`, which knows the time that is
left and nothing else.

* `sent_of_key`: what the list sends under a key is what that facility sends, as long as the events
  fit their field of eight bits and the keys in use are no more than there are blocks; so no timer
  delays, silences or fires another one;
* `expiry_of_start`: under the same two conditions, a timer that is neither started again nor stopped
  fires once, in the first tick that brings the time passed since its start to its delay, and not
  before.
-/
import Ofpagent.Timer.Refine

namespace Ofpagent.Timer

open Ofpagent.Lib

/-! ## 1. One timer -/

/-- The key that a primitive is for. -/
def primKey (x : IpcId × IpcPrim) : Ptr × UInt16 := (x.2.ccb, x.2.evt.toUInt16)

/-- What is sent under a key. -/
def sentFor (k : Ptr × UInt16) (out : Sent) : Sent := out.filter fun x => primKey x == k

/-- The facility with the one timer: it is live, with the time that is left, or it is not. -/
def soloStep (k : Ptr × UInt16) (c : Option (Tmr × ℕ)) : TmrOp → Option (Tmr × ℕ) × Sent
  | .start a => if (some a.ccb, a.event) = k then (some (a.tmr, a.delay.toNat), []) else (c, [])
  | .stopXtmr ccb event => if (ccb, event) = k then (none, []) else (c, [])
  | .stopTmrs ccb => if ccb = k.1 then (none, []) else (c, [])
  | .tick delta =>
    match c with
    | none => (none, [])
    | some (t, r) =>
      if r ≤ delta.toNat then (none, [t.prim]) else (some (t, r - delta.toNat), [])

def soloRun (k : Ptr × UInt16) : Option (Tmr × ℕ) → List TmrOp → Option (Tmr × ℕ) × List Sent
  | c, [] => (c, [])
  | c, op :: ops =>
    let r := soloStep k c op
    let rs := soloRun k r.1 ops
    (rs.1, r.2 :: rs.2)

/-- The key that is started. -/
def TmrOp.startKey : TmrOp → Option (Ptr × UInt16)
  | .start a => some (some a.ccb, a.event)
  | _ => none

def startKeys (ops : List TmrOp) : List (Ptr × UInt16) := ops.filterMap TmrOp.startKey

/-- The timers of the set with the key. -/
def keyed (k : Ptr × UInt16) (s : TimerSet) : TimerSet := s.filter fun x => x.1.key == k

section Keyed

variable {k : Ptr × UInt16} {s : TimerSet} {c : Option (Tmr × ℕ)}

/-- Starting, with a block for the timer. -/
theorem keyed_startTmr {a : StartArgs} (h : keyed k s = c.toList) (hev : a.event ≤ 255)
    (hroom : (some a.ccb, a.event) ∈ s.map (fun x => x.1.key) ∨ s.length < maxTmrCbNum) :
    keyed k (s.start a) = (soloStep k c (.start a)).1.toList := by
  have hcond : ((s.any fun x => x.1.key == (some a.ccb, a.event)) ||
      decide (s.length < maxTmrCbNum)) = true := by
    rw [Bool.or_eq_true, decide_eq_true_iff]
    refine hroom.imp_left fun hmem => ?_
    obtain ⟨x, hx, hkey⟩ := List.mem_map.mp hmem
    exact List.any_eq_true.mpr ⟨x, hx, by rw [hkey, beq_self_eq_true]⟩
  rw [TimerSet.start, if_pos hcond, keyed, List.filter_append, List.filter_filter, soloStep]
  have hnew : a.tmr.key = (some a.ccb, a.event) := a.key_tmr hev
  by_cases hk : (some a.ccb, a.event) = k
  · simp [hnew, hk]
  · have hsame : (s.filter fun x => x.1.key == k && x.1.key != (some a.ccb, a.event))
        = keyed k s := by
      refine List.filter_congr fun x _ => ?_
      by_cases hx : x.1.key = k
      · simp [hx, Ne.symm hk]
      · simp [hx]
    simp [hsame, hnew, hk, h]

/-- Stopping what `p` is true of, which is the timer with the key or is not. -/
theorem keyed_filter {p : Tmr → Bool} {b : Prop} [Decidable b] (h : keyed k s = c.toList)
    (hp : ∀ t : Tmr, t.key = k → (p t = false ↔ b)) :
    keyed k (s.filter fun x => p x.1) = (if b then none else c).toList := by
  have hcomm : keyed k (s.filter fun x => p x.1) = (keyed k s).filter fun x => p x.1 := by
    rw [keyed, keyed, List.filter_filter, List.filter_filter]
    exact List.filter_congr fun x _ => Bool.and_comm _ _
  have hkeys : ∀ x ∈ keyed k s, x.1.key = k := fun x hx => by
    simpa using (List.mem_filter.mp hx).2
  rw [hcomm]
  split_ifs with hb
  · exact List.filter_eq_nil_iff.mpr fun x hx => by simp [(hp x.1 (hkeys x hx)).mpr hb]
  · rw [← h]
    refine List.filter_eq_self.mpr fun x hx => ?_
    exact Bool.not_eq_false _ ▸ fun hf => hb ((hp x.1 (hkeys x hx)).mp hf)

theorem keyed_elapse (h : keyed k s = c.toList) (delta : ℤ) :
    keyed k (s.elapse delta.toNat) = (soloStep k c (.tick delta)).1.toList := by
  have hcomm : keyed k (s.elapse delta.toNat) = (keyed k s).elapse delta.toNat := by
    rw [keyed, TimerSet.elapse, List.filter_map, TimerSet.elapse, keyed, List.filter_filter,
      List.filter_filter]
    exact congrArg _ (List.filter_congr fun x _ => Bool.and_comm _ _)
  rw [hcomm, h]
  cases c with
  | none => rfl
  | some x =>
    by_cases hr : x.2 ≤ delta.toNat
    · simp [soloStep, TimerSet.elapse, hr, not_lt.mpr hr]
    · simp [soloStep, TimerSet.elapse, hr, not_le.mp hr]

theorem sentFor_fired (h : keyed k s = c.toList) (delta : ℤ) :
    sentFor k (s.fired delta.toNat) = (soloStep k c (.tick delta)).2 := by
  have hcomm : sentFor k (s.fired delta.toNat) = (keyed k s).fired delta.toNat := by
    rw [sentFor, TimerSet.fired, List.filter_map, List.filter_filter, TimerSet.fired, keyed,
      ← DeltaQueue.filter_byTime, List.filter_filter]
    exact congrArg _ (List.filter_congr fun x _ => Bool.and_comm _ _)
  rw [hcomm, h]
  cases c with
  | none => rfl
  | some x =>
    by_cases hr : x.2 ≤ delta.toNat
    · simp [soloStep, TimerSet.fired, DeltaQueue.byTime, hr]
    · simp [soloStep, TimerSet.fired, DeltaQueue.byTime, hr]

/-- **One operation** on the set is one on the timer. -/
theorem keyed_step {op : TmrOp} (h : keyed k s = c.toList) (hok : op.Ok)
    (hroom : ∀ key, op.startKey = some key →
      key ∈ s.map (fun x => x.1.key) ∨ s.length < maxTmrCbNum) :
    keyed k (refStep s op).1 = (soloStep k c op).1.toList ∧
      sentFor k (refStep s op).2 = (soloStep k c op).2 := by
  cases op with
  | start a =>
    refine ⟨keyed_startTmr h hok (hroom _ rfl), ?_⟩
    simp only [refStep, soloStep]
    split_ifs <;> rfl
  | stopXtmr ccb event =>
    have hstop := keyed_filter (p := fun t => t.key != (ccb, event)) (b := (ccb, event) = k) h
      fun t ht => by rw [ht, bne_eq_false_iff_eq]; exact eq_comm
    simp only [refStep, soloStep, TimerSet.stopXtmr]
    rw [hstop]
    split_ifs <;> exact ⟨rfl, rfl⟩
  | stopTmrs ccb =>
    have hstop := keyed_filter (p := fun t => t.ccb != ccb) (b := ccb = k.1) h
      fun t ht => by rw [bne_eq_false_iff_eq, ← ht]; exact eq_comm
    simp only [refStep, soloStep, TimerSet.stopTmrs]
    rw [hstop]
    split_ifs <;> exact ⟨rfl, rfl⟩
  | tick delta => exact ⟨keyed_elapse h delta, sentFor_fired h delta⟩

end Keyed

/-! ## 2. Runs -/

/-- The keys of the set are among `U`, which the blocks are enough for. -/
theorem room_of_subset {s : TimerSet} {U : List (Ptr × UInt16)} {key : Ptr × UInt16}
    (hnd : (s.map fun x => x.1.key).Nodup) (hs : (s.map fun x => x.1.key) ⊆ U) (hkey : key ∈ U)
    (hU : U.length ≤ maxTmrCbNum) :
    key ∈ s.map (fun x => x.1.key) ∨ s.length < maxTmrCbNum := by
  by_contra hno
  obtain ⟨hout, hlen⟩ := not_or.mp hno
  have hsub : key :: s.map (fun x => x.1.key) ⊆ U := List.cons_subset.mpr ⟨hkey, hs⟩
  have hle := ((List.nodup_cons.mpr ⟨hout, hnd⟩).subperm hsub).length_le
  rw [List.length_cons, List.length_map] at hle
  omega

theorem keys_refStep {s : TimerSet} {op : TmrOp} {U : List (Ptr × UInt16)} (hok : op.Ok)
    (hs : (s.map fun x => x.1.key) ⊆ U) (hop : ∀ key, op.startKey = some key → key ∈ U) :
    ((refStep s op).1.map fun x => x.1.key) ⊆ U := by
  have hsub : ∀ p : Tmr × ℕ → Bool, ((s.filter p).map fun x => x.1.key) ⊆ U := by
    intro p key hkey
    obtain ⟨x, hx, hxkey⟩ := List.mem_map.mp hkey
    exact hs (List.mem_map.mpr ⟨x, List.mem_of_mem_filter hx, hxkey⟩)
  cases op with
  | start a =>
    rw [refStep, TimerSet.start]
    split_ifs
    · rw [List.map_append]
      refine List.append_subset.mpr ⟨hsub _, ?_⟩
      rw [List.map_singleton, a.key_tmr hok]
      exact List.cons_subset.mpr ⟨hop _ rfl, List.nil_subset _⟩
    · exact hs
  | stopXtmr ccb event => exact hsub _
  | stopTmrs ccb => exact hsub _
  | tick delta =>
    rw [refStep, TimerSet.elapse, List.map_map]
    exact hsub _

/-- The operations, from any represented state. -/
theorem Rep.run_keyed {U : List (Ptr × UInt16)} (hU : U.length ≤ maxTmrCbNum) {ops : List TmrOp}
    {shm : TmrCbs} {l : List TmrIdx} {s : TimerSet} {k : Ptr × UInt16} {c : Option (Tmr × ℕ)}
    (h : Rep shm l s) (hok : ∀ op ∈ ops, op.Ok) (hc : keyed k s = c.toList)
    (hs : (s.map fun x => x.1.key) ⊆ U) (hops : startKeys ops ⊆ U) :
    (refRun s ops).2.map (sentFor k) = (soloRun k c ops).2 := by
  induction ops generalizing shm l s c with
  | nil => rfl
  | cons op ops ih =>
    have hop : ∀ key, op.startKey = some key → key ∈ U := fun key hkey =>
      hops (List.mem_filterMap.mpr ⟨op, List.mem_cons_self, hkey⟩)
    have hok1 := hok op List.mem_cons_self
    obtain ⟨hc', hout⟩ := keyed_step hc hok1 fun key hkey =>
      room_of_subset h.keys hs (hop key hkey) hU
    obtain ⟨shm', l', -, h'⟩ := h.step hok1
    have hrest : startKeys ops ⊆ U := fun key hkey => by
      obtain ⟨o, ho, hkey⟩ := List.mem_filterMap.mp hkey
      exact hops (List.mem_filterMap.mpr ⟨o, List.mem_cons_of_mem _ ho, hkey⟩)
    rw [refRun, soloRun]
    simp only [List.map_cons, hout,
      ih h' (fun o ho => hok o (List.mem_cons_of_mem _ ho)) hc' (keys_refStep hok1 hs hop) hrest]

/-- The set of timers sends under a key what a facility with that one timer sends. -/
theorem solo_of_init (shm : TmrCbs) {ops : List TmrOp} (hok : ∀ op ∈ ops, op.Ok)
    (hkeys : (startKeys ops).dedup.length ≤ maxTmrCbNum) (k : Ptr × UInt16) :
    (refRun [] ops).2.map (sentFor k) = (soloRun k none ops).2 :=
  (rep_init shm).run_keyed hkeys hok rfl (List.nil_subset _)
    fun _ hkey => List.mem_dedup.mpr hkey

/-- **No timer interferes with another**: along every sequence of operations from
`OSTMR_InitTmrCbs` with events of at most 255 that uses no more keys than there are blocks, what is
sent under a key is what a facility with that one timer sends. -/
theorem sent_of_key (shm : TmrCbs) {ops : List TmrOp} (hok : ∀ op ∈ ops, op.Ok)
    (hkeys : (startKeys ops).dedup.length ≤ maxTmrCbNum) (k : Ptr × UInt16) :
    ∃ shm' outs, tmrRun (ostmrInitTmrCbs shm) ops = some (shm', outs) ∧
      outs.map (sentFor k) = (soloRun k none ops).2 := by
  obtain ⟨shm', l, hrun, -⟩ := (rep_init shm).run hok
  exact ⟨shm', _, hrun, solo_of_init shm hok hkeys k⟩

/-- A timer of another port is stopped; this one fires. -/
theorem sent_of_key_other : ∃ shm' outs, tmrRun (ostmrInitTmrCbs zeroShm)
      [.start (ofpTxT 7 addr1 400000), .start (ofpTxT 7 addr2 300000), .stopTmrs (some addr2),
        .tick 500000] = some (shm', outs) ∧
    outs.map (sentFor (some addr1, 6)) = [[], [], [], [(ofpTxT 7 addr1 400000).tmr.prim]] := by
  have hok : ∀ op ∈ [TmrOp.start (ofpTxT 7 addr1 400000), .start (ofpTxT 7 addr2 300000),
      .stopTmrs (some addr2), .tick 500000], op.Ok := by
    simp [TmrOp.Ok, ofpTxT, sec]
  obtain ⟨shm', outs, hrun, houts⟩ := sent_of_key zeroShm hok (by decide) (some addr1, 6)
  exact ⟨shm', outs, hrun, houts.trans (by decide)⟩

/-! ## 3. The time of a timer -/

/-- The operation starts or stops the timer with the key. -/
def TmrOp.touches (k : Ptr × UInt16) : TmrOp → Prop
  | .start a => (some a.ccb, a.event) = k
  | .stopXtmr ccb event => (ccb, event) = k
  | .stopTmrs ccb => ccb = k.1
  | .tick _ => False

/-- The time that an operation lets pass. -/
def TmrOp.passed : TmrOp → ℕ
  | .tick delta => delta.toNat
  | _ => 0

/-- The time that passes in a sequence of operations. -/
def passed (ops : List TmrOp) : ℕ := (ops.map TmrOp.passed).sum

/-- No tick of the operations brings the time passed to `r`. -/
def Waits (r : ℕ) (ops : List TmrOp) : Prop :=
  passed ops < r ∨ ∀ delta, TmrOp.tick delta ∉ ops

section Solo

variable {k : Ptr × UInt16} {t : Tmr} {r : ℕ} {ops : List TmrOp}

theorem Waits.tail {op : TmrOp} (h : Waits r (op :: ops)) : Waits (r - op.passed) ops := by
  rcases h with h | h
  · left
    simp only [passed, List.map_cons, List.sum_cons] at h ⊢
    omega
  · exact .inr fun delta hmem => h delta (List.mem_cons_of_mem _ hmem)

/-- An operation that leaves the timer alone, and waits. -/
theorem soloStep_waits {op : TmrOp} (hop : ¬ op.touches k) (h : Waits r (op :: ops)) :
    soloStep k (some (t, r)) op = (some (t, r - op.passed), []) := by
  cases op with
  | tick delta =>
    have hlt : delta.toNat < r := by
      rcases h with h | h
      · simp only [passed, List.map_cons, TmrOp.passed, List.sum_cons] at h
        omega
      · exact absurd List.mem_cons_self (h delta)
    rw [soloStep, if_neg (not_le.mpr hlt)]
    rfl
  | start a => exact if_neg hop
  | stopXtmr ccb event => exact if_neg hop
  | stopTmrs ccb => exact if_neg hop

/-- It goes on waiting. -/
theorem soloRun_waits (hops : ∀ op ∈ ops, ¬ op.touches k) (h : Waits r ops) :
    soloRun k (some (t, r)) ops = (some (t, r - passed ops), List.replicate ops.length []) := by
  induction ops generalizing r with
  | nil => rfl
  | cons op ops ih =>
    have hrest := ih (fun o ho => hops o (List.mem_cons_of_mem _ ho)) h.tail
    have hsum : r - op.passed - passed ops = r - passed (op :: ops) := by
      simp only [passed, List.map_cons, List.sum_cons]
      omega
    simp only [soloRun, soloStep_waits (hops op List.mem_cons_self) h, hrest, hsum,
      List.length_cons, List.replicate_succ]

/-- A timer that is not live is silent until it is started. -/
theorem soloRun_none (hops : ∀ op ∈ ops, op.startKey ≠ some k) :
    soloRun k none ops = (none, List.replicate ops.length []) := by
  induction ops with
  | nil => rfl
  | cons op ops ih =>
    have hop := hops op List.mem_cons_self
    have hstep : soloStep k none op = (none, []) := by
      cases op with
      | start a => rw [soloStep, if_neg fun hk => hop (congrArg some hk)]
      | stopXtmr ccb event => simp [soloStep]
      | stopTmrs ccb => simp [soloStep]
      | tick delta => rfl
    simp only [soloRun, hstep, ih fun o ho => hops o (List.mem_cons_of_mem _ ho),
      List.length_cons, List.replicate_succ]

theorem soloRun_append (c : Option (Tmr × ℕ)) (ops ops' : List TmrOp) :
    (soloRun k c (ops ++ ops')).2
      = (soloRun k c ops).2 ++ (soloRun k (soloRun k c ops).1 ops').2 := by
  induction ops generalizing c with
  | nil => rfl
  | cons op ops ih => simp only [List.cons_append, soloRun, ih]

theorem soloRun_length (c : Option (Tmr × ℕ)) (ops : List TmrOp) :
    (soloRun k c ops).2.length = ops.length := by
  induction ops generalizing c with
  | nil => rfl
  | cons op ops ih => simp only [soloRun, List.length_cons, ih]

theorem startKey_of_touches {op : TmrOp} (h : ¬ op.touches k) : op.startKey ≠ some k := by
  cases op with
  | start a => exact fun hk => h (Option.some.inj hk)
  | _ => nofun

/-- The tick that is due. -/
theorem soloRun_fires {p q : List TmrOp} {delta : ℤ} (hp : ∀ op ∈ p ++ q, ¬ op.touches k)
    (hwait : Waits r p) (hdue : r ≤ passed p + delta.toNat) :
    (soloRun k (some (t, r)) (p ++ .tick delta :: q)).2
      = List.replicate p.length [] ++ [t.prim] :: List.replicate q.length [] := by
  have hfire : soloStep k (some (t, r - passed p)) (.tick delta) = (none, [t.prim]) := by
    rw [soloStep, if_pos (by omega)]
  rw [soloRun_append, soloRun_waits (fun op ho => hp op (List.mem_append_left _ ho)) hwait]
  simp only [soloRun, hfire,
    soloRun_none fun op ho => startKey_of_touches (hp op (List.mem_append_right _ ho))]

end Solo

/-- **A timer fires when its delay is up**, along the same sequences: behind a start, as long as
nothing starts or stops the timer, the primitive with its queue, event and `ccb` is sent once, in the first tick that brings
the time passed to the delay; and nothing is sent under its key while no tick does. -/
theorem expiry_of_start (shm : TmrCbs) {pre post : List TmrOp} {a : StartArgs}
    (hok : ∀ op ∈ pre ++ .start a :: post, op.Ok)
    (hkeys : (startKeys (pre ++ .start a :: post)).dedup.length ≤ maxTmrCbNum)
    (hpost : ∀ op ∈ post, ¬ op.touches (some a.ccb, a.event)) :
    ∃ shm' outs, tmrRun (ostmrInitTmrCbs shm) (pre ++ .start a :: post) = some (shm', outs) ∧
      (Waits a.delay.toNat post → (outs.drop (pre.length + 1)).map (sentFor (some a.ccb, a.event))
        = List.replicate post.length []) ∧
      ∀ p delta q, post = p ++ .tick delta :: q → Waits a.delay.toNat p →
        a.delay.toNat ≤ passed p + delta.toNat →
        (outs.drop (pre.length + 1)).map (sentFor (some a.ccb, a.event))
          = List.replicate p.length [] ++ [a.tmr.prim] :: List.replicate q.length [] := by
  obtain ⟨shm', l, hrun, -⟩ := (rep_init shm).run hok
  set outs := (refRun [] (pre ++ .start a :: post)).2
  have houts := solo_of_init shm hok hkeys (some a.ccb, a.event)
  have hstart : ∀ c, soloStep (some a.ccb, a.event) c (.start a)
      = (some (a.tmr, a.delay.toNat), []) := fun c => if_pos rfl
  have hdrop : (outs.drop (pre.length + 1)).map (sentFor (some a.ccb, a.event))
      = (soloRun (some a.ccb, a.event) (some (a.tmr, a.delay.toNat)) post).2 := by
    rw [List.map_drop, houts, soloRun_append, soloRun, hstart,
      ← soloRun_length (k := (some a.ccb, a.event)) none pre, List.drop_length_add_append]
    rfl
  refine ⟨shm', outs, hrun, fun hwait => ?_, ?_⟩
  · rw [hdrop, soloRun_waits hpost hwait]
  · rintro p delta q rfl hwait hdue
    rw [hdrop, soloRun_fires (fun op hop => hpost op ?_) hwait hdue]
    simp only [List.mem_append, List.mem_cons] at hop ⊢
    exact hop.imp_right Or.inr

/-- A timer of one second fires in the second of two ticks of half a second. -/
theorem expiry_of_start_second : ∃ shm' outs, tmrRun (ostmrInitTmrCbs zeroShm)
      ([] ++ .start (ofpTxT 7 addr1 1000000) :: [.tick 500000, .tick 500000]) = some (shm', outs) ∧
    (outs.drop 1).map (sentFor (some addr1, 6)) = [[], [(ofpTxT 7 addr1 1000000).tmr.prim]] := by
  have hok : ∀ op ∈ [] ++ TmrOp.start (ofpTxT 7 addr1 1000000) :: [.tick 500000, .tick 500000],
      op.Ok := by
    simp [TmrOp.Ok, ofpTxT, sec]
  obtain ⟨shm', outs, hrun, -, hfires⟩ := expiry_of_start zeroShm hok (by decide)
    (by simp [TmrOp.touches])
  exact ⟨shm', outs, hrun, hfires [.tick 500000] 500000 [] rfl (.inl (by decide)) (by decide)⟩

end Ofpagent.Timer
