/-
# The delta-queue timer refines a set of timers with deadlines

`TimerSet` says what a timer facility is for, without lists of blocks and differences: the
live timers, in the order they were started in, each with the time that is left.  Starting
one adds it (or replaces the one with its key), stopping removes, and a tick fires the due
ones in order of their times and lowers the others.

* `tmrRun`: the source's operations, one after another, with what each tick sends;
* `refRun`: the same operations on the set;
* `Rep shm l s`: the memory `shm` with the list `l` is in the state `s`.

`tmrRun_refines` is the result: along every sequence of operations from `OSTMR_InitTmrCbs`
the code is defined, sends what the set fires, keeps the set in the firing order `byTime`, and
never wraps.
-/
import Ofpagent.Timer.Lists

namespace Ofpagent.Timer

open Ofpagent.Lib
open scoped List

/-! ## 1. Operations and runs -/

/-- One call of the application, or one tick. -/
inductive TmrOp
  | start (a : StartArgs)
  | stopXtmr (ccb : Ptr) (event : UInt16)
  | stopTmrs (ccb : Ptr)
  | tick (delta : ℤ)

/-- What the source promises its own callers: an event is one of the few below 256 that fit
its field, and `os_tmr` cuts `delta` down to a second. -/
def TmrOp.Ok : TmrOp → Prop
  | start a => a.event ≤ 255
  | stopXtmr _ _ => True
  | stopTmrs _ => True
  | tick delta => 0 ≤ delta ∧ delta ≤ sec

/-- What an operation sends. -/
abbrev Sent := List (IpcId × IpcPrim)

/-- The source's operation: the memory behind it, and what it has sent. -/
def tmrStep (shm : TmrCbs) : TmrOp → Option (TmrCbs × Sent)
  | .start a => (ostmrStartTmr shm a).map fun shm' => (shm', [])
  | .stopXtmr ccb event => (ostmrStopXtmr shm ccb event).map fun shm' => (shm', [])
  | .stopTmrs ccb => (ostmrStopTmrs shm ccb).map fun shm' => (shm', [])
  | .tick delta => osTmrTick shm delta

/-- The operations one after another, and what each has sent. -/
def tmrRun : TmrCbs → List TmrOp → Option (TmrCbs × List Sent)
  | shm, [] => some (shm, [])
  | shm, op :: ops =>
    match tmrStep shm op with
    | none => none
    | some (shm', out) => (tmrRun shm' ops).map fun r => (r.1, out :: r.2)

/-! ## 2. The set of timers -/

/-- The live timers in start order, each with its remaining time. -/
abbrev TimerSet := List (Tmr × ℕ)

/-- What a timer sends when it fires. -/
def Tmr.prim (t : Tmr) : IpcId × IpcPrim := (t.que, ⟨ipcEvTypeTmr, t.event, t.ccb⟩)

namespace TimerSet

/-- Start, or replace: nothing happens when the timer is new and the pool is used up. -/
def start (s : TimerSet) (a : StartArgs) : TimerSet :=
  if (s.any fun x => x.1.key == (some a.ccb, a.event)) || decide (s.length < maxTmrCbNum) then
    (s.filter fun x => x.1.key != (some a.ccb, a.event)) ++ [(a.tmr, a.delay.toNat)]
  else s

def stopXtmr (s : TimerSet) (ccb : Ptr) (event : UInt16) : TimerSet :=
  s.filter fun x => x.1.key != (ccb, event)

def stopTmrs (s : TimerSet) (ccb : Ptr) : TimerSet := s.filter fun x => x.1.ccb != ccb

/-- What fires within `δ`, in order. -/
def fired (s : TimerSet) (δ : ℕ) : Sent :=
  ((DeltaQueue.byTime s).filter fun x => decide (x.2 ≤ δ)).map fun x => x.1.prim

/-- What is left after `δ`. -/
def elapse (s : TimerSet) (δ : ℕ) : TimerSet :=
  (s.filter fun x => decide (δ < x.2)).map fun x => (x.1, x.2 - δ)

end TimerSet

/-- One operation on the set. -/
def refStep (s : TimerSet) : TmrOp → TimerSet × Sent
  | .start a => (s.start a, [])
  | .stopXtmr ccb event => (s.stopXtmr ccb event, [])
  | .stopTmrs ccb => (s.stopTmrs ccb, [])
  | .tick delta => (s.elapse delta.toNat, s.fired delta.toNat)

/-- The operations one after another on the set. -/
def refRun : TimerSet → List TmrOp → TimerSet × List Sent
  | s, [] => (s, [])
  | s, op :: ops =>
    let r := refStep s op
    let rs := refRun r.1 ops
    (rs.1, r.2 :: rs.2)

/-! ## 3. The representation -/

/-- The list, as timers with their remaining times. -/
def timers (shm : TmrCbs) (l : List TmrIdx) : List (Tmr × ℕ) :=
  (remaining shm l).map fun x => (tmrOf (shm.tcb x.1), x.2)

/-- The memory `shm`, whose list is `l`, is in the state `s`. -/
structure Rep (shm : TmrCbs) (l : List TmrIdx) (s : TimerSet) : Prop where
  linked : Linked shm l
  idle : ∀ i, (shm.tcb i).idle = decide (i ∉ l)
  fits : Fits shm l
  keys : (s.map fun x => x.1.key).Nodup
  wrapped : shm.wrapped = false
  order : timers shm l = DeltaQueue.byTime s

theorem timers_map_fst (shm : TmrCbs) (l : List TmrIdx) :
    (timers shm l).map Prod.fst = l.map fun i => tmrOf (shm.tcb i) := by
  have h := congrArg (List.map fun i => tmrOf (shm.tcb i)) (remaining_map_fst shm l)
  rw [List.map_map] at h
  rw [timers, List.map_map]
  exact h

/-- The blocks of the list hold the timers of the set, in some order. -/
theorem Rep.perm {shm : TmrCbs} {l : List TmrIdx} {s : TimerSet} (h : Rep shm l s) :
    (l.map fun i => tmrOf (shm.tcb i)) ~ s.map Prod.fst := by
  rw [← timers_map_fst, h.order]
  exact (DeltaQueue.byTime_perm s).map _

theorem Rep.length {shm : TmrCbs} {l : List TmrIdx} {s : TimerSet} (h : Rep shm l s) :
    l.length = s.length := by
  simpa using h.perm.length_eq

theorem Rep.keys_list {shm : TmrCbs} {l : List TmrIdx} {s : TimerSet} (h : Rep shm l s) :
    (l.map fun i => (tmrOf (shm.tcb i)).key).Nodup := by
  have hp := h.perm.map Tmr.key
  rw [List.map_map, List.map_map] at hp
  exact hp.nodup_iff.mpr h.keys

/-- An operation that removes exactly the timers failing `p`. -/
theorem Rep.removed {shm shm' : TmrCbs} {l l' : List TmrIdx} {s : TimerSet} (h : Rep shm l s)
    (hr : Removed shm shm' l l') (p : Tmr → Bool)
    (hp : ∀ i ∈ l, (i ∈ l' ↔ p (tmrOf (shm.tcb i)) = true)) :
    Rep shm' l' (s.filter fun x => p x.1) where
  linked := hr.linked
  idle i := by
    have := hr.sub.subset (a := i)
    rw [hr.idle, h.idle]
    by_cases hl : i ∈ l <;> by_cases hl' : i ∈ l' <;> simp_all
  fits := hr.fits h.fits
  keys := h.keys.sublist (List.filter_sublist.map _)
  wrapped := (hr.exact h.fits).1.trans h.wrapped
  order := by
    have hmem : ∀ x ∈ remaining shm l, x.1 ∈ l := by
      intro x hx
      rw [← remaining_map_fst shm l]
      exact List.mem_map_of_mem hx
    calc timers shm' l'
        = ((remaining shm l).filter fun x => decide (x.1 ∈ l')).map
            fun x => (tmrOf (shm.tcb x.1), x.2) := by
          rw [timers, (hr.exact h.fits).2]
          exact List.map_congr_left fun x _ => by rw [hr.same x.1]
      _ = ((remaining shm l).filter fun x => p (tmrOf (shm.tcb x.1))).map
            fun x => (tmrOf (shm.tcb x.1), x.2) := by
          congr 1
          refine List.filter_congr fun x hx => ?_
          rw [Bool.eq_iff_iff, decide_eq_true_iff, hp x.1 (hmem x hx)]
      _ = (timers shm l).filter fun x => p x.1 := by
          rw [timers, List.filter_map]
          rfl
      _ = DeltaQueue.byTime (s.filter fun x => p x.1) := by
          rw [h.order, DeltaQueue.filter_byTime]

/-! ## 4. The operations -/

/-- `OSTMR_InitTmrCbs` starts with no timer. -/
theorem rep_init (shm : TmrCbs) : Rep (ostmrInitTmrCbs shm) [] [] where
  linked := rfl
  idle := by simp [ostmrInitTmrCbs]
  fits := by simp [Fits, remaining]
  keys := List.nodup_nil
  wrapped := rfl
  order := rfl

theorem Rep.stopXtmr {shm : TmrCbs} {l : List TmrIdx} {s : TimerSet} (h : Rep shm l s)
    (ccb : Ptr) (event : UInt16) :
    ∃ shm' l', ostmrStopXtmr shm ccb event = some shm' ∧ Rep shm' l' (s.stopXtmr ccb event) := by
  obtain ⟨shm', hs, hr⟩ := ostmrStopXtmr_spec h.linked ccb event
  rw [isXtmr_eq, eraseP_eq_filter (fun i => (tmrOf (shm.tcb i)).key) _ h.keys_list] at hr
  refine ⟨shm', _, hs, h.removed hr (fun t => t.key != (ccb, event)) fun i hi => ?_⟩
  simp [hi]

theorem Rep.stopTmrs {shm : TmrCbs} {l : List TmrIdx} {s : TimerSet} (h : Rep shm l s)
    (ccb : Ptr) :
    ∃ shm' l', ostmrStopTmrs shm ccb = some shm' ∧ Rep shm' l' (s.stopTmrs ccb) := by
  obtain ⟨shm', hs, hr⟩ := ostmrStopTmrs_spec h.linked ccb
  refine ⟨shm', _, hs, h.removed hr (fun t => t.ccb != ccb) fun i hi => ?_⟩
  simp [hi, tmrOf]

/-- Allocation, filling and insertion of a timer whose key is not in use. -/
theorem Rep.insert {shm : TmrCbs} {l : List TmrIdx} {s : TimerSet} (h : Rep shm l s)
    {a : StartArgs} (hev : a.event ≤ 255) {tcb : TmrIdx} (hidle : (shm.tcb tcb).idle = true)
    (hkey : (some a.ccb, a.event) ∉ s.map fun x => x.1.key) :
    ∃ shm' l' b, insertTmr (fillTmr (shm.modify tcb fun c => { c with idle := false }) a tcb) tcb
        = some (shm', b) ∧ Rep shm' l' (s ++ [(a.tmr, a.delay.toNat)]) := by
  have hni : tcb ∉ l := by simpa [h.idle] using hidle
  set shm1 := shm.modify tcb fun c => { c with idle := false } with hshm1
  obtain ⟨hhdr, hwrap, hother, htmr, htime, hnext, hfree⟩ := fillTmr_spec shm1 a tcb
  set shm2 := fillTmr shm1 a tcb with hshm2
  have hkeep : ∀ i ∈ l, shm2.tcb i = shm.tcb i := by
    intro i hi
    have hne : i ≠ tcb := fun e => hni (e ▸ hi)
    rw [hother i hne, hshm1, modify_tcb, if_neg hne]
  have hlinked2 : Linked shm2 l := h.linked.of_same (fun i hi => by rw [hkeep i hi]) hhdr
  obtain ⟨shm', l₁, l₂, hins, hi⟩ := insertTmr_spec hlinked2 hni hnext
  have hents2 : entries shm2 l = entries shm l := entries_congr fun i hi => by rw [hkeep i hi]
  have hrem : remaining shm' (l₁ ++ tcb :: l₂)
      = DeltaQueue.insertAt tcb a.delay.toNat (remaining shm l) := by
    rw [remaining, hi.exact, htime, hents2, DeltaQueue.deadlines_insert, Nat.zero_add]
    rfl
  have htmrs : ∀ x ∈ remaining shm l, tmrOf (shm'.tcb x.1) = tmrOf (shm.tcb x.1) := by
    intro x hx
    have hx' := List.mem_map_of_mem (f := Prod.fst) hx
    rw [remaining_map_fst] at hx'
    rw [hi.same, hkeep _ hx']
  refine ⟨shm', _, _, hins, hi.linked, ?_, ?_, ?_, ?_, ?_⟩
  · intro i
    rw [hi.idle]
    by_cases hit : i = tcb
    · subst hit; simp [hfree, hshm1]
    · have hmem : i ∈ l ↔ i ∈ l₁ ∨ i ∈ l₂ := by rw [hi.split, List.mem_append]
      rw [hother i hit, hshm1, modify_tcb, if_neg hit, h.idle]
      simp [hit, hmem]
  · intro x hx
    rw [hrem] at hx
    rcases List.mem_cons.mp ((DeltaQueue.insertAt_perm _ _ _).mem_iff.mp hx) with rfl | hx
    · exact a.delay.toNat_lt
    · exact h.fits x hx
  · have hk : a.tmr.key = (some a.ccb, a.event) := a.key_tmr hev
    rw [List.map_append, List.map_singleton, hk]
    exact List.nodup_append.mpr ⟨h.keys, by simp, fun x hx y hy => by
      rw [List.mem_singleton.mp hy]
      exact fun e => hkey (e ▸ hx)⟩
  · exact hi.wrapped.trans (hwrap.trans h.wrapped)
  · have htcb : tmrOf (shm'.tcb tcb) = a.tmr := (hi.same tcb).trans htmr
    rw [timers, hrem, DeltaQueue.insertAt_map (fun i => tmrOf (shm'.tcb i)), htcb,
      List.map_congr_left fun x hx => by rw [htmrs x hx]]
    exact (congrArg (DeltaQueue.insertAt a.tmr a.delay.toNat) h.order).trans
      (DeltaQueue.insertAt_byTime a.tmr a.delay.toNat s)

/-- A stopped timer's key is free. -/
theorem key_notMem_stopXtmr (s : TimerSet) (ccb : Ptr) (event : UInt16) :
    (ccb, event) ∉ (s.stopXtmr ccb event).map fun x => x.1.key := by
  simp only [TimerSet.stopXtmr, List.mem_map, List.mem_filter, not_exists, not_and]
  rintro x ⟨-, hx⟩ he
  simp [he] at hx

/-- The pool has a free block behind the stop just when the set has room, or had the key. -/
theorem stopXtmr_length_lt {s : TimerSet} (hs : s.length ≤ maxTmrCbNum) (ccb : Ptr)
    (event : UInt16) :
    (s.stopXtmr ccb event).length < maxTmrCbNum ↔
      ((s.any fun x => x.1.key == (ccb, event)) || decide (s.length < maxTmrCbNum)) = true := by
  by_cases hany : ∃ x ∈ s, x.1.key = (ccb, event)
  · have hlt : (s.stopXtmr ccb event).length < s.length :=
      List.length_filter_lt_length_iff_exists.mpr (by simpa using hany)
    have hany' : (s.any fun x => x.1.key == (ccb, event)) = true := by
      simpa using hany
    rw [hany', Bool.true_or]
    exact ⟨fun _ => rfl, fun _ => by omega⟩
  · have hself : s.stopXtmr ccb event = s := by
      refine List.filter_eq_self.mpr fun x hx => ?_
      simpa using fun e => hany ⟨x, hx, e⟩
    have hany' : (s.any fun x => x.1.key == (ccb, event)) = false := by
      rw [List.any_eq_false]
      exact fun x hx => by simpa using fun e => hany ⟨x, hx, e⟩
    rw [hself, hany', Bool.false_or, decide_eq_true_iff]

theorem Rep.length_le {shm : TmrCbs} {l : List TmrIdx} {s : TimerSet} (h : Rep shm l s) :
    s.length ≤ maxTmrCbNum := by
  have := h.linked.length_lt
  rw [h.length] at this
  simp only [fuel] at this
  omega

/-- A list shorter than the pool leaves a block out. -/
theorem exists_notMem_of_length_lt {l : List TmrIdx} (h : l.length < maxTmrCbNum) :
    ∃ i, i ∉ l := by
  by_contra hno
  have hall : ∀ i, i ∈ l := by simpa using hno
  have hsub : Finset.univ ⊆ l.toFinset := fun i _ => List.mem_toFinset.mpr (hall i)
  have hcard := (Finset.card_le_card hsub).trans (List.toFinset_card_le l)
  simp only [Finset.card_univ, Fintype.card_fin] at hcard
  omega

theorem Rep.start {shm : TmrCbs} {l : List TmrIdx} {s : TimerSet} (h : Rep shm l s)
    {a : StartArgs} (hev : a.event ≤ 255) :
    ∃ shm' l', ostmrStartTmr shm a = some shm' ∧ Rep shm' l' (s.start a) := by
  obtain ⟨shm1, l1, hstop, h1⟩ := h.stopXtmr (some a.ccb) a.event
  have hroom := stopXtmr_length_lt h.length_le (some a.ccb) a.event
  rcases ostmrMallocTmrCb_cases shm1 with ⟨hm, hfull⟩ | ⟨tcb, hm, hidle⟩
  · -- no block: then there was nothing to stop, and nothing happens
    have hlen : ¬ (s.stopXtmr (some a.ccb) a.event).length < maxTmrCbNum := by
      rw [← h1.length]
      intro hlt
      obtain ⟨i, hi⟩ := exists_notMem_of_length_lt hlt
      have := hfull i
      rw [h1.idle] at this
      simp [hi] at this
    have hsame : s.stopXtmr (some a.ccb) a.event = s := by
      refine List.filter_eq_self.mpr fun x hx => ?_
      have hcond := mt hroom.mpr hlen
      simp only [Bool.or_eq_true, not_or, List.any_eq_true, not_exists, not_and] at hcond
      simpa using hcond.1 x hx
    refine ⟨shm1, l1, by simp [ostmrStartTmr, hstop, hm], ?_⟩
    rw [TimerSet.start, if_neg fun e => hlen (hroom.mpr e)]
    rwa [hsame] at h1
  · have hlen : (s.stopXtmr (some a.ccb) a.event).length < maxTmrCbNum := by
      rw [← h1.length]
      have hni : tcb ∉ l1 := by simpa [h1.idle] using hidle
      have := (List.nodup_cons.mpr ⟨hni, h1.linked.nodup⟩).length_le_card
      simpa using this
    obtain ⟨shm', l', b, hins, h'⟩ := h1.insert hev hidle (key_notMem_stopXtmr s _ _)
    refine ⟨shm', l', by simp [ostmrStartTmr, hstop, hm, hins], ?_⟩
    rw [TimerSet.start, if_pos (hroom.mp hlen)]
    exact h'

theorem Rep.tick {shm : TmrCbs} {l : List TmrIdx} {s : TimerSet} (h : Rep shm l s) {δ : ℤ}
    (h0 : 0 ≤ δ) (h1 : δ ≤ sec) :
    ∃ shm' l', osTmrTick shm δ = some (shm', s.fired δ.toNat) ∧
      Rep shm' l' (s.elapse δ.toNat) := by
  obtain ⟨shm1, δ', f, l', hl, h0', hle, hloop, hexp, hhead, hlinked1, hsame1, htime1, hidle1,
    hwrap1⟩ := tickLoop_spec l fuel shm δ h.linked h0 h1 h.linked.length_lt
  obtain ⟨hfree, hexact⟩ := tickFinal_spec hlinked1 h0' (hle.trans h1)
  obtain ⟨hwrap, hents⟩ := hexact fun a ha => by
    rw [htime1]
    exact Nat.le_of_lt (hhead a ha)
  have hents1 : entries shm1 l' = entries shm l' := entries_congr fun i _ => htime1 i
  have hsame' : SameTmr shm (tickFinal shm1 δ') := hsame1.trans hfree.same
  have hfired : f = ((remaining shm l).filter fun x => decide (x.2 ≤ δ.toNat)).map Prod.fst := by
    rw [remaining, ← DeltaQueue.tick_fired, DeltaQueue.tick, hexp]
  have hrem : remaining (tickFinal shm1 δ') l'
      = ((remaining shm l).filter fun x => decide (δ.toNat < x.2)).map
          fun x => (x.1, x.2 - δ.toNat) := by
    rw [remaining, hents, hents1, remaining, ← DeltaQueue.deadlines_tick, DeltaQueue.tick, hexp]
  refine ⟨tickFinal shm1 δ', l', ?_, hfree.linked, ?_, ?_, ?_, ?_, ?_⟩
  · -- what is sent: the due blocks of the list are the due timers of the set
    have hsent : (f.map fun i => ((shm.tcb i).que, primOf (shm.tcb i))) = s.fired δ.toNat := by
      rw [hfired, TimerSet.fired, ← h.order, timers, List.filter_map, List.map_map, List.map_map]
      rfl
    simp [osTmrTick, hloop, hsent]
  · intro i
    rw [hfree.idle, hidle1, h.idle, hl]
    have hdis := (List.nodup_append.mp (hl ▸ h.linked.nodup)).2.2
    by_cases hf : i ∈ f
    · have : i ∉ l' := fun hi => hdis i hf i hi rfl
      simp [hf, this]
    · simp [hf]
  · intro x hx
    rw [hrem] at hx
    obtain ⟨y, hy, rfl⟩ := List.mem_map.mp hx
    have := h.fits y (List.mem_of_mem_filter hy)
    simp only
    omega
  · rw [TimerSet.elapse, List.map_map]
    exact h.keys.sublist (List.filter_sublist.map _)
  · exact hwrap.trans (hwrap1.trans h.wrapped)
  · calc timers (tickFinal shm1 δ') l'
        = ((timers shm l).filter fun x => decide (δ.toNat < x.2)).map
            fun x => (x.1, x.2 - δ.toNat) := by
          rw [timers, hrem, timers, List.filter_map, List.map_map, List.map_map]
          exact List.map_congr_left fun x _ => by simp [hsame' x.1]
      _ = DeltaQueue.byTime (s.elapse δ.toNat) := by
          rw [h.order, DeltaQueue.filter_byTime, TimerSet.elapse]
          exact DeltaQueue.map_byTime fun x hx => by
            simpa using (List.mem_filter.mp hx).2

/-- **One operation.** -/
theorem Rep.step {shm : TmrCbs} {l : List TmrIdx} {s : TimerSet} (h : Rep shm l s) {op : TmrOp}
    (hok : op.Ok) :
    ∃ shm' l', tmrStep shm op = some (shm', (refStep s op).2) ∧ Rep shm' l' (refStep s op).1 := by
  cases op with
  | start a =>
    obtain ⟨shm', l', hs, h'⟩ := h.start hok
    exact ⟨shm', l', by simp [tmrStep, hs, refStep], h'⟩
  | stopXtmr ccb event =>
    obtain ⟨shm', l', hs, h'⟩ := h.stopXtmr ccb event
    exact ⟨shm', l', by simp [tmrStep, hs, refStep], h'⟩
  | stopTmrs ccb =>
    obtain ⟨shm', l', hs, h'⟩ := h.stopTmrs ccb
    exact ⟨shm', l', by simp [tmrStep, hs, refStep], h'⟩
  | tick delta =>
    obtain ⟨shm', l', hs, h'⟩ := h.tick hok.1 hok.2
    exact ⟨shm', l', by simp [tmrStep, hs, refStep], h'⟩

/-- Operations one after another, from any represented state. -/
theorem Rep.run {ops : List TmrOp} {shm : TmrCbs} {l : List TmrIdx} {s : TimerSet}
    (h : Rep shm l s) (hok : ∀ op ∈ ops, op.Ok) :
    ∃ shm' l', tmrRun shm ops = some (shm', (refRun s ops).2) ∧ Rep shm' l' (refRun s ops).1 := by
  induction ops generalizing shm l s with
  | nil => exact ⟨shm, l, rfl, h⟩
  | cons op ops ih =>
    obtain ⟨shm1, l1, hs, h1⟩ := h.step (hok op List.mem_cons_self)
    obtain ⟨shm', l', hr, h'⟩ := ih h1 fun o ho => hok o (List.mem_cons_of_mem _ ho)
    exact ⟨shm', l', by simp [tmrRun, hs, hr, refRun], h'⟩

/-! ## 5. The refinement -/

/-- **The timer refines the set of timers**, along every sequence of operations. -/
theorem tmrRun_refines (shm : TmrCbs) (ops : List TmrOp) (hok : ∀ op ∈ ops, op.Ok) :
    ∃ shm' l, tmrRun (ostmrInitTmrCbs shm) ops = some (shm', (refRun [] ops).2) ∧
      Linked shm' l ∧ timers shm' l = DeltaQueue.byTime (refRun [] ops).1 ∧
      (∀ i, (shm'.tcb i).idle = decide (i ∉ l)) ∧ shm'.wrapped = false := by
  obtain ⟨shm', l, hr, h⟩ := (rep_init shm).run hok
  exact ⟨shm', l, hr, h.linked, h.order, h.idle, h.wrapped⟩

/-- The keepalive timer, started again after a quarter of a second; then a second passes. -/
def restart : List TmrOp :=
  let a := ofpTxT 7 addr1 10000000
  [.start a, .tick 250000, .start a, .tick 1000000]

/-- It has nine seconds left. -/
theorem tmrRun_refines_restart : ∃ shm' l,
    tmrRun (ostmrInitTmrCbs zeroShm) restart = some (shm', [[], [], [], []]) ∧
      timers shm' l = [((ofpTxT 7 addr1 10000000).tmr, 9000000)] := by
  have href : refRun [] restart
      = ([((ofpTxT 7 addr1 10000000).tmr, 9000000)], [[], [], [], []]) := by
    decide +kernel
  obtain ⟨shm', l, hr, -, ht, -⟩ := tmrRun_refines zeroShm restart
    (by simp [restart, TmrOp.Ok, ofpTxT, sec])
  rw [href] at hr ht
  exact ⟨shm', l, hr, ht⟩

end Ofpagent.Timer
