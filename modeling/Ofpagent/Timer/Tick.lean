/-
# The last section of a tick

A tick compares `delta` with the head's time in one section, leaves its loop, and subtracts
what is left of `delta` from the head in another.  In between the applications may change the
list.  A stop does no harm: the timers that stay have as much time left as before.  A start
does when its delay is less than `delta`, because its timer becomes the head: `tick_wraps` is
a run in which the subtraction then wraps and a timer of 100 microseconds gets more than an
hour.

`tick_never_wraps` says that this is the only way: as long as no start with a delay below
`delta` is inserted between the two sections, nothing that is computed on a `timeleft` wraps,
and no step of the timer task increases the remaining time of a timer.
-/
import Ofpagent.Timer.Discipline

namespace Ofpagent.Timer

open Ofpagent.Lib

variable {ι : Type*} [DecidableEq ι]

/-! ## 1. What the sections do to the remaining times -/

/-- The head is due first. -/
theorem head_le_remaining {shm : TmrCbs} {l : List TmrIdx} {a : TmrIdx} (ha : l.head? = some a)
    {x : TmrIdx × ℕ} (hx : x ∈ remaining shm l) : (shm.tcb a).timeleft.toNat ≤ x.2 := by
  cases l with
  | nil => simp at ha
  | cons b l =>
    obtain rfl : b = a := by simpa using ha
    rw [remaining, entries_cons, DeltaQueue.deadlines_cons, Nat.zero_add] at hx
    rcases List.mem_cons.mp hx with rfl | hx
    · exact le_rfl
    · exact DeltaQueue.le_of_mem_deadlines hx

theorem head_mem_remaining {shm : TmrCbs} {l : List TmrIdx} {a : TmrIdx}
    (ha : l.head? = some a) : (a, (shm.tcb a).timeleft.toNat) ∈ remaining shm l := by
  cases l with
  | nil => simp at ha
  | cons b l =>
    obtain rfl : b = a := by simpa using ha
    simp [remaining]

theorem remaining_congr {shm shm' : TmrCbs} {l : List TmrIdx}
    (h : ∀ i ∈ l, (shm'.tcb i).timeleft = (shm.tcb i).timeleft) :
    remaining shm' l = remaining shm l := by
  rw [remaining, entries_congr h, remaining]

/-- A popped timer's time has passed for the others too. -/
theorem Popped.remaining_mem {shm shm' : TmrCbs} {a : TmrIdx} {l : List TmrIdx}
    (h : Popped shm shm' a l) : ∀ x ∈ remaining shm' l,
      (x.1, x.2 + (shm.tcb a).timeleft.toNat) ∈ remaining shm (a :: l) := by
  intro x hx
  have hsh := DeltaQueue.deadlines_shift (shm.tcb a).timeleft.toNat 0 (entries shm l)
  rw [remaining, h.entries_eq, ← hsh] at hx
  obtain ⟨y, hy, rfl⟩ := List.mem_map.mp hx
  have hle := DeltaQueue.le_of_mem_deadlines hy
  rw [remaining, entries_cons, DeltaQueue.deadlines_cons]
  refine List.mem_cons_of_mem _ ?_
  have hsub : y.2 - (shm.tcb a).timeleft.toNat + (shm.tcb a).timeleft.toNat = y.2 := by omega
  rwa [hsub]

/-- The last section moves every deadline, if the head has the time. -/
theorem remaining_tickFinal {shm : TmrCbs} {l : List TmrIdx} (h : Linked shm l) {δ : ℤ}
    (h0 : 0 ≤ δ) (h1 : δ ≤ sec) (hw : ∀ x ∈ remaining shm l, δ.toNat ≤ x.2) :
    (tickFinal shm δ).wrapped = shm.wrapped ∧
      remaining (tickFinal shm δ) l = (remaining shm l).map fun x => (x.1, x.2 - δ.toNat) := by
  obtain ⟨hwrap, hents⟩ := (tickFinal_spec h h0 h1).2 fun a ha => hw _ (head_mem_remaining ha)
  refine ⟨hwrap, ?_⟩
  rw [remaining, hents, remaining]
  refine DeltaQueue.deadlines_charge fun y hy => ?_
  cases l with
  | nil => simp at hy
  | cons a l =>
    obtain rfl : (a, (shm.tcb a).timeleft.toNat) = y := by simpa using hy
    exact hw _ (head_mem_remaining rfl)

/-- Behind a body every remaining time is an old one, or the new timer's delay. -/
theorem BodyEffect.remaining_cases {shm shm' : TmrCbs} {l l' : List TmrIdx} {sec : AppSec} {k : AppCont}
    (h : BodyEffect shm l sec shm' k l') (hf : Fits shm l)
    (hins : ∀ a tcb, sec = .startInsert a tcb → (shm.tcb tcb).timeleft = a.delay) :
    shm'.wrapped = shm.wrapped ∧ ∀ x ∈ remaining shm' l',
      x ∈ remaining shm l ∨ ∃ a tcb, sec = .startInsert a tcb ∧ x.2 = a.delay.toNat := by
  have removed : ∀ {l₁ : List TmrIdx}, Removed shm shm' l l₁ → shm'.wrapped = shm.wrapped ∧
      ∀ x ∈ remaining shm' l₁, x ∈ remaining shm l := by
    intro l₁ hr
    obtain ⟨hw, hrem⟩ := hr.exact hf
    exact ⟨hw, fun x hx => List.mem_of_mem_filter (hrem ▸ hx)⟩
  cases h with
  | startStop hr => exact (removed hr).imp id fun h x hx => Or.inl (h x hx)
  | full _ => exact ⟨rfl, fun x hx => Or.inl hx⟩
  | @malloc a tcb _ =>
    refine ⟨rfl, fun x hx => Or.inl ?_⟩
    rwa [remaining_congr fun i _ => ?_] at hx
    by_cases hi : i = tcb <;> simp [hi]
  | @insert a tcb _ l₁ l₂ hi =>
    refine ⟨hi.wrapped, ?_⟩
    intro x hx
    rw [remaining, hi.exact, DeltaQueue.deadlines_insert] at hx
    rcases List.mem_cons.mp ((DeltaQueue.insertAt_perm _ _ _).mem_iff.mp hx) with rfl | hx
    · exact Or.inr ⟨a, tcb, rfl, by simp [hins a tcb rfl]⟩
    · exact Or.inl hx
  | stopXtmr hr => exact (removed hr).imp id fun h x hx => Or.inl (h x hx)
  | stopTmrs hr => exact (removed hr).imp id fun h x hx => Or.inl (h x hx)
  | isTmrExist => exact ⟨rfl, fun x hx => Or.inl hx⟩

/-! ## 2. The invariant -/

/-- What is left of `delta`, from the loop's exit to the last section. -/
def TmrPc.finalDelta : TmrPc → Option ℤ
  | wait (.final δ) => some δ
  | inside (.final δ) => some δ
  | out (.final δ) => some δ
  | _ => none

/-- All times fit, nothing has wrapped, and no timer is due before what is left of `delta`. -/
structure Ticking (s : Sys ι) (l : List TmrIdx) : Prop extends Good s l where
  fits : Fits s.shm l
  wrapped : s.shm.wrapped = false
  window : ∀ δ, s.tmr.finalDelta = some δ → ∀ x ∈ remaining s.shm l, δ.toNat ≤ x.2

/-- The start that makes the last section wrap: its timer is due before what is left of
`delta`. -/
def StartsUnder (s : Sys ι) : Lab ι → Prop
  | .app i _ =>
    match s.app i, s.tmr.finalDelta with
    | .inside (.startInsert a _), some δ => a.delay.toNat < δ.toNat
    | _, _ => False
  | _ => False

/-- No step of the timer task increases a remaining time. -/
def NoIncrease (shm shm' : TmrCbs) (l l' : List TmrIdx) : Prop :=
  ∀ x ∈ remaining shm' l', ∃ y ∈ remaining shm l, y.1 = x.1 ∧ x.2 ≤ y.2

theorem NoIncrease.refl (shm : TmrCbs) (l : List TmrIdx) : NoIncrease shm shm l l :=
  fun x hx => ⟨x, hx, rfl, le_rfl⟩

theorem Ticking.tmr {s s' : Sys ι} {l : List TmrIdx} {d : ℤ} (h : Ticking s l)
    (hm : TmrMove s d s') : ∃ l', Ticking s' l' ∧ NoIncrease s.shm s'.shm l l' := by
  obtain ⟨l', hgood⟩ := h.toGood.tmr hm
  -- the memory is not touched, and a final section that is ahead was ahead before
  have quiet : s'.shm = s.shm → (∀ δ, s'.tmr.finalDelta = some δ → s.tmr.finalDelta = some δ) →
      ∃ l', Ticking s' l' ∧ NoIncrease s.shm s'.shm l l' := by
    intro hshm hfinal
    have hl : l' = l := hgood.linked.unique (hshm ▸ h.linked)
    subst hl
    exact ⟨l', ⟨hgood, hshm ▸ h.fits, hshm ▸ h.wrapped, fun δ hδ => hshm ▸ h.window δ (hfinal δ hδ)⟩,
      hshm ▸ NoIncrease.refl _ _⟩
  cases hm with
  | @p sec k hpc _ =>
    refine quiet rfl fun δ hδ => ?_
    rw [hpc]
    cases sec <;> simp_all [TmrPc.finalDelta]
  | isEmpty _ =>
    refine quiet rfl fun δ hδ => ?_
    simp only at hδ
    split at hδ <;> cases hδ
  | retake _ => exact quiet rfl fun δ hδ => by cases hδ
  | left hpc hpop =>
    obtain ⟨h0, h1⟩ := h.delta_pop hpc
    rcases tickPop_cases h.linked h0 h1 with ⟨-, hlt⟩ | ⟨a, r, shm1, -, -, hyes, -⟩
    · have hl : l' = l := hgood.linked.unique h.linked
      subst hl
      refine ⟨l', ⟨hgood, h.fits, h.wrapped, fun δ hδ x hx => ?_⟩, NoIncrease.refl _ _⟩
      cases hδ
      cases hh : l'.head? with
      | none =>
        have hnil : l' = [] := by simpa using hh
        simp [remaining, hnil] at hx
      | some a => exact (Nat.le_of_lt (hlt a hh)).trans (head_le_remaining hh hx)
    · rw [hyes] at hpop
      cases hpop
  | pop hpc hpop =>
    obtain ⟨a, r, rfl, -, -, -, -, hp, -⟩ := h.popped hpc hpop
    have hl : l' = r := hgood.linked.unique hp.linked
    subst hl
    refine ⟨l', ⟨hgood, fun x hx => ?_, hp.wrapped.trans h.wrapped, fun δ hδ => by cases hδ⟩,
      fun x hx => ?_⟩
    · have := h.fits _ (hp.remaining_mem x hx)
      omega
    · exact ⟨_, hp.remaining_mem x hx, rfl, Nat.le_add_right _ _⟩
  | @final δ hpc =>
    obtain ⟨h0, h1⟩ := h.delta_final hpc
    have hwin := h.window δ (by rw [hpc]; rfl)
    obtain ⟨hwrap, hrem⟩ := remaining_tickFinal h.linked h0 h1 hwin
    have hl : l' = l := hgood.linked.unique (h.freed_final hpc).linked
    subst hl
    have hback : ∀ x ∈ remaining (tickFinal s.shm δ) l',
        ∃ y ∈ remaining s.shm l', y.1 = x.1 ∧ x.2 ≤ y.2 := by
      intro x hx
      rw [hrem] at hx
      obtain ⟨y, hy, rfl⟩ := List.mem_map.mp hx
      exact ⟨y, hy, rfl, Nat.sub_le _ _⟩
    refine ⟨l', ⟨hgood, fun x hx => ?_, hwrap.trans h.wrapped, fun δ hδ => by cases hδ⟩, hback⟩
    obtain ⟨y, hy, -, hle⟩ := hback x hx
    exact Nat.lt_of_le_of_lt hle (h.fits y hy)
  | @v k hpc =>
    refine quiet rfl fun δ hδ => ?_
    rw [hpc]
    cases k <;> simp_all [TmrCont.resume, TmrPc.finalDelta]
  | pause _ => exact quiet rfl fun δ hδ => by cases hδ
  | usleep _ => exact quiet rfl fun δ hδ => by cases hδ
  | send _ => exact quiet rfl fun δ hδ => by cases hδ

theorem Ticking.appl {s s' : Sys ι} {l : List TmrIdx} {i : ι} {c : Call} (h : Ticking s l)
    (hl : ¬ StartsUnder s (.app i c)) (hm : AppMove s i c s') : ∃ l', Ticking s' l' := by
  obtain ⟨l', hgood⟩ := h.toGood.appl hm
  -- the memory is not touched
  have quiet : s'.shm = s.shm → s'.tmr = s.tmr → ∃ l', Ticking s' l' := by
    intro hshm htmr
    have hl : l' = l := hgood.linked.unique (hshm ▸ h.linked)
    subst hl
    exact ⟨l', hgood, hshm ▸ h.fits, hshm ▸ h.wrapped, htmr ▸ hshm ▸ h.window⟩
  cases hm with
  | call _ => exact quiet rfl rfl
  | p _ _ => exact quiet rfl rfl
  | @body sec shm k hpc hr =>
    obtain ⟨l₁, he⟩ := h.toPool.body_effect hpc hr
    have hpool := h.toPool.body hpc he
    have heq : l' = l₁ := hgood.linked.unique hpool.linked
    subst heq
    obtain ⟨hwrap, hrem⟩ := he.remaining_cases h.fits fun a tcb hsec =>
      (h.filled i a tcb (Or.inr (hsec ▸ hpc))).2.1
    refine ⟨l', hgood, ?_, hwrap.trans h.wrapped, fun δ hδ x hx => ?_⟩
    · intro x hx
      rcases hrem x hx with hx | ⟨a, -, -, hx⟩
      · exact h.fits x hx
      · rw [hx]
        exact a.delay.toNat_lt
    · rcases hrem x hx with hx | ⟨a, tcb, hsec, hx⟩
      · exact h.window δ hδ x hx
      · rw [hx]
        by_contra hlt
        refine hl ?_
        rw [StartsUnder, hpc, hsec, show s.tmr.finalDelta = some δ from hδ]
        exact Nat.not_le.mp hlt
  | v _ => exact quiet rfl rfl
  | @fill a tcb hpc =>
    have hni : tcb ∉ l := (h.owned i tcb (by rw [hpc]; rfl)).1
    have hother := (fillTmr_spec s.shm a tcb).2.2.1
    have hl : l' = l := hgood.linked.unique (h.toPool.fill hpc).linked
    subst hl
    have hrem : remaining (fillTmr s.shm a tcb) l' = remaining s.shm l' :=
      remaining_congr fun j hj => by rw [hother j fun e => hni (e ▸ hj)]
    exact ⟨l', hgood, fun x hx => h.fits x (hrem ▸ hx), h.wrapped,
      fun δ hδ x hx => h.window δ hδ x (hrem ▸ hx)⟩
  | kill _ => exact quiet rfl rfl

theorem Ticking.step {s s' : Sys ι} {l : List TmrIdx} {lab : Lab ι} (h : Ticking s l)
    (hne : lab ≠ .eintr) (hl : ¬ StartsUnder s lab) (hs : s.step lab = some s') :
    ∃ l', Ticking s' l' := by
  cases lab with
  | tmr d =>
    obtain ⟨l', h', -⟩ := h.tmr (Sys.osTmr_move hs)
    exact ⟨l', h'⟩
  | app i c => exact h.appl hl (Sys.appl_move hs)
  | deliver =>
    obtain ⟨-, ⟨-, rfl⟩ | ⟨-, rfl⟩⟩ := Sys.deliver_cases hs
    · exact ⟨l, ⟨h.toPool, trivial⟩, h.fits, h.wrapped, fun δ hδ => by cases hδ⟩
    · exact ⟨l, ⟨h.toPool, h.delta⟩, h.fits, h.wrapped, h.window⟩
  | eintr => exact absurd rfl hne

omit [DecidableEq ι] in
theorem ticking_start (shm : TmrCbs) : Ticking (Sys.start shm : Sys ι) [] where
  toGood := good_start shm
  fits := by simp [Fits, remaining]
  wrapped := rfl
  window := by simp [remaining]

/-! ## 3. The result -/

/-- **A tick never wraps**, and never gives a timer time, in any run in which no timer that is
due before what is left of `delta` is inserted between the tick's loop and its last section. -/
theorem tick_never_wraps {ts : List (Transition (Sys ι) (Lab ι))} {s : Sys ι}
    (h : Run (tasks ι) ts s) (hno : ∀ t ∈ ts, t.lab ≠ .eintr)
    (hgood : ∀ t ∈ ts, ¬ StartsUnder t.pre t.lab) :
    (∀ δ a, s.tmr = .inside (.final δ) → s.shm.tmrHdr = some a →
        u32OfInt δ ≤ (s.shm.tcb a).timeleft) ∧
      s.shm.wrapped = false ∧
      ∀ t ∈ ts, ∀ d, t.lab = .tmr d → ∀ l l', Linked t.pre.shm l → Linked t.post.shm l' →
        NoIncrease t.pre.shm t.post.shm l l' := by
  have hinit : ∀ s, (tasks ι).init s → ∃ l, Ticking s l := by
    rintro s ⟨shm, rfl⟩
    exact ⟨[], ticking_start shm⟩
  have hstep : ∀ s l s', (∃ r, Ticking s r) → (l ≠ .eintr ∧ ¬ StartsUnder s l) →
      (tasks ι).step s l s' → ∃ r, Ticking s' r :=
    fun _ _ _ ⟨_, hr⟩ hl hst => hr.step hl.1 hl.2 hst
  have hgood' : ∀ t ∈ ts, t.lab ≠ .eintr ∧ ¬ StartsUnder t.pre t.lab :=
    fun t ht => ⟨hno t ht, hgood t ht⟩
  obtain ⟨l, hl⟩ := h.invariant (fun s => ∃ l, Ticking s l)
    (fun s l => l ≠ .eintr ∧ ¬ StartsUnder s l) hinit hstep hgood'
  refine ⟨fun δ a hpc ha => ?_, hl.wrapped, ?_⟩
  · obtain ⟨h0, h1⟩ := hl.delta_final hpc
    have hle := hl.window δ (by rw [hpc]; rfl) _
      (head_mem_remaining (hl.linked.head ▸ ha))
    rw [UInt32.le_iff_toNat_le, u32OfInt_toNat h0 (by simp only [sec] at h1; omega)]
    exact hle
  · intro t ht d hlab r r' hr hr'
    obtain ⟨⟨q, hq⟩, hst, -⟩ := h.invariant_mem (fun s => ∃ l, Ticking s l)
      (fun s l => l ≠ .eintr ∧ ¬ StartsUnder s l) hinit hstep hgood' t ht
    rw [hlab] at hst
    obtain ⟨q', hq', hinc⟩ := hq.tmr (Sys.osTmr_move hst)
    rw [hr.unique hq.linked, hr'.unique hq'.linked]
    exact hinc

instance (s : Sys ι) : DecidablePred (StartsUnder s) := fun l => by
  unfold StartsUnder
  split
  · split <;> infer_instance
  · infer_instance

/-- The keepalive timer is started, half a second passes, and behind the loop of that tick,
which finds nothing to fire, a timer with `delay` is started. -/
def keepaliveThen (delay : UInt32) : List (Lab Unit) :=
  startSteps () (ofpTxT 7 addr1 10000000) ++ [.app () (.isTmrExist none 0)]
    ++ [.tmr 0, .tmr 0, .tmr 0, .tmr 500000, .tmr 0, .tmr 0, .tmr 0]
    ++ startSteps () (ofpTxT 7 addr2 delay) ++ [.tmr 0]

/-- Another timer of a second does no harm there. -/
theorem tick_never_wraps_keepalive : ∃ ts s, Run (tasks Unit) ts s ∧
    s.tmr = .inside (.final 500000) ∧ s.shm.wrapped = false ∧
    ∀ a, s.shm.tmrHdr = some a → u32OfInt 500000 ≤ (s.shm.tcb a).timeleft := by
  obtain ⟨ts, s, hr, hgood, hpc⟩ := run_of_exec zeroShm (keepaliveThen 1000000)
    (fun s l => l ≠ .eintr ∧ ¬ StartsUnder s l) (fun s => s.tmr = .inside (.final 500000))
    (by decide +kernel)
  obtain ⟨h1, h2, -⟩ := tick_never_wraps hr (fun t ht => (hgood t ht).1) fun t ht => (hgood t ht).2
  exact ⟨ts, s, hr, hpc, h2, fun a ha => h1 500000 a hpc ha⟩

/-- The time of the head. -/
def headTime (shm : TmrCbs) : Option UInt32 := shm.tmrHdr.map fun a => (shm.tcb a).timeleft

/-- **The wrapping tick.**  The last section gives a timer of 100 microseconds
`2 ^ 32 + 100 - 500000`. -/
theorem tick_wraps : ∃ ts s, Run (tasks Unit) ts s ∧ (∀ t ∈ ts, t.lab ≠ .eintr) ∧
    s.tmr = .inside (.final 500000) ∧ headTime s.shm = some 100 ∧
    headTime (tickFinal s.shm 500000) = some 4294467396 :=
  run_of_exec zeroShm (keepaliveThen 100) (fun _ l => l ≠ .eintr)
    (fun s => s.tmr = .inside (.final 500000) ∧ headTime s.shm = some 100 ∧
      headTime (tickFinal s.shm 500000) = some 4294467396) (by decide +kernel)

end Ofpagent.Timer
