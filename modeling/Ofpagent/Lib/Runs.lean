/-
# Runs of a labelled transition system

A system is an initial predicate and a step relation whose label says which step was taken.
`Run S ts s` is a finite run: `ts` is the list of its steps, oldest first, and `s` the state
it ends in.  A claim about "every run whose steps all meet a condition" is a claim about the
runs with `ts.all` of that condition, so the condition needs no second system.

The rule of the module is `Run.invariant`: what holds at the start and is kept by every step
that meets the condition holds at the end of every such run, and (`Run.invariant_mem`) before
and after each of its steps.  `Run.history` is the same rule for what is said about a state and
the steps that led to it, and `Run.since` for what one step starts and the later ones keep;
`Run.split` gives the run in front of any step.

`Run.refines` is for two levels: a run of the one, without the steps that nothing is seen of, is a
run of the other.  `Run.balance` is for what flows through a state in order, as through a queue.
-/
import Mathlib

namespace Ofpagent.Lib

/-! ## 1. Systems and runs -/

/-- A labelled transition system: where it may start, and what a step may do. -/
structure Lts (σ ι : Type*) where
  init : σ → Prop
  step : σ → ι → σ → Prop

/-- One step of a run: the state before it, its label and the state after it. -/
structure Transition (σ ι : Type*) where
  pre : σ
  lab : ι
  post : σ

variable {σ ι : Type*}

/-- A run: consecutive steps from an initial state. -/
inductive Run (S : Lts σ ι) : List (Transition σ ι) → σ → Prop
  | start {s : σ} : S.init s → Run S [] s
  | snoc {ts : List (Transition σ ι)} {s s' : σ} {l : ι} :
      Run S ts s → S.step s l s' → Run S (ts ++ [⟨s, l, s'⟩]) s'

variable {S : Lts σ ι}

/-! ## 2. The invariant rule -/

/-- **The history rule.**  `Inv` may speak of the steps so far; `good` is the condition the steps
of the run meet. -/
theorem Run.history (Inv : List (Transition σ ι) → σ → Prop) (good : σ → ι → Prop)
    (hinit : ∀ s, S.init s → Inv [] s)
    (hstep : ∀ ts s l s', Inv ts s → good s l → S.step s l s' → Inv (ts ++ [⟨s, l, s'⟩]) s')
    {ts : List (Transition σ ι)} {s : σ} (h : Run S ts s)
    (hgood : ∀ t ∈ ts, good t.pre t.lab) : Inv ts s := by
  induction h with
  | start h0 => exact hinit _ h0
  | @snoc ts s s' l _ hs ih =>
    have hpre : Inv ts s := ih fun t ht => hgood t (List.mem_append_left _ ht)
    exact hstep ts s l s' hpre (hgood ⟨s, l, s'⟩ (by simp)) hs

/-- **The invariant rule.** -/
theorem Run.invariant (Inv : σ → Prop) (good : σ → ι → Prop)
    (hinit : ∀ s, S.init s → Inv s)
    (hstep : ∀ s l s', Inv s → good s l → S.step s l s' → Inv s')
    {ts : List (Transition σ ι)} {s : σ} (h : Run S ts s)
    (hgood : ∀ t ∈ ts, good t.pre t.lab) : Inv s :=
  h.history (fun _ s => Inv s) good hinit (fun _ => hstep) hgood

/-- The invariant holds on both sides of every step of the run, and the step is one. -/
theorem Run.invariant_mem (Inv : σ → Prop) (good : σ → ι → Prop)
    (hinit : ∀ s, S.init s → Inv s)
    (hstep : ∀ s l s', Inv s → good s l → S.step s l s' → Inv s')
    {ts : List (Transition σ ι)} {s : σ} (h : Run S ts s)
    (hgood : ∀ t ∈ ts, good t.pre t.lab) :
    ∀ t ∈ ts, Inv t.pre ∧ S.step t.pre t.lab t.post ∧ Inv t.post := by
  induction h with
  | start _ => simp
  | @snoc ts s s' l hr hs ih =>
    have hgood' : ∀ t ∈ ts, good t.pre t.lab := fun t ht => hgood t (List.mem_append_left _ ht)
    have hpre : Inv s := hr.invariant Inv good hinit hstep hgood'
    intro t ht
    rcases List.mem_append.mp ht with ht | ht
    · exact ih hgood' t ht
    · rw [List.mem_singleton.mp ht]
      exact ⟨hpre, hs, hstep s l s' hpre (hgood ⟨s, l, s'⟩ (by simp)) hs⟩

/-- A prefix of a run is a run, and the step behind it starts where the prefix ends. -/
theorem Run.split {ts : List (Transition σ ι)} {s : σ} (h : Run S ts s) :
    ∀ us t vs, ts = us ++ t :: vs → Run S us t.pre ∧ S.step t.pre t.lab t.post := by
  induction h with
  | start _ => intro us t vs hts; simp at hts
  | @snoc ts s s' l hr hs ih =>
    intro us t vs hts
    rcases List.eq_nil_or_concat vs with rfl | ⟨vs', v, rfl⟩
    · obtain ⟨rfl, ht⟩ := List.append_inj' hts rfl
      rw [List.cons.injEq] at ht
      rw [← ht.1]
      exact ⟨hr, hs⟩
    · have hts' : ts ++ [⟨s, l, s'⟩] = (us ++ t :: vs') ++ [v] := by simpa using hts
      exact ih us t vs' (List.append_inj_left' hts' rfl)

section Refine

variable {τ κ : Type*}

/-- The step of another system that a step is, if it is one: what is seen of the states, under the
label that it has there. -/
def Transition.seen (view : σ → τ) (label : σ → ι → Option κ) (t : Transition σ ι) :
    Option (Transition τ κ) :=
  (label t.pre t.lab).map fun k => ⟨view t.pre, k, view t.post⟩

/-- **The refinement rule.**  A step that has no label in the other system leaves what is seen
there. -/
theorem Run.refines {A : Lts τ κ} (view : σ → τ) (label : σ → ι → Option κ) (Inv : σ → Prop)
    (hinit : ∀ s, S.init s → Inv s ∧ A.init (view s))
    (hstep : ∀ s l s', Inv s → S.step s l s' → Inv s')
    (hnone : ∀ s l s', S.step s l s' → label s l = none → view s' = view s)
    (hsome : ∀ s l s' k, Inv s → S.step s l s' → label s l = some k → A.step (view s) k (view s'))
    {ts : List (Transition σ ι)} {s : σ} (h : Run S ts s) :
    Inv s ∧ Run A (ts.filterMap (Transition.seen view label)) (view s) := by
  induction h with
  | start h0 => exact ⟨(hinit _ h0).1, .start (hinit _ h0).2⟩
  | @snoc ts s s' l _ hs ih =>
    refine ⟨hstep s l s' ih.1 hs, ?_⟩
    rw [List.filterMap_append]
    cases hl : label s l with
    | none =>
      have hseen : [Transition.mk s l s'].filterMap (Transition.seen view label) = [] := by
        simp [Transition.seen, hl]
      rw [hseen, List.append_nil, hnone s l s' hs hl]
      exact ih.2
    | some k =>
      have hseen : [Transition.mk s l s'].filterMap (Transition.seen view label)
          = [⟨view s, k, view s'⟩] := by
        simp [Transition.seen, hl]
      rw [hseen]
      exact ih.2.snoc (hsome s l s' k ih.1 hs hl)

/-- **The rule of balance.**  What a state has held at the start and has been given is what has been
taken from it and what it holds, in this order. -/
theorem Run.balance {α : Type*} (content : σ → List α) (put got : σ → ι → List α) (Inv : σ → Prop)
    (good : σ → ι → Prop) (hinit : ∀ s, S.init s → Inv s)
    (hstep : ∀ s l s', Inv s → good s l → S.step s l s' →
      Inv s' ∧ content s ++ put s l = got s l ++ content s')
    {ts : List (Transition σ ι)} {s : σ} (h : Run S ts s) (hgood : ∀ t ∈ ts, good t.pre t.lab) :
    ∃ s₀, S.init s₀ ∧ content s₀ ++ ts.flatMap (fun t => put t.pre t.lab)
      = ts.flatMap (fun t => got t.pre t.lab) ++ content s := by
  refine (h.history (fun ts s => Inv s ∧ ∃ s₀, S.init s₀ ∧
    content s₀ ++ ts.flatMap (fun t => put t.pre t.lab)
      = ts.flatMap (fun t => got t.pre t.lab) ++ content s) good ?_ ?_ hgood).2
  · exact fun s hs => ⟨hinit s hs, s, hs, by simp⟩
  · rintro ts s l s' ⟨hinv, s₀, h₀, heq⟩ hl hs
    obtain ⟨hinv', hone⟩ := hstep s l s' hinv hl hs
    refine ⟨hinv', s₀, h₀, ?_⟩
    rw [List.flatMap_append, List.flatMap_append, List.flatMap_singleton, List.flatMap_singleton,
      ← List.append_assoc, heq, List.append_assoc, hone, ← List.append_assoc]

end Refine

/-! ## 4. Runs of a step function -/

/-- The steps of a list of labels, one after another. -/
def exec (step : σ → ι → Option σ) : σ → List ι → Option σ
  | s, [] => some s
  | s, l :: ls => (step s l).bind fun s' => exec step s' ls

theorem exec_append (step : σ → ι → Option σ) (ls ls' : List ι) (s : σ) :
    exec step s (ls ++ ls') = (exec step s ls).bind fun s' => exec step s' ls' := by
  induction ls generalizing s with
  | nil => rfl
  | cons l ls ih =>
    simp only [List.cons_append, exec, Option.bind_assoc]
    exact congrArg _ (funext fun s' => ih s')

/-- What every step keeps is kept by a list of them. -/
theorem exec_invariant {step : σ → ι → Option σ} {Inv : σ → Prop}
    (hstep : ∀ s l s', Inv s → step s l = some s' → Inv s') :
    ∀ {ls : List ι} {s s' : σ}, Inv s → exec step s ls = some s' → Inv s' := by
  intro ls
  induction ls with
  | nil =>
    intro s s' h he
    obtain rfl : s = s' := by simpa [exec] using he
    exact h
  | cons l ls ih =>
    intro s s' h he
    obtain ⟨s1, hs1, he⟩ := Option.bind_eq_some_iff.mp he
    exact ih (hstep s l s1 h hs1) he

/-- Executing labels from the end of a run is a longer run, with these labels added.  `good` is
what is checked of every step on the way. -/
theorem Run.exec {step : σ → ι → Option σ} {good : σ → ι → Prop}
    (hstep : ∀ s l s', step s l = some s' → S.step s l s' ∧ good s l) :
    ∀ {ls : List ι} {ts : List (Transition σ ι)} {s s' : σ}, Run S ts s →
      (∀ t ∈ ts, good t.pre t.lab) → Lib.exec step s ls = some s' →
      ∃ ts', Run S ts' s' ∧ ts'.map Transition.lab = ts.map Transition.lab ++ ls ∧
        ∀ t ∈ ts', good t.pre t.lab := by
  intro ls
  induction ls with
  | nil =>
    intro ts s s' h hg he
    obtain rfl : s = s' := by simpa [Lib.exec] using he
    exact ⟨ts, h, by simp, hg⟩
  | cons l ls ih =>
    intro ts s s' h hg he
    obtain ⟨s1, hs1, he⟩ := Option.bind_eq_some_iff.mp he
    obtain ⟨hs, hl⟩ := hstep s l s1 hs1
    have hg' : ∀ t ∈ ts ++ [⟨s, l, s1⟩], good t.pre t.lab := by
      intro t ht
      rcases List.mem_append.mp ht with ht | ht
      · exact hg t ht
      · rw [List.mem_singleton.mp ht]
        exact hl
    obtain ⟨ts', h', hl', hgood⟩ := ih (Run.snoc h hs) hg' he
    exact ⟨ts', h', by simpa using hl', hgood⟩

/-- Labels that can be executed from an initial state, with every step `good`, to a state with
`P`, are those of a run. -/
theorem Run.of_exec {step : σ → ι → Option σ} (hstep : ∀ s l s', step s l = some s' → S.step s l s')
    {s₀ : σ} (h₀ : S.init s₀) (ls : List ι) (good : σ → ι → Prop) (P : σ → Prop)
    [∀ s, DecidablePred (good s)] [DecidablePred P]
    (h : (Lib.exec (fun s l => if good s l then step s l else none) s₀ ls).any
      (fun s => decide (P s)) = true) :
    ∃ ts s, Run S ts s ∧ ts.map Transition.lab = ls ∧ (∀ t ∈ ts, good t.pre t.lab) ∧ P s := by
  obtain ⟨s, hs, hP⟩ := (Option.any_eq_true _ _).mp h
  have hgood : ∀ s l s', (if good s l then step s l else none) = some s' →
      S.step s l s' ∧ good s l := by
    intro s l s' hs
    split_ifs at hs with hl
    exact ⟨hstep s l s' hs, hl⟩
  obtain ⟨ts, hr, hlab, hg⟩ := (Run.start h₀).exec hgood (by simp) hs
  exact ⟨ts, s, hr, by simpa using hlab, hg, of_decide_eq_true hP⟩

end Ofpagent.Lib
