/-
# Delta queues

A delta queue keeps timers in firing order and stores with each one not its deadline but the
time it fires after the one before it, so that the passing of time is charged to the first
timer alone.  `deadlines b q` is what such a queue means: every entry with its own remaining
time, `b` being the time that has to pass before the queue's own count begins.

The operations work on the differences, as an implementation does; each theorem below says
what the operation is on the deadlines, where it is the obvious one:

* `deadlines_insert`: a sorted insertion, behind the entries with the same deadline;
* `deadlines_remove`: the entry goes, the other deadlines stay;
* `tick_fired`, `deadlines_tick`: the due entries fire, in order, and every other deadline
  comes closer by the elapsed time.

`byTime` is the order such a queue keeps, for a set of timers listed in the order they were
started in: by deadline, and by start among equal ones.
-/
import Mathlib

namespace Ofpagent.Lib.DeltaQueue

open scoped List

variable {α : Type*}

/-! ## 1. The queue and its meaning -/

/-- The remaining time of every entry, counted from `b`: the running sum of the differences. -/
def deadlines (b : ℕ) : List (α × ℕ) → List (α × ℕ)
  | [] => []
  | (x, d) :: q => (x, b + d) :: deadlines (b + d) q

@[simp] theorem deadlines_nil (b : ℕ) : deadlines b ([] : List (α × ℕ)) = [] := rfl

@[simp] theorem deadlines_cons (b : ℕ) (x : α) (d : ℕ) (q : List (α × ℕ)) :
    deadlines b ((x, d) :: q) = (x, b + d) :: deadlines (b + d) q := rfl

@[simp] theorem deadlines_map_fst (b : ℕ) (q : List (α × ℕ)) :
    (deadlines b q).map Prod.fst = q.map Prod.fst := by
  induction q generalizing b with
  | nil => rfl
  | cons y q ih => simp [deadlines, ih]

/-- No deadline lies before the base. -/
theorem le_of_mem_deadlines {b : ℕ} {q : List (α × ℕ)} {x : α × ℕ} (h : x ∈ deadlines b q) :
    b ≤ x.2 := by
  induction q generalizing b with
  | nil => simp at h
  | cons y q ih =>
    rcases List.mem_cons.mp h with rfl | h
    · simp
    · have hle := ih h
      omega

/-- Moving the base moves every deadline. -/
theorem deadlines_shift (k b : ℕ) (q : List (α × ℕ)) :
    (deadlines (b + k) q).map (fun x => (x.1, x.2 - k)) = deadlines b q := by
  induction q generalizing b with
  | nil => rfl
  | cons y q ih =>
    have h1 : b + k + y.2 = b + y.2 + k := by omega
    have h2 : b + k + y.2 - k = b + y.2 := by omega
    simp only [deadlines, List.map_cons, h2]
    rw [h1, ih]

/-! ## 2. Insertion -/

/-- Insert `x` to fire after `t`: walk past the entries that are due by then, and take the
time left off the entry it is put in front of. -/
def insert (x : α) (t : ℕ) : List (α × ℕ) → List (α × ℕ)
  | [] => [(x, t)]
  | (y, d) :: q => if t < d then (x, t) :: (y, d - t) :: q else (y, d) :: insert x (t - d) q

/-- A sorted insertion by deadline, behind the entries with the same one. -/
def insertAt (x : α) (t : ℕ) (l : List (α × ℕ)) : List (α × ℕ) :=
  l.takeWhile (fun y => decide (y.2 ≤ t)) ++ (x, t) :: l.dropWhile (fun y => decide (y.2 ≤ t))

theorem deadlines_insert (x : α) (b t : ℕ) (q : List (α × ℕ)) :
    deadlines b (insert x t q) = insertAt x (b + t) (deadlines b q) := by
  induction q generalizing b t with
  | nil => rfl
  | cons y q ih =>
    obtain ⟨y, d⟩ := y
    by_cases h : t < d
    · have h1 : b + t + (d - t) = b + d := by omega
      simp [insert, insertAt, h, h1]
    · have h1 : b + d + (t - d) = b + t := by omega
      have hrest := ih (b + d) (t - d)
      rw [h1] at hrest
      simp only [insert, if_neg h, deadlines_cons, hrest, insertAt]
      have h2 : b + d ≤ b + t := by omega
      simp [h2]

theorem insertAt_perm (x : α) (t : ℕ) (l : List (α × ℕ)) :
    (insertAt x t l).Perm ((x, t) :: l) := by
  have h := List.takeWhile_append_dropWhile (p := fun y : α × ℕ => decide (y.2 ≤ t)) (l := l)
  calc insertAt x t l
      ~ (x, t) :: (l.takeWhile (fun y => decide (y.2 ≤ t))
          ++ l.dropWhile (fun y => decide (y.2 ≤ t))) := List.perm_middle
    _ = (x, t) :: l := by rw [h]

/-! ## 3. Removal -/

/-- Give the time of a removed entry to the one behind it. -/
def bump (d : ℕ) : List (α × ℕ) → List (α × ℕ)
  | [] => []
  | (y, e) :: q => (y, e + d) :: q

theorem deadlines_bump (b d : ℕ) (q : List (α × ℕ)) :
    deadlines b (bump d q) = deadlines (b + d) q := by
  cases q with
  | nil => rfl
  | cons y q =>
    have h : b + (y.2 + d) = b + d + y.2 := by omega
    simp [bump, deadlines, h]

/-- **Removal.**  Taking an entry out and giving its time to the one behind it takes its
deadline out and leaves the others as they were. -/
theorem deadlines_remove (x : α) (d : ℕ) (q₂ : List (α × ℕ)) (b : ℕ) (q₁ : List (α × ℕ)) :
    ∃ D₁ t D₂, deadlines b (q₁ ++ (x, d) :: q₂) = D₁ ++ (x, t) :: D₂ ∧
      deadlines b (q₁ ++ bump d q₂) = D₁ ++ D₂ ∧
      D₁.map Prod.fst = q₁.map Prod.fst ∧ D₂.map Prod.fst = q₂.map Prod.fst := by
  induction q₁ generalizing b with
  | nil =>
    exact ⟨[], b + d, deadlines (b + d) q₂, rfl, deadlines_bump b d q₂, rfl,
      deadlines_map_fst _ _⟩
  | cons y q₁ ih =>
    obtain ⟨y, e⟩ := y
    obtain ⟨D₁, t, D₂, h1, h2, h3, h4⟩ := ih (b + e)
    exact ⟨(y, b + e) :: D₁, t, D₂, by simp [h1], by simp [h2], by simp [h3], h4⟩

/-- The two differences a removal adds up are no more than a deadline of the queue. -/
theorem add_le_deadline (x y : α) (d e : ℕ) (q₂ : List (α × ℕ)) (b : ℕ) (q₁ : List (α × ℕ)) :
    ∃ t, (y, t) ∈ deadlines b (q₁ ++ (x, d) :: (y, e) :: q₂) ∧ e + d ≤ t := by
  induction q₁ generalizing b with
  | nil => exact ⟨b + d + e, by simp, by omega⟩
  | cons z q₁ ih =>
    obtain ⟨t, ht, hle⟩ := ih (b + z.2)
    exact ⟨t, List.mem_cons_of_mem _ ht, hle⟩

/-! ## 4. The passing of time -/

/-- Fire the entries due within `δ`: what fires, the time not yet charged, what is left. -/
def expire : ℕ → List (α × ℕ) → List α × ℕ × List (α × ℕ)
  | δ, [] => ([], δ, [])
  | δ, (y, d) :: q =>
    if δ < d then ([], δ, (y, d) :: q)
    else (y :: (expire (δ - d) q).1, (expire (δ - d) q).2)

/-- Charge `δ` to the first entry. -/
def charge (δ : ℕ) : List (α × ℕ) → List (α × ℕ)
  | [] => []
  | (y, d) :: q => (y, d - δ) :: q

/-- `δ` passes: the due entries fire, and the rest of the time is charged to the first one. -/
def tick (δ : ℕ) (q : List (α × ℕ)) : List α × List (α × ℕ) :=
  ((expire δ q).1, charge (expire δ q).2.1 (expire δ q).2.2)

/-- Charging the first entry moves every deadline, if that entry has the time. -/
theorem deadlines_charge {δ : ℕ} {q : List (α × ℕ)} (h : ∀ y, q.head? = some y → δ ≤ y.2) :
    deadlines 0 (charge δ q) = (deadlines 0 q).map fun x => (x.1, x.2 - δ) := by
  cases q with
  | nil => rfl
  | cons y q =>
    obtain ⟨y, d⟩ := y
    have hd : δ ≤ d := h (y, d) rfl
    have hsh := deadlines_shift δ (d - δ) q
    rw [Nat.sub_add_cancel hd] at hsh
    simp [charge, hsh]

theorem filter_deadlines_of_lt {b δ d : ℕ} (h : δ < d) (q : List (α × ℕ)) :
    (deadlines (b + d) q).filter (fun x => decide (x.2 ≤ b + δ)) = [] := by
  rw [List.filter_eq_nil_iff]
  intro x hx
  have := le_of_mem_deadlines hx
  simp
  omega

/-- What fires is what is due, in order. -/
theorem expire_fired (b δ : ℕ) (q : List (α × ℕ)) :
    (expire δ q).1 = ((deadlines b q).filter fun x => decide (x.2 ≤ b + δ)).map Prod.fst := by
  induction q generalizing b δ with
  | nil => rfl
  | cons y q ih =>
    obtain ⟨y, d⟩ := y
    by_cases h : δ < d
    · have h1 : ¬ b + d ≤ b + δ := by omega
      simp [expire, h, h1, filter_deadlines_of_lt h]
    · have h1 : b + d ≤ b + δ := by omega
      have h2 : b + d + (δ - d) = b + δ := by omega
      have hrest := ih (b + d) (δ - d)
      rw [h2] at hrest
      simp [expire, h, h1, hrest]

/-- Every other deadline comes closer by the elapsed time. -/
theorem deadlines_charge_expire (b δ : ℕ) (q : List (α × ℕ)) :
    deadlines 0 (charge (expire δ q).2.1 (expire δ q).2.2)
      = ((deadlines b q).filter fun x => decide (b + δ < x.2)).map
          fun x => (x.1, x.2 - (b + δ)) := by
  induction q generalizing b δ with
  | nil => rfl
  | cons y q ih =>
    obtain ⟨y, d⟩ := y
    by_cases h : δ < d
    · have hall : (deadlines (b + d) q).filter (fun x => decide (b + δ < x.2))
          = deadlines (b + d) q := by
        rw [List.filter_eq_self]
        intro x hx
        have := le_of_mem_deadlines hx
        simp
        omega
      have hsh := deadlines_shift (b + δ) (d - δ) q
      have h1 : d - δ + (b + δ) = b + d := by omega
      have h2 : b + d - (b + δ) = d - δ := by omega
      have h3 : b + δ < b + d := by omega
      rw [h1] at hsh
      simp [expire, h, h3, charge, hall, hsh, h2]
    · have h1 : ¬ b + δ < b + d := by omega
      have h2 : b + d + (δ - d) = b + δ := by omega
      have hrest := ih (b + d) (δ - d)
      rw [h2] at hrest
      simp [expire, h, h1, hrest]

theorem tick_fired (δ : ℕ) (q : List (α × ℕ)) :
    (tick δ q).1 = ((deadlines 0 q).filter fun x => decide (x.2 ≤ δ)).map Prod.fst := by
  simpa [tick] using expire_fired 0 δ q

theorem deadlines_tick (δ : ℕ) (q : List (α × ℕ)) :
    deadlines 0 (tick δ q).2
      = ((deadlines 0 q).filter fun x => decide (δ < x.2)).map fun x => (x.1, x.2 - δ) := by
  simpa [tick] using deadlines_charge_expire 0 δ q

/-! ## 5. The firing order of a set of timers -/

/-- Timers listed in start order, in firing order: a stable sort by deadline. -/
def byTime (l : List (α × ℕ)) : List (α × ℕ) := l.insertionSort fun x y => x.2 ≤ y.2

@[simp] theorem byTime_nil : byTime ([] : List (α × ℕ)) = [] := rfl

theorem byTime_cons (x : α × ℕ) (l : List (α × ℕ)) :
    byTime (x :: l) = (byTime l).orderedInsert (fun x y => x.2 ≤ y.2) x := rfl

theorem byTime_perm (l : List (α × ℕ)) : byTime l ~ l := List.perm_insertionSort _ l

theorem byTime_sorted (l : List (α × ℕ)) : (byTime l).Pairwise fun x y => x.2 ≤ y.2 := by
  have : Std.Total fun x y : α × ℕ => x.2 ≤ y.2 := ⟨fun x y => Nat.le_total x.2 y.2⟩
  have : IsTrans (α × ℕ) fun x y => x.2 ≤ y.2 := ⟨fun _ _ _ => Nat.le_trans⟩
  exact List.pairwise_insertionSort (fun x y : α × ℕ => x.2 ≤ y.2) l

@[simp] theorem insertAt_nil (x : α) (t : ℕ) : insertAt x t [] = [(x, t)] := rfl

theorem insertAt_cons (x : α) (t : ℕ) (y : α × ℕ) (l : List (α × ℕ)) :
    insertAt x t (y :: l) = if y.2 ≤ t then y :: insertAt x t l else (x, t) :: y :: l := by
  by_cases h : y.2 ≤ t <;> simp [insertAt, h]

theorem insertAt_map {β : Type*} (f : α → β) (x : α) (t : ℕ) (l : List (α × ℕ)) :
    (insertAt x t l).map (fun y => (f y.1, y.2))
      = insertAt (f x) t (l.map fun y => (f y.1, y.2)) := by
  induction l with
  | nil => rfl
  | cons y l ih => by_cases h : y.2 ≤ t <;> simp [insertAt_cons, h, ih]

/-- An entry put in front of its equals and one put behind them do not get in each other's
way. -/
theorem insertAt_orderedInsert (x : α) (t : ℕ) (y : α × ℕ) (l : List (α × ℕ)) :
    insertAt x t (l.orderedInsert (fun x y => x.2 ≤ y.2) y)
      = (insertAt x t l).orderedInsert (fun x y => x.2 ≤ y.2) y := by
  induction l with
  | nil => by_cases h : y.2 ≤ t <;> simp [insertAt_cons, h]
  | cons z l ih =>
    by_cases hz : z.2 ≤ t <;> by_cases hy : y.2 ≤ z.2 <;> by_cases ht : y.2 ≤ t <;>
      simp [insertAt_cons, hz, hy, ht, ih]
    all_goals omega

/-- **A new timer** goes behind those with its deadline, as the last one started. -/
theorem insertAt_byTime (x : α) (t : ℕ) (l : List (α × ℕ)) :
    insertAt x t (byTime l) = byTime (l ++ [(x, t)]) := by
  induction l with
  | nil => rfl
  | cons y l ih => rw [List.cons_append, byTime_cons, byTime_cons, insertAt_orderedInsert, ih]

/-- Putting an entry into a sorted list and taking other ones out commute. -/
theorem filter_orderedInsert (p : α × ℕ → Bool) {y : α × ℕ} {l : List (α × ℕ)}
    (hl : l.Pairwise fun x y => x.2 ≤ y.2) :
    (l.orderedInsert (fun x y => x.2 ≤ y.2) y).filter p
      = if p y then (l.filter p).orderedInsert (fun x y => x.2 ≤ y.2) y else l.filter p := by
  induction l with
  | nil => by_cases h : p y <;> simp [h]
  | cons z l ih =>
    obtain ⟨hz, hl⟩ := List.pairwise_cons.mp hl
    by_cases hy : y.2 ≤ z.2
    · -- everything behind `z` is due no earlier than `y`
      have hfront : ∀ m : List (α × ℕ), (∀ w ∈ m, y.2 ≤ w.2) →
          m.orderedInsert (fun x y => x.2 ≤ y.2) y = y :: m := by
        intro m hm
        cases m with
        | nil => rfl
        | cons w m => simp [hm w List.mem_cons_self]
      have hall : ∀ w ∈ (z :: l).filter p, y.2 ≤ w.2 := by
        intro w hw
        rcases List.mem_cons.mp (List.mem_of_mem_filter hw) with rfl | hw
        · exact hy
        · exact Nat.le_trans hy (hz w hw)
      rw [hfront _ hall, List.orderedInsert_cons, if_pos hy, List.filter_cons]
    · rw [List.orderedInsert_cons, if_neg hy, List.filter_cons, List.filter_cons, ih hl]
      by_cases hpz : p z <;> by_cases hpy : p y <;> simp [hpz, hpy, hy]

/-- **A removal** keeps the order of the others. -/
theorem filter_byTime (p : α × ℕ → Bool) (l : List (α × ℕ)) :
    (byTime l).filter p = byTime (l.filter p) := by
  induction l with
  | nil => rfl
  | cons y l ih =>
    rw [byTime_cons, filter_orderedInsert p (byTime_sorted l), ih, List.filter_cons]
    by_cases h : p y <;> simp [h, byTime_cons]

/-- **The passing of time** keeps the order of those that are not due. -/
theorem map_byTime {δ : ℕ} {l : List (α × ℕ)} (h : ∀ x ∈ l, δ < x.2) :
    (byTime l).map (fun x => (x.1, x.2 - δ)) = byTime (l.map fun x => (x.1, x.2 - δ)) := by
  refine List.map_insertionSort _ _ _ l fun x hx y hy => ?_
  have := h x hx
  have := h y hy
  simp only
  omega

end Ofpagent.Lib.DeltaQueue
