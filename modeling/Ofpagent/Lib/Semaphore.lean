/-
# A System V semaphore used as a lock

The semaphore has a value and, because its operations ask for `SEM_UNDO`, keeps for every
process the adjustment it would apply when the process ends.  `p` blocks while the value is
zero; here a blocked operation has no successor.

`Guards k inside` is the discipline of a lock: who is inside owes one, everybody else owes
nothing, and the value is zero just when somebody is inside.  `p` and `v` keep it, whatever
`inside` is, as long as it is entered by `p` and left by `v`.

`Units k inside n` is what remains of it when `n` times somebody has got inside without its `p`:
the value and the number of those inside are a constant together.
-/
import Mathlib

namespace Ofpagent.Lib

/-- The value of the semaphore and the adjustment kept for each process. -/
structure Sem (P : Type*) where
  val : ℕ
  semadj : P → ℤ

namespace Sem

variable {P : Type*}

/-- A new semaphore of value 1. -/
def init : Sem P := ⟨1, fun _ => 0⟩

/-- The semaphore guards what `inside` says. -/
structure Guards (k : Sem P) (inside : P → Prop) : Prop where
  excl : ∀ q r, inside q → inside r → q = r
  owes : ∀ q, inside q → k.semadj q = 1
  free : ∀ q, ¬ inside q → k.semadj q = 0
  val : (k.val = 0 ∧ ∃ q, inside q) ∨ (k.val = 1 ∧ ∀ q, ¬ inside q)

variable {k k' : Sem P} {inside inside' : P → Prop} {q : P}

theorem guards_init (h : ∀ q, ¬ inside q) : Guards (init : Sem P) inside where
  excl q _ hq := absurd hq (h q)
  owes q hq := absurd hq (h q)
  free _ _ := rfl
  val := Or.inr ⟨rfl, h⟩

theorem Guards.congr (h : Guards k inside) (hi : ∀ r, inside' r ↔ inside r) :
    Guards k inside' := by
  rwa [show inside' = inside from funext fun r => propext (hi r)]

variable [DecidableEq P]

/-- `semop` by -1. -/
def p (k : Sem P) (q : P) : Option (Sem P) :=
  match k.val with
  | 0 => none
  | n + 1 => some ⟨n, Function.update k.semadj q (k.semadj q + 1)⟩

/-- `semop` by +1. -/
def v (k : Sem P) (q : P) : Sem P := ⟨k.val + 1, Function.update k.semadj q (k.semadj q - 1)⟩

theorem exists_p (h : 0 < k.val) (q : P) : ∃ k', k.p q = some k' := by
  obtain ⟨n, hn⟩ : ∃ n, k.val = n + 1 := ⟨k.val - 1, by omega⟩
  exact ⟨⟨n, Function.update k.semadj q (k.semadj q + 1)⟩, by simp only [Sem.p, hn]⟩

/-- Who gets past `p` is alone. -/
theorem Guards.p (h : Guards k inside) (hp : k.p q = some k')
    (hi : ∀ r, inside' r ↔ inside r ∨ r = q) : Guards k' inside' := by
  rcases h.val with ⟨h0, -⟩ | ⟨h1, hno⟩
  · simp [Sem.p, h0] at hp
  · obtain rfl : (⟨0, Function.update k.semadj q (k.semadj q + 1)⟩ : Sem P) = k' := by
      simpa [Sem.p, h1] using hp
    have honly : ∀ r, inside' r ↔ r = q := fun r => by simp [hi, hno r]
    refine ⟨?_, ?_, ?_, Or.inl ⟨rfl, q, ?_⟩⟩
    · intro r r' hr hr'
      rw [(honly r).mp hr, (honly r').mp hr']
    · intro r hr
      obtain rfl := (honly r).mp hr
      simp [h.free r (hno r)]
    · intro r hr
      have hne : r ≠ q := fun e => hr ((honly r).mpr e)
      simpa [hne] using h.free r (hno r)
    · exact (honly q).mpr rfl

/-- Nobody is inside behind the `v` of who was. -/
theorem Guards.v (h : Guards k inside) (hq : inside q)
    (hi : ∀ r, inside' r ↔ inside r ∧ r ≠ q) : Guards (k.v q) inside' := by
  have hno : ∀ r, ¬ inside' r := fun r hr => ((hi r).mp hr).2 (h.excl r q ((hi r).mp hr).1 hq)
  refine ⟨fun r _ hr => absurd hr (hno r), fun r hr => absurd hr (hno r), ?_,
    Or.inr ⟨?_, hno⟩⟩
  · intro r _
    by_cases hr : r = q
    · subst hr; simp [Sem.v, h.owes r hq]
    · have hout : ¬ inside r := fun e => hr (h.excl r q e hq)
      simpa [Sem.v, hr] using h.free r hout
  · rcases h.val with ⟨h0, -⟩ | ⟨-, hno'⟩
    · simp [Sem.v, h0]
    · exact absurd hq (hno' q)

/-! ## Entered without a `p` -/

/-- The value and those inside are `1 + n` together. -/
def Units (k : Sem P) (inside : P → Prop) (n : ℕ) : Prop :=
  ∃ F : Finset P, (∀ q, q ∈ F ↔ inside q) ∧ k.val + F.card = 1 + n

variable {n : ℕ}

omit [DecidableEq P] in
theorem units_init (h : ∀ q, ¬ inside q) : Units (init : Sem P) inside 0 :=
  ⟨∅, fun q => by simp [h q], rfl⟩

omit [DecidableEq P] in
theorem Units.congr (h : Units k inside n) (hi : ∀ r, inside' r ↔ inside r) :
    Units k inside' n := by
  rwa [show inside' = inside from funext fun r => propext (hi r)]

/-- A `p` takes a unit of the value inside. -/
theorem Units.p (h : Units k inside n) (hq : ¬ inside q) (hp : k.p q = some k')
    (hi : ∀ r, inside' r ↔ inside r ∨ r = q) : Units k' inside' n := by
  obtain ⟨F, hF, hn⟩ := h
  have hval : k'.val + 1 = k.val := by
    unfold Sem.p at hp
    split at hp
    · cases hp
    · next m hm => cases hp; exact hm.symm
  have hqF : q ∉ F := fun e => hq ((hF q).mp e)
  refine ⟨insert q F, fun r => ?_, ?_⟩
  · rw [Finset.mem_insert, hF, hi, or_comm]
  · rw [Finset.card_insert_of_notMem hqF]
    omega

/-- A `v` gives it back. -/
theorem Units.v (h : Units k inside n) (hq : inside q)
    (hi : ∀ r, inside' r ↔ inside r ∧ r ≠ q) : Units (k.v q) inside' n := by
  obtain ⟨F, hF, hn⟩ := h
  have hqF : q ∈ F := (hF q).mpr hq
  have hpos : 0 < F.card := Finset.card_pos.mpr ⟨q, hqF⟩
  refine ⟨F.erase q, fun r => ?_, ?_⟩
  · rw [Finset.mem_erase, hF, hi, and_comm]
  · rw [Finset.card_erase_of_mem hqF]
    simp only [Sem.v]
    omega

/-- Who gets inside otherwise brings a unit, which its `v` leaves behind. -/
theorem Units.unpaid (h : Units k inside n) (hq : ¬ inside q)
    (hi : ∀ r, inside' r ↔ inside r ∨ r = q) : Units k inside' (n + 1) := by
  obtain ⟨F, hF, hn⟩ := h
  have hqF : q ∉ F := fun e => hq ((hF q).mp e)
  refine ⟨insert q F, fun r => ?_, ?_⟩
  · rw [Finset.mem_insert, hF, hi, or_comm]
  · rw [Finset.card_insert_of_notMem hqF]
    omega

omit [DecidableEq P] in
/-- A lock has no unit from elsewhere. -/
theorem Guards.units_eq (h : Guards k inside) (hu : Units k inside n) : n = 0 := by
  obtain ⟨F, hF, hn⟩ := hu
  rcases h.val with ⟨h0, q, hq⟩ | ⟨h1, hno⟩
  · have hone : F = {q} := by
      ext r
      rw [hF, Finset.mem_singleton]
      exact ⟨fun hr => h.excl r q hr hq, fun hr => hr ▸ hq⟩
    rw [hone, Finset.card_singleton] at hn
    omega
  · have hnone : F = ∅ := Finset.eq_empty_of_forall_notMem fun r hr => hno r ((hF r).mp hr)
    rw [hnone, Finset.card_empty] at hn
    omega

end Sem

end Ofpagent.Lib
