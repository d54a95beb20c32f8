/-
# A table of descriptors

A process has at most `n` descriptors, the numbers below `n`, and is given the lowest one that is
not open (`lowest`).  A table is the set of those that are, so no number in it is out of range and
its size never exceeds `n`.
-/
import Mathlib

namespace Ofpagent.Lib

variable {n : ℕ}

/-- The lowest descriptor that is not open. -/
def lowest (opened : Finset (Fin n)) : Option (Fin n) :=
  (List.finRange n).find? fun fd => decide (fd ∉ opened)

theorem lowest_notMem {opened : Finset (Fin n)} {fd : Fin n} (h : lowest opened = some fd) :
    fd ∉ opened := by
  have hfd := List.find?_some h
  simpa using hfd

/-- There is none if and only if all are open. -/
theorem lowest_eq_none_iff {opened : Finset (Fin n)} :
    lowest opened = none ↔ opened.card = n := by
  rw [lowest, List.find?_eq_none]
  constructor
  · intro h
    have huniv : opened = Finset.univ := Finset.eq_univ_of_forall fun fd => by
      simpa using h fd (List.mem_finRange fd)
    rw [huniv, Finset.card_univ, Fintype.card_fin]
  · intro h fd _
    have huniv : opened = Finset.univ := (Finset.card_eq_iff_eq_univ opened).mp (by
      rw [h, Fintype.card_fin])
    simp [huniv]

theorem card_le (opened : Finset (Fin n)) : opened.card ≤ n := by
  simpa using Finset.card_le_univ opened

end Ofpagent.Lib
