/-
# Words

The words of a list are its maximal runs without a separator.  A list is read from the left as
separators, a word, and what the word ends at (`exists_word`); the three rules say what the words are
then (`words_append_left`, `words_append_cons` and `words_of_run`).
-/
import Mathlib

namespace Ofpagent.Lib

variable {α : Type*} {p : α → Bool} {l w ds : List α} {d : α}

/-- The maximal runs without a separator. -/
def words (p : α → Bool) (l : List α) : List (List α) := (l.splitOnP p).filter fun w => !w.isEmpty

theorem ne_nil_of_mem_words (h : w ∈ words p l) : w ≠ [] := by
  have hne := (List.mem_filter.mp h).2
  simpa using hne

theorem words_nil (p : α → Bool) : words p [] = [] := by simp [words, List.splitOnP_nil]

/-- Separators in front are no words, -/
theorem words_append_left (h : ∀ x ∈ ds, p x = true) : words p (ds ++ l) = words p l := by
  induction ds with
  | nil => rfl
  | cons d ds ih =>
    obtain ⟨hd, hds⟩ := List.forall_mem_cons.mp h
    have hcons : words p (d :: (ds ++ l)) = words p (ds ++ l) := by
      rw [words, List.splitOnP_cons_eq_if_modifyHead, if_pos hd]
      rfl
    rw [List.cons_append, hcons, ih hds]

/-- a run that ends at a separator is one, -/
theorem words_append_cons (hw : ∀ x ∈ w, p x = false) (hne : w ≠ []) (hd : p d = true) :
    words p (w ++ d :: l) = w :: words p l := by
  rw [words, List.splitOnP_append_cons_of_forall_mem hw d hd, List.filter_cons, if_pos]
  · rfl
  · simpa using hne

/-- and so is the last one. -/
theorem words_of_run (hw : ∀ x ∈ w, p x = false) (hne : w ≠ []) : words p w = [w] := by
  rw [words, List.splitOnP_eq_singleton hw, List.filter_cons, if_pos]
  · rfl
  · simpa using hne

/-- A list is separators, a run without a separator that ends at a `stop`, and a rest; it is the
separators that the run is empty for. -/
theorem exists_word (p stop : α → Bool) (l : List α) :
    ∃ ds w, (∀ x ∈ ds, p x = true) ∧ (∀ x ∈ w, stop x = false) ∧
      (l = ds ++ w ∨ ∃ c rest, l = ds ++ w ++ c :: rest ∧ stop c = true ∧ (w = [] → p c = false)) := by
  refine ⟨l.takeWhile p, (l.dropWhile p).takeWhile fun x => !stop x, ?_, ?_, ?_⟩
  · intro x hx
    exact List.mem_takeWhile_imp hx
  · intro x hx
    simpa using List.mem_takeWhile_imp hx
  · have hl : l.takeWhile p ++ l.dropWhile p = l := List.takeWhile_append_dropWhile
    have hr : (l.dropWhile p).takeWhile (fun x => !stop x) ++
        (l.dropWhile p).dropWhile (fun x => !stop x) = l.dropWhile p :=
      List.takeWhile_append_dropWhile
    cases hrest : (l.dropWhile p).dropWhile fun x => !stop x with
    | nil =>
      rw [hrest, List.append_nil] at hr
      exact .inl (by rw [hr, hl])
    | cons c rest =>
      rw [hrest] at hr
      refine .inr ⟨c, rest, by rw [List.append_assoc, hr, hl], ?_, fun hnil => ?_⟩
      · have hne : (l.dropWhile p).dropWhile (fun x => !stop x) ≠ [] := by simp [hrest]
        have hc := List.head_dropWhile_not _ hne
        simpa [hrest] using hc
      · rw [hnil, List.nil_append] at hr
        have hne : l.dropWhile p ≠ [] := by simp [← hr]
        have hc := List.head_dropWhile_not p hne
        simpa [← hr] using hc

end Ofpagent.Lib
