/-
# A ledger of numbered slips

Something is handed in and a number given out for it (`put`), later a number is presented and what
it was given out for goes back (`take`), and now and then all is forgotten (`clear`).  `ledger` is
what is still held behind a sequence of such steps, each entry with the position of the step that
put it there, and `redeemed ss j` the entry that step `j` gives back.

Nothing is assumed about the numbers, which may be given out again: the oldest entry under a
number is the one that goes back.  An entry that goes back was put there by an earlier step, under
the number presented, and nothing has been forgotten in between (`isOpen_of_redeemed`), and no
entry goes back twice (`redeemed_inj`).
-/
import Mathlib

namespace Ofpagent.Lib

/-! ## 1. Slips and entries -/

/-- What a step does to the ledger. -/
inductive Slip (κ α : Type*)
  | put (key : κ) (val : α)
  | take (key : κ)
  | clear
  | idle

/-- What is held: the position of the `put`, the number, and what was handed in. -/
structure Entry (κ α : Type*) where
  pos : ℕ
  key : κ
  val : α

variable {κ α : Type*} [DecidableEq κ]

/-- The entry is under the number. -/
def Entry.under (key : κ) (e : Entry κ α) : Bool := decide (e.key = key)

theorem Entry.under_iff {key : κ} {e : Entry κ α} : e.under key = true ↔ e.key = key :=
  decide_eq_true_iff

/-- The step at position `n`. -/
def enter (n : ℕ) (es : List (Entry κ α)) : Slip κ α → List (Entry κ α)
  | .put key val => es ++ [⟨n, key, val⟩]
  | .take key => es.eraseP (Entry.under key)
  | .clear => []
  | .idle => es

/-- What is held behind the steps. -/
def ledger (ss : List (Slip κ α)) : List (Entry κ α) :=
  ss.zipIdx.foldl (fun es p => enter p.2 es p.1) []

/-- The entry that step `j` gives back. -/
def redeemed (ss : List (Slip κ α)) (j : ℕ) : Option (Entry κ α) :=
  match ss[j]? with
  | some (.take key) => (ledger (ss.take j)).find? (Entry.under key)
  | _ => none

@[simp] theorem ledger_nil : ledger ([] : List (Slip κ α)) = [] := rfl

theorem ledger_snoc (ss : List (Slip κ α)) (x : Slip κ α) :
    ledger (ss ++ [x]) = enter ss.length (ledger ss) x := by
  simp [ledger, List.zipIdx_append]

/-- What a step gives back is settled when it is taken. -/
theorem redeemed_append {ss : List (Slip κ α)} {j : ℕ} (hj : j < ss.length)
    (us : List (Slip κ α)) : redeemed (ss ++ us) j = redeemed ss j := by
  rw [redeemed, List.getElem?_append_left hj, List.take_append_of_le_length hj.le, redeemed]

theorem redeemed_snoc_take (ss : List (Slip κ α)) (key : κ) :
    redeemed (ss ++ [.take key]) ss.length = (ledger ss).find? (Entry.under key) := by
  simp [redeemed]

/-- What goes back, if the last step gives back at all. -/
theorem redeemed_snoc_eq_none {ss : List (Slip κ α)} {x : Slip κ α} (hx : ∀ key, x ≠ .take key) :
    redeemed (ss ++ [x]) ss.length = none := by
  cases x with
  | take key => exact absurd rfl (hx key)
  | _ => simp [redeemed]

theorem redeemed_eq_some {ss : List (Slip κ α)} {j : ℕ} {e : Entry κ α}
    (h : redeemed ss j = some e) :
    j < ss.length ∧ ss[j]? = some (.take e.key) ∧ e ∈ ledger (ss.take j) := by
  unfold redeemed at h
  split at h
  · next key hkey =>
    have hunder : e.key = key := Entry.under_iff.mp (List.find?_some h)
    rw [hunder]
    exact ⟨(List.getElem?_eq_some_iff.mp hkey).1, hkey, List.mem_of_find?_eq_some h⟩
  · cases h

omit [DecidableEq κ] in
/-- What is found is what is erased. -/
theorem split_of_find {es : List (Entry κ α)} {p : Entry κ α → Bool} {e : Entry κ α}
    (h : es.find? p = some e) :
    ∃ as bs, es = as ++ e :: bs ∧ es.eraseP p = as ++ bs ∧ p e = true ∧ ∀ a ∈ as, p a = false := by
  obtain ⟨hp, as, bs, rfl, has⟩ := List.find?_eq_some_iff_append.mp h
  have has' : ∀ a ∈ as, p a = false := fun a ha => by simpa using has a ha
  refine ⟨as, bs, rfl, ?_, hp, has'⟩
  rw [List.eraseP_append_right _ fun a ha => by simp [has' a ha], List.eraseP_cons_of_pos hp]

/-! ## 2. What is held -/

theorem pos_lt_of_mem {ss : List (Slip κ α)} {e : Entry κ α} (h : e ∈ ledger ss) :
    e.pos < ss.length := by
  induction ss using List.reverseRecOn with
  | nil => simp at h
  | append_singleton ss x ih =>
    rw [ledger_snoc] at h
    rw [List.length_append, List.length_singleton]
    cases x with
    | put key val =>
      rcases List.mem_append.mp h with h | h
      · exact (ih h).trans (Nat.lt_succ_self _)
      · rw [List.mem_singleton.mp h]
        exact Nat.lt_succ_self _
    | take key => exact (ih (List.mem_of_mem_eraseP h)).trans (Nat.lt_succ_self _)
    | clear => simp [enter] at h
    | idle => exact (ih h).trans (Nat.lt_succ_self _)

/-- The entries stand in the order they were put. -/
theorem ledger_pairwise (ss : List (Slip κ α)) : (ledger ss).Pairwise fun a b => a.pos < b.pos := by
  induction ss using List.reverseRecOn with
  | nil => simp
  | append_singleton ss x ih =>
    rw [ledger_snoc]
    cases x with
    | put key val =>
      refine List.pairwise_append.mpr ⟨ih, List.pairwise_singleton _ _, fun a ha b hb => ?_⟩
      rw [List.mem_singleton.mp hb]
      exact pos_lt_of_mem ha
    | take key => exact ih.sublist List.eraseP_sublist
    | clear => exact List.Pairwise.nil
    | idle => exact ih

/-- An entry that is still to go back: it was put, and neither forgotten nor given back. -/
structure IsOpen (ss : List (Slip κ α)) (e : Entry κ α) : Prop where
  put : ss[e.pos]? = some (.put e.key e.val)
  kept : ∀ k, e.pos < k → ss[k]? ≠ some .clear
  held : ∀ k e', redeemed ss k = some e' → e'.pos ≠ e.pos

theorem IsOpen.pos_lt {ss : List (Slip κ α)} {e : Entry κ α} (h : IsOpen ss e) :
    e.pos < ss.length :=
  (List.getElem?_eq_some_iff.mp h.put).1

omit [DecidableEq κ] in
/-- Nothing is forgotten behind a position, one step more. -/
theorem kept_snoc {ss : List (Slip κ α)} {n : ℕ} {x : Slip κ α}
    (h : ∀ k, n < k → ss[k]? ≠ some .clear) (hx : x ≠ .clear) :
    ∀ k, n < k → (ss ++ [x])[k]? ≠ some .clear := by
  intro k hk hclear
  rcases lt_or_ge k ss.length with hlt | hge
  · rw [List.getElem?_append_left hlt] at hclear
    exact h k hk hclear
  · rw [List.getElem?_append_right hge] at hclear
    exact hx (List.mem_singleton.mp (List.mem_of_getElem? hclear)).symm

/-- A step that neither forgets nor gives back the entry. -/
theorem IsOpen.snoc {ss : List (Slip κ α)} {e : Entry κ α} {x : Slip κ α} (h : IsOpen ss e)
    (hx : x ≠ .clear) (hheld : ∀ e', redeemed (ss ++ [x]) ss.length = some e' → e'.pos ≠ e.pos) :
    IsOpen (ss ++ [x]) e := by
  refine ⟨?_, kept_snoc h.kept hx, fun k e' he' => ?_⟩
  · rw [List.getElem?_append_left h.pos_lt, h.put]
  · have hk := (redeemed_eq_some he').1
    rw [List.length_append, List.length_singleton] at hk
    rcases Nat.lt_succ_iff_lt_or_eq.mp hk with hlt | rfl
    · rw [redeemed_append hlt] at he'
      exact h.held k e' he'
    · exact hheld e' he'

/-- **What is held is open.** -/
theorem isOpen_of_mem {ss : List (Slip κ α)} {e : Entry κ α} (h : e ∈ ledger ss) :
    IsOpen ss e := by
  induction ss using List.reverseRecOn with
  | nil => simp at h
  | append_singleton ss x ih =>
    rw [ledger_snoc] at h
    cases x with
    | put key val =>
      have hnone : redeemed (ss ++ [.put key val]) ss.length = none :=
        redeemed_snoc_eq_none (by simp)
      rcases List.mem_append.mp h with h | h
      · exact (ih h).snoc (by simp) (by simp [hnone])
      · rw [List.mem_singleton.mp h]
        refine ⟨by simp, fun k hk => ?_, fun k e' he' => ?_⟩
        · have hlen : (ss ++ [Slip.put key val]).length ≤ k := by simpa using Nat.succ_le_of_lt hk
          rw [List.getElem?_eq_none hlen]
          simp
        · -- what goes back up to here was put by an earlier step
          obtain ⟨hk, -, hmem⟩ := redeemed_eq_some he'
          have hpos := pos_lt_of_mem hmem
          simp only [List.length_take, List.length_append, List.length_singleton] at hk hpos
          change e'.pos ≠ ss.length
          omega
    | take key =>
      refine (ih (List.mem_of_mem_eraseP h)).snoc (by simp) fun e' he' => ?_
      rw [redeemed_snoc_take] at he'
      obtain ⟨as, bs, hes, herase, -⟩ := split_of_find he'
      rw [enter, herase] at h
      have hpw := ledger_pairwise ss
      rw [hes, List.pairwise_append, List.pairwise_cons] at hpw
      rcases List.mem_append.mp h with h | h
      · exact (hpw.2.2 e h e' List.mem_cons_self).ne'
      · exact (hpw.2.1.1 e h).ne
    | clear => simp [enter] at h
    | idle => exact (ih h).snoc (by simp) (by simp [redeemed_snoc_eq_none])

/-! ## 3. What goes back -/

/-- **What goes back** was put by an earlier step, under the number presented, and has been held
since. -/
theorem isOpen_of_redeemed {ss : List (Slip κ α)} {j : ℕ} {e : Entry κ α}
    (h : redeemed ss j = some e) :
    e.pos < j ∧ ss[e.pos]? = some (.put e.key e.val) ∧ ss[j]? = some (.take e.key) ∧
      ∀ k, e.pos < k → k ≤ j → ss[k]? ≠ some .clear := by
  obtain ⟨hj, htake, hmem⟩ := redeemed_eq_some h
  have hopen := isOpen_of_mem hmem
  have hpos := hopen.pos_lt
  rw [List.length_take, Nat.min_eq_left hj.le] at hpos
  refine ⟨hpos, ?_, htake, fun k hk hkj => ?_⟩
  · rw [← List.getElem?_take_of_lt hpos]
    exact hopen.put
  · rcases hkj.lt_or_eq with hlt | rfl
    · rw [← List.getElem?_take_of_lt hlt]
      exact hopen.kept k hk
    · simp [htake]

/-- **No entry goes back twice.** -/
theorem redeemed_inj {ss : List (Slip κ α)} {i j : ℕ} {e e' : Entry κ α}
    (hi : redeemed ss i = some e) (hj : redeemed ss j = some e') (hpos : e.pos = e'.pos) :
    i = j := by
  wlog hlt : i < j generalizing i j e e'
  · rcases (not_lt.mp hlt).lt_or_eq with hji | hji
    · exact (this hj hi hpos.symm hji).symm
    · exact hji.symm
  obtain ⟨hjlt, -, hmem⟩ := redeemed_eq_some hj
  have hilt : i < (ss.take j).length := by
    rw [List.length_take, Nat.min_eq_left hjlt.le]
    exact hlt
  have hi' : redeemed (ss.take j) i = some e := by
    rw [← redeemed_append hilt (ss.drop j), List.take_append_drop]
    exact hi
  exact absurd hpos ((isOpen_of_mem hmem).held i e hi')

/-! ## 4. What is presented -/

/-- A number takes nothing that is under another one. -/
theorem find_eraseP_of_ne {key key' : κ} (h : key' ≠ key) (es : List (Entry κ α)) :
    (es.eraseP (Entry.under key')).find? (Entry.under key) = es.find? (Entry.under key) := by
  cases hf : es.find? (Entry.under key') with
  | none =>
    rw [List.eraseP_of_forall_not fun a ha => List.find?_eq_none.mp hf a ha]
  | some e =>
    obtain ⟨as, bs, rfl, herase, he, -⟩ := split_of_find hf
    have hne : ¬ Entry.under key e = true := fun hk =>
      h ((Entry.under_iff.mp he).symm.trans (Entry.under_iff.mp hk))
    rw [herase, List.find?_append, List.find?_append, List.find?_cons_of_neg hne]

/-- **What is put goes back** to the first step that presents its number, if nothing older was
under the number and nothing is forgotten in between. -/
theorem find_of_put {ss : List (Slip κ α)} {n j : ℕ} {key : κ} {val : α}
    (hput : ss[n]? = some (.put key val)) (hold : ∀ e ∈ ledger (ss.take n), e.key ≠ key)
    (hnj : n < j) (hj : j ≤ ss.length)
    (hbetween : ∀ k, n < k → k < j → ss[k]? ≠ some .clear ∧ ss[k]? ≠ some (.take key)) :
    (ledger (ss.take j)).find? (Entry.under key) = some ⟨n, key, val⟩ := by
  induction j with
  | zero => exact absurd hnj (Nat.not_lt_zero n)
  | succ j ih =>
    have hlen : (ss.take j).length = j := by
      rw [List.length_take, Nat.min_eq_left (Nat.le_of_succ_le hj)]
    obtain ⟨x, hx⟩ : ∃ x, ss[j]? = some x := ⟨_, List.getElem?_eq_getElem hj⟩
    rw [List.take_add_one, hx, Option.toList_some, ledger_snoc, hlen]
    rcases (Nat.lt_succ_iff.mp hnj).eq_or_lt with rfl | hlt
    · obtain rfl := Option.some.inj (hx.symm.trans hput)
      have hnone : (ledger (ss.take n)).find? (Entry.under key) = none :=
        List.find?_eq_none.mpr fun e he hk => hold e he (Entry.under_iff.mp hk)
      rw [enter, List.find?_append, hnone, Option.none_or]
      exact List.find?_cons_of_pos (Entry.under_iff.mpr rfl)
    · have hfind := ih hlt (Nat.le_of_succ_le hj) fun k hk hkj =>
        hbetween k hk (hkj.trans (Nat.lt_succ_self j))
      obtain ⟨hclear, htake⟩ := hbetween j hlt (Nat.lt_succ_self j)
      cases x with
      | put key' val' => rw [enter, List.find?_append, hfind, Option.some_or]
      | take key' =>
        have hne : key' ≠ key := by
          rintro rfl
          exact htake hx
        rw [enter, find_eraseP_of_ne hne, hfind]
      | clear => exact absurd hx hclear
      | idle => exact hfind

end Ofpagent.Lib
