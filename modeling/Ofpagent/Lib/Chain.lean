/-
# Singly linked lists in a store

A store of nodes is seen through one function, `lk a`: `none` when there is no live node at
`a`, and `some q` when there is one and its link field holds `q` (`none` is the NULL pointer).
`Seg lk p l q` says that following the links from `p` visits exactly the nodes `l`, all of
them live, and arrives at `q`; a list is a segment that arrives at NULL.

* a list has one reading (`Seg.unique`) and visits no node twice (`Seg.nodup`), so acyclicity
  is not a separate invariant;
* `relink` is the assignment `if (prev) prev->next = q; else head = q;` with which both a
  removal and an insertion end, and `Seg.relink` is the one lemma about it;
* `scan` is the C loop `for (prev = NULL, cur = head; cur; prev = cur, cur = cur->next)` that
  leaves at the first node passing a test.  It reads through every pointer it follows, so it
  is undefined (`none`) on a dangling one, and it runs on fuel; `scan_split` says what it returns
  on a list, for any fuel above the length.
-/
import Mathlib

namespace Ofpagent.Lib

variable {A : Type*}

/-! ## 1. Segments -/

/-- Following `lk` from `p` visits the live nodes `l` and arrives at `q`. -/
def Seg (lk : A → Option (Option A)) : Option A → List A → Option A → Prop
  | p, [], q => p = q
  | p, a :: l, q => p = some a ∧ ∃ r, lk a = some r ∧ Seg lk r l q

namespace Seg

variable {lk lk' : A → Option (Option A)}

@[simp] theorem nil_iff {p q : Option A} : Seg lk p [] q ↔ p = q := Iff.rfl

theorem cons_iff {p q : Option A} {a : A} {l : List A} :
    Seg lk p (a :: l) q ↔ p = some a ∧ ∃ r, lk a = some r ∧ Seg lk r l q := Iff.rfl

theorem append_iff {p q : Option A} {l₁ l₂ : List A} :
    Seg lk p (l₁ ++ l₂) q ↔ ∃ r, Seg lk p l₁ r ∧ Seg lk r l₂ q := by
  induction l₁ generalizing p with
  | nil => simp
  | cons a l₁ ih =>
    simp only [List.cons_append, cons_iff]
    constructor
    · rintro ⟨hp, r, hr, h⟩
      obtain ⟨s, h1, h2⟩ := ih.mp h
      exact ⟨s, ⟨hp, r, hr, h1⟩, h2⟩
    · rintro ⟨s, ⟨hp, r, hr, h1⟩, h2⟩
      exact ⟨hp, r, hr, ih.mpr ⟨s, h1, h2⟩⟩

/-- A list that starts at NULL is empty. -/
theorem of_null {l : List A} (h : Seg lk none l none) : l = [] := by
  cases l with
  | nil => rfl
  | cons a l => exact absurd h.1 (by simp)

/-- Every visited node is live. -/
theorem live {p q : Option A} {l : List A} (h : Seg lk p l q) : ∀ a ∈ l, (lk a).isSome := by
  induction l generalizing p with
  | nil => simp
  | cons b l ih =>
    obtain ⟨-, r, hr, h⟩ := h
    intro a ha
    rcases List.mem_cons.mp ha with rfl | ha
    · simp [hr]
    · exact ih h a ha

/-- A list has one reading: the pointer it starts from determines the nodes. -/
theorem unique {l l' : List A} {p : Option A} (h : Seg lk p l none) (h' : Seg lk p l' none) :
    l = l' := by
  induction l generalizing l' p with
  | nil =>
    rw [nil_iff] at h
    subst h
    exact (of_null h').symm
  | cons a l ih =>
    cases l' with
    | nil =>
      rw [nil_iff] at h'
      subst h'
      exact absurd h.1 (by simp)
    | cons b l' =>
      obtain ⟨hp, r, hr, h⟩ := h
      obtain ⟨hp', r', hr', h'⟩ := h'
      obtain rfl : a = b := by
        rw [hp] at hp'
        exact Option.some.inj hp'
      obtain rfl : r = r' := by
        rw [hr] at hr'
        exact Option.some.inj hr'
      rw [ih h h']

/-- **A list visits no node twice.**  From the second visit on it would have to be the same
list as from the first, and a list is not a proper suffix of itself. -/
theorem nodup {l : List A} {p : Option A} (h : Seg lk p l none) : l.Nodup := by
  induction l generalizing p with
  | nil => exact List.nodup_nil
  | cons a l ih =>
    obtain ⟨hp, r, hr, h⟩ := h
    refine List.nodup_cons.mpr ⟨?_, ih h⟩
    intro ha
    obtain ⟨l₁, l₂, hl⟩ := List.append_of_mem ha
    rw [hl] at h
    obtain ⟨s, -, h2⟩ := append_iff.mp h
    have hwhole : Seg lk (some a) (a :: (l₁ ++ a :: l₂)) none := ⟨rfl, r, hr, h⟩
    have hsuffix : Seg lk (some a) (a :: l₂) none := by
      obtain ⟨hs, h2⟩ := h2; subst hs; exact ⟨rfl, h2⟩
    have := congrArg List.length (unique hwhole hsuffix)
    simp at this
    omega

/-- A node that is reached at all is reached without a visit twice. -/
theorem exists_nodup {l : List A} {a : A} {p q : Option A} (h : Seg lk p (l ++ [a]) q) :
    ∃ k, Seg lk p (k ++ [a]) q ∧ (k ++ [a]).Nodup := by
  induction l generalizing p with
  | nil => exact ⟨[], h, List.nodup_singleton a⟩
  | cons b l ih =>
    obtain ⟨rfl, r, hr, h⟩ := h
    obtain ⟨k, hk, hnd⟩ := ih h
    by_cases hb : b ∈ k ++ [a]
    · -- the way from `b` on leads there as well
      obtain ⟨k₁, k₂, hsplit⟩ := List.append_of_mem hb
      obtain ⟨k', hk'⟩ : ∃ k', b :: k₂ = k' ++ [a] := by
        rcases List.eq_nil_or_concat (b :: k₂) with hnil | ⟨k', c, hc⟩
        · cases hnil
        · rw [List.concat_eq_append] at hc
          rw [hc, ← List.append_assoc] at hsplit
          obtain ⟨-, hac⟩ := List.append_inj' hsplit rfl
          obtain rfl := List.singleton_inj.mp hac
          exact ⟨k', hc⟩
      rw [hsplit] at hk hnd
      obtain ⟨r', -, hk₂⟩ := append_iff.mp hk
      obtain rfl := hk₂.1
      rw [hk'] at hk₂ hnd
      exact ⟨k', hk₂, hnd.of_append_right⟩
    · exact ⟨b :: k, ⟨rfl, r, hr, hk⟩, List.nodup_cons.mpr ⟨hb, hnd⟩⟩

/-- A segment reads the links of the nodes it visits and no others. -/
theorem congr {p q : Option A} {l : List A} (h : Seg lk p l q) (hc : ∀ a ∈ l, lk' a = lk a) :
    Seg lk' p l q := by
  induction l generalizing p with
  | nil => exact h
  | cons a l ih =>
    obtain ⟨hp, r, hr, h⟩ := h
    refine ⟨hp, r, ?_, ih h fun b hb => hc b (List.mem_cons_of_mem _ hb)⟩
    rw [hc a List.mem_cons_self, hr]

/-- On the way to a node nobody links to NULL. -/
theorem link_ne_null {c : A} {l : List A} {p : Option A} (h : Seg lk p l (some c)) :
    ∀ a ∈ l, lk a ≠ some none := by
  induction l generalizing p with
  | nil => simp
  | cons b l ih =>
    obtain ⟨-, r, hr, h⟩ := h
    intro a ha
    rcases List.mem_cons.mp ha with rfl | ha
    · cases l with
      | nil => simp [hr, nil_iff.mp h]
      | cons d l => simp [hr, h.1]
    · exact ih h a ha

theorem head?_eq {l : List A} {p : Option A} (h : Seg lk p l none) : p = l.head? := by
  cases l with
  | nil => simpa using h
  | cons a l => simpa using h.1

end Seg

/-! ## 2. Relinking -/

section Relink

variable [DecidableEq A]

/-- `if (prev) prev->next = q; else head = q;` as an update of the links and the head. -/
def relink (lk : A → Option (Option A)) (hd prev q : Option A) :
    (A → Option (Option A)) × Option A :=
  match prev with
  | none => (lk, q)
  | some b => (Function.update lk b (some q), hd)

/-- **The relinking rule.**  Cut a list behind `l₁` and let `relink` put `q` there: what is
reached is `l₁` and then whatever `q` leads to.  The removal of a node and the insertion of
one are the two uses. -/
theorem Seg.relink {lk : A → Option (Option A)} {hd q r : Option A} {l₁ l₂ : List A}
    (h₁ : Seg lk hd l₁ r) (h₂ : Seg lk q l₂ none) (hnd : (l₁ ++ l₂).Nodup) :
    Seg (relink lk hd l₁.getLast? q).1 (relink lk hd l₁.getLast? q).2 (l₁ ++ l₂) none := by
  rcases List.eq_nil_or_concat l₁ with rfl | ⟨l₀, b, rfl⟩
  · simpa [Lib.relink] using h₂
  · rw [List.concat_eq_append] at h₁ hnd ⊢
    rw [List.append_assoc] at hnd ⊢
    simp only [List.getLast?_append, List.getLast?_singleton, Option.or, Lib.relink]
    obtain ⟨s, h0, hb⟩ := Seg.append_iff.mp h₁
    obtain ⟨hs, rb, hrb, -⟩ := hb
    obtain ⟨-, hnd2, hdis⟩ := List.nodup_append.mp hnd
    have hb0 : b ∉ l₀ := fun hm => hdis b hm b (by simp) rfl
    have hb2 : b ∉ l₂ := (List.nodup_cons.mp hnd2).1
    have frame : ∀ {a : A}, a ≠ b → Function.update lk b (some q) a = lk a :=
      fun hne => Function.update_of_ne hne _ _
    refine Seg.append_iff.mpr ⟨s, h0.congr fun a ha => frame fun e => hb0 (e ▸ ha), ?_⟩
    refine ⟨hs, q, Function.update_self .., ?_⟩
    exact h₂.congr fun a ha => frame fun e => hb2 (e ▸ ha)

end Relink

/-! ## 3. The scanning loop -/

/-- `for (prev = .., cur = ..; cur; prev = cur, cur = cur->next) if (test) break;`: the values
of `prev` and `cur` behind the loop. -/
def scan (lk : A → Option (Option A)) (test : A → Bool) :
    Nat → Option A → Option A → Option (Option A × Option A)
  | 0, _, _ => none
  | _ + 1, prev, none => some (prev, none)
  | n + 1, prev, some a =>
    match lk a with
    | none => none
    | some r => if test a then some (prev, some a) else scan lk test n (some a) r

/-- What the loop leaves on a list: `cur` is the first node passing the test, and `prev` the
node before it. -/
theorem scan_eq {lk : A → Option (Option A)} (test : A → Bool) {l : List A} {cur : Option A}
    (n : Nat) (prev : Option A) (h : Seg lk cur l none) (hn : l.length < n) :
    scan lk test n prev cur
      = some (((l.takeWhile fun a => !test a).getLast?).or prev,
          (l.dropWhile fun a => !test a).head?) := by
  induction l generalizing cur n prev with
  | nil =>
    obtain ⟨m, rfl⟩ : ∃ m, n = m + 1 := ⟨n - 1, by simp at hn; omega⟩
    rw [Seg.nil_iff] at h
    subst h
    simp [scan]
  | cons a l ih =>
    obtain ⟨hp, r, hr, h⟩ := h
    obtain ⟨m, rfl⟩ : ∃ m, n = m + 1 := ⟨n - 1, by simp at hn; omega⟩
    subst hp
    simp only [scan, hr]
    cases ht : test a with
    | true => simp [ht]
    | false =>
      have hrest := ih m (some a) h (by simp at hn; omega)
      simp only [Bool.false_eq_true, if_false, hrest, List.takeWhile_cons, List.dropWhile_cons, ht,
        Bool.not_false, if_true]
      cases l.takeWhile fun a => !test a with
      | nil => simp
      | cons b t => simp [List.getLast?_cons]

/-- What the loop finds: nothing, or the first node passing the test with the one before it. -/
theorem scan_split {lk : A → Option (Option A)} (test : A → Bool) {l : List A} {p : Option A}
    {n : Nat} (h : Seg lk p l none) (hn : l.length < n) :
    ((∀ a ∈ l, test a = false) ∧ ∃ prev, scan lk test n none p = some (prev, none)) ∨
      ∃ l₁ a l₂, l = l₁ ++ a :: l₂ ∧ (∀ b ∈ l₁, test b = false) ∧ test a = true ∧
        scan lk test n none p = some (l₁.getLast?, some a) := by
  have hscan := scan_eq test n none h hn
  have hsplit := List.takeWhile_append_dropWhile (p := fun a => !test a) (l := l)
  have hpre : ∀ a ∈ l.takeWhile (fun a => !test a), test a = false := by
    intro a ha
    simpa using List.mem_takeWhile_imp ha
  cases hd : l.dropWhile fun a => !test a with
  | nil =>
    rw [hd, List.append_nil] at hsplit
    refine Or.inl ⟨fun a ha => hpre a (hsplit.symm ▸ ha), _, by rw [hscan, hd]; rfl⟩
  | cons a l₂ =>
    have ha : test a = true := by
      have := List.head_dropWhile_not (fun a => !test a) (l := l) (by rw [hd]; simp)
      simpa [hd] using this
    refine Or.inr ⟨_, a, l₂, by rw [← hd, hsplit], hpre, ha, ?_⟩
    rw [hscan, hd]
    simp

/-- Where the loop stops at a node, the links lead there, and it passes the test. -/
theorem Seg.to_scan {lk : A → Option (Option A)} {test : A → Bool} {n : Nat}
    {prev cur prev' : Option A} {b : A} (h : scan lk test n prev cur = some (prev', some b)) :
    ∃ l q, Seg lk cur (l ++ [b]) q ∧ lk b = some q ∧ test b = true := by
  induction n generalizing prev cur with
  | zero => cases h
  | succ n ih =>
    cases cur with
    | none => cases h
    | some a =>
      simp only [scan] at h
      split at h
      · cases h
      · next r hr =>
        split at h
        · next ht =>
          cases h
          exact ⟨[], r, ⟨rfl, r, hr, rfl⟩, hr, ht⟩
        · obtain ⟨l, q, hl, hq, ht⟩ := ih h
          exact ⟨a :: l, q, ⟨rfl, r, hr, hl⟩, hq, ht⟩

/-- The loop stops at a node that passes the test. -/
theorem scan_test {lk : A → Option (Option A)} {test : A → Bool} {n : Nat}
    {prev cur prev' : Option A} {b : A} (h : scan lk test n prev cur = some (prev', some b)) :
    test b = true := by
  obtain ⟨l, q, -, -, ht⟩ := Seg.to_scan h
  exact ht

/-- The loop stops on the way to a node that passes the test. -/
theorem scan_found {lk : A → Option (Option A)} {test : A → Bool} {l : List A} {a : A}
    {p q prev : Option A} {n : Nat} (h : Seg lk p (l ++ [a]) q) (ht : test a = true)
    (hn : l.length < n) : ∃ prev' b, scan lk test n prev p = some (prev', some b) := by
  induction l generalizing p prev n with
  | nil =>
    obtain ⟨m, rfl⟩ : ∃ m, n = m + 1 := ⟨n - 1, by simp at hn; omega⟩
    obtain ⟨rfl, r, hr, -⟩ := h
    exact ⟨prev, a, by rw [scan, hr]; simp [ht]⟩
  | cons b l ih =>
    obtain ⟨m, rfl⟩ : ∃ m, n = m + 1 := ⟨n - 1, by simp at hn; omega⟩
    obtain ⟨rfl, r, hr, h⟩ := h
    simp only [scan, hr]
    cases hb : test b with
    | true => exact ⟨prev, b, rfl⟩
    | false => exact ih h (by simpa using hn)

/-- Where the loop stops at a node that links to NULL, there is a list. -/
theorem Seg.of_scan {lk : A → Option (Option A)} {test : A → Bool} {n : Nat}
    {prev cur prev' : Option A} {b : A} (h : scan lk test n prev cur = some (prev', some b))
    (hb : lk b = some none) : ∃ l, Seg lk cur l none := by
  obtain ⟨l, q, hl, hq, -⟩ := Seg.to_scan h
  obtain rfl : q = none := Option.some.inj (hq.symm.trans hb)
  exact ⟨l ++ [b], hl⟩

/-- Looking for the node that links to NULL finds the last one. -/
theorem scan_last {lk : A → Option (Option A)} {test : A → Bool}
    (htest : ∀ a, test a = true ↔ lk a = some none) {l : List A} {b : A} {p : Option A} {n : Nat}
    (h : Seg lk p (l ++ [b]) none) (hn : (l ++ [b]).length < n) :
    ∃ prev, scan lk test n none p = some (prev, some b) := by
  obtain ⟨r, h1, rfl, q, hq, hnull⟩ := Seg.append_iff.mp h
  rw [Seg.nil_iff.mp hnull] at hq
  rcases scan_split test h hn with ⟨hno, -⟩ | ⟨l₁, a, l₂, hl, -, ha, hscan⟩
  · have hb := hno b (by simp)
    rw [(htest b).mpr hq] at hb
    cases hb
  · have hmem : a ∈ l ++ [b] := by simp [hl]
    have hnot : a ∉ l := fun hm => Seg.link_ne_null h1 a hm ((htest a).mp ha)
    obtain rfl : a = b := by simpa [hnot] using hmem
    exact ⟨_, hscan⟩

end Ofpagent.Lib
