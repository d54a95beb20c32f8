/-
# `GetStrTok`

The caller's cursor goes through a string that ends at a NUL.  A call skips delimiters, and then goes
to the next delimiter, line end or NUL, where it writes a NUL; it leaves the cursor behind a
delimiter, and on the NUL it has written else (`getStrTok_spec`).  The tokens of the calls are the
words of the first line, and an empty one behind them when that line does end, in a delimiter or
with nothing in it: the skipping stops at a NUL only, and not at the line end (`strToks_words`).
-/
import Ofpagent.Lib.Bytes
import Ofpagent.Lib.Words

namespace Ofpagent.Util

open Ofpagent.Lib

/-! ## 1. The calls

Loops are given fuel: a string without a NUL has no end. -/

/-- `for(old_cpp=*cpp; **cpp && (**cpp)==delimiters[j]; (*cpp)++);` -/
def skipOne (m : Mem) (d : UInt8) : ℕ → ℕ → Option ℕ
  | 0, _ => none
  | n + 1, cp => if m cp ≠ 0 ∧ m cp = d then skipOne m d n (cp + 1) else some cp

/-- The skipping, with the delimiters from `j` on: whether there is a character to go on with, and
where.  An advance begins with the first delimiter again. -/
def skipDelims (m : Mem) (delimiters : List UInt8) (fuel : ℕ) :
    ℕ → List UInt8 → ℕ → Option (Bool × ℕ)
  | 0, _, _ => none
  | _ + 1, [], cp => some (true, cp)
  | n + 1, d :: rest, cp =>
    match skipOne m d fuel cp with
    | none => none
    | some cp1 =>
      if m cp1 = 0 then some (false, cp1)
      else if cp1 ≠ cp then skipDelims m delimiters fuel n delimiters cp1
      else skipDelims m delimiters fuel n rest cp1

/-- The character ends a token. -/
def endsToken (delimiters : List UInt8) (c : UInt8) : Bool :=
  delimiters.any fun d => c == d || c == 0 || c == 0x0a || c == 0x0d

/-- Where the token ends that begins at the cursor. -/
def tokenEnd (m : Mem) (delimiters : List UInt8) : ℕ → ℕ → Option ℕ
  | 0, _ => none
  | n + 1, cp => if endsToken delimiters (m cp) then some cp else tokenEnd m delimiters n (cp + 1)

/-- What a call returns and leaves: the token, the memory and the cursor. -/
structure StrTok where
  token : Option ℕ
  mem : Mem
  cp : ℕ

/-- `GetStrTok`. -/
def getStrTok (fuel : ℕ) (m : Mem) (cp : ℕ) (delimiters : List UInt8) : Option StrTok :=
  if m cp = 0 ∨ delimiters = [] then some ⟨none, m, cp⟩
  else
    match skipDelims m delimiters fuel (fuel * (delimiters.length + 1)) delimiters cp with
    | none => none
    | some (false, cp1) => some ⟨none, m, cp1⟩
    | some (true, cp1) =>
      (tokenEnd m delimiters fuel cp1).map fun cp2 =>
        ⟨some cp1, m.write cp2 [0],
          if m cp2 ≠ 0 ∧ m cp2 ≠ 0x0a ∧ m cp2 ≠ 0x0d then cp2 + 1 else cp2⟩

/-- `GetStrTok` again and again, until it returns NULL: the tokens, each with the cursor behind it, and
what is left. -/
def strToks (fuel : ℕ) (delimiters : List UInt8) : ℕ → Mem → ℕ → Option (List (ℕ × ℕ) × Mem × ℕ)
  | 0, _, _ => none
  | n + 1, m, cp =>
    match getStrTok fuel m cp delimiters with
    | none => none
    | some ⟨none, m1, cp1⟩ => some ([], m1, cp1)
    | some ⟨some token, m1, cp1⟩ =>
      (strToks fuel delimiters n m1 cp1).map fun r => ((token, cp1) :: r.1, r.2)

/-! ## 2. One call -/

/-- Some delimiters, without a NUL and without a line end. -/
structure Delimiters where
  chars : List UInt8
  ne_nil : chars ≠ []
  nul : 0 ∉ chars
  lf : 0x0a ∉ chars
  cr : 0x0d ∉ chars

variable {D : Delimiters} {m : Mem} {cp fuel n : ℕ}

theorem Delimiters.endsToken_iff (D : Delimiters) (c : UInt8) :
    endsToken D.chars c = true ↔ c ∈ D.chars ∨ c = 0 ∨ c = 0x0a ∨ c = 0x0d := by
  obtain ⟨d, hd⟩ := List.exists_mem_of_ne_nil _ D.ne_nil
  simp only [endsToken, List.any_eq_true, Bool.or_eq_true, beq_iff_eq]
  constructor
  · rintro ⟨d, hd, ((rfl | h) | h) | h⟩
    · exact .inl hd
    · exact .inr (.inl h)
    · exact .inr (.inr (.inl h))
    · exact .inr (.inr (.inr h))
  · rintro (h | h | h | h)
    · exact ⟨c, h, by simp⟩
    · exact ⟨d, hd, by simp [h]⟩
    · exact ⟨d, hd, by simp [h]⟩
    · exact ⟨d, hd, by simp [h]⟩

/-- One delimiter is skipped as long as it comes, and no further than delimiters go. -/
theorem skipOne_spec {d : UInt8} (hd : d ∈ D.chars) (hin : ∀ i < n, m (cp + i) ∈ D.chars)
    (hout : m (cp + n) ∉ D.chars) (hfuel : n < fuel) :
    ∃ k ≤ n, skipOne m d fuel cp = some (cp + k) ∧ m (cp + k) ≠ d := by
  induction fuel generalizing cp n with
  | zero => exact absurd hfuel (Nat.not_lt_zero n)
  | succ fuel ih =>
    rw [skipOne]
    split_ifs with h
    · cases n with
      | zero => exact absurd (h.2 ▸ hd) hout
      | succ n =>
        have hshift : ∀ i, cp + 1 + i = cp + (i + 1) := fun i => by omega
        obtain ⟨k, hk, hrun, hne⟩ := ih (fun i hi => hshift i ▸ hin (i + 1) (by omega))
          (hshift n ▸ hout) (by omega)
        exact ⟨k + 1, by omega, by rw [hrun, hshift], by rwa [← hshift]⟩
    · refine ⟨0, n.zero_le, rfl, fun heq => h ⟨fun h0 => ?_, heq⟩⟩
      rw [Nat.add_zero] at heq
      exact D.nul (h0 ▸ heq ▸ hd)

/-- **The skipping ends behind the delimiters**: those ahead of `j` do not stand at the cursor. -/
theorem skipDelims_spec {tried rest : List UInt8} (hsplit : D.chars = tried ++ rest)
    (htried : m cp ∉ tried) (h0 : m cp ≠ 0) (hin : ∀ i < n, m (cp + i) ∈ D.chars)
    (hout : m (cp + n) ∉ D.chars) (hfuel : n < fuel) {steps : ℕ}
    (hsteps : n * (D.chars.length + 1) + rest.length < steps) :
    skipDelims m D.chars fuel steps rest cp = some (decide (m (cp + n) ≠ 0), cp + n) := by
  induction steps generalizing cp n tried rest with
  | zero => exact absurd hsteps (Nat.not_lt_zero _)
  | succ steps ih =>
    cases rest with
    | nil =>
      have hn : n = 0 := by
        by_contra hne
        have hfirst := hin 0 (Nat.pos_of_ne_zero hne)
        rw [hsplit, List.append_nil] at hfirst
        exact htried hfirst
      subst hn
      rw [skipDelims, Nat.add_zero, decide_eq_true h0]
    | cons d rest =>
      have hd : d ∈ D.chars := by simp [hsplit]
      obtain ⟨k, hk, hrun, hne⟩ := skipOne_spec hd hin hout hfuel
      rw [skipDelims, hrun]
      dsimp only
      split_ifs with hnul hmoved
      · have hkn : k = n := by
          by_contra hlt
          exact D.nul (hnul ▸ hin k (by omega))
        rw [← hkn, hnul]
        rfl
      · -- from the first delimiter again, with fewer characters ahead
        have hshift : ∀ i, cp + k + i = cp + (k + i) := fun i => Nat.add_assoc cp k i
        have hrest : k + (n - k) = n := by omega
        have hmul : (n - k + 1) * (D.chars.length + 1) ≤ n * (D.chars.length + 1) :=
          Nat.mul_le_mul_right _ (by omega)
        have hbound : (n - k) * (D.chars.length + 1) + D.chars.length < steps := by
          rw [Nat.succ_mul] at hmul
          rw [List.length_cons] at hsteps
          omega
        have hrec := ih (n := n - k) (List.nil_append _).symm List.not_mem_nil hnul
          (fun i hi => hshift i ▸ hin (k + i) (by omega)) (by rwa [hshift, hrest]) (by omega) hbound
        rw [hrec, hshift, hrest]
      · have hk0 : k = 0 := by omega
        subst hk0
        have hsplit' : D.chars = (tried ++ [d]) ++ rest := by simp [hsplit]
        have htried' : m cp ∉ tried ++ [d] := by
          have hhead : m cp ≠ d := hne
          simp [htried, hhead]
        exact ih hsplit' htried' h0 hin hout hfuel (by rw [List.length_cons] at hsteps; omega)

/-- The token ends at the first character that ends it. -/
theorem tokenEnd_spec (hin : ∀ i < n, endsToken D.chars (m (cp + i)) = false)
    (hout : endsToken D.chars (m (cp + n)) = true) (hfuel : n < fuel) :
    tokenEnd m D.chars fuel cp = some (cp + n) := by
  induction fuel generalizing cp n with
  | zero => exact absurd hfuel (Nat.not_lt_zero n)
  | succ fuel ih =>
    rw [tokenEnd]
    cases n with
    | zero => exact if_pos hout
    | succ n =>
      have hshift : ∀ i, cp + 1 + i = cp + (i + 1) := fun i => by omega
      have hfirst : endsToken D.chars (m cp) = false := hin 0 n.succ_pos
      rw [if_neg (by simp [hfirst]), ih (fun i hi => hshift i ▸ hin (i + 1) (by omega))
        (hshift n ▸ hout) (by omega), hshift]

/-- What a call finds: delimiters, a run of other characters, and what that ends at. -/
structure Ahead (D : Delimiters) (m : Mem) (cp : ℕ) (ds w : List UInt8) (c : UInt8) : Prop where
  delims : m.Holds cp ds
  run : m.Holds (cp + ds.length) w
  stop : m (cp + ds.length + w.length) = c
  delims_mem : ∀ x ∈ ds, x ∈ D.chars
  run_not : ∀ x ∈ w, endsToken D.chars x = false
  stop_ends : endsToken D.chars c = true
  stop_not : w = [] → c ∉ D.chars

section Call

variable {ds w : List UInt8} {c : UInt8}

theorem Ahead.skipDelims (h : Ahead D m cp ds w c) (h0 : m cp ≠ 0) (hfuel : ds.length < fuel) :
    skipDelims m D.chars fuel (fuel * (D.chars.length + 1)) D.chars cp =
      some (decide (m (cp + ds.length) ≠ 0), cp + ds.length) := by
  have hin : ∀ i < ds.length, m (cp + i) ∈ D.chars := fun i hi =>
    h.delims_mem _ (h.delims.mem hi)
  have hout : m (cp + ds.length) ∉ D.chars := by
    intro hmem
    cases w with
    | nil =>
      have hc : m (cp + ds.length) = c := h.stop
      exact h.stop_not rfl (hc ▸ hmem)
    | cons a w =>
      have hrun := h.run.mem (i := 0) (by simp)
      have hnot := h.run_not _ hrun
      rw [Bool.eq_false_iff, ne_eq, D.endsToken_iff] at hnot
      exact hnot (.inl hmem)
  have hsteps : ds.length * (D.chars.length + 1) + D.chars.length <
      fuel * (D.chars.length + 1) := by
    have hmul := Nat.mul_le_mul_right (D.chars.length + 1) hfuel
    rw [Nat.succ_mul] at hmul
    omega
  exact skipDelims_spec (List.nil_append _).symm List.not_mem_nil h0 hin hout hfuel hsteps

/-- Delimiters up to the NUL hold no token. -/
theorem getStrTok_none (h : Ahead D m cp ds [] 0) (hfuel : ds.length < fuel) :
    getStrTok fuel m cp D.chars = some ⟨none, m, cp + ds.length⟩ := by
  have hnul : m (cp + ds.length) = 0 := h.stop
  rw [getStrTok]
  split_ifs with hfirst
  · have hds : ds = [] := by
      by_contra hne
      have hmem := h.delims_mem _ (h.delims.mem (List.length_pos_iff.mpr hne))
      rw [Nat.add_zero, hfirst.resolve_right D.ne_nil] at hmem
      exact D.nul hmem
    rw [hds]
    rfl
  · rw [h.skipDelims (fun h0 => hfirst (.inl h0)) hfuel, hnul]
    rfl

/-- Else there is one, and a NUL behind it. -/
theorem getStrTok_some (h : Ahead D m cp ds w c) (hne : w ≠ [] ∨ c ≠ 0)
    (hfuel : ds.length + w.length < fuel) :
    getStrTok fuel m cp D.chars =
      some ⟨some (cp + ds.length), m.write (cp + ds.length + w.length) [0],
        if c ≠ 0 ∧ c ≠ 0x0a ∧ c ≠ 0x0d then cp + ds.length + w.length + 1
        else cp + ds.length + w.length⟩ := by
  have hrun : ∀ i < w.length, endsToken D.chars (m (cp + ds.length + i)) = false := fun i hi =>
    h.run_not _ (h.run.mem hi)
  have hstart : m (cp + ds.length) ≠ 0 := by
    cases w with
    | nil =>
      have hc : m (cp + ds.length) = c := h.stop
      rw [hc]
      exact hne.resolve_left (not_not.mpr rfl)
    | cons a w =>
      intro h0
      have hnot := hrun 0 (by simp)
      rw [Nat.add_zero, h0, Bool.eq_false_iff, ne_eq, D.endsToken_iff] at hnot
      exact hnot (.inr (.inl rfl))
  have hfirst : m cp ≠ 0 := by
    cases ds with
    | nil => exact hstart
    | cons d ds =>
      intro h0
      have hmem := h.delims_mem _ (h.delims.mem (i := 0) (by simp))
      rw [Nat.add_zero, h0] at hmem
      exact D.nul hmem
  have hend : tokenEnd m D.chars fuel (cp + ds.length) = some (cp + ds.length + w.length) :=
    tokenEnd_spec hrun (h.stop.symm ▸ h.stop_ends) (by omega)
  have hgo : ¬ (m cp = 0 ∨ D.chars = []) := fun hor => hor.elim hfirst D.ne_nil
  rw [getStrTok, if_neg hgo, h.skipDelims hfirst (by omega), decide_eq_true hstart]
  simp only [hend, Option.map_some, h.stop]

end Call

/-! ## 3. Call after call -/

/-- What the calls leave of the `n` characters at `cp`: a string for each word, NULs where these end
and nowhere else, and no cursor behind the NUL of the whole. -/
structure Outcome (m : Mem) (cp n : ℕ) (ws : List (List UInt8)) (r : List (ℕ × ℕ) × Mem × ℕ) :
    Prop where
  tokens : List.Forall₂ (fun t w => r.2.1.Holds t.1 (w ++ [0])) r.1 ws
  written : ∀ i, r.2.1 i ≠ m i → r.2.1 i = 0 ∧ ∃ q ∈ r.1.zip ws, i = q.1.1 + q.2.length
  ahead : ∀ i < cp, r.2.1 i = m i
  cursors : ∀ t ∈ r.1, t.2 ≤ cp + n
  cursor : r.2.2 ≤ cp + n

theorem Outcome.nil {k : ℕ} (hk : k ≤ cp + n) : Outcome m cp n [] ([], m, k) :=
  ⟨.nil, fun _ hi => absurd rfl hi, fun _ _ => rfl, fun _ ht => absurd ht List.not_mem_nil, hk⟩

/-- **One more token** in front: the later calls leave it alone. -/
theorem Outcome.cons {ds w : List UInt8} {ws : List (List UInt8)} {r : List (ℕ × ℕ) × Mem × ℕ}
    {cp1 n1 : ℕ} (h : Outcome (m.write (cp + ds.length + w.length) [0]) cp1 n1 ws r)
    (hrun : m.Holds (cp + ds.length) w) (hle : cp + ds.length + w.length ≤ cp1)
    (hn : cp1 + n1 ≤ cp + n) :
    Outcome m cp n (w :: ws) ((cp + ds.length, cp1) :: r.1, r.2) := by
  set e := cp + ds.length + w.length with he
  have hother : ∀ i, i ≠ e → (m.write e [0]) i = m i := by
    intro i hi
    refine Mem.write_apply_of_disjoint ?_
    rw [List.length_singleton]
    omega
  have hzero : (m.write e [0]) e = 0 := by
    rw [Mem.write_apply le_rfl (by simp)]
    simp
  have hend : r.2.1 e = 0 := by
    by_cases hsame : r.2.1 e = (m.write e [0]) e
    · rw [hsame, hzero]
    · exact (h.written e hsame).1
  constructor
  · refine .cons ?_ h.tokens
    rw [Mem.holds_append, Mem.holds_cons]
    refine ⟨hrun.congr fun k _ hk => ?_, hend, Mem.holds_nil _ _⟩
    rw [h.ahead k (by omega), hother k (by omega)]
  · intro i hi
    by_cases hsame : r.2.1 i = (m.write e [0]) i
    · have hie : i = e := by
        by_contra hne
        exact hi (hsame.trans (hother i hne))
      exact ⟨hie ▸ hend, _, List.mem_cons_self, hie⟩
    · obtain ⟨h0, q, hq, hiq⟩ := h.written i hsame
      exact ⟨h0, q, List.mem_cons_of_mem _ hq, hiq⟩
  · intro i hi
    exact (h.ahead i (by omega)).trans (hother i (by omega))
  · intro t ht
    rcases List.mem_cons.mp ht with rfl | ht
    · exact (Nat.le_add_right cp1 n1).trans hn
    · exact (h.cursors t ht).trans hn
  · exact h.cursor.trans hn

/-- The string up to its first line end, and its words. -/
def firstLine (s : List UInt8) : List UInt8 := s.takeWhile fun c => c != 0x0a && c != 0x0d
def Delimiters.words (D : Delimiters) (s : List UInt8) : List (List UInt8) :=
  Lib.words (fun c => decide (c ∈ D.chars)) (firstLine s)

/-- The first line is the whole string, or its last character is none of the delimiters. -/
def Complete (D : Delimiters) (s : List UInt8) : Prop :=
  firstLine s = s ∨ ∃ c, (firstLine s).getLast? = some c ∧ c ∉ D.chars

/-- The words, with an empty one when the line ends in a delimiter or holds nothing. -/
def Returned (D : Delimiters) (s : List UInt8) (ws : List (List UInt8)) : Prop :=
  Complete D s ∧ ws = D.words s ∨ ¬ Complete D s ∧ ws = D.words s ++ [[]]

section Line

variable {ds w rest : List UInt8} {c : UInt8}

theorem firstLine_append (hds : ∀ x ∈ ds, x ∈ D.chars) (hw : ∀ x ∈ w, endsToken D.chars x = false)
    (l : List UInt8) : firstLine (ds ++ w ++ l) = ds ++ w ++ firstLine l := by
  refine List.takeWhile_append_of_pos fun x hx => ?_
  have hline : x ≠ 0x0a ∧ x ≠ 0x0d := by
    rcases List.mem_append.mp hx with hx | hx
    · exact ⟨fun h => D.lf (h ▸ hds x hx), fun h => D.cr (h ▸ hds x hx)⟩
    · have hnot := hw x hx
      rw [Bool.eq_false_iff, ne_eq, D.endsToken_iff] at hnot
      exact ⟨fun h => hnot (.inr (.inr (.inl h))), fun h => hnot (.inr (.inr (.inr h)))⟩
  simp [hline]

theorem Delimiters.words_append (hds : ∀ x ∈ ds, x ∈ D.chars) (l : List UInt8) :
    Lib.words (fun c => decide (c ∈ D.chars)) (ds ++ l) =
      Lib.words (fun c => decide (c ∈ D.chars)) l :=
  words_append_left fun x hx => decide_eq_true (hds x hx)

theorem Delimiters.run_not (hw : ∀ x ∈ w, endsToken D.chars x = false) :
    ∀ x ∈ w, decide (x ∈ D.chars) = false := by
  intro x hx
  have hnot := hw x hx
  rw [Bool.eq_false_iff, ne_eq, D.endsToken_iff] at hnot
  exact decide_eq_false fun h => hnot (.inl h)

theorem Delimiters.words_run (hds : ∀ x ∈ ds, x ∈ D.chars)
    (hw : ∀ x ∈ w, endsToken D.chars x = false) :
    Lib.words (fun c => decide (c ∈ D.chars)) (ds ++ w) = if w = [] then [] else [w] := by
  rw [Delimiters.words_append hds]
  split_ifs with hnil
  · rw [hnil, words_nil]
  · exact words_of_run (Delimiters.run_not hw) hnil

/-- A line that the NUL ends, -/
theorem returned_last (hds : ∀ x ∈ ds, x ∈ D.chars) (hw : ∀ x ∈ w, endsToken D.chars x = false) :
    Returned D (ds ++ w) (if w = [] then [] else [w]) := by
  have hline : firstLine (ds ++ w) = ds ++ w := by
    have h := firstLine_append hds hw []
    rwa [List.append_nil, firstLine, firstLine, List.takeWhile_nil, List.append_nil] at h
  refine .inl ⟨.inl hline, ?_⟩
  rw [Delimiters.words, hline, Delimiters.words_run hds hw]

/-- one that goes on behind a word, -/
theorem returned_cons (hds : ∀ x ∈ ds, x ∈ D.chars) (hw : ∀ x ∈ w, endsToken D.chars x = false)
    (hne : w ≠ []) (hc : c ∈ D.chars) {ws : List (List UInt8)} (h : Returned D rest ws) :
    Returned D (ds ++ w ++ c :: rest) (w :: ws) := by
  have hlf : c ≠ 0x0a := fun h => D.lf (h ▸ hc)
  have hcr : c ≠ 0x0d := fun h => D.cr (h ▸ hc)
  have hcons : firstLine (c :: rest) = c :: firstLine rest := by simp [firstLine, hlf, hcr]
  have hline : firstLine (ds ++ w ++ c :: rest) = ds ++ w ++ c :: firstLine rest := by
    rw [firstLine_append hds hw, hcons]
  have hwords : D.words (ds ++ w ++ c :: rest) = w :: D.words rest := by
    rw [Delimiters.words, hline, List.append_assoc, Delimiters.words_append hds,
      words_append_cons (Delimiters.run_not hw) hne (decide_eq_true hc), Delimiters.words]
  -- the last character is that of the rest of the line, or the delimiter
  have hlast : (∃ x, (ds ++ w ++ c :: firstLine rest).getLast? = some x ∧ x ∉ D.chars) ↔
      ∃ x, (firstLine rest).getLast? = some x ∧ x ∉ D.chars := by
    rw [List.getLast?_append, List.getLast?_cons]
    cases (firstLine rest).getLast? with
    | none => simp [hc]
    | some y => simp
  have hcomplete : Complete D (ds ++ w ++ c :: rest) ↔ Complete D rest := by
    rw [Complete, hline, List.append_cancel_left_eq, List.cons.injEq, and_iff_right rfl, hlast,
      Complete]
  rw [Returned, hcomplete, hwords]
  rcases h with ⟨hall, rfl⟩ | ⟨hnot, rfl⟩
  · exact .inl ⟨hall, rfl⟩
  · exact .inr ⟨hnot, rfl⟩

/-- and one that a line end ends. -/
theorem returned_eol (hds : ∀ x ∈ ds, x ∈ D.chars) (hw : ∀ x ∈ w, endsToken D.chars x = false)
    (hc : c = 0x0a ∨ c = 0x0d) : Returned D (ds ++ w ++ c :: rest) [w] := by
  have hend : firstLine (c :: rest) = [] := by rcases hc with rfl | rfl <;> rfl
  have hline : firstLine (ds ++ w ++ c :: rest) = ds ++ w := by
    rw [firstLine_append hds hw, hend, List.append_nil]
  rw [Returned, Complete, Delimiters.words, hline, Delimiters.words_run hds hw]
  by_cases hnil : w = []
  · refine .inr ⟨?_, by rw [if_pos hnil, hnil]; rfl⟩
    rintro (heq | ⟨x, hx, hnot⟩)
    · have hlen := congrArg List.length heq
      rw [List.length_append, List.length_append, List.length_append, List.length_cons] at hlen
      omega
    · rw [hnil, List.append_nil] at hx
      exact hnot (hds x (List.mem_of_getLast? hx))
  · refine .inl ⟨.inr ⟨w.getLast hnil, ?_, ?_⟩, by rw [if_neg hnil]⟩
    · rw [List.getLast?_append, List.getLast?_eq_some_getLast hnil]
      rfl
    · exact of_decide_eq_false (Delimiters.run_not hw _ (List.getLast_mem hnil))

end Line

theorem strToks_nul {delimiters : List UInt8} (h : m cp = 0) :
    strToks fuel delimiters (n + 1) m cp = some ([], m, cp) := by
  rw [strToks, getStrTok, if_pos (.inl h)]

/-- **One call**, and the calls behind it. -/
theorem strToks_cons {ds w : List UInt8} {c : UInt8} {cp1 : ℕ} {r : List (ℕ × ℕ) × Mem × ℕ}
    (h : Ahead D m cp ds w c) (hne : w ≠ [] ∨ c ≠ 0) (hfuel : ds.length + w.length < fuel)
    (hcp1 : (if c ≠ 0 ∧ c ≠ 0x0a ∧ c ≠ 0x0d then cp + ds.length + w.length + 1
      else cp + ds.length + w.length) = cp1)
    (hrun : strToks fuel D.chars n (m.write (cp + ds.length + w.length) [0]) cp1 = some r) :
    strToks fuel D.chars (n + 1) m cp = some ((cp + ds.length, cp1) :: r.1, r.2) := by
  rw [strToks, getStrTok_some h hne hfuel]
  simp only [hcp1, hrun, Option.map_some]

/-- A token that the NUL or a line end ends is the last one. -/
theorem strToks_end {ds w : List UInt8} {c : UInt8} (h : Ahead D m cp ds w c)
    (hne : w ≠ [] ∨ c ≠ 0) (hfuel : ds.length + w.length < fuel)
    (hc : ¬ (c ≠ 0 ∧ c ≠ 0x0a ∧ c ≠ 0x0d)) {k : ℕ} (hk : ds.length + w.length ≤ k) : ∃ r,
      strToks fuel D.chars (n + 2) m cp = some r ∧ Outcome m cp k [w] r := by
  have hzero : (m.write (cp + ds.length + w.length) [0]) (cp + ds.length + w.length) = 0 := by
    rw [Mem.write_apply le_rfl (by simp)]
    simp
  refine ⟨_, strToks_cons h hne hfuel (if_neg hc) (strToks_nul hzero), ?_⟩
  have hlast : Outcome (m.write (cp + ds.length + w.length) [0]) (cp + ds.length + w.length) 0 []
      ([], m.write (cp + ds.length + w.length) [0], cp + ds.length + w.length) := .nil le_rfl
  exact hlast.cons h.run le_rfl (by omega)

/-- What stands at the cursor, for a string that ends in a run, -/
theorem ahead_last {ds w : List UInt8} (hs : m.Holds cp (ds ++ w ++ [0]))
    (hds : ∀ x ∈ ds, x ∈ D.chars) (hw : ∀ x ∈ w, endsToken D.chars x = false) :
    Ahead D m cp ds w 0 := by
  rw [Mem.holds_append, Mem.holds_append, Mem.holds_cons, List.length_append, ← Nat.add_assoc] at hs
  exact ⟨hs.1.1, hs.1.2, hs.2.1, hds, hw, (D.endsToken_iff 0).mpr (.inr (.inl rfl)), fun _ => D.nul⟩

/-- and for one that goes on. -/
theorem ahead_cons {ds w rest : List UInt8} {c : UInt8}
    (hs : m.Holds cp (ds ++ w ++ c :: rest ++ [0])) (hds : ∀ x ∈ ds, x ∈ D.chars)
    (hw : ∀ x ∈ w, endsToken D.chars x = false) (hc : endsToken D.chars c = true)
    (hcw : w = [] → c ∉ D.chars) :
    Ahead D m cp ds w c ∧ m.Holds (cp + ds.length + w.length + 1) (rest ++ [0]) := by
  rw [List.append_assoc, List.cons_append, Mem.holds_append, Mem.holds_append, Mem.holds_cons,
    List.length_append, ← Nat.add_assoc] at hs
  exact ⟨⟨hs.1.1, hs.1.2, hs.2.1, hds, hw, hc, hcw⟩, hs.2.2⟩

/-- **The calls return the words of the first line**, and the empty one behind them. -/
theorem strToks_spec (D : Delimiters) {s : List UInt8} (hs : m.Holds cp (s ++ [0])) (h0 : 0 ∉ s)
    (hfuel : s.length < fuel) (hn : s.length < n) : ∃ r ws,
      strToks fuel D.chars n m cp = some r ∧ Outcome m cp s.length ws r ∧ Returned D s ws := by
  induction n generalizing s m cp with
  | zero => exact absurd hn (Nat.not_lt_zero _)
  | succ n ih =>
    obtain ⟨ds, w, hds, hw, hshape⟩ :=
      exists_word (fun c => decide (c ∈ D.chars)) (endsToken D.chars) s
    have hds' : ∀ x ∈ ds, x ∈ D.chars := fun x hx => of_decide_eq_true (hds x hx)
    rcases hshape with rfl | ⟨c, rest, rfl, hc, hcw⟩
    · have hahead := ahead_last hs hds' hw
      have hret := returned_last hds' hw
      rw [List.length_append] at hfuel hn ⊢
      by_cases hnil : w = []
      · subst hnil
        rw [if_pos rfl] at hret
        refine ⟨([], m, cp + ds.length), [], ?_, .nil (by omega), hret⟩
        rw [strToks, getStrTok_none hahead (by omega)]
      · rw [if_neg hnil] at hret
        obtain ⟨n, rfl⟩ : ∃ k, n = k + 1 := by
          have hpos := List.length_pos_iff.mpr hnil
          exact ⟨n - 1, by omega⟩
        obtain ⟨r, hrun, hout⟩ := strToks_end (n := n) hahead (.inl hnil) hfuel (by simp) le_rfl
        exact ⟨r, [w], hrun, hout, hret⟩
    · have hc0 : c ≠ 0 := fun h => h0 (by simp [h])
      obtain ⟨hahead, hrest⟩ :=
        ahead_cons hs hds' hw hc fun hnil => of_decide_eq_false (hcw hnil)
      rw [List.length_append, List.length_append, List.length_cons] at hfuel hn ⊢
      by_cases hdelim : c ∈ D.chars
      · -- the cursor is behind the delimiter, and so is the rest of the string
        have hnil : w ≠ [] := fun hnil => of_decide_eq_false (hcw hnil) hdelim
        have hgo : c ≠ 0 ∧ c ≠ 0x0a ∧ c ≠ 0x0d :=
          ⟨hc0, fun h => D.lf (h ▸ hdelim), fun h => D.cr (h ▸ hdelim)⟩
        have hrest' : (m.write (cp + ds.length + w.length) [0]).Holds
            (cp + ds.length + w.length + 1) (rest ++ [0]) := hrest.write (.inr le_rfl)
        obtain ⟨r, ws, hrun, hout, hret⟩ := ih hrest' (fun h => h0 (by simp [h])) (by omega) (by omega)
        refine ⟨_, w :: ws, strToks_cons hahead (.inl hnil) (by omega) (if_pos hgo) hrun, ?_,
          returned_cons hds' hw hnil hdelim hret⟩
        exact hout.cons hahead.run (Nat.le_succ _) (by omega)
      · have heol : c = 0x0a ∨ c = 0x0d := by
          rcases (D.endsToken_iff c).mp hc with h | h | h
          · exact absurd h hdelim
          · exact absurd h hc0
          · exact h
        have hstay : ¬ (c ≠ 0 ∧ c ≠ 0x0a ∧ c ≠ 0x0d) := fun h => heol.elim h.2.1 h.2.2
        obtain ⟨n, rfl⟩ : ∃ k, n = k + 1 := ⟨n - 1, by omega⟩
        have hle : ds.length + w.length ≤ ds.length + w.length + (rest.length + 1) := by omega
        have hfuel' : ds.length + w.length < fuel := by omega
        obtain ⟨r, hrun, hout⟩ := strToks_end (n := n) hahead (.inr hc0) hfuel' hstay hle
        exact ⟨r, [w], hrun, hout, returned_eol hds' hw heol⟩

/-- `GetStrTok` does what it is for: the calls end, and return the words of the first line. -/
structure Tokenizes (D : Delimiters) (m : Mem) (cp : ℕ) (s : List UInt8) : Prop where
  returned : ∃ k, ∀ fuel ≥ k, ∃ r, strToks fuel D.chars fuel m cp = some r ∧
    Outcome m cp s.length (D.words s) r
  nonempty : ∀ w ∈ D.words s, w ≠ []

theorem Tokenizes.complete {s : List UInt8} (h : Tokenizes D m cp s) (hs : m.Holds cp (s ++ [0]))
    (h0 : 0 ∉ s) : Complete D s := by
  obtain ⟨k, hk⟩ := h.returned
  have hlarge : s.length < k + s.length + 1 := by omega
  obtain ⟨r, hrun, hout⟩ := hk (k + s.length + 1) (by omega)
  obtain ⟨r', ws, hrun', hout', hret⟩ := strToks_spec D hs h0 hlarge hlarge
  obtain rfl : r = r' := Option.some_inj.mp (hrun.symm.trans hrun')
  rcases hret with ⟨hall, -⟩ | ⟨-, rfl⟩
  · exact hall
  · have hlen := hout.tokens.length_eq.symm.trans hout'.tokens.length_eq
    rw [List.length_append, List.length_singleton] at hlen
    omega

/-- **`GetStrTok` splits the first line** into its words, if the line ends at the NUL or in another
character than a delimiter. -/
theorem strToks_words (D : Delimiters) {s : List UInt8} (hs : m.Holds cp (s ++ [0])) (h0 : 0 ∉ s) :
    Tokenizes D m cp s ↔ Complete D s := by
  refine ⟨fun h => h.complete hs h0, fun hall => ?_⟩
  refine ⟨⟨s.length + 1, fun fuel hfuel => ?_⟩, fun w hw => ne_nil_of_mem_words hw⟩
  obtain ⟨r, ws, hrun, hout, hret⟩ := strToks_spec D hs h0 hfuel hfuel
  rcases hret with ⟨-, rfl⟩ | ⟨hnot, -⟩
  · exact ⟨r, hrun, hout⟩
  · exact absurd hall hnot

/-- Commas between the characters of a memory. -/
def comma : Delimiters := ⟨[44], by decide, by decide, by decide, by decide⟩
def stringMem (s : List UInt8) : Mem := fun i => s.getD i 0

theorem strToks_words_two : Tokenizes comma (stringMem [97, 44, 98]) 0 [97, 44, 98] :=
  (strToks_words comma (by decide) (by decide)).mpr (.inl (by decide))

/-- **A comma ahead of the line end**: a second token, at the line end and empty. -/
theorem strToks_empty : ¬ Tokenizes comma (stringMem [97, 44, 10]) 0 [97, 44, 10] ∧
    (strToks 4 comma.chars 4 (stringMem [97, 44, 10]) 0).map Prod.fst = some [(0, 2), (2, 2)] := by
  constructor
  · intro h
    rcases h.complete (by decide) (by decide) with hline | ⟨c, hc, hnot⟩
    · exact absurd hline (by decide)
    · obtain rfl : 44 = c := Option.some_inj.mp hc
      exact hnot (by decide)
  · decide

end Ofpagent.Util
