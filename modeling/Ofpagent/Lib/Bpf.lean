/-
# The classic packet filter

A filter is a list of instructions over an accumulator `A` and an index `X`.  Jumps go forward, so a
run is a recursion on what is left of the program (`run`).  A load behind the end of the packet
rejects it, and so does a return of zero.

What a filter accepts is read off its instructions from the first one on, by one rule for each
(`accepts_ldAbs` to `accepts_ret`), and a load is what stands in the packet (`load_eq_iff`).  A program
whose jumps stay inside it gives every packet a verdict (`Checked.run_isSome`).
-/
import Ofpagent.Lib.Bytes

namespace Ofpagent.Lib.Bpf

/-! ## 1. The machine -/

/-- `struct sock_filter`. -/
structure SockFilter where
  code : UInt16
  jt : UInt8
  jf : UInt8
  k : UInt32

/-- What the codes mean: a load of `w` bytes at `k` or at `X + k`, the length of the IP header at
`k`, the two tests, and the verdict. -/
inductive Op
  | ldAbs (w : ℕ)
  | ldInd (w : ℕ)
  | ldxMsh
  | jeq
  | jset
  | ret
  deriving DecidableEq

def SockFilter.op (i : SockFilter) : Option Op :=
  if i.code = 0x20 then some (.ldAbs 4)
  else if i.code = 0x28 then some (.ldAbs 2)
  else if i.code = 0x30 then some (.ldAbs 1)
  else if i.code = 0x40 then some (.ldInd 4)
  else if i.code = 0x48 then some (.ldInd 2)
  else if i.code = 0x50 then some (.ldInd 1)
  else if i.code = 0xb1 then some .ldxMsh
  else if i.code = 0x15 then some .jeq
  else if i.code = 0x45 then some .jset
  else if i.code = 0x06 then some .ret
  else none

/-- The `w` bytes at `off`, in network order. -/
def load (pkt : List UInt8) (w off : ℕ) : Option UInt32 :=
  if off + w ≤ pkt.length then some (UInt32.ofNat (beNat ((pkt.drop off).take w))) else none

/-- The verdict of a program: how much of the packet is kept.  There is none behind its end, or
behind an instruction that is none. -/
def run (pkt : List UInt8) : List SockFilter → UInt32 → UInt32 → Option UInt32
  | [], _, _ => none
  | i :: rest, a, x =>
    match i.op with
    | some (.ldAbs w) =>
      match load pkt w i.k.toNat with
      | some v => run pkt rest v x
      | none => some 0
    | some (.ldInd w) =>
      match load pkt w (x + i.k).toNat with
      | some v => run pkt rest v x
      | none => some 0
    | some .ldxMsh =>
      match load pkt 1 i.k.toNat with
      | some v => run pkt rest a (4 * (v &&& 0xf))
      | none => some 0
    | some .jeq => run pkt (rest.drop (if a = i.k then i.jt else i.jf).toNat) a x
    | some .jset => run pkt (rest.drop (if a &&& i.k ≠ 0 then i.jt else i.jf).toNat) a x
    | some .ret => some i.k
    | none => none
termination_by prog => prog.length
decreasing_by all_goals simp only [List.length_cons, List.length_drop]; omega

/-- The packet is kept. -/
def AcceptsFrom (pkt : List UInt8) (prog : List SockFilter) (a x : UInt32) : Prop :=
  ∃ n, run pkt prog a x = some n ∧ n ≠ 0

/-- `A` and `X` are zero at the start. -/
def Accepts (prog : List SockFilter) (pkt : List UInt8) : Prop := AcceptsFrom pkt prog 0 0

variable {pkt : List UInt8} {i : SockFilter} {rest : List SockFilter} {a x : UInt32}

/-! ## 2. One rule for each instruction -/

theorem run_ldAbs {w : ℕ} (h : i.op = some (.ldAbs w)) : run pkt (i :: rest) a x =
    (load pkt w i.k.toNat).elim (some 0) fun v => run pkt rest v x := by
  rw [run]
  simp only [h]
  cases load pkt w i.k.toNat <;> rfl

theorem run_ldInd {w : ℕ} (h : i.op = some (.ldInd w)) : run pkt (i :: rest) a x =
    (load pkt w (x + i.k).toNat).elim (some 0) fun v => run pkt rest v x := by
  rw [run]
  simp only [h]
  cases load pkt w (x + i.k).toNat <;> rfl

theorem run_ldxMsh (h : i.op = some .ldxMsh) : run pkt (i :: rest) a x =
    (load pkt 1 i.k.toNat).elim (some 0) fun v => run pkt rest a (4 * (v &&& 0xf)) := by
  rw [run]
  simp only [h]
  cases load pkt 1 i.k.toNat <;> rfl

theorem run_jeq (h : i.op = some .jeq) : run pkt (i :: rest) a x =
    run pkt (rest.drop (if a = i.k then i.jt else i.jf).toNat) a x := by
  rw [run]
  simp only [h]

theorem run_jset (h : i.op = some .jset) : run pkt (i :: rest) a x =
    run pkt (rest.drop (if a &&& i.k ≠ 0 then i.jt else i.jf).toNat) a x := by
  rw [run]
  simp only [h]

theorem run_ret (h : i.op = some .ret) : run pkt (i :: rest) a x = some i.k := by
  rw [run]
  simp only [h]

/-- A load that fails is a verdict of zero. -/
theorem elim_zero_iff {o : Option UInt32} {f : UInt32 → Option UInt32} :
    (∃ n, o.elim (some 0) f = some n ∧ n ≠ 0) ↔ ∃ v, o = some v ∧ ∃ n, f v = some n ∧ n ≠ 0 := by
  cases o with
  | none => simp
  | some v => simp

theorem accepts_ldAbs {w : ℕ} (h : i.op = some (.ldAbs w)) : AcceptsFrom pkt (i :: rest) a x ↔
    ∃ v, load pkt w i.k.toNat = some v ∧ AcceptsFrom pkt rest v x := by
  rw [AcceptsFrom, run_ldAbs h, elim_zero_iff]
  rfl

theorem accepts_ldInd {w : ℕ} (h : i.op = some (.ldInd w)) : AcceptsFrom pkt (i :: rest) a x ↔
    ∃ v, load pkt w (x + i.k).toNat = some v ∧ AcceptsFrom pkt rest v x := by
  rw [AcceptsFrom, run_ldInd h, elim_zero_iff]
  rfl

theorem accepts_ldxMsh (h : i.op = some .ldxMsh) : AcceptsFrom pkt (i :: rest) a x ↔
    ∃ v, load pkt 1 i.k.toNat = some v ∧ AcceptsFrom pkt rest a (4 * (v &&& 0xf)) := by
  rw [AcceptsFrom, run_ldxMsh h, elim_zero_iff]
  rfl

theorem accepts_jeq (h : i.op = some .jeq) : AcceptsFrom pkt (i :: rest) a x ↔
    AcceptsFrom pkt (rest.drop (if a = i.k then i.jt else i.jf).toNat) a x := by
  rw [AcceptsFrom, run_jeq h, AcceptsFrom]

theorem accepts_jset (h : i.op = some .jset) : AcceptsFrom pkt (i :: rest) a x ↔
    AcceptsFrom pkt (rest.drop (if a &&& i.k ≠ 0 then i.jt else i.jf).toNat) a x := by
  rw [AcceptsFrom, run_jset h, AcceptsFrom]

theorem accepts_ret (h : i.op = some .ret) : AcceptsFrom pkt (i :: rest) a x ↔ i.k ≠ 0 := by
  rw [AcceptsFrom, run_ret h]
  simp

/-- A test that is followed by the rest of the program, or by a rejection. -/
theorem accepts_jeq_next (h : i.op = some .jeq) (hjt : i.jt = 0)
    (hreject : ¬ AcceptsFrom pkt (rest.drop i.jf.toNat) a x) :
    AcceptsFrom pkt (i :: rest) a x ↔ a = i.k ∧ AcceptsFrom pkt rest a x := by
  rw [accepts_jeq h]
  split_ifs with heq
  · rw [hjt]
    exact (and_iff_right heq).symm
  · exact iff_of_false hreject fun hand => heq hand.1

/-- A load that is compared, by the same two rules: its value is known. -/
theorem exists_some_eq_iff {o : Option UInt32} {k : UInt32} {P : UInt32 → Prop} :
    (∃ v, o = some v ∧ v = k ∧ P v) ↔ o = some k ∧ P k := by
  constructor
  · rintro ⟨v, hv, rfl, hp⟩
    exact ⟨hv, hp⟩
  · rintro ⟨hv, hp⟩
    exact ⟨k, hv, rfl, hp⟩

theorem accepts_ldAbs_jeq {w : ℕ} {j : SockFilter} (hi : i.op = some (.ldAbs w))
    (hj : j.op = some .jeq) (hjt : j.jt = 0)
    (hreject : ∀ v, ¬ AcceptsFrom pkt (rest.drop j.jf.toNat) v x) :
    AcceptsFrom pkt (i :: j :: rest) a x ↔
      load pkt w i.k.toNat = some j.k ∧ AcceptsFrom pkt rest j.k x := by
  simp only [accepts_ldAbs hi, accepts_jeq_next hj hjt (hreject _)]
  exact exists_some_eq_iff

theorem accepts_ldInd_jeq {w : ℕ} {j : SockFilter} (hi : i.op = some (.ldInd w))
    (hj : j.op = some .jeq) (hjt : j.jt = 0)
    (hreject : ∀ v, ¬ AcceptsFrom pkt (rest.drop j.jf.toNat) v x) :
    AcceptsFrom pkt (i :: j :: rest) a x ↔
      load pkt w (x + i.k).toNat = some j.k ∧ AcceptsFrom pkt rest j.k x := by
  simp only [accepts_ldInd hi, accepts_jeq_next hj hjt (hreject _)]
  exact exists_some_eq_iff

theorem accepts_jset_next (h : i.op = some .jset) (hjf : i.jf = 0)
    (hreject : ¬ AcceptsFrom pkt (rest.drop i.jt.toNat) a x) :
    AcceptsFrom pkt (i :: rest) a x ↔ a &&& i.k = 0 ∧ AcceptsFrom pkt rest a x := by
  rw [accepts_jset h]
  split_ifs with hne
  · exact iff_of_false hreject fun hand => hne hand.1
  · rw [hjf]
    exact (and_iff_right (not_not.mp hne)).symm

/-! ## 3. What a load finds -/

theorem load_eq_some {w off : ℕ} {v : UInt32} (h0 : 0 < w) : load pkt w off = some v ↔
    ∃ l : List UInt8, l.length = w ∧ l <+: pkt.drop off ∧ v = UInt32.ofNat (beNat l) := by
  unfold load
  split_ifs with hle
  · have hlen : ((pkt.drop off).take w).length = w := by
      rw [List.length_take, List.length_drop]
      omega
    constructor
    · intro h
      exact ⟨_, hlen, List.take_prefix _ _, (Option.some_inj.mp h).symm⟩
    · rintro ⟨l, rfl, hpre, rfl⟩
      rw [← List.prefix_iff_eq_take.mp hpre]
  · refine iff_of_false (by simp) ?_
    rintro ⟨l, rfl, hpre, -⟩
    have hlen := hpre.length_le
    rw [List.length_drop] at hlen
    omega

/-- The number that is loaded is the one that stands there. -/
theorem load_eq_iff {w off n : ℕ} (h0 : 0 < w) (hw : w ≤ 4) (hn : n < 256 ^ w) :
    load pkt w off = some (UInt32.ofNat n) ↔ beBytes w n <+: pkt.drop off := by
  have hmax : 256 ^ w ≤ 2 ^ 32 := Nat.pow_le_pow_right (n := 256) (by decide) hw
  rw [load_eq_some h0]
  constructor
  · rintro ⟨l, rfl, hpre, heq⟩
    have hl := beNat_lt l
    have hnat : n = beNat l := by
      have h := congrArg UInt32.toNat heq
      rwa [UInt32.toNat_ofNat_of_lt' (hn.trans_le hmax),
        UInt32.toNat_ofNat_of_lt' (hl.trans_le hmax)] at h
    rwa [hnat, beBytes_beNat]
  · intro hpre
    refine ⟨_, beBytes_length w n, hpre, ?_⟩
    rw [beNat_beBytes, Nat.mod_eq_of_lt hn]

/-! ## 4. Programs whose jumps stay inside -/

/-- An instruction is one, and is followed by those it goes on with. -/
def Follows (i : SockFilter) (rest : List SockFilter) : Bool :=
  match i.op with
  | some .ret => true
  | some .jeq | some .jset => i.jt.toNat < rest.length && i.jf.toNat < rest.length
  | some (.ldAbs _) | some (.ldInd _) | some .ldxMsh => !rest.isEmpty
  | none => false

/-- Every instruction goes on inside the program. -/
def Checked : List SockFilter → Bool
  | [] => true
  | i :: rest => Follows i rest && Checked rest

theorem Checked.drop {prog : List SockFilter} (h : Checked prog) (n : ℕ) : Checked (prog.drop n) := by
  induction n generalizing prog with
  | zero => exact h
  | succ n ih =>
    cases prog with
    | nil => rfl
    | cons i rest =>
      rw [Checked, Bool.and_eq_true] at h
      exact ih h.2

/-- **A checked program gives every packet a verdict.** -/
theorem Checked.run_isSome {prog : List SockFilter} (h : Checked prog) (hne : prog ≠ [])
    (pkt : List UInt8) (a x : UInt32) : (run pkt prog a x).isSome := by
  induction hn : prog.length using Nat.strong_induction_on generalizing prog a x with
  | _ n ih =>
    obtain ⟨i, rest, rfl⟩ := List.exists_cons_of_ne_nil hne
    rw [Checked, Bool.and_eq_true] at h
    obtain ⟨hfollows, hrest⟩ := h
    have hjump : ∀ k < rest.length, ∀ a x, (run pkt (rest.drop k) a x).isSome := by
      intro k hk a x
      have hlt : (rest.drop k).length < n := by
        rw [← hn, List.length_drop, List.length_cons]
        omega
      exact ih _ hlt (Checked.drop hrest k) (by simpa using hk) a x rfl
    have hload : rest ≠ [] → ∀ (o : Option UInt32) (f : UInt32 → UInt32 × UInt32),
        (o.elim (some 0) fun v => run pkt rest (f v).1 (f v).2).isSome := by
      intro hrne o f
      cases o with
      | none => rfl
      | some v => exact hjump 0 (List.length_pos_iff.mpr hrne) _ _
    cases hop : i.op with
    | none => simp [Follows, hop] at hfollows
    | some op =>
      cases op with
      | ldAbs w =>
        rw [run_ldAbs hop]
        exact hload (by simpa [Follows, hop] using hfollows) _ fun v => (v, x)
      | ldInd w =>
        rw [run_ldInd hop]
        exact hload (by simpa [Follows, hop] using hfollows) _ fun v => (v, x)
      | ldxMsh =>
        rw [run_ldxMsh hop]
        exact hload (by simpa [Follows, hop] using hfollows) _ fun v => (a, 4 * (v &&& 0xf))
      | jeq =>
        simp only [Follows, hop, Bool.and_eq_true, decide_eq_true_eq] at hfollows
        rw [run_jeq hop]
        split_ifs
        · exact hjump _ hfollows.1 a x
        · exact hjump _ hfollows.2 a x
      | jset =>
        simp only [Follows, hop, Bool.and_eq_true, decide_eq_true_eq] at hfollows
        rw [run_jset hop]
        split_ifs
        · exact hjump _ hfollows.1 a x
        · exact hjump _ hfollows.2 a x
      | ret => rw [run_ret hop]; rfl

end Ofpagent.Lib.Bpf
