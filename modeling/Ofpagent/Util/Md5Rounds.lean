/-
# The rounds of `MD5Transform`

The source writes the 64 operations of a block out, with the variables renamed from one to the
next instead of moved, the index and the shift of each as a literal, and 64 constants.  The
definition of the function is a loop: the operation, the index and the shift are given by the
number of the step, the constant is the integer part of `2^32 * |sin(i + 1)|`, and behind each step
the four words move on by one place.

`md5Transform_eq` says that the two agree for every chaining value and every block.
-/
import Ofpagent.Lib.Sines
import Ofpagent.Util.Md5

namespace Ofpagent.Util

open Ofpagent.Lib

/-! ## 1. The loop -/

/-- The function, the index and the shift of step `i`. -/
def roundFn (i : ℕ) : Md5Fn :=
  if i < 16 then .f else if i < 32 then .g else if i < 48 then .h else .i

def roundIndex (i : ℕ) : ℕ :=
  if i < 16 then i else if i < 32 then (5 * i + 1) % 16 else if i < 48 then (3 * i + 5) % 16
  else 7 * i % 16

def roundShift (i : ℕ) : UInt32 :=
  let row : List UInt32 :=
    if i < 16 then [7, 12, 17, 22] else if i < 32 then [5, 9, 14, 20]
    else if i < 48 then [4, 11, 16, 23] else [6, 10, 15, 21]
  row.getD (i % 4) 0

/-- The constant of step `i`. -/
noncomputable def roundConst (i : ℕ) : UInt32 := UInt32.ofNat ⌊2 ^ 32 * |Real.sin (i + 1 : ℕ)|⌋₊

/-- One step on the words `(a, b, c, d)`, with constant `ac`. -/
def roundStep (x : ℕ → UInt32) (ac : ℕ → UInt32) (r : Words) (i : ℕ) : Words :=
  let sum := r.a + ((roundFn i).call r.b r.c r.d + x (roundIndex i) + ac i)
  ⟨r.d, rotateLeft sum (roundShift i) + r.b, r.b, r.c⟩

/-- The compression function. -/
noncomputable def md5Compress (state : Words) (block : List UInt8) : Words :=
  let r := (List.range 64).foldl (roundStep (md5Decode block) roundConst) state
  ⟨state.a + r.a, state.b + r.b, state.c + r.c, state.d + r.d⟩

/-! ## 2. Renaming instead of moving -/

/-- The variable that is in the first, second, third and fourth place ahead of step `i`. -/
def place (i : ℕ) : Reg × Reg × Reg × Reg :=
  match i % 4 with
  | 0 => (.a, .b, .c, .d)
  | 1 => (.d, .a, .b, .c)
  | 2 => (.c, .d, .a, .b)
  | _ => (.b, .c, .d, .a)

/-- The words in their places. -/
def placed (i : ℕ) (r : Words) : Words :=
  ⟨r.get (place i).1, r.get (place i).2.1, r.get (place i).2.2.1, r.get (place i).2.2.2⟩

/-- Step `i` of the loop as an operation of the source. -/
def opOf (ac : ℕ → UInt32) (i : ℕ) : Md5Op :=
  ⟨roundFn i, (place i).1, (place i).2.1, (place i).2.2.1, (place i).2.2.2, roundIndex i,
    roundShift i, ac i⟩

/-- An operation of the source is a step of the loop. -/
theorem placed_exec (x ac : ℕ → UInt32) (i : ℕ) (r : Words) :
    placed (i + 1) ((opOf ac i).exec x r) = roundStep x ac (placed i r) i := by
  have hmod : i % 4 = 0 ∧ (i + 1) % 4 = 1 ∨ i % 4 = 1 ∧ (i + 1) % 4 = 2 ∨
      i % 4 = 2 ∧ (i + 1) % 4 = 3 ∨ i % 4 = 3 ∧ (i + 1) % 4 = 0 := by omega
  rcases hmod with ⟨h, h'⟩ | ⟨h, h'⟩ | ⟨h, h'⟩ | ⟨h, h'⟩ <;>
    simp [placed, place, opOf, roundStep, Md5Op.exec, h, h', Words.get, Words.set]

/-- The operations of the source are the steps of the loop, as long as the constants are. -/
theorem placed_foldl (x ac : ℕ → UInt32) (n : ℕ) (r : Words) :
    placed n (((List.range n).map (opOf ac)).foldl (Md5Op.exec x) r)
      = (List.range n).foldl (roundStep x ac) (placed 0 r) := by
  induction n with
  | zero => rfl
  | succ n ih =>
    rw [List.range_succ, List.map_append, List.foldl_append, List.foldl_append, ← ih]
    exact placed_exec x ac n _

/-! ## 3. The constants -/

/-- The constants of the source, in order. -/
def md5Consts : List UInt32 := md5Ops.map Md5Op.ac

theorem md5Consts_rounds : ∀ i < 64, Sines.Rounds (i + 1) (md5Consts.getD i 0).toNat := by
  decide +kernel

/-- **The constants** are the integer parts of the sines. -/
theorem md5Consts_eq {i : ℕ} (hi : i < 64) : md5Consts.getD i 0 = roundConst i := by
  rw [roundConst, Sines.floor_abs_sin (by omega) (md5Consts_rounds i hi), UInt32.ofNat_toNat]

/-- The operations of the source, from the tables of the loop and its own constants. -/
theorem md5Ops_eq : md5Ops = (List.range 64).map (opOf fun i => md5Consts.getD i 0) := by
  decide +kernel

/-- **The 64 operations of `MD5Transform` are the loop**, for every chaining value and block. -/
theorem md5Transform_eq (state : Words) (block : List UInt8) :
    md5Transform state block = md5Compress state block := by
  have hops : md5Ops = (List.range 64).map (opOf roundConst) := by
    rw [md5Ops_eq]
    refine List.map_congr_left fun i hi => ?_
    rw [opOf, opOf, md5Consts_eq (List.mem_range.mp hi)]
  have hrun := placed_foldl (md5Decode block) roundConst 64 state
  have hstart : placed 0 state = state := rfl
  have hend : ∀ r : Words, placed 64 r = r := fun _ => rfl
  rw [hend, hstart, ← hops] at hrun
  rw [md5Transform, md5Compress, hrun]

end Ofpagent.Util
