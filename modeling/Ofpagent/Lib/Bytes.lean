/-
# Byte memory

A memory is a function from offsets to bytes, `Mem.write` is `memcpy` into it and `Mem.read`
out of it.  Numbers stand in it with a fixed width, least significant byte first (`leBytes`,
`leNat`); network order is the reverse (`beBytes`).

The rules are the usual ones for a read behind a write: the same range gives what was written
(`read_write_self`, `readLe_writeLe`), a disjoint range what was there before
(`read_write_of_disjoint`), also behind any number of writes (`read_writeAll_of_disjoint`).
`Mem.Holds` says which bytes stand where, for a reader that goes through them from left to right.
-/
import Mathlib

namespace Ofpagent.Lib

/-! ## 1. Numbers as bytes -/

/-- The `w` low bytes of `n`, the lowest first. -/
def leBytes : ℕ → ℕ → List UInt8
  | 0, _ => []
  | w + 1, n => UInt8.ofNat n :: leBytes w (n / 256)

/-- The number these bytes are, the lowest first. -/
def leNat : List UInt8 → ℕ
  | [] => 0
  | b :: l => b.toNat + 256 * leNat l

/-- The `w` low bytes of `n` in network order. -/
def beBytes (w n : ℕ) : List UInt8 := (leBytes w n).reverse

@[simp] theorem leBytes_length (w n : ℕ) : (leBytes w n).length = w := by
  induction w generalizing n with
  | zero => rfl
  | succ w ih => simp [leBytes, ih]

@[simp] theorem beBytes_length (w n : ℕ) : (beBytes w n).length = w := by
  rw [beBytes, List.length_reverse, leBytes_length]

theorem leNat_leBytes (w n : ℕ) : leNat (leBytes w n) = n % 256 ^ w := by
  induction w generalizing n with
  | zero => simp [leBytes, leNat, Nat.mod_one]
  | succ w ih =>
    have hb : (UInt8.ofNat n).toNat = n % 256 := by simp
    rw [leBytes, leNat, ih, hb, pow_succ', Nat.mod_mul]

/-- The number these bytes are in network order. -/
def beNat (l : List UInt8) : ℕ := leNat l.reverse

theorem beNat_beBytes (w n : ℕ) : beNat (beBytes w n) = n % 256 ^ w := by
  rw [beNat, beBytes, List.reverse_reverse, leNat_leBytes]

theorem leNat_lt (l : List UInt8) : leNat l < 256 ^ l.length := by
  induction l with
  | nil => simp [leNat]
  | cons b l ih =>
    have hb : b.toNat < 256 := b.toNat_lt
    rw [leNat, List.length_cons, pow_succ']
    omega

theorem leBytes_leNat (l : List UInt8) : leBytes l.length (leNat l) = l := by
  induction l with
  | nil => rfl
  | cons b l ih =>
    have hb : b.toNat < 256 := b.toNat_lt
    have hlow : UInt8.ofNat (b.toNat + 256 * leNat l) = b := by
      apply UInt8.toNat_inj.mp
      rw [UInt8.toNat_ofNat']
      omega
    have hhigh : (b.toNat + 256 * leNat l) / 256 = leNat l := by omega
    rw [List.length_cons, leNat, leBytes, hlow, hhigh, ih]

theorem beBytes_beNat (l : List UInt8) : beBytes l.length (beNat l) = l := by
  rw [beBytes, beNat, ← List.length_reverse, leBytes_leNat, List.reverse_reverse]

theorem beNat_lt (l : List UInt8) : beNat l < 256 ^ l.length := by
  rw [beNat, ← List.length_reverse]
  exact leNat_lt _

/-- The digits of a number, in two parts. -/
theorem leBytes_add (v w n : ℕ) : leBytes (v + w) n = leBytes v n ++ leBytes w (n / 256 ^ v) := by
  induction v generalizing n with
  | zero => simp [leBytes]
  | succ v ih =>
    rw [Nat.succ_add, leBytes, ih, leBytes, List.cons_append, Nat.div_div_eq_div_mul, ← pow_succ']

theorem leBytes_mod (w n : ℕ) : leBytes w (n % 256 ^ w) = leBytes w n := by
  have h := leBytes_leNat (leBytes w n)
  rwa [leBytes_length, leNat_leBytes] at h

/-- A conversion to network order reads the bytes in network order as a number: the number fits,
and stored with the same width it is these bytes. -/
theorem leNat_beBytes_lt (w n : ℕ) : leNat (beBytes w n) < 256 ^ w := by
  simpa using leNat_lt (beBytes w n)

theorem leBytes_leNat_beBytes (w n : ℕ) : leBytes w (leNat (beBytes w n)) = beBytes w n := by
  simpa using leBytes_leNat (beBytes w n)

/-! ## 2. Reading and writing -/

/-- Bytes by their offset. -/
abbrev Mem := ℕ → UInt8

namespace Mem

/-- `memcpy(m + off, l, ..)`. -/
def write (m : Mem) (off : ℕ) (l : List UInt8) : Mem :=
  fun i => if off ≤ i then (l[i - off]?).getD (m i) else m i

/-- The `n` bytes from `off` on. -/
def read (m : Mem) (off n : ℕ) : List UInt8 := (List.range n).map fun k => m (off + k)

/-- A number of `w` bytes at `off`. -/
def readLe (m : Mem) (off w : ℕ) : ℕ := leNat (m.read off w)

/-- Store a number of `w` bytes at `off`. -/
def writeLe (m : Mem) (off w n : ℕ) : Mem := m.write off (leBytes w n)

/-- A sequence of copies, each with its offset. -/
def writeAll (m : Mem) (cs : List (ℕ × List UInt8)) : Mem :=
  cs.foldl (fun m c => m.write c.1 c.2) m

variable {m : Mem} {off i n : ℕ} {l : List UInt8}

@[simp] theorem read_length (m : Mem) (off n : ℕ) : (m.read off n).length = n := by simp [read]

theorem write_apply (h : off ≤ i) (h' : i - off < l.length) : m.write off l i = l[i - off] := by
  simp [write, h, h']

theorem write_apply_of_disjoint (h : i < off ∨ off + l.length ≤ i) : m.write off l i = m i := by
  unfold write
  split
  · rw [List.getElem?_eq_none (by omega), Option.getD_none]
  · rfl

theorem read_congr {m' : Mem} (h : ∀ k, off ≤ k → k < off + n → m' k = m k) :
    m'.read off n = m.read off n :=
  List.map_congr_left fun k hk => h (off + k) (by omega) (by simpa using hk)

theorem read_write_self (m : Mem) (off : ℕ) (l : List UInt8) :
    (m.write off l).read off l.length = l := by
  refine List.ext_getElem (by simp) fun k hk hl => ?_
  simp only [read, List.getElem_map, List.getElem_range]
  rw [write_apply (by omega) (by omega)]
  simp

/-- A copy of one byte changes nothing where that byte stands already. -/
theorem write_singleton_eq_self {b : UInt8} : m.write off [b] = m ↔ m off = b := by
  constructor
  · intro h
    have hoff := congrFun h off
    rw [write_apply le_rfl (by simp)] at hoff
    simpa using hoff.symm
  · rintro rfl
    funext i
    rcases Nat.lt_trichotomy i off with hlt | rfl | hgt
    · exact write_apply_of_disjoint (.inl hlt)
    · rw [write_apply le_rfl (by simp)]
      simp
    · exact write_apply_of_disjoint (.inr hgt)

theorem read_write_of_disjoint (h : i + n ≤ off ∨ off + l.length ≤ i) :
    (m.write off l).read i n = m.read i n :=
  read_congr fun _ h1 h2 => write_apply_of_disjoint (by omega)

@[simp] theorem readLe_writeLe (m : Mem) (off w n : ℕ) :
    (m.writeLe off w n).readLe off w = n % 256 ^ w := by
  have h := read_write_self m off (leBytes w n)
  rw [leBytes_length] at h
  rw [readLe, writeLe, h, leNat_leBytes]

theorem readLe_write_of_disjoint {w : ℕ} (h : i + w ≤ off ∨ off + l.length ≤ i) :
    (m.write off l).readLe i w = m.readLe i w := by
  rw [readLe, read_write_of_disjoint h, readLe]

theorem readLe_writeLe_of_disjoint {w w' : ℕ} (h : i + w ≤ off ∨ off + w' ≤ i) :
    (m.writeLe off w' n).readLe i w = m.readLe i w :=
  readLe_write_of_disjoint (by simpa using h)

/-- What no copy touches is what it was. -/
theorem writeAll_apply_of_disjoint {cs : List (ℕ × List UInt8)} {m : Mem}
    (h : ∀ c ∈ cs, i < c.1 ∨ c.1 + c.2.length ≤ i) : m.writeAll cs i = m i := by
  induction cs generalizing m with
  | nil => rfl
  | cons c cs ih =>
    have htail : (m.write c.1 c.2).writeAll cs i = m.write c.1 c.2 i :=
      ih fun c' hc' => h c' (List.mem_cons_of_mem _ hc')
    exact htail.trans (write_apply_of_disjoint (h c List.mem_cons_self))

theorem read_writeAll_of_disjoint {cs : List (ℕ × List UInt8)} {m : Mem}
    (h : ∀ c ∈ cs, i + n ≤ c.1 ∨ c.1 + c.2.length ≤ i) :
    (m.writeAll cs).read i n = m.read i n :=
  read_congr fun _ _ _ => writeAll_apply_of_disjoint fun c hc => by
    have := h c hc
    omega

/-! ## 3. What stands in a memory -/

theorem read_succ (m : Mem) (off n : ℕ) : m.read off (n + 1) = m off :: m.read (off + 1) n := by
  simp only [read, List.range_succ_eq_map, List.map_cons, List.map_map, Nat.add_zero]
  congr 1
  refine List.map_congr_left fun k _ => ?_
  rw [Function.comp_apply, Nat.succ_eq_add_one, Nat.add_right_comm, Nat.add_assoc]

theorem read_add (m : Mem) (off a b : ℕ) :
    m.read off (a + b) = m.read off a ++ m.read (off + a) b := by
  simp [read, List.range_add, Function.comp_def, Nat.add_assoc]

/-- What a write behind the first `n` bytes leaves there, followed by what it wrote. -/
theorem read_write_append (m : Mem) (n : ℕ) (l : List UInt8) :
    (m.write n l).read 0 (n + l.length) = m.read 0 n ++ l := by
  rw [read_add, read_write_of_disjoint (.inl (by omega)), Nat.zero_add, read_write_self]

/-- A part of what is read. -/
theorem take_drop_read (m : Mem) (off : ℕ) {a b n : ℕ} (h : a + b ≤ n) :
    ((m.read off n).drop a).take b = m.read (off + a) b := by
  obtain ⟨c, rfl⟩ := Nat.exists_eq_add_of_le h
  rw [read_add, read_add, List.append_assoc, List.drop_left' (read_length m off a),
    List.take_left' (read_length m (off + a) b)]

theorem getD_read (m : Mem) (off : ℕ) {k n : ℕ} (h : k < n) (b : UInt8) :
    (m.read off n).getD k b = m (off + k) := by
  simp [read, h]

/-- The bytes `l` stand at `off`. -/
def Holds (m : Mem) (off : ℕ) (l : List UInt8) : Prop := m.read off l.length = l

instance (m : Mem) (off : ℕ) (l : List UInt8) : Decidable (m.Holds off l) :=
  inferInstanceAs (Decidable (m.read off l.length = l))

@[simp] theorem holds_nil (m : Mem) (off : ℕ) : m.Holds off [] := rfl

@[simp] theorem holds_cons {b : UInt8} :
    m.Holds off (b :: l) ↔ m off = b ∧ m.Holds (off + 1) l := by
  rw [Holds, List.length_cons, read_succ, List.cons.injEq, Holds]

theorem holds_append {k : List UInt8} :
    m.Holds off (l ++ k) ↔ m.Holds off l ∧ m.Holds (off + l.length) k := by
  rw [Holds, List.length_append, read_add]
  constructor
  · intro h
    exact List.append_inj h (read_length m off l.length)
  · rintro ⟨h, h'⟩
    rw [h, h']

theorem holds_write (m : Mem) (off : ℕ) (l : List UInt8) : (m.write off l).Holds off l :=
  read_write_self m off l

theorem Holds.read_eq (h : m.Holds off l) (hl : l.length = n) : m.read off n = l := by
  subst hl
  exact h

theorem Holds.mem (h : m.Holds off l) (hi : i < l.length) : m (off + i) ∈ l := by
  have hmem : m (off + i) ∈ m.read off l.length := List.mem_map.mpr ⟨i, List.mem_range.mpr hi, rfl⟩
  rwa [h.read_eq rfl] at hmem

/-- A number that stands there in network order is read back. -/
theorem Holds.beNat_read {w k : ℕ} (h : m.Holds off (beBytes w k)) (hk : k < 256 ^ w) :
    beNat (m.read off w) = k := by
  rw [h.read_eq (beBytes_length w k), beNat_beBytes, Nat.mod_eq_of_lt hk]

theorem Holds.congr {m' : Mem} (h : m.Holds off l)
    (h' : ∀ k, off ≤ k → k < off + l.length → m' k = m k) : m'.Holds off l := by
  rw [Holds, read_congr h', h]

/-- A copy to somewhere else. -/
theorem Holds.write {k : List UInt8} (h : m.Holds off l)
    (hd : off + l.length ≤ i ∨ i + k.length ≤ off) : (m.write i k).Holds off l := by
  rw [Holds, read_write_of_disjoint hd]
  exact h

/-- The memories have the same first `n` bytes. -/
def Agree (n : ℕ) (m m' : Mem) : Prop := ∀ i, i < n → m' i = m i

theorem Agree.read_eq {m' : Mem} {k : ℕ} (h : Agree n m m') (hk : off + k ≤ n) :
    m'.read off k = m.read off k :=
  read_congr fun i _ hi => h i (hi.trans_le hk)

theorem Agree.readLe_eq {m' : Mem} {k : ℕ} (h : Agree n m m') (hk : off + k ≤ n) :
    m'.readLe off k = m.readLe off k := by
  rw [readLe, h.read_eq hk, readLe]

theorem agree_write (m : Mem) (l : List UInt8) (h : n ≤ off) : Agree n m (m.write off l) :=
  fun _ hi => write_apply_of_disjoint (Or.inl (hi.trans_le h))

/-- A copy of `n` bytes to the start of another memory. -/
theorem agree_copy (m m' : Mem) (n : ℕ) : Agree n m (m'.write 0 (m.read 0 n)) := by
  intro i hi
  rw [write_apply (Nat.zero_le i) (by simpa using hi)]
  simp [read]

theorem Agree.trans {m' m'' : Mem} (h : Agree n m m') (h' : Agree n m' m'') : Agree n m m'' :=
  fun i hi => (h' i hi).trans (h i hi)

theorem Agree.mono {m' : Mem} {k : ℕ} (h : Agree n m m') (hk : k ≤ n) : Agree k m m' :=
  fun i hi => h i (hi.trans_le hk)

/-- Copies of these byte strings, one behind the other. -/
def consecutive : ℕ → List (List UInt8) → List (ℕ × List UInt8)
  | _, [] => []
  | off, l :: ls => (off, l) :: consecutive (off + l.length) ls

theorem le_of_mem_consecutive {ls : List (List UInt8)} {c : ℕ × List UInt8}
    (h : c ∈ consecutive off ls) : off ≤ c.1 := by
  induction ls generalizing off with
  | nil => cases h
  | cons l ls ih =>
    rcases List.mem_cons.mp h with rfl | h
    · exact le_rfl
    · exact (Nat.le_add_right off l.length).trans (ih h)

/-- **What consecutive copies leave** is the concatenation of the strings. -/
theorem holds_consecutive (m : Mem) (off : ℕ) (ls : List (List UInt8)) :
    (m.writeAll (consecutive off ls)).Holds off ls.flatten := by
  induction ls generalizing m off with
  | nil => rfl
  | cons l ls ih =>
    have hrun : m.writeAll (consecutive off (l :: ls))
        = (m.write off l).writeAll (consecutive (off + l.length) ls) := rfl
    rw [hrun, List.flatten_cons, holds_append]
    constructor
    · refine (holds_write m off l).congr fun k _ hk => ?_
      refine writeAll_apply_of_disjoint fun c hc => Or.inl ?_
      exact hk.trans_le (le_of_mem_consecutive hc)
    · exact ih (m.write off l) (off + l.length)

end Mem

end Ofpagent.Lib
