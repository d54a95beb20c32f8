/-
# `lib/com_util/util.c`: fields behind each other

`ENCODE_U16`, `ENCODE_U24` and `ENCODE_U32` write a field at a cursor and advance it, the decoders read
it back.  They agree on where a field ends (`decodeAll_snd`), and on 16 and 32 bits also on what it is.
`DECODE_U24` calls `DECODE_LIT_ENDIAN_U32`: it advances by three bytes and reads four, so what it
returns depends on the byte behind the field (`decodeU24_of_holds`), and is right only for a zero
with a zero behind it (`fields_roundTrip`).
-/
import Ofpagent.Util.Header

namespace Ofpagent.Util

open Ofpagent.Lib

/-! ## 1. The codec of a field -/

/-- `ENCODE_LIT_ENDIAN_U24` and `ENCODE_LIT_ENDIAN_U32`: the biggest byte comes first. -/
def encodeLitEndianU24 (val : UInt32) : List UInt8 := beBytes 3 val.toNat
def encodeLitEndianU32 (val : UInt32) : List UInt8 := beBytes 4 val.toNat

/-- `DECODE_LIT_ENDIAN_U32`. -/
def decodeLitEndianU32 (m : Mem) (mp : ℕ) : UInt32 := UInt32.ofNat (leNat (m.read mp 4).reverse)

/-- `DECODE_U24` and `DECODE_U32`, which call the same function. -/
def decodeU24 (m : Mem) (mp : ℕ) : UInt32 := decodeLitEndianU32 m mp
def decodeU32 (m : Mem) (mp : ℕ) : UInt32 := decodeLitEndianU32 m mp

/-- The widths. -/
inductive Width
  | u16
  | u24
  | u32
  deriving DecidableEq

/-- How far the cursor goes. -/
def Width.size : Width → ℕ
  | u16 => 2
  | u24 => 3
  | u32 => 4

/-- A field, with a value in range. -/
structure Field where
  width : Width
  val : UInt32
  lt : val.toNat < 256 ^ width.size

/-- The bytes of a field. -/
def Field.bytes (f : Field) : List UInt8 :=
  match f.width with
  | .u16 => encodeU16 f.val.toUInt16
  | .u24 => encodeLitEndianU24 f.val
  | .u32 => encodeLitEndianU32 f.val

/-- `ENCODE_U16`, `ENCODE_U24` and `ENCODE_U32`, with the cursor they return. -/
def Field.encode (f : Field) (m : Mem) (mp : ℕ) : Mem × ℕ := (m.write mp f.bytes, mp + f.width.size)

/-- `DECODE_U16`, `DECODE_U24` and `DECODE_U32`, with the cursor they return. -/
def Width.decode (w : Width) (m : Mem) (mp : ℕ) : UInt32 × ℕ :=
  match w with
  | .u16 => ((decodeU16 m mp).toUInt32, mp + 2)
  | .u24 => (decodeU24 m mp, mp + 3)
  | .u32 => (decodeU32 m mp, mp + 4)

/-- One field after another. -/
def encodeAll : Mem → ℕ → List Field → Mem × ℕ
  | m, mp, [] => (m, mp)
  | m, mp, f :: fs => encodeAll (f.encode m mp).1 (f.encode m mp).2 fs

def decodeAll (m : Mem) : ℕ → List Width → List UInt32 × ℕ
  | mp, [] => ([], mp)
  | mp, w :: ws =>
    let r := decodeAll m (w.decode m mp).2 ws
    ((w.decode m mp).1 :: r.1, r.2)

theorem Field.bytes_length (f : Field) : f.bytes.length = f.width.size := by
  unfold Field.bytes
  cases f.width with
  | u16 => exact encodeU16_length _
  | u24 => exact beBytes_length 3 _
  | u32 => exact beBytes_length 4 _

theorem Width.decode_snd (w : Width) (m : Mem) (mp : ℕ) : (w.decode m mp).2 = mp + w.size := by
  cases w <;> rfl

theorem encodeAll_eq (m : Mem) (mp : ℕ) (fs : List Field) : encodeAll m mp fs =
    (m.writeAll (Mem.consecutive mp (fs.map Field.bytes)),
      mp + (fs.map fun f => f.width.size).sum) := by
  induction fs generalizing m mp with
  | nil => rfl
  | cons f fs ih =>
    rw [encodeAll, ih, List.map_cons, List.map_cons, List.sum_cons, Mem.consecutive,
      f.bytes_length]
    simp only [Field.encode, Nat.add_assoc]
    rfl

/-- **Encoders and decoders agree on the cursor.** -/
theorem decodeAll_snd (m m' : Mem) (mp : ℕ) (fs : List Field) :
    (decodeAll m' mp (fs.map Field.width)).2 = (encodeAll m mp fs).2 := by
  rw [encodeAll_eq]
  induction fs generalizing mp with
  | nil => rfl
  | cons f fs ih =>
    rw [List.map_cons, decodeAll, Width.decode_snd]
    simp only [ih, List.map_cons, List.sum_cons, Nat.add_assoc]

/-! ## 2. What a decoder makes of a field -/

theorem decodeU32_of_holds {m : Mem} {mp : ℕ} {val : UInt32} (h : m.Holds mp (encodeLitEndianU32 val)) :
    decodeU32 m mp = val := by
  have hval : beNat (m.read mp 4) = val.toNat := Mem.Holds.beNat_read h val.toNat_lt
  rw [decodeU32, decodeLitEndianU32, ← beNat, hval]
  exact UInt32.ofNat_toNat

/-- **Three bytes are read as four.** -/
theorem decodeU24_of_holds {m : Mem} {mp : ℕ} {val : UInt32} (hval : val.toNat < 256 ^ 3)
    (h : m.Holds mp (encodeLitEndianU24 val)) :
    (decodeU24 m mp).toNat = 256 * val.toNat + (m (mp + 3)).toNat := by
  have hb := (m (mp + 3)).toNat_lt
  have hlast : m.read (mp + 3) 1 = [m (mp + 3)] := rfl
  have hread : m.read mp 4 = beBytes 3 val.toNat ++ [m (mp + 3)] := by
    have hsplit : m.read mp (3 + 1) = m.read mp 3 ++ m.read (mp + 3) 1 := Mem.read_add m mp 3 1
    rw [hsplit, h.read_eq (beBytes_length 3 _), hlast, encodeLitEndianU24]
  rw [decodeU24, decodeLitEndianU32, hread, List.reverse_append, List.reverse_singleton,
    List.singleton_append, leNat, beBytes, List.reverse_reverse, leNat_leBytes,
    Nat.mod_eq_of_lt hval, UInt32.toNat_ofNat']
  omega

/-- A field comes back, unless it has 24 bits and is not zero with a zero behind it. -/
theorem decode_of_holds {m : Mem} {mp : ℕ} {f : Field} (h : m.Holds mp f.bytes) :
    (f.width.decode m mp).1 = f.val ↔ (f.width = .u24 → f.val = 0 ∧ m (mp + 3) = 0) := by
  obtain ⟨w, val, hlt⟩ := f
  cases w with
  | u16 =>
    have hval : (decodeU16 m mp).toUInt32 = val := by
      rw [decodeU16_of_holds h]
      apply UInt32.toNat_inj.mp
      rw [UInt16.toNat_toUInt32, UInt32.toNat_toUInt16]
      exact Nat.mod_eq_of_lt hlt
    exact iff_of_true hval Width.noConfusion
  | u24 =>
    have hval := decodeU24_of_holds hlt h
    have hb := (m (mp + 3)).toNat_lt
    rw [forall_prop_of_true rfl, ← UInt32.toNat_inj, ← UInt32.toNat_inj, ← UInt8.toNat_inj]
    change (decodeU24 m mp).toNat = val.toNat ↔ val.toNat = 0 ∧ (m (mp + 3)).toNat = 0
    omega
  | u32 => exact iff_of_true (decodeU32_of_holds h) Width.noConfusion

/-! ## 3. Lists of fields -/

/-- Every field of 24 bits is zero, with a zero behind it. -/
def Harmless (m : Mem) : ℕ → List Field → Prop
  | _, [] => True
  | mp, f :: fs =>
    (f.width = .u24 → f.val = 0 ∧ m (mp + 3) = 0) ∧ Harmless m (mp + f.width.size) fs

/-- The fields that stand in a memory are read from it when they are harmless. -/
theorem decodeAll_of_holds {m : Mem} {mp : ℕ} {fs : List Field}
    (h : m.Holds mp (fs.map Field.bytes).flatten) :
    (decodeAll m mp (fs.map Field.width)).1 = fs.map Field.val ↔ Harmless m mp fs := by
  induction fs generalizing mp with
  | nil => exact iff_of_true rfl trivial
  | cons f fs ih =>
    rw [List.map_cons, List.flatten_cons, Mem.holds_append, f.bytes_length] at h
    rw [List.map_cons, List.map_cons, decodeAll, Width.decode_snd, List.cons.injEq,
      decode_of_holds h.1, ih h.2, Harmless]

/-- A call writes, and reads, the bytes of its own field only. -/
structure Field.Own (f : Field) : Prop where
  encode : ∀ (m : Mem) (mp i : ℕ), i < mp ∨ mp + f.width.size ≤ i → (f.encode m mp).1 i = m i
  decode : ∀ (m m' : Mem) (mp : ℕ), (∀ i, mp ≤ i → i < mp + f.width.size → m' i = m i) →
    f.width.decode m' mp = f.width.decode m mp

theorem Field.encode_own (f : Field) {m : Mem} {mp i : ℕ} (h : i < mp ∨ mp + f.width.size ≤ i) :
    (f.encode m mp).1 i = m i :=
  Mem.write_apply_of_disjoint (by rwa [f.bytes_length])

/-- The encoders keep to their field, and so do the decoders of 16 and 32 bits. -/
theorem Field.own_iff (f : Field) : f.Own ↔ f.width ≠ .u24 := by
  have hread : ∀ (m m' : Mem) (mp n : ℕ), (∀ i, mp ≤ i → i < mp + n → m' i = m i) →
      m'.read mp n = m.read mp n := fun m m' mp n h => Mem.read_congr h
  constructor
  · rintro ⟨-, hdecode⟩ h24
    -- the fourth byte
    have h := hdecode (fun _ => 0) (Mem.write (fun _ => 0) 3 [1]) 0 fun i _ hi =>
      Mem.write_apply_of_disjoint (.inl (by rw [h24] at hi; exact hi))
    rw [h24] at h
    exact absurd (congrArg Prod.fst h) (by decide)
  · intro hne
    refine ⟨fun m mp i => f.encode_own, fun m m' mp h => ?_⟩
    cases hw : f.width with
    | u16 =>
      rw [hw] at h
      simp only [Width.decode, decodeU16, hread m m' mp 2 h]
    | u24 => exact absurd hw hne
    | u32 =>
      rw [hw] at h
      simp only [Width.decode, decodeU32, decodeLitEndianU32, hread m m' mp 4 h]

/-- The fields come back, and every call keeps to its own. -/
structure RoundTrips (fs : List Field) : Prop where
  values : ∀ (m : Mem) (mp : ℕ), decodeAll (encodeAll m mp fs).1 mp (fs.map Field.width) =
    (fs.map Field.val, (encodeAll m mp fs).2)
  own : ∀ f ∈ fs, f.Own

theorem decodeAll_encodeAll (m : Mem) (mp : ℕ) (fs : List Field) :
    decodeAll (encodeAll m mp fs).1 mp (fs.map Field.width) =
      (fs.map Field.val, (encodeAll m mp fs).2) ↔ Harmless (encodeAll m mp fs).1 mp fs := by
  have hholds : (encodeAll m mp fs).1.Holds mp (fs.map Field.bytes).flatten := by
    rw [encodeAll_eq]
    exact Mem.holds_consecutive m mp _
  rw [Prod.ext_iff, decodeAll_snd m, and_iff_left rfl, decodeAll_of_holds hholds]

theorem harmless_of_ne {m : Mem} {mp : ℕ} {fs : List Field} (h : ∀ f ∈ fs, f.width ≠ .u24) :
    Harmless m mp fs := by
  induction fs generalizing mp with
  | nil => trivial
  | cons f fs ih =>
    obtain ⟨hf, hfs⟩ := List.forall_mem_cons.mp h
    exact ⟨fun h24 => absurd h24 hf, ih hfs⟩

/-- **Fields of 16 and 32 bits come back**, whatever they hold and stand between; one of 24 bits only
as a zero with a zero behind it. -/
theorem fields_roundTrip (fs : List Field) :
    (RoundTrips fs ↔ ∀ f ∈ fs, f.width ≠ .u24) ∧
      ∀ (m : Mem) (mp : ℕ), decodeAll (encodeAll m mp fs).1 mp (fs.map Field.width) =
        (fs.map Field.val, (encodeAll m mp fs).2) ↔ Harmless (encodeAll m mp fs).1 mp fs := by
  refine ⟨⟨?_, ?_⟩, fun m mp => decodeAll_encodeAll m mp fs⟩
  · intro h f hf
    exact f.own_iff.mp (h.own f hf)
  · intro h
    exact ⟨fun m mp => (decodeAll_encodeAll m mp fs).mpr (harmless_of_ne h),
      fun f hf => f.own_iff.mpr (h f hf)⟩

/-- **A field of 24 bits with a 1 in it** is read as 256. -/
theorem fields_wide : ¬ RoundTrips [⟨.u24, 1, by decide⟩] ∧
    decodeAll (encodeAll (fun _ => 0) 0 [⟨.u24, 1, by decide⟩]).1 0 [.u24] = ([256], 3) := by
  constructor
  · intro h
    exact absurd (congrArg Prod.fst (h.values (fun _ => 0) 0)) (by decide)
  · decide

end Ofpagent.Util
