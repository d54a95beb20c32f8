/-
# `lib/com_util/md5.c`: what is built on the digest

`MD5digest` and `hmac_md5`.  Both take a length and hand it to `MD5Update`, whose length is a
`U16`; `MD5digest` declares it so, `hmac_md5` takes an `int`.

* `hmacMd5_eq`: the code is the keyed construction over the digest, for every text whose length is
  taken modulo 2^16.
* `md5Digest_collision`: two byte strings with one digest have two blocks, at which `MD5Transform`
  was called with different arguments and returned the same.
-/
import Ofpagent.Util.Md5

namespace Ofpagent.Util

open Ofpagent.Lib

theorem md5Digest_eq (context : Md5Ctx) (str : Mem) (len : UInt16) :
    md5Digest context str len = md5 (str.read 0 len.toNat) := by
  have h := md5Final_of_updates context [(str, len)]
  rwa [List.flatMap_cons, List.flatMap_nil, List.append_nil] at h

/-! ## 1. The keyed digest -/

/-- The conversion of an `int` to `U16`. -/
def u16OfInt (d : ℤ) : UInt16 := UInt16.ofNat (d % 2 ^ 16).toNat

theorem u16OfInt_toNat (d : ℤ) : (u16OfInt d).toNat = (d % 2 ^ 16).toNat := by
  rw [u16OfInt, UInt16.toNat_ofNat_of_lt']
  simp only [UInt16.size]
  omega

/-- The loop over a pad, which is one byte longer than what is used of it. -/
def xorPad (pad : Mem) (b : UInt8) : Mem := fun i => if i < 64 then pad i ^^^ b else pad i

/-- `hmac_md5`.  `tctx` and `context` are what the stack held.  A copy of a negative number of
bytes is undefined. -/
def hmacMd5 (tctx context : Md5Ctx) (text : Mem) (textLen : ℤ) (key : Mem) (keyLen : ℤ) :
    Option (List UInt8) :=
  let tk := (md5Final (md5Update (md5Init tctx) key (u16OfInt keyLen))).1
  let k : Mem × ℤ := if keyLen > 64 then (objBytes tk, 16) else (key, keyLen)
  if k.2 < 0 then none
  else
    let pad := Mem.write (fun _ => 0) 0 (k.1.read 0 k.2.toNat)
    let kIpad := xorPad pad 0x36
    let kOpad := xorPad pad 0x5c
    let inner := md5Final (md5Update (md5Update (md5Init context) kIpad 64) text (u16OfInt textLen))
    let outer := md5Final (md5Update (md5Update (md5Init inner.2) kOpad 64) (objBytes inner.1) 16)
    some outer.1

theorem md5_length (msg : List UInt8) : (md5 msg).length = 16 := by
  simp [md5, Words.toList]

/-- A pad is the key, filled up with zeros, with every byte changed. -/
theorem read_xorPad {l : List UInt8} (hl : l.length ≤ 64) (b : UInt8) :
    (xorPad (Mem.write (fun _ => 0) 0 l) b).read 0 64
      = (l ++ List.replicate (64 - l.length) 0).map (· ^^^ b) := by
  refine List.ext_getElem (by simp; omega) fun i hi hi' => ?_
  rw [Mem.read_length] at hi
  simp only [Mem.read, List.getElem_map, List.getElem_range, Nat.zero_add, xorPad, if_pos hi]
  congr 1
  rcases Nat.lt_or_ge i l.length with hlt | hge
  · rw [Mem.write_apply (Nat.zero_le i) hlt, List.getElem_append_left hlt]
    rfl
  · rw [Mem.write_apply_of_disjoint (.inr (by omega)), List.getElem_append_right hge,
      List.getElem_replicate]

/-- The two passes, for a key of at most a block. -/
theorem hmac_passes (context : Md5Ctx) {k : List UInt8} (hk : k.length ≤ 64) (text : Mem)
    (textLen : UInt16) :
    let pad := Mem.write (fun _ => 0) 0 k
    let inner := md5Final (md5Update (md5Update (md5Init context) (xorPad pad 0x36) 64) text textLen)
    (md5Final (md5Update (md5Update (md5Init inner.2) (xorPad pad 0x5c) 64)
        (objBytes inner.1) 16)).1 = hmac md5 64 k (text.read 0 textLen.toNat) := by
  intro pad inner
  have hinner : inner.1 = md5 (hmacInner md5 64 k (text.read 0 textLen.toNat)) := by
    have h := md5Final_of_updates context [(xorPad pad 0x36, 64), (text, textLen)]
    rw [List.flatMap_cons, List.flatMap_cons, List.flatMap_nil, List.append_nil] at h
    rw [hmacInner, hmacKey, if_neg (not_lt.mpr hk), ← read_xorPad hk]
    exact h
  have houter := md5Final_of_updates inner.2 [(xorPad pad 0x5c, 64), (objBytes inner.1, 16)]
  rw [List.flatMap_cons, List.flatMap_cons, List.flatMap_nil, List.append_nil] at houter
  have hdigest : (objBytes inner.1).read 0 16 = inner.1 := by
    have hlen : inner.1.length = 16 := by rw [hinner, md5_length]
    rw [read_objBytes _ hlen.ge, List.take_of_length_le hlen.le]
  rw [hmac, hmacOuter, ← hinner, hmacKey, if_neg (not_lt.mpr hk), ← read_xorPad hk, ← hdigest]
  exact houter

/-- **`hmac_md5` is the keyed construction over the digest**: for every key of less than 2^16
bytes, over the first bytes of the text.  Their number is the length modulo 2^16, so a longer text
has the code of a beginning of it. -/
theorem hmacMd5_eq (tctx context : Md5Ctx) (text key : Mem) (textLen : ℤ) {keyLen : ℤ}
    (h0 : 0 ≤ keyLen) (h1 : keyLen < 2 ^ 16) :
    hmacMd5 tctx context text textLen key keyLen
      = some (hmac md5 64 (key.read 0 keyLen.toNat) (text.read 0 (textLen % 2 ^ 16).toNat)) := by
  have htext := u16OfInt_toNat textLen
  by_cases hlong : keyLen > 64
  · have htk : (md5Final (md5Update (md5Init tctx) key (u16OfInt keyLen))).1
        = md5 (key.read 0 keyLen.toNat) := by
      have h := md5Digest_eq tctx key (u16OfInt keyLen)
      rwa [u16OfInt_toNat, Int.emod_eq_of_lt h0 h1] at h
    have hkey : (objBytes (md5 (key.read 0 keyLen.toNat))).read 0 16
        = md5 (key.read 0 keyLen.toNat) := by
      have hlen := md5_length (key.read 0 keyLen.toNat)
      rw [read_objBytes _ hlen.ge, List.take_of_length_le hlen.le]
    have hpass := hmac_passes context (k := md5 (key.read 0 keyLen.toNat))
      (by rw [md5_length]; decide) text (u16OfInt textLen)
    -- a key that has been hashed is not hashed again
    have hsame : hmac md5 64 (md5 (key.read 0 keyLen.toNat))
          (text.read 0 (textLen % 2 ^ 16).toNat)
        = hmac md5 64 (key.read 0 keyLen.toNat) (text.read 0 (textLen % 2 ^ 16).toNat) := by
      have hkeys : hmacKey md5 64 (md5 (key.read 0 keyLen.toNat))
          = hmacKey md5 64 (key.read 0 keyLen.toNat) := by
        rw [hmacKey, hmacKey, if_neg (by rw [md5_length]; decide),
          if_pos (by rw [Mem.read_length]; omega)]
      rw [hmac, hmacOuter, hmacInner, hkeys, hmac, hmacOuter, hmacInner]
    rw [← hsame, ← htext, ← hpass, hmacMd5, if_pos hlong, if_neg (by rintro ⟨⟩), htk,
      show Int.toNat 16 = 16 from rfl, hkey]
  · have hk : (key.read 0 keyLen.toNat).length ≤ 64 := by
      rw [Mem.read_length]
      omega
    have hpass := hmac_passes context hk text (u16OfInt textLen)
    rw [← htext, ← hpass, hmacMd5, if_neg hlong, if_neg (not_lt.mpr h0)]

/-- A context on a cleared stack, for runs on given inputs. -/
def zeroCtx : Md5Ctx := ⟨⟨0, 0, 0, 0⟩, 0, 0, fun _ => 0⟩

theorem hmacMd5_eq_long :
    hmacMd5 zeroCtx zeroCtx (fun _ => 97) 65540 (objBytes [74, 101, 102, 101]) 4
      = some (hmac md5 64 ((objBytes [74, 101, 102, 101]).read 0 4)
          (Mem.read (fun _ => 97) 0 4)) :=
  hmacMd5_eq zeroCtx zeroCtx (fun _ => 97) _ 65540 (by decide) (by decide)

/-! ## 2. Collisions -/

section Collisions

variable {l k : List UInt8}

/-- The last eight bytes are the length, so no padded message is the end of another. -/
theorem md5Pad_suffix (hl : l.length < 2 ^ 61) (hk : k.length < 2 ^ 61)
    (h : md5Pad l <:+ md5Pad k) : l = k := by
  have hlast : leBytes 8 (8 * l.length) <:+ md5Pad k := by
    refine List.IsSuffix.trans ?_ h
    rw [md5Pad, ← List.append_assoc]
    exact List.suffix_append _ _
  have hlast' : leBytes 8 (8 * k.length) <:+ md5Pad k := by
    rw [md5Pad, ← List.append_assoc]
    exact List.suffix_append _ _
  have hbytes : leBytes 8 (8 * l.length) = leBytes 8 (8 * k.length) := by
    refine (List.suffix_of_suffix_length_le hlast hlast' ?_).eq_of_length ?_ <;> simp
  have hnum : 8 * l.length % 2 ^ 64 = 8 * k.length % 2 ^ 64 := by
    have hle := congrArg leNat hbytes
    rwa [leNat_leBytes, leNat_leBytes] at hle
  have hlen : l.length = k.length := by omega
  have hpad : md5Pad l = md5Pad k := by
    refine h.eq_of_length ?_
    rw [md5Pad, md5Pad, List.length_append, List.length_append, hlen]
    simp
  rw [md5Pad, md5Pad] at hpad
  exact (List.append_inj hpad hlen).1

/-- The words of a digest. -/
theorem words_of_bytes {r r' : Words}
    (h : (r.toList.flatMap fun w => leBytes 4 w.toNat) = r'.toList.flatMap fun w => leBytes 4 w.toNat) :
    r = r' := by
  have hword : ∀ w w' : UInt32, leBytes 4 w.toNat = leBytes 4 w'.toNat → w = w' := by
    intro w w' hw
    have hle := congrArg leNat hw
    rw [leNat_leBytes, leNat_leBytes, show 256 ^ 4 = 2 ^ 32 from rfl,
      Nat.mod_eq_of_lt w.toNat_lt, Nat.mod_eq_of_lt w'.toNat_lt] at hle
    exact UInt32.toNat_inj.mp hle
  obtain ⟨a, b, c, d⟩ := r
  obtain ⟨a', b', c', d'⟩ := r'
  simp only [Words.toList, List.flatMap_cons, List.flatMap_nil, List.append_nil] at h
  obtain ⟨ha, h⟩ := List.append_inj h (by simp)
  obtain ⟨hb, h⟩ := List.append_inj h (by simp)
  obtain ⟨hc, hd⟩ := List.append_inj h (by simp)
  rw [hword a a' ha, hword b b' hb, hword c c' hc, hword d d' hd]

/-- Two messages of less than 2^61 bytes with one digest. -/
theorem md5_collision (hl : l.length < 2 ^ 61) (hk : k.length < 2 ^ 61) (h : md5 l = md5 k)
    (hne : l ≠ k) : Collide 64 md5Transform md5Iv (md5Pad l) (md5Pad k) := by
  have hstate := words_of_bytes h
  rcases collision_or_suffix (by decide) (md5Pad_length l) (md5Pad_length k) hstate with h | h | h
  · exact h
  · exact absurd (md5Pad_suffix hl hk h) hne
  · exact absurd (md5Pad_suffix hk hl h).symm hne

end Collisions

/-- **A collision of the digest is one of `MD5Transform`.**  Two strings with one `MD5digest`
have two blocks on which `MD5Transform` was called with different arguments and returned the
same. -/
theorem md5Digest_collision {context context' : Md5Ctx} {str str' : Mem} {len len' : UInt16}
    (h : md5Digest context str len = md5Digest context' str' len')
    (hne : str.read 0 len.toNat ≠ str'.read 0 len'.toNat) :
    Collide 64 md5Transform md5Iv (md5Pad (str.read 0 len.toNat))
      (md5Pad (str'.read 0 len'.toNat)) := by
  rw [md5Digest_eq, md5Digest_eq] at h
  have hlt : ∀ (m : Mem) (n : UInt16), (m.read 0 n.toNat).length < 2 ^ 61 := by
    intro m n
    rw [Mem.read_length]
    exact n.toNat_lt.trans (by decide)
  exact md5_collision (hlt str len) (hlt str' len') h hne

/-- Two blocks that `MD5Transform` takes to the same words. -/
def colliding1 : List UInt8 :=
  [0x4d, 0xc9, 0x68, 0xff, 0x0e, 0xe3, 0x5c, 0x20, 0x95, 0x72, 0xd4, 0x77, 0x7b, 0x72, 0x15, 0x87,
    0xd3, 0x6f, 0xa7, 0xb2, 0x1b, 0xdc, 0x56, 0xb7, 0x4a, 0x3d, 0xc0, 0x78, 0x3e, 0x7b, 0x95, 0x18,
    0xaf, 0xbf, 0xa2, 0x00, 0xa8, 0x28, 0x4b, 0xf3, 0x6e, 0x8e, 0x4b, 0x55, 0xb3, 0x5f, 0x42, 0x75,
    0x93, 0xd8, 0x49, 0x67, 0x6d, 0xa0, 0xd1, 0x55, 0x5d, 0x83, 0x60, 0xfb, 0x5f, 0x07, 0xfe, 0xa2]
def colliding2 : List UInt8 :=
  [0x4d, 0xc9, 0x68, 0xff, 0x0e, 0xe3, 0x5c, 0x20, 0x95, 0x72, 0xd4, 0x77, 0x7b, 0x72, 0x15, 0x87,
    0xd3, 0x6f, 0xa7, 0xb2, 0x1b, 0xdc, 0x56, 0xb7, 0x4a, 0x3d, 0xc0, 0x78, 0x3e, 0x7b, 0x95, 0x18,
    0xaf, 0xbf, 0xa2, 0x02, 0xa8, 0x28, 0x4b, 0xf3, 0x6e, 0x8e, 0x4b, 0x55, 0xb3, 0x5f, 0x42, 0x75,
    0x93, 0xd8, 0x49, 0x67, 0x6d, 0xa0, 0xd1, 0xd5, 0x5d, 0x83, 0x60, 0xfb, 0x5f, 0x07, 0xfe, 0xa2]

theorem md5Transform_colliding :
    md5Transform md5Iv colliding1 = md5Transform md5Iv colliding2 := by decide +kernel

theorem md5_colliding : md5 colliding1 = md5 colliding2 := by
  have hlen : colliding1.length = 64 := rfl
  have hlen' : colliding2.length = 64 := rfl
  rw [md5, md5, md5Pad, md5Pad, absorb_block_append (by decide) hlen,
    absorb_block_append (by decide) hlen', md5Transform_colliding, hlen, hlen']

theorem md5Digest_collision_two :
    Collide 64 md5Transform md5Iv (md5Pad ((objBytes colliding1).read 0 (64 : UInt16).toNat))
      (md5Pad ((objBytes colliding2).read 0 (64 : UInt16).toNat)) := by
  have hread1 : (objBytes colliding1).read 0 (64 : UInt16).toNat = colliding1 :=
    read_objBytes colliding1 le_rfl
  have hread2 : (objBytes colliding2).read 0 (64 : UInt16).toNat = colliding2 :=
    read_objBytes colliding2 le_rfl
  have h : md5Digest zeroCtx (objBytes colliding1) 64
      = md5Digest zeroCtx (objBytes colliding2) 64 := by
    rw [md5Digest_eq, md5Digest_eq, hread1, hread2, md5_colliding]
  refine md5Digest_collision h ?_
  rw [hread1, hread2]
  decide

end Ofpagent.Util
