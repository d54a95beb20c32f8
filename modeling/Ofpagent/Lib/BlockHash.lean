/-
# Hashing by blocks

A hash function of the usual construction cuts its message into blocks of `n` and compresses
them one after another into a chaining value.  `absorb` is that loop over what is complete; it
returns the chaining value and the rest of the message, so a message that arrives in pieces is
absorbed piece by piece (`absorb_append`).

Two messages with the same final chaining value are not yet two calls of the compression
function with the same value: one could be the end of the other.  `collision_or_suffix` is that
case distinction.  The colliding calls are among those made for the two messages; that a
compression function has some collision is clear by counting, and says nothing.

`hmac` is the keyed construction over any hash function.
-/
import Mathlib

namespace Ofpagent.Lib

variable {σ α : Type*}

/-! ## 1. Absorbing a message -/

/-- The complete blocks are compressed by `f`, and the rest of the message is kept. -/
def absorb (n : ℕ) (f : σ → List α → σ) (s : σ) (l : List α) : σ × List α :=
  if _h : 0 < n ∧ n ≤ l.length then absorb n f (f s (l.take n)) (l.drop n) else (s, l)
termination_by l.length
decreasing_by
  rw [List.length_drop]
  omega

section Absorb

variable {n : ℕ} {f : σ → List α → σ} {s : σ} {l k : List α}

theorem absorb_of_lt (h : l.length < n) : absorb n f s l = (s, l) := by
  rw [absorb, dif_neg (by omega)]

theorem absorb_of_le (hn : 0 < n) (h : n ≤ l.length) :
    absorb n f s l = absorb n f (f s (l.take n)) (l.drop n) := by
  rw [absorb, dif_pos ⟨hn, h⟩]

/-- A block in front. -/
theorem absorb_block_append (hn : 0 < n) (h : l.length = n) :
    absorb n f s (l ++ k) = absorb n f (f s l) k := by
  rw [absorb_of_le hn (by rw [List.length_append]; omega), List.take_left' h, List.drop_left' h]

/-- **A message in two pieces**: the rest of the first piece goes in front of the second. -/
theorem absorb_append (hn : 0 < n) : absorb n f s (l ++ k)
    = absorb n f (absorb n f s l).1 ((absorb n f s l).2 ++ k) := by
  induction hlen : l.length using Nat.strong_induction_on generalizing s l with
  | _ m ih =>
    rcases Nat.lt_or_ge l.length n with hlt | hle
    · rw [absorb_of_lt hlt]
    · have hdrop : (l.drop n).length < m := by
        rw [List.length_drop]
        omega
      have hsplit : l ++ k = l.take n ++ (l.drop n ++ k) := by
        rw [← List.append_assoc, List.take_append_drop]
      rw [hsplit, absorb_block_append hn (List.length_take_of_le hle), absorb_of_le hn hle,
        ih _ hdrop rfl]

/-- The rest is shorter than a block, and its length is that of the message up to blocks. -/
theorem absorb_rest_length (hn : 0 < n) : (absorb n f s l).2.length = l.length % n := by
  induction hlen : l.length using Nat.strong_induction_on generalizing s l with
  | _ m ih =>
    rcases Nat.lt_or_ge l.length n with hlt | hle
    · rw [absorb_of_lt hlt, hlen, Nat.mod_eq_of_lt (hlen ▸ hlt)]
    · have hdrop : (l.drop n).length = m - n := by rw [List.length_drop, hlen]
      rw [absorb_of_le hn hle, ih (m - n) (by omega) hdrop, ← Nat.mod_eq_sub_mod (hlen ▸ hle)]

theorem absorb_rest_eq_nil (hn : 0 < n) (h : n ∣ l.length) : (absorb n f s l).2 = [] := by
  rw [← List.length_eq_zero_iff, absorb_rest_length hn, Nat.mod_eq_zero_of_dvd h]

/-- A block behind complete blocks. -/
theorem absorb_append_block (hn : 0 < n) (hl : n ∣ l.length) (hk : k.length = n) :
    (absorb n f s (l ++ k)).1 = f (absorb n f s l).1 k := by
  have hrest : absorb n f (f (absorb n f s l).1 k) [] = (f (absorb n f s l).1 k, []) :=
    absorb_of_lt hn
  rw [absorb_append hn, absorb_rest_eq_nil hn hl, List.nil_append,
    ← List.append_nil k, absorb_block_append hn hk, List.append_nil, hrest]

end Absorb

/-! ## 2. Collisions -/

/-- What `f` is called with for a message: chaining value and block. -/
def calls (n : ℕ) (f : σ → List α → σ) (s : σ) (l : List α) : List (σ × List α) :=
  if _h : 0 < n ∧ n ≤ l.length then
    (s, l.take n) :: calls n f (f s (l.take n)) (l.drop n)
  else []
termination_by l.length
decreasing_by
  rw [List.length_drop]
  omega

/-- Two different calls, one for each message, that return the same. -/
def Collide (n : ℕ) (f : σ → List α → σ) (s : σ) (l k : List α) : Prop :=
  ∃ p ∈ calls n f s l, ∃ q ∈ calls n f s k, p ≠ q ∧ f p.1 p.2 = f q.1 q.2

section Collisions

variable {n : ℕ} {f : σ → List α → σ} {s : σ} {l k b : List α}

theorem calls_append_block (hn : 0 < n) (hl : n ∣ l.length) (hb : b.length = n) :
    calls n f s (l ++ b) = calls n f s l ++ [((absorb n f s l).1, b)] := by
  induction hlen : l.length using Nat.strong_induction_on generalizing s l with
  | _ m ih =>
    rcases Nat.lt_or_ge l.length n with hlt | hle
    · -- a multiple of `n` below `n`: there is no block in front
      obtain rfl : l = [] := List.length_eq_zero_iff.mp (Nat.eq_zero_of_dvd_of_lt hl hlt)
      rw [List.nil_append, absorb_of_lt hlt, calls, dif_pos ⟨hn, hb.ge⟩, calls,
        dif_neg (by rw [List.length_drop]; omega), calls, dif_neg (by omega),
        List.take_of_length_le hb.le, List.nil_append]
    · have hdrop : (l.drop n).length = m - n := by rw [List.length_drop, hlen]
      have hdvd : n ∣ (l.drop n).length := by
        rw [List.length_drop]
        exact (Nat.dvd_sub_iff_left hle (dvd_refl n)).mpr hl
      have htake : (l ++ b).take n = l.take n := List.take_append_of_le_length hle
      have hskip : (l ++ b).drop n = l.drop n ++ b := List.drop_append_of_le_length hle
      rw [calls, dif_pos ⟨hn, by rw [List.length_append]; omega⟩, htake, hskip,
        ih (m - n) (by omega) hdvd hdrop, absorb_of_le hn hle]
      conv_rhs => rw [calls, dif_pos ⟨hn, hle⟩]
      rfl

/-- The last block of a message. -/
theorem exists_append_block (hn : 0 < n) (hl : n ∣ l.length) (hne : l ≠ []) :
    ∃ l₀ b, l = l₀ ++ b ∧ n ∣ l₀.length ∧ b.length = n := by
  have hle : n ≤ l.length := Nat.le_of_dvd (List.length_pos_iff.mpr hne) hl
  refine ⟨l.take (l.length - n), l.drop (l.length - n), (List.take_append_drop _ l).symm, ?_, ?_⟩
  · rw [List.length_take_of_le (Nat.sub_le _ _)]
    exact (Nat.dvd_sub_iff_left hle (dvd_refl n)).mpr hl
  · rw [List.length_drop]
    omega

/-- **Equal chaining values.**  Going back from the last block, either two calls differ and
return the same, or one message is the end of the other. -/
theorem collision_or_suffix (hn : 0 < n) (hl : n ∣ l.length) (hk : n ∣ k.length)
    (h : (absorb n f s l).1 = (absorb n f s k).1) : Collide n f s l k ∨ l <:+ k ∨ k <:+ l := by
  induction hlen : l.length using Nat.strong_induction_on generalizing l k with
  | _ m ih =>
    by_cases hlnil : l = []
    · exact .inr (.inl (hlnil ▸ List.nil_suffix))
    by_cases hknil : k = []
    · exact .inr (.inr (hknil ▸ List.nil_suffix))
    obtain ⟨l₀, b, rfl, hl₀, hb⟩ := exists_append_block hn hl hlnil
    obtain ⟨k₀, c, rfl, hk₀, hc⟩ := exists_append_block hn hk hknil
    rw [absorb_append_block hn hl₀ hb, absorb_append_block hn hk₀ hc] at h
    have hlast : ((absorb n f s l₀).1, b) ∈ calls n f s (l₀ ++ b) := by
      rw [calls_append_block hn hl₀ hb]
      simp
    have hlast' : ((absorb n f s k₀).1, c) ∈ calls n f s (k₀ ++ c) := by
      rw [calls_append_block hn hk₀ hc]
      simp
    by_cases heq : ((absorb n f s l₀).1, b) = ((absorb n f s k₀).1, c)
    · obtain ⟨hstate, rfl⟩ := Prod.mk.inj heq
      have hshort : l₀.length < m := by
        rw [← hlen, List.length_append]
        omega
      rcases ih _ hshort hl₀ hk₀ hstate rfl with ⟨p, hp, q, hq, hne, hpq⟩ | hsuf | hsuf
      · refine .inl ⟨p, ?_, q, ?_, hne, hpq⟩
        · rw [calls_append_block hn hl₀ hb]
          exact List.mem_append_left _ hp
        · rw [calls_append_block hn hk₀ hb]
          exact List.mem_append_left _ hq
      · obtain ⟨t, rfl⟩ := hsuf
        exact .inr (.inl ⟨t, by rw [List.append_assoc]⟩)
      · obtain ⟨t, rfl⟩ := hsuf
        exact .inr (.inr ⟨t, by rw [List.append_assoc]⟩)
    · exact .inl ⟨_, hlast, _, hlast', heq, h⟩

end Collisions

/-! ## 3. The keyed construction -/

section Hmac

variable (H : List UInt8 → List UInt8) (n : ℕ)

/-- The key as a block: a long one is hashed, and zeros fill it up. -/
def hmacKey (key : List UInt8) : List UInt8 :=
  let k := if n < key.length then H key else key
  k ++ List.replicate (n - k.length) 0

/-- The messages of the inner and of the outer hash. -/
def hmacInner (key text : List UInt8) : List UInt8 := (hmacKey H n key).map (· ^^^ 0x36) ++ text
def hmacOuter (key text : List UInt8) : List UInt8 :=
  (hmacKey H n key).map (· ^^^ 0x5c) ++ H (hmacInner H n key text)

/-- `H(K xor opad, H(K xor ipad, text))`. -/
def hmac (key text : List UInt8) : List UInt8 := H (hmacOuter H n key text)

end Hmac

end Ofpagent.Lib
