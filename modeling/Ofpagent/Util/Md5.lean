/-
# `lib/com_util/md5.c`: the digest

`MD5Init`, `MD5Update` and `MD5Final` over an `MD5_CTX`, and `MD5Transform`, the compression
function, whose 64 macro calls are a list of operations here, in the order of the source.  A
pointer to input is a memory; a pointer to a block of 64 bytes is the list of these bytes.

`md5Final_updates` is the result: whatever the pieces a message is handed to `MD5Update` in, and
whatever the buffer of the context held before, `MD5Final` returns the digest of the message,
which is defined without a context (`md5`).
-/
import Ofpagent.Lib.Bytes
import Ofpagent.Lib.BlockHash

namespace Ofpagent.Util

open Ofpagent.Lib

/-! ## 1. The operations of a block -/

/-- The local variables of `MD5Transform`, which start as the four words of `state`. -/
inductive Reg
  | a
  | b
  | c
  | d
  deriving DecidableEq

/-- `U32 state[4]`, or the local variables. -/
structure Words where
  a : UInt32
  b : UInt32
  c : UInt32
  d : UInt32
  deriving DecidableEq

namespace Words

def get (r : Words) : Reg → UInt32
  | .a => r.a
  | .b => r.b
  | .c => r.c
  | .d => r.d

def set (r : Words) (v : UInt32) : Reg → Words
  | .a => { r with a := v }
  | .b => { r with b := v }
  | .c => { r with c := v }
  | .d => { r with d := v }

/-- The words in the order of the array. -/
def toList (r : Words) : List UInt32 := [r.a, r.b, r.c, r.d]

end Words

/-- `F`, `G`, `H` and `Ii`. -/
def fnF (x y z : UInt32) : UInt32 := (x &&& y) ||| (~~~x &&& z)
def fnG (x y z : UInt32) : UInt32 := (x &&& z) ||| (y &&& ~~~z)
def fnH (x y z : UInt32) : UInt32 := x ^^^ y ^^^ z
def fnI (x y z : UInt32) : UInt32 := y ^^^ (x ||| ~~~z)

/-- Which of the four a macro calls. -/
inductive Md5Fn
  | f
  | g
  | h
  | i
  deriving DecidableEq

def Md5Fn.call : Md5Fn → UInt32 → UInt32 → UInt32 → UInt32
  | f => fnF
  | g => fnG
  | h => fnH
  | i => fnI

/-- `ROTATE_LEFT`. -/
def rotateLeft (x n : UInt32) : UInt32 := x <<< n ||| x >>> (32 - n)

/-- A call of one of the macros: the variables in the order of the arguments, the index into
`x`, the shift and the constant. -/
structure Md5Op where
  fn : Md5Fn
  a : Reg
  b : Reg
  c : Reg
  d : Reg
  x : ℕ
  s : UInt32
  ac : UInt32
  deriving DecidableEq

namespace Md5Op

/-- `FF`, `GG`, `HH` and `II`. -/
def ff : Reg → Reg → Reg → Reg → ℕ → UInt32 → UInt32 → Md5Op := .mk .f
def gg : Reg → Reg → Reg → Reg → ℕ → UInt32 → UInt32 → Md5Op := .mk .g
def hh : Reg → Reg → Reg → Reg → ℕ → UInt32 → UInt32 → Md5Op := .mk .h
def ii : Reg → Reg → Reg → Reg → ℕ → UInt32 → UInt32 → Md5Op := .mk .i

/-- The three statements of a macro. -/
def exec (x : ℕ → UInt32) (r : Words) (o : Md5Op) : Words :=
  let sum := r.get o.a + (o.fn.call (r.get o.b) (r.get o.c) (r.get o.d) + x o.x + o.ac)
  r.set (rotateLeft sum o.s + r.get o.b) o.a

end Md5Op

def s11 : UInt32 := 7
def s12 : UInt32 := 12
def s13 : UInt32 := 17
def s14 : UInt32 := 22
def s21 : UInt32 := 5
def s22 : UInt32 := 9
def s23 : UInt32 := 14
def s24 : UInt32 := 20
def s31 : UInt32 := 4
def s32 : UInt32 := 11
def s33 : UInt32 := 16
def s34 : UInt32 := 23
def s41 : UInt32 := 6
def s42 : UInt32 := 10
def s43 : UInt32 := 15
def s44 : UInt32 := 21

section Rounds

open Reg

/-- The four rounds of `MD5Transform`. -/
def md5Ops : List Md5Op :=
  [ -- Round 1
    .ff a b c d 0 s11 0xd76aa478, .ff d a b c 1 s12 0xe8c7b756,
    .ff c d a b 2 s13 0x242070db, .ff b c d a 3 s14 0xc1bdceee,
    .ff a b c d 4 s11 0xf57c0faf, .ff d a b c 5 s12 0x4787c62a,
    .ff c d a b 6 s13 0xa8304613, .ff b c d a 7 s14 0xfd469501,
    .ff a b c d 8 s11 0x698098d8, .ff d a b c 9 s12 0x8b44f7af,
    .ff c d a b 10 s13 0xffff5bb1, .ff b c d a 11 s14 0x895cd7be,
    .ff a b c d 12 s11 0x6b901122, .ff d a b c 13 s12 0xfd987193,
    .ff c d a b 14 s13 0xa679438e, .ff b c d a 15 s14 0x49b40821,
    -- Round 2
    .gg a b c d 1 s21 0xf61e2562, .gg d a b c 6 s22 0xc040b340,
    .gg c d a b 11 s23 0x265e5a51, .gg b c d a 0 s24 0xe9b6c7aa,
    .gg a b c d 5 s21 0xd62f105d, .gg d a b c 10 s22 0x2441453,
    .gg c d a b 15 s23 0xd8a1e681, .gg b c d a 4 s24 0xe7d3fbc8,
    .gg a b c d 9 s21 0x21e1cde6, .gg d a b c 14 s22 0xc33707d6,
    .gg c d a b 3 s23 0xf4d50d87, .gg b c d a 8 s24 0x455a14ed,
    .gg a b c d 13 s21 0xa9e3e905, .gg d a b c 2 s22 0xfcefa3f8,
    .gg c d a b 7 s23 0x676f02d9, .gg b c d a 12 s24 0x8d2a4c8a,
    -- Round 3
    .hh a b c d 5 s31 0xfffa3942, .hh d a b c 8 s32 0x8771f681,
    .hh c d a b 11 s33 0x6d9d6122, .hh b c d a 14 s34 0xfde5380c,
    .hh a b c d 1 s31 0xa4beea44, .hh d a b c 4 s32 0x4bdecfa9,
    .hh c d a b 7 s33 0xf6bb4b60, .hh b c d a 10 s34 0xbebfbc70,
    .hh a b c d 13 s31 0x289b7ec6, .hh d a b c 0 s32 0xeaa127fa,
    .hh c d a b 3 s33 0xd4ef3085, .hh b c d a 6 s34 0x4881d05,
    .hh a b c d 9 s31 0xd9d4d039, .hh d a b c 12 s32 0xe6db99e5,
    .hh c d a b 15 s33 0x1fa27cf8, .hh b c d a 2 s34 0xc4ac5665,
    -- Round 4
    .ii a b c d 0 s41 0xf4292244, .ii d a b c 7 s42 0x432aff97,
    .ii c d a b 14 s43 0xab9423a7, .ii b c d a 5 s44 0xfc93a039,
    .ii a b c d 12 s41 0x655b59c3, .ii d a b c 3 s42 0x8f0ccc92,
    .ii c d a b 10 s43 0xffeff47d, .ii b c d a 1 s44 0x85845dd1,
    .ii a b c d 8 s41 0x6fa87e4f, .ii d a b c 15 s42 0xfe2ce6e0,
    .ii c d a b 6 s43 0xa3014314, .ii b c d a 13 s44 0x4e0811a1,
    .ii a b c d 4 s41 0xf7537e82, .ii d a b c 11 s42 0xbd3af235,
    .ii c d a b 2 s43 0x2ad7d2bb, .ii b c d a 9 s44 0xeb86d391]

end Rounds

/-! ## 2. The source -/

/-- `MD5_encode`. -/
def md5Encode (input : List UInt32) : List UInt8 :=
  input.flatMap fun w : UInt32 => [(w &&& 0xff).toUInt8, ((w >>> 8) &&& 0xff).toUInt8,
    ((w >>> 16) &&& 0xff).toUInt8, ((w >>> 24) &&& 0xff).toUInt8]

/-- The word of index `i` that `MD5_decode` makes of a block. -/
def md5Decode (input : List UInt8) (i : ℕ) : UInt32 :=
  (input.getD (4 * i) 0).toUInt32 ||| (input.getD (4 * i + 1) 0).toUInt32 <<< 8 |||
    (input.getD (4 * i + 2) 0).toUInt32 <<< 16 ||| (input.getD (4 * i + 3) 0).toUInt32 <<< 24

/-- `MD5Transform`. -/
def md5Transform (state : Words) (block : List UInt8) : Words :=
  let r := md5Ops.foldl (Md5Op.exec (md5Decode block)) state
  ⟨state.a + r.a, state.b + r.b, state.c + r.c, state.d + r.d⟩

/-- `MD5_CTX`.  `buffer` is the memory from `buffer` on, of which the context has 64 bytes. -/
structure Md5Ctx where
  state : Words
  count0 : UInt32
  count1 : UInt32
  buffer : Mem

/-- The words `MD5Init` assigns. -/
def md5Iv : Words := ⟨0x67452301, 0xefcdab89, 0x98badcfe, 0x10325476⟩

/-- `MD5Init`. -/
def md5Init (context : Md5Ctx) : Md5Ctx :=
  { context with state := md5Iv, count0 := 0, count1 := 0 }

/-- The index of the next block does not wrap. -/
theorem toNat_add_block {i inputLen : UInt16} (h : i.toNat + 63 < inputLen.toNat) :
    (i + 64).toNat = i.toNat + 64 := by
  have hlen := inputLen.toNat_lt
  have hi : i.toNat + 64 < 2 ^ 16 := by omega
  exact (UInt16.toNat_add i 64).trans (Nat.mod_eq_of_lt hi)

/-- The loop of `MD5Update` over the blocks of the input.  `i + 63` is computed as an `int`. -/
def md5Blocks (state : Words) (input : Mem) (i inputLen : UInt16) : Words × UInt16 :=
  if h : i.toNat + 63 < inputLen.toNat then
    md5Blocks (md5Transform state (input.read i.toNat 64)) input (i + 64) inputLen
  else (state, i)
termination_by inputLen.toNat - i.toNat
decreasing_by
  rw [toNat_add_block h]
  omega

/-- The number of bytes in the buffer, as `MD5Update` and `MD5Final` compute it. -/
def Md5Ctx.index (context : Md5Ctx) : UInt16 := ((context.count0 >>> 3) &&& 0x3F).toUInt16

/-- `MD5Update`. -/
def md5Update (context : Md5Ctx) (input : Mem) (inputLen : UInt16) : Md5Ctx :=
  let index := context.index
  let bits := inputLen.toUInt32 <<< 3
  let count0 := context.count0 + bits
  let count1 := if count0 < bits then context.count1 + 1 else context.count1
  let partLen := 64 - index
  if inputLen ≥ partLen then
    let buffer := context.buffer.write index.toNat (input.read 0 partLen.toNat)
    let q := md5Blocks (md5Transform context.state (buffer.read 0 64)) input partLen inputLen
    { state := q.1
      count0 := count0
      count1 := count1 + inputLen.toUInt32 >>> 29
      buffer := buffer.write 0 (input.read q.2.toNat (inputLen - q.2).toNat) }
  else
    { context with
      count0 := count0
      count1 := count1 + inputLen.toUInt32 >>> 29
      buffer := context.buffer.write index.toNat (input.read 0 (inputLen - 0).toNat) }

/-- An object of the program that holds these bytes. -/
def objBytes (l : List UInt8) : Mem := Mem.write (fun _ => 0) 0 l

/-- `PADDING`. -/
def md5Padding : Mem := objBytes (0x80 :: List.replicate 63 0)

/-- `MD5Final`: the digest, and the context it leaves. -/
def md5Final (context : Md5Ctx) : List UInt8 × Md5Ctx :=
  let bits := md5Encode [context.count0, context.count1]
  let index := context.index
  let padLen := if index < 56 then 56 - index else 120 - index
  let context1 := md5Update (md5Update context md5Padding padLen) (objBytes bits) 8
  (md5Encode context1.state.toList,
    { state := ⟨0, 0, 0, 0⟩
      count0 := 0
      count1 := 0
      buffer := context1.buffer.write 0 (List.replicate 64 0) })

/-- `MD5digest`.  `context` is what the stack held. -/
def md5Digest (context : Md5Ctx) (str : Mem) (len : UInt16) : List UInt8 :=
  (md5Final (md5Update (md5Init context) str len)).1

/-! ## 3. The digest of a message -/

/-- The message with a one bit, zeros up to 56 bytes in the last block, and its length in bits. -/
def md5Pad (msg : List UInt8) : List UInt8 :=
  msg ++ (0x80 :: List.replicate ((119 - msg.length % 64) % 64) 0 ++ leBytes 8 (8 * msg.length))

/-- The digest of a message. -/
def md5 (msg : List UInt8) : List UInt8 :=
  (absorb 64 md5Transform md5Iv (md5Pad msg)).1.toList.flatMap fun w => leBytes 4 w.toNat

theorem md5Pad_length (msg : List UInt8) : 64 ∣ (md5Pad msg).length := by
  simp only [md5Pad, List.length_append, List.length_cons, List.length_replicate, leBytes_length]
  omega

/-- The low byte of a word that is shifted. -/
theorem toUInt8_shiftRight (w : UInt32) {k : UInt32} (hk : k.toNat < 32) :
    ((w >>> k) &&& 0xff).toUInt8 = UInt8.ofNat (w.toNat / 2 ^ k.toNat) := by
  apply UInt8.toNat_inj.mp
  rw [UInt32.toNat_toUInt8, UInt32.toNat_and, UInt32.toNat_shiftRight, Nat.mod_eq_of_lt hk,
    Nat.shiftRight_eq_div_pow, UInt8.toNat_ofNat']
  change (w.toNat / 2 ^ k.toNat &&& (2 ^ 8 - 1)) % 2 ^ 8 = _
  rw [Nat.and_two_pow_sub_one_eq_mod, Nat.mod_mod]

/-- `MD5_encode` stores a word with its lowest byte first. -/
theorem md5Encode_eq (l : List UInt32) : md5Encode l = l.flatMap fun w => leBytes 4 w.toNat := by
  refine List.flatMap_congr fun w _ => ?_
  have h0 : (w &&& 0xff).toUInt8 = UInt8.ofNat w.toNat := by
    have h := toUInt8_shiftRight w (k := 0) (by decide)
    simpa using h
  rw [h0, toUInt8_shiftRight w (by decide), toUInt8_shiftRight w (by decide),
    toUInt8_shiftRight w (by decide)]
  simp [leBytes, Nat.div_div_eq_div_mul]

/-! ## 4. A context that has seen a message -/

/-- The context is that of the message `msg`: what is complete has been compressed, the rest
stands in the buffer, and the two counters are the length in bits. -/
structure Absorbed (context : Md5Ctx) (msg : List UInt8) : Prop where
  state : (context.state, context.buffer.read 0 (msg.length % 64))
    = absorb 64 md5Transform md5Iv msg
  count : context.count0.toNat + 2 ^ 32 * context.count1.toNat = 8 * msg.length % 2 ^ 64

theorem md5Init_absorbed (context : Md5Ctx) : Absorbed (md5Init context) [] :=
  ⟨(absorb_of_lt (Nat.zero_lt_succ 63)).symm, rfl⟩

theorem Absorbed.index {context : Md5Ctx} {msg : List UInt8} (h : Absorbed context msg) :
    context.index.toNat = msg.length % 64 := by
  have hcount := h.count
  have hc1 := context.count1.toNat_lt
  have hc0 := context.count0.toNat_lt
  have hlow : ((context.count0 >>> 3) &&& 0x3F).toNat = context.count0.toNat / 8 % 64 := by
    rw [UInt32.toNat_and, UInt32.toNat_shiftRight]
    change context.count0.toNat >>> 3 &&& (2 ^ 6 - 1) = _
    rw [Nat.and_two_pow_sub_one_eq_mod, Nat.shiftRight_eq_div_pow]
  rw [Md5Ctx.index, UInt32.toNat_toUInt16, hlow]
  omega

/-- The loop compresses what is complete from `i` on. -/
theorem md5Blocks_spec (state : Words) (input : Mem) {i inputLen : UInt16} (hi : i ≤ inputLen) :
    let q := md5Blocks state input i inputLen
    q.2 ≤ inputLen ∧ inputLen.toNat - q.2.toNat < 64 ∧
      absorb 64 md5Transform state (input.read i.toNat (inputLen.toNat - i.toNat))
        = (q.1, input.read q.2.toNat (inputLen.toNat - q.2.toNat)) := by
  induction state, i using md5Blocks.induct input inputLen with
  | case1 state i h ih =>
    have hnext := toNat_add_block h
    have hle : i + 64 ≤ inputLen := by
      rw [UInt16.le_iff_toNat_le, hnext]
      omega
    have hsplit : input.read i.toNat (inputLen.toNat - i.toNat)
        = input.read i.toNat 64 ++ input.read (i + 64).toNat (inputLen.toNat - (i + 64).toNat) := by
      rw [hnext, ← Mem.read_add]
      congr 1
      omega
    rw [md5Blocks, dif_pos h, hsplit, absorb_block_append (by decide) (by simp)]
    exact ih hle
  | case2 state i h =>
    have hlt : inputLen.toNat - i.toNat < 64 := by omega
    rw [md5Blocks, dif_neg h]
    exact ⟨hi, hlt, absorb_of_lt (by simpa using hlt)⟩

/-- The counters are a number of 64 bits. -/
theorem count_add (c0 c1 : UInt32) (len : UInt16) :
    let bits := len.toUInt32 <<< 3
    (c0 + bits).toNat
        + 2 ^ 32 * ((if c0 + bits < bits then c1 + 1 else c1) + len.toUInt32 >>> 29).toNat
      = (c0.toNat + 2 ^ 32 * c1.toNat + 8 * len.toNat) % 2 ^ 64 := by
  intro bits
  have hlen := len.toNat_lt
  have hc0 := c0.toNat_lt
  have hc1 := c1.toNat_lt
  have hbits : bits.toNat = 8 * len.toNat := by
    have h : bits.toNat = len.toNat <<< 3 % 2 ^ 32 := by
      rw [UInt32.toNat_shiftLeft, UInt16.toNat_toUInt32]
      rfl
    rw [h, Nat.shiftLeft_eq]
    omega
  have hhigh : len.toUInt32 >>> 29 = 0 := by
    apply UInt32.toNat_inj.mp
    have h : (len.toUInt32 >>> 29).toNat = len.toNat >>> 29 := by
      rw [UInt32.toNat_shiftRight, UInt16.toNat_toUInt32]
      rfl
    rw [h, Nat.shiftRight_eq_div_pow]
    change len.toNat / 2 ^ 29 = 0
    omega
  have hsum : (c0 + bits).toNat = (c0.toNat + 8 * len.toNat) % 2 ^ 32 := by
    rw [UInt32.toNat_add, hbits]
  have hone : (c1 + 1).toNat = (c1.toNat + 1) % 2 ^ 32 := UInt32.toNat_add c1 1
  rw [hhigh, add_zero, hsum]
  split_ifs with hcarry
  · rw [UInt32.lt_iff_toNat_lt, hsum, hbits] at hcarry
    omega
  · rw [UInt32.lt_iff_toNat_lt, hsum, hbits] at hcarry
    omega

/-- The two ways through `MD5Update`: the input fits into the buffer, or it fills the buffer and
goes on with blocks of its own. -/
inductive Md5Updated (context : Md5Ctx) (input : Mem) (inputLen : UInt16) : Md5Ctx → Prop
  | short (context' : Md5Ctx) : inputLen.toNat < 64 - context.index.toNat →
      context'.state = context.state →
      context'.buffer = context.buffer.write context.index.toNat (input.read 0 inputLen.toNat) →
      Md5Updated context input inputLen context'
  | full (context' : Md5Ctx) (i : ℕ) : 64 - context.index.toNat ≤ inputLen.toNat →
      i ≤ inputLen.toNat → inputLen.toNat - i < 64 →
      absorb 64 md5Transform
          (md5Transform context.state ((context.buffer.write context.index.toNat
            (input.read 0 (64 - context.index.toNat))).read 0 64))
          (input.read (64 - context.index.toNat) (inputLen.toNat - (64 - context.index.toNat)))
        = (context'.state, input.read i (inputLen.toNat - i)) →
      context'.buffer = (context.buffer.write context.index.toNat
          (input.read 0 (64 - context.index.toNat))).write 0 (input.read i (inputLen.toNat - i)) →
      Md5Updated context input inputLen context'

theorem md5Update_updated {context : Md5Ctx} (hindex : context.index.toNat < 64) (input : Mem)
    (inputLen : UInt16) : Md5Updated context input inputLen (md5Update context input inputLen) := by
  have hpart : (64 - context.index).toNat = 64 - context.index.toNat :=
    UInt16.toNat_sub_of_le 64 _ (UInt16.le_iff_toNat_le.mpr hindex.le)
  by_cases hfull : inputLen ≥ 64 - context.index
  · have hle : 64 - context.index.toNat ≤ inputLen.toNat := by
      rw [← hpart]
      exact UInt16.le_iff_toNat_le.mp hfull
    obtain ⟨hq, hlt, habs⟩ := md5Blocks_spec (md5Transform context.state
      ((context.buffer.write context.index.toNat
        (input.read 0 (64 - context.index.toNat))).read 0 64)) input hfull
    have hrest := UInt16.toNat_sub_of_le _ _ hq
    rw [hpart] at habs
    refine .full _ _ hle (UInt16.le_iff_toNat_le.mp hq) hlt ?_ ?_
    · rw [habs, md5Update, if_pos hfull, hpart]
    · rw [← hrest, md5Update, if_pos hfull, hpart]
  · have hlt : inputLen.toNat < 64 - context.index.toNat := by
      rw [← hpart]
      exact UInt16.lt_iff_toNat_lt.mp (UInt16.not_le.mp hfull)
    refine .short _ hlt ?_ ?_
    · rw [md5Update, if_neg hfull]
    · rw [md5Update, if_neg hfull, UInt16.sub_zero]

/-- The counters behind an update. -/
theorem Absorbed.count_update {context : Md5Ctx} {msg : List UInt8} (h : Absorbed context msg)
    (input : Mem) (inputLen : UInt16) :
    let context' := md5Update context input inputLen
    context'.count0.toNat + 2 ^ 32 * context'.count1.toNat
      = 8 * (msg.length + inputLen.toNat) % 2 ^ 64 := by
  have hadd := count_add context.count0 context.count1 inputLen
  have hcounts : (md5Update context input inputLen).count0.toNat
      + 2 ^ 32 * (md5Update context input inputLen).count1.toNat
      = (8 * msg.length % 2 ^ 64 + 8 * inputLen.toNat) % 2 ^ 64 := by
    rw [← h.count]
    by_cases hfull : inputLen ≥ 64 - context.index
    · rw [md5Update, if_pos hfull]
      exact hadd
    · rw [md5Update, if_neg hfull]
      exact hadd
  exact hcounts.trans (by omega)

/-- **An update** takes a context from the message so far to that message with the input behind
it. -/
theorem Absorbed.update {context : Md5Ctx} {msg : List UInt8} (h : Absorbed context msg)
    (input : Mem) (inputLen : UInt16) :
    Absorbed (md5Update context input inputLen) (msg ++ input.read 0 inputLen.toNat) := by
  have hindex := h.index
  have hn : msg.length % 64 < 64 := Nat.mod_lt _ (by decide)
  refine ⟨?_, by simpa using h.count_update input inputLen⟩
  have hrest : absorb 64 md5Transform md5Iv (msg ++ input.read 0 inputLen.toNat)
      = absorb 64 md5Transform context.state
          (context.buffer.read 0 (msg.length % 64) ++ input.read 0 inputLen.toNat) := by
    rw [absorb_append (by decide), ← h.state]
  rw [hrest, List.length_append, Mem.read_length]
  cases md5Update_updated (hindex ▸ hn) input inputLen with
  | short hshort hstate hbuffer =>
    rw [hindex] at hshort hbuffer
    have hlen : (msg.length + inputLen.toNat) % 64 = msg.length % 64 + inputLen.toNat := by omega
    have hread := Mem.read_write_append context.buffer (msg.length % 64) (input.read 0 inputLen.toNat)
    rw [Mem.read_length] at hread
    rw [hstate, hbuffer, hlen, hread]
    refine (absorb_of_lt ?_).symm
    rw [List.length_append, Mem.read_length, Mem.read_length]
    omega
  | full i hle hi hlt habs hbuffer =>
    rw [hindex] at hle habs hbuffer
    have hblock := Mem.read_write_append context.buffer (msg.length % 64)
      (input.read 0 (64 - msg.length % 64))
    rw [Mem.read_length, Nat.add_sub_cancel' hn.le] at hblock
    have hsplit : input.read 0 inputLen.toNat = input.read 0 (64 - msg.length % 64)
        ++ input.read (64 - msg.length % 64) (inputLen.toNat - (64 - msg.length % 64)) := by
      have hadd := Mem.read_add input 0 (64 - msg.length % 64)
        (inputLen.toNat - (64 - msg.length % 64))
      rwa [Nat.add_sub_cancel' hle, Nat.zero_add] at hadd
    rw [hblock] at habs
    rw [hsplit, ← List.append_assoc, absorb_block_append (by decide), habs]
    · -- the rest of the input is what is left of the message up to blocks
      have hlen : (msg.length + inputLen.toNat) % 64 = inputLen.toNat - i := by
        have hrestlen := absorb_rest_length (n := 64) (f := md5Transform)
          (s := md5Transform context.state (context.buffer.read 0 (msg.length % 64)
            ++ input.read 0 (64 - msg.length % 64)))
          (l := input.read (64 - msg.length % 64) (inputLen.toNat - (64 - msg.length % 64)))
          (by decide)
        rw [habs, Mem.read_length, Mem.read_length] at hrestlen
        omega
      have hself := Mem.read_write_self (context.buffer.write (msg.length % 64)
        (input.read 0 (64 - msg.length % 64))) 0 (input.read i (inputLen.toNat - i))
      rw [Mem.read_length] at hself
      rw [hlen, hbuffer, hself]
    · rw [List.length_append, Mem.read_length, Mem.read_length]
      omega

/-- `MD5Update` writes to none of the bytes behind the buffer. -/
theorem md5Update_frame {context : Md5Ctx} (hindex : context.index.toNat < 64) (input : Mem)
    (inputLen : UInt16) {k : ℕ} (hk : 64 ≤ k) :
    (md5Update context input inputLen).buffer k = context.buffer k := by
  cases md5Update_updated hindex input inputLen with
  | short hshort _ hbuffer =>
    rw [hbuffer]
    exact Mem.write_apply_of_disjoint (.inr (by rw [Mem.read_length]; omega))
  | full i _ _ hlt _ hbuffer =>
    rw [hbuffer, Mem.write_apply_of_disjoint (.inr (by rw [Mem.read_length]; omega)),
      Mem.write_apply_of_disjoint (.inr (by rw [Mem.read_length]; omega))]

/-! ## 5. The last two updates -/

/-- `bits`: the length of the message in bits. -/
theorem Absorbed.bits {context : Md5Ctx} {msg : List UInt8} (h : Absorbed context msg) :
    md5Encode [context.count0, context.count1] = leBytes 8 (8 * msg.length) := by
  have hc0 := context.count0.toNat_lt
  have hhigh : (8 * msg.length % 2 ^ 64) / 2 ^ 32 = context.count1.toNat := by
    rw [← h.count]
    omega
  have hlow : (8 * msg.length % 2 ^ 64) % 2 ^ 32 = context.count0.toNat := by
    rw [← h.count]
    omega
  have hwhole : leBytes 8 (8 * msg.length) = leBytes (4 + 4) (8 * msg.length % 2 ^ 64) :=
    (leBytes_mod 8 (8 * msg.length)).symm
  have hfirst : leBytes 4 (8 * msg.length % 2 ^ 64) = leBytes 4 context.count0.toNat := by
    rw [← leBytes_mod, show 256 ^ 4 = 2 ^ 32 from rfl, hlow]
  rw [md5Encode_eq, hwhole, leBytes_add, hfirst, show 256 ^ 4 = 2 ^ 32 from rfl, hhigh]
  simp

/-- The bytes of an object. -/
theorem read_objBytes (l : List UInt8) {n : ℕ} (hn : n ≤ l.length) :
    (objBytes l).read 0 n = l.take n := by
  have hself : (objBytes l).read 0 l.length = l := Mem.read_write_self _ 0 l
  have hread := Mem.take_drop_read (objBytes l) 0 (a := 0) (b := n) (n := l.length) (by omega)
  rw [hself, List.drop_zero, Nat.zero_add] at hread
  exact hread.symm

/-- `padLen`: one byte, and zeros up to 56 bytes in a block. -/
theorem Absorbed.padLen {context : Md5Ctx} {msg : List UInt8} (h : Absorbed context msg) :
    (if context.index < 56 then 56 - context.index else 120 - context.index).toNat
      = 1 + (119 - msg.length % 64) % 64 := by
  have hindex := h.index
  have hn : msg.length % 64 < 64 := Nat.mod_lt _ (by decide)
  split_ifs with hlt
  · have hlt' : context.index.toNat < 56 := UInt16.lt_iff_toNat_lt.mp hlt
    have hsub : (56 - context.index).toNat = 56 - context.index.toNat :=
      UInt16.toNat_sub_of_le 56 _ (UInt16.le_iff_toNat_le.mpr hlt'.le)
    omega
  · have hge : 56 ≤ context.index.toNat := UInt16.le_iff_toNat_le.mp (UInt16.not_lt.mp hlt)
    have hle : context.index.toNat ≤ 120 := by omega
    have hsub : (120 - context.index).toNat = 120 - context.index.toNat :=
      UInt16.toNat_sub_of_le 120 _ (UInt16.le_iff_toNat_le.mpr hle)
    omega

/-- `MD5Final` returns the digest of the message the context has seen. -/
theorem Absorbed.final {context : Md5Ctx} {msg : List UInt8} (h : Absorbed context msg) :
    (md5Final context).1 = md5 msg := by
  have hlast := (h.update md5Padding
    (if context.index < 56 then 56 - context.index else 120 - context.index)).update
      (objBytes (md5Encode [context.count0, context.count1])) 8
  have hpad : md5Padding.read 0 (1 + (119 - msg.length % 64) % 64)
      = 0x80 :: List.replicate ((119 - msg.length % 64) % 64) 0 := by
    have hz : (119 - msg.length % 64) % 64 < 64 := Nat.mod_lt _ (by decide)
    rw [md5Padding, read_objBytes _ (by rw [List.length_cons, List.length_replicate]; omega),
      Nat.add_comm, List.take_succ_cons, List.take_replicate, Nat.min_eq_left (by omega)]
  have hbits : (objBytes (md5Encode [context.count0, context.count1])).read 0 8
      = leBytes 8 (8 * msg.length) := by
    rw [h.bits, read_objBytes _ (leBytes_length 8 _).ge, List.take_of_length_le (by simp)]
  have hmsg : msg ++ md5Padding.read 0
        (if context.index < 56 then 56 - context.index else 120 - context.index).toNat
      ++ (objBytes (md5Encode [context.count0, context.count1])).read 0 (8 : UInt16).toNat
      = md5Pad msg := by
    rw [h.padLen, hpad, show (8 : UInt16).toNat = 8 from rfl, hbits, md5Pad, List.append_assoc]
  rw [hmsg] at hlast
  rw [md5, ← hlast.state, ← md5Encode_eq]
  rfl

/-- What the updates leave of the memory behind the buffer. -/
theorem Absorbed.run {context : Md5Ctx} {msg : List UInt8} (h : Absorbed context msg)
    (pieces : List (Mem × UInt16)) :
    let context' := pieces.foldl (fun c p => md5Update c p.1 p.2) context
    Absorbed context' (msg ++ pieces.flatMap fun p => p.1.read 0 p.2.toNat) ∧
      ∀ k, 64 ≤ k → context'.buffer k = context.buffer k := by
  induction pieces generalizing context msg with
  | nil => exact ⟨by simpa using h, fun _ _ => rfl⟩
  | cons p pieces ih =>
    obtain ⟨hmsg, hframe⟩ := ih (h.update p.1 p.2)
    refine ⟨?_, fun k hk => (hframe k hk).trans ?_⟩
    · rw [List.flatMap_cons, ← List.append_assoc]
      exact hmsg
    · exact md5Update_frame (h.index ▸ Nat.mod_lt _ (by decide)) p.1 p.2 hk

/-- `MD5Final` clears the buffer and writes to none of the bytes behind it. -/
theorem Absorbed.final_frame {context : Md5Ctx} {msg : List UInt8} (h : Absorbed context msg) :
    (md5Final context).2.buffer.read 0 64 = List.replicate 64 0 ∧
      ∀ k, 64 ≤ k → (md5Final context).2.buffer k = context.buffer k := by
  constructor
  · exact Mem.read_write_self _ 0 (List.replicate 64 0)
  · intro k hk
    have hpad := h.update md5Padding
      (if context.index < 56 then 56 - context.index else 120 - context.index)
    have hbits := md5Update_frame (hpad.index ▸ Nat.mod_lt _ (by decide))
      (objBytes (md5Encode [context.count0, context.count1])) 8 hk
    have hfirst := md5Update_frame (h.index ▸ Nat.mod_lt _ (by decide)) md5Padding
      (if context.index < 56 then 56 - context.index else 120 - context.index) hk
    have hclear : (md5Final context).2.buffer k = (md5Update (md5Update context md5Padding
        (if context.index < 56 then 56 - context.index else 120 - context.index))
          (objBytes (md5Encode [context.count0, context.count1])) 8).buffer k := by
      change Mem.write _ 0 (List.replicate 64 0) k = _
      exact Mem.write_apply_of_disjoint (.inr (by rwa [List.length_replicate, Nat.zero_add]))
    exact hclear.trans (hbits.trans hfirst)

/-- What `MD5Final` returns. -/
theorem md5Final_of_updates (context : Md5Ctx) (pieces : List (Mem × UInt16)) :
    (md5Final (pieces.foldl (fun c p => md5Update c p.1 p.2) (md5Init context))).1
      = md5 (pieces.flatMap fun p => p.1.read 0 p.2.toNat) :=
  ((md5Init_absorbed context).run pieces).1.final

/-- **The digest does not depend on the pieces.**  For every sequence of updates, of any number
and lengths, and whatever the context held before, `MD5Final` returns the digest of the bytes of
all of them together; nothing of them is left in the buffer, and no byte behind it is written. -/
theorem md5Final_updates (context : Md5Ctx) (pieces : List (Mem × UInt16)) :
    let q := md5Final (pieces.foldl (fun c p => md5Update c p.1 p.2) (md5Init context))
    q.1 = md5 (pieces.flatMap fun p => p.1.read 0 p.2.toNat) ∧
      q.2.buffer.read 0 64 = List.replicate 64 0 ∧
      ∀ k, 64 ≤ k → q.2.buffer k = context.buffer k := by
  obtain ⟨hmsg, hframe⟩ := (md5Init_absorbed context).run pieces
  rw [List.nil_append] at hmsg
  obtain ⟨hzero, hbehind⟩ := hmsg.final_frame
  exact ⟨md5Final_of_updates context pieces, hzero, fun k hk => (hbehind k hk).trans (hframe k hk)⟩

end Ofpagent.Util
