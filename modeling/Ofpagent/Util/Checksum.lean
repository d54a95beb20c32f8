/-
# What the checksums add up

The checksum of IP and of UDP is the complement of the one's complement sum of the words
(`internetChecksum`).  `CHECK_SUM` folds a carry of type `U8`, so it forgets what is above 24 bits
(`checkSum_eq`).  The words of an IP header do not add up to that; those of a long UDP datagram may
(`chksumUdp_correct`).  What is sent as a checksum may also be the zero that means that there is none
(`encodeUdpPkt_protected`).
-/
import Ofpagent.Lib.OnesComplement
import Ofpagent.Util.RoundTrip

namespace Ofpagent.Util

open Ofpagent.Lib

/-! ## 1. `CHECK_SUM` -/

theorem be16_toNat (hi lo : UInt8) : (be16 hi lo).toNat = hi.toNat * 256 + lo.toNat := by
  have hhi := hi.toNat_lt
  have hlo := lo.toNat_lt
  rw [be16, UInt16.toNat_or, UInt16.toNat_shiftLeft, UInt8.toNat_toUInt16, UInt8.toNat_toUInt16]
  have hshift : hi.toNat <<< ((8 : UInt16).toNat % 16) % 2 ^ 16 = 2 ^ 8 * hi.toNat := by
    rw [Nat.shiftLeft_eq]
    simp
    omega
  rw [hshift, ← Nat.two_pow_add_eq_or_of_lt hlo]
  ring

/-- The sum of these words, without the wrap. -/
def wordSum (l : List UInt16) : ℕ := (l.map UInt16.toNat).sum

theorem sumWords_toNat (l : List UInt16) : (sumWords l).toNat = wordSum l % 2 ^ 32 := by
  induction l with
  | nil => rfl
  | cons x l ih =>
    have hcons : sumWords (x :: l) = x.toUInt32 + sumWords l := rfl
    have hcons' : wordSum (x :: l) = x.toNat + wordSum l := rfl
    rw [hcons, hcons', UInt32.toNat_add, ih, UInt16.toNat_toUInt32]
    omega

/-- With a carry of one byte two foldings are enough. -/
theorem endAround_two {c v : ℕ} (hc : c < 256) (hv : v < 65536) :
    (c + v + (c + v) / 65536) % 65536 = endAround 65536 (65536 * c + v) := by
  have hfirst : endAround 65536 (65536 * c + v) = endAround 65536 (c + v) := by
    rw [endAround_eq_iff (by decide), Nat.ModEq]
    omega
  rw [hfirst]
  rcases Nat.lt_or_ge (c + v) 65536 with h | h
  · rw [endAround_of_lt h, Nat.div_eq_of_lt h, Nat.add_zero, Nat.mod_eq_of_lt h]
  · have hone : (c + v) / 65536 = 1 := by omega
    rw [endAround_of_le (by decide) h, hone, endAround_of_lt (by omega)]
    omega

/-- The `U8` that carries. -/
theorem carry_toNat (x : UInt32) : (x >>> 16).toUInt8.toUInt32.toNat = x.toNat / 65536 % 256 := by
  rw [UInt8.toNat_toUInt32, UInt32.toNat_toUInt8, UInt32.toNat_shiftRight,
    Nat.shiftRight_eq_div_pow]
  rfl

/-- **`CHECK_SUM`** folds the lower 24 bits: the carry is of one byte. -/
theorem checkSum_eq (sum : UInt32) :
    checkSum sum = ~~~UInt16.ofNat (endAround 65536 (sum.toNat % 2 ^ 24)) := by
  have hvalue : (sum &&& 0xffff).toNat = sum.toNat % 65536 := by
    rw [UInt32.toNat_and]
    exact Nat.and_two_pow_sub_one_eq_mod sum.toNat 16
  have hsum : ((sum >>> 16).toUInt8.toUInt32 + (sum &&& 0xffff)).toNat =
      sum.toNat / 65536 % 256 + sum.toNat % 65536 := by
    rw [UInt32.toNat_add, carry_toNat, hvalue]
    omega
  have hlow : sum.toNat % 2 ^ 24 = 65536 * (sum.toNat / 65536 % 256) + sum.toNat % 65536 := by omega
  have hc : sum.toNat / 65536 % 256 < 256 := Nat.mod_lt _ (by decide)
  have hv : sum.toNat % 65536 < 65536 := Nat.mod_lt _ (by decide)
  rw [hlow, ← endAround_two hc hv]
  simp only [checkSum]
  congr 1
  apply UInt16.toNat_inj.mp
  rw [UInt32.toNat_toUInt16, UInt32.toNat_add, carry_toNat, hsum, UInt16.toNat_ofNat']
  have hcarry : (sum.toNat / 65536 % 256 + sum.toNat % 65536) / 65536 < 256 := by omega
  rw [Nat.mod_eq_of_lt hcarry, Nat.mod_mod_of_dvd _ (by decide), Nat.mod_mod]

/-! ## 2. The words of a datagram -/

/-- The complement of the sum of the words, with every carry folded in. -/
def internetChecksum (words : List UInt16) : UInt16 :=
  ~~~UInt16.ofNat (endAround 65536 (wordSum words))

/-- The pseudo-header, and the UDP header with no checksum in it. -/
def pseudoHeader (ip : IpPkt) (len : UInt16) : List UInt8 :=
  ip.cSA.toList ++ ip.cDA.toList ++ [0, protoTypeUdp] ++ encodeU16 len
def udpHeader (udp : UdpPkt) : List UInt8 :=
  encodeU16 udp.src ++ encodeU16 udp.dst ++ encodeU16 udp.len ++ encodeU16 0

/-- What the checksum of a datagram is about. -/
def checksummed (ip : IpPkt) (udp : UdpPkt) (mem : Mem) : List UInt16 :=
  wordsOf (pseudoHeader ip udp.len ++ udpHeader udp ++
    padded (mem.read udp.data (udp.len.toNat - 8)))

theorem wordsOf_pair (hi lo : UInt8) : wordsOf [hi, lo] = [be16 hi lo] := rfl

theorem wordsOf_append {as : List UInt8} (h : as.length % 2 = 0) (bs : List UInt8) :
    wordsOf (as ++ bs) = wordsOf as ++ wordsOf bs := by
  induction as using wordsOf.induct with
  | case1 hi lo l ih =>
    have hl : l.length % 2 = 0 := by
      rw [List.length_cons, List.length_cons] at h
      omega
    rw [List.cons_append, List.cons_append, wordsOf, wordsOf, ih hl, List.cons_append]
  | case2 l hno =>
    cases l with
    | nil => rfl
    | cons x l =>
      cases l with
      | nil => simp at h
      | cons y l => exact absurd rfl (hno x y l)

theorem wordsOf_encodeU16 (x : UInt16) : wordsOf (encodeU16 x) = [x] := by
  have hbytes : encodeU16 x = [UInt8.ofNat (x.toNat / 256), UInt8.ofNat x.toNat] := rfl
  have hlt := x.toNat_lt
  rw [hbytes, wordsOf_pair]
  congr 1
  apply UInt16.toNat_inj.mp
  rw [be16_toNat, UInt8.toNat_ofNat', UInt8.toNat_ofNat']
  omega

theorem wordsOf_addrs (ip : IpPkt) :
    wordsOf ip.cSA.toList ++ wordsOf ip.cDA.toList = ip.addrWords := by
  have haddr : ∀ v : Vector UInt8 4, wordsOf v.toList = [be16 v[0] v[1], be16 v[2] v[3]] := by
    intro v
    have hl : v.toList = [v[0], v[1], v[2], v[3]] := by
      refine List.ext_getElem (by simp) fun i h1 h2 => ?_
      simp only [Vector.length_toList] at h1
      interval_cases i <;> simp
    rw [hl, wordsOf, wordsOf_pair]
  rw [haddr, haddr, IpPkt.addrWords]
  rfl

theorem wordSum_append (as bs : List UInt16) : wordSum (as ++ bs) = wordSum as + wordSum bs := by
  rw [wordSum, List.map_append, List.sum_append, wordSum, wordSum]

theorem wordsOf_pseudoHeader (ip : IpPkt) (len : UInt16) :
    wordsOf (pseudoHeader ip len) = ip.addrWords ++ [protoTypeUdp.toUInt16, len] := by
  have hproto : wordsOf [0, protoTypeUdp] = [protoTypeUdp.toUInt16] := rfl
  rw [pseudoHeader, wordsOf_append (by simp), wordsOf_append (by simp), wordsOf_append (by simp),
    wordsOf_addrs, wordsOf_encodeU16, hproto, List.append_assoc]
  rfl

theorem wordsOf_udpHeader (udp : UdpPkt) :
    wordsOf (udpHeader udp) = [udp.src, udp.dst, udp.len, 0] := by
  rw [udpHeader, wordsOf_append (by simp), wordsOf_append (by simp), wordsOf_append (by simp),
    wordsOf_encodeU16, wordsOf_encodeU16, wordsOf_encodeU16, wordsOf_encodeU16]
  rfl

/-- The words are those of the three parts. -/
theorem checksummed_eq (ip : IpPkt) (udp : UdpPkt) (mem : Mem) :
    checksummed ip udp mem = ip.addrWords ++ [protoTypeUdp.toUInt16, udp.len] ++
      [udp.src, udp.dst, udp.len, 0] ++ wordsOf (padded (mem.read udp.data (udp.len.toNat - 8))) := by
  have hpseudo : (pseudoHeader ip udp.len).length % 2 = 0 := by simp [pseudoHeader]
  have hheader : (pseudoHeader ip udp.len ++ udpHeader udp).length % 2 = 0 := by
    simp [pseudoHeader, udpHeader]
  rw [checksummed, wordsOf_append hheader, wordsOf_append hpseudo, wordsOf_pseudoHeader,
    wordsOf_udpHeader]

theorem wordSum_le (l : List UInt16) : wordSum l ≤ 65535 * l.length := by
  induction l with
  | nil => rfl
  | cons x l ih =>
    have hx := x.toNat_lt
    have hcons : wordSum (x :: l) = x.toNat + wordSum l := rfl
    rw [hcons, List.length_cons]
    omega

theorem wordsOf_length_le (l : List UInt8) : 2 * (wordsOf l).length ≤ l.length := by
  induction l using wordsOf.induct with
  | case1 hi lo l ih =>
    rw [wordsOf, List.length_cons, List.length_cons, List.length_cons]
    omega
  | case2 l hno =>
    rw [wordsOf]
    · exact Nat.zero_le _
    · exact hno

/-- The length field is the payload's and the header's, so the sum is a `U32`. -/
theorem wordSum_checksummed_le (ip : IpPkt) (udp : UdpPkt) (mem : Mem) :
    wordSum (checksummed ip udp mem) ≤
      65535 * (6 + (udp.len.toNat - 7) / 2) + 17 + 2 * udp.len.toNat := by
  have haddr := wordSum_le ip.addrWords
  have hpay := wordSum_le (wordsOf (padded (mem.read udp.data (udp.len.toNat - 8))))
  have hlen := wordsOf_length_le (padded (mem.read udp.data (udp.len.toNat - 8)))
  have hpad : (padded (mem.read udp.data (udp.len.toNat - 8))).length ≤
      2 * ((udp.len.toNat - 7) / 2) := by
    unfold padded
    split_ifs with hodd
    · simp only [Mem.read_length, List.length_append, List.length_singleton] at hodd ⊢
      omega
    · simp only [Mem.read_length] at hodd ⊢
      omega
  have hsrc := udp.src.toNat_lt
  have hdst := udp.dst.toNat_lt
  have hfour : ip.addrWords.length = 4 := rfl
  have hproto : wordSum [protoTypeUdp.toUInt16, udp.len] = 17 + udp.len.toNat := by
    simp [wordSum, protoTypeUdp]
  have hudp : wordSum [udp.src, udp.dst, udp.len, 0] =
      udp.src.toNat + udp.dst.toNat + udp.len.toNat := by
    simp [wordSum, Nat.add_assoc]
  rw [checksummed_eq, wordSum_append, wordSum_append, wordSum_append, hproto, hudp]
  have hwords : 65535 * (wordsOf (padded (mem.read udp.data (udp.len.toNat - 8)))).length ≤
      65535 * ((udp.len.toNat - 7) / 2) := Nat.mul_le_mul_left _ (by omega)
  rw [hfour] at haddr
  omega

/-- The source adds the words in another order.  A length that leaves nothing for the header has no
payload, and no word is read. -/
theorem chksumUdp_words (ip : IpPkt) (udp : UdpPkt) (mem : Mem) :
    (chksumUdp ip udp mem).1 = checkSum (sumWords (ip.addrWords ++
      [protoTypeUdp.toUInt16, udp.len, udp.src, udp.dst, udp.len] ++
      wordsOf (padded (mem.read udp.data (udp.len.toNat - 8))))) := by
  rcases Nat.lt_or_ge udp.len.toNat 8 with hshort | hlen
  · have hpad : wordsOf (padded (mem.read udp.data (udp.len.toNat - 8))) = [] := by
      rw [Nat.sub_eq_zero_of_le hshort.le]
      rfl
    have hnone : ((if ((udp.len.toNat : ℤ) - 8) % 2 = 1 then (udp.len.toNat : ℤ) - 8 + 1
        else (udp.len.toNat : ℤ) - 8) / 2).toNat = 0 := by
      split_ifs <;> omega
    rw [hpad, chksumUdp]
    simp only [hnone, List.range_zero, List.map_nil]
  · exact chksumUdp_eq ip udp mem (by omega)

/-- It adds them up to 24 bits. -/
theorem chksumUdp_fold (ip : IpPkt) (udp : UdpPkt) (mem : Mem) :
    (chksumUdp ip udp mem).1 =
      ~~~UInt16.ofNat (endAround 65536 (wordSum (checksummed ip udp mem) % 2 ^ 24)) := by
  have hsum : wordSum (ip.addrWords ++ [protoTypeUdp.toUInt16, udp.len, udp.src, udp.dst, udp.len] ++
      wordsOf (padded (mem.read udp.data (udp.len.toNat - 8)))) =
      wordSum (checksummed ip udp mem) := by
    have hzero : wordSum [protoTypeUdp.toUInt16, udp.len, udp.src, udp.dst, udp.len] =
        wordSum [protoTypeUdp.toUInt16, udp.len] + wordSum [udp.src, udp.dst, udp.len, 0] := by
      simp [wordSum, Nat.add_assoc]
    rw [checksummed_eq, wordSum_append, wordSum_append, hzero, wordSum_append, wordSum_append,
      wordSum_append]
    omega
  rw [chksumUdp_words, checkSum_eq, sumWords_toNat, Nat.mod_mod_of_dvd _ (by decide), hsum]

/-! ## 3. The checksum of a datagram -/

theorem complement_inj {m n : ℕ} (hm : m < 65536) (hn : n < 65536) :
    ~~~UInt16.ofNat m = ~~~UInt16.ofNat n ↔ m = n := by
  constructor
  · intro h
    have h' := congrArg UInt16.toNat (UInt16.not_inj.mp h)
    rwa [UInt16.toNat_ofNat_of_lt' hm, UInt16.toNat_ofNat_of_lt' hn] at h'
  · rintro rfl
    rfl

/-- A sum folds to the complement of `c` when the two add up, `0xffff` apart. -/
theorem complement_fold_iff {s : ℕ} (hs : s ≠ 0) (c : UInt16) :
    ~~~UInt16.ofNat (endAround 65536 s) = c ↔ c ≠ 0xffff ∧ 65535 ∣ s + c.toNat := by
  have hb : 1 < 65536 := by decide
  have hlt := c.toNat_lt
  have hc : c = ~~~UInt16.ofNat (65535 - c.toNat) := by
    apply UInt16.toNat_inj.mp
    rw [UInt16.toNat_not, UInt16.toNat_ofNat']
    simp only [UInt16.size]
    omega
  have hmax : c ≠ 0xffff ↔ c.toNat ≠ 65535 := by
    rw [ne_eq, ← UInt16.toNat_inj]
    rfl
  have hself : endAround 65536 (65535 - c.toNat) = 65535 - c.toNat := endAround_of_lt (by omega)
  rw [hmax]
  nth_rewrite 1 [hc]
  rw [complement_inj (endAround_lt hb s) (by omega), ← hself, endAround_eq_iff hb, Nat.ModEq]
  omega

theorem chksumUdp_correct_iff (ip : IpPkt) (udp : UdpPkt) (mem : Mem) :
    (chksumUdp ip udp mem).1 = internetChecksum (checksummed ip udp mem) ↔
      wordSum (checksummed ip udp mem) < 2 ^ 24 := by
  have hb : 1 < 65536 := by decide
  have hlen := udp.len.toNat_lt
  have hmax := wordSum_checksummed_le ip udp mem
  rw [chksumUdp_fold, internetChecksum,
    complement_inj (endAround_lt hb _) (endAround_lt hb _), endAround_eq_iff hb, Nat.ModEq]
  omega

/-- **The checksum is right** exactly as long as the sum takes 24 bits, which 506 bytes do not
exceed. -/
theorem chksumUdp_correct (ip : IpPkt) (udp : UdpPkt) (mem : Mem) :
    ((chksumUdp ip udp mem).1 = internetChecksum (checksummed ip udp mem) ↔
        wordSum (checksummed ip udp mem) < 2 ^ 24) ∧
      (udp.len.toNat ≤ 506 →
        (chksumUdp ip udp mem).1 = internetChecksum (checksummed ip udp mem)) := by
  have hiff := chksumUdp_correct_iff ip udp mem
  refine ⟨hiff, fun hshort => hiff.mpr ?_⟩
  have hmax := wordSum_checksummed_le ip udp mem
  omega

/-- A header with nothing in it but the version and the length, and a datagram from port to
port. -/
def plainIp (totalLen : UInt16) : IpPkt :=
  ⟨4, 5, 0, totalLen, 0, 0, 0, 64, protoTypeUdp, 0, Vector.replicate 4 0, Vector.replicate 4 0, none⟩
def plainUdp (src dst len : UInt16) : UdpPkt := ⟨src, dst, len, 0, 0⟩

theorem wordSum_replicate (n : ℕ) (x : UInt16) : wordSum (List.replicate n x) = n * x.toNat := by
  rw [wordSum, List.map_replicate, List.sum_replicate, smul_eq_mul]

/-- An even payload of one byte over and over. -/
theorem wordsOf_const (b : UInt8) (off n : ℕ) :
    wordsOf (padded (Mem.read (fun _ => b) off (2 * n))) = List.replicate n (be16 b b) := by
  have heven : ¬ 2 * n % 2 = 1 := by omega
  rw [padded, Mem.read_length, if_neg heven, wordsOf_read, List.map_const', List.length_range]

/-- **A payload of 1000 bytes 0xff**: the sum takes 25 bits. -/
theorem chksumUdp_truncated : (chksumUdp (plainIp 1028) (plainUdp 6655 8000 1008) fun _ => 0xff).1 ≠
    internetChecksum (checksummed (plainIp 1028) (plainUdp 6655 8000 1008) fun _ => 0xff) := by
  intro heq
  have hlt := (chksumUdp_correct_iff _ _ _).mp heq
  have hlen : (plainUdp 6655 8000 1008).len.toNat - 8 = 2 * 500 := by decide
  have hword : (be16 0xff 0xff).toNat = 65535 := by decide
  rw [checksummed_eq, wordSum_append, hlen, wordsOf_const, wordSum_replicate, hword] at hlt
  omega

/-! ## 4. The checksum that is sent -/

/-- The checksum field of a datagram is not the one that means that there is no checksum, and
whoever decodes the header accepts just what the checksum is right for. -/
structure Protected (ip : IpPkt) (udp : UdpPkt) (mem : Mem) : Prop where
  chksum : (encodeUdpPkt ip udp mem).1.chksum ≠ 0
  verified : ∀ (m : Mem) (data : ℕ) (b : IpPkt) (udp0 : UdpPkt) (dataLen : UInt16),
    m.Holds data (encodeUdpPkt ip udp mem).2.1 →
    (udp.len.toNat : ℤ) = b.totalLen.toNat - b.ihl.toNat * 4 →
      ((decodeUdpPkt udp0 b data m dataLen).status = 0 ↔
        (chksumUdp b { (encodeUdpPkt ip udp mem).1 with data := data + 8 } m).1 =
          (encodeUdpPkt ip udp mem).1.chksum)

/-- What `DECODE_UDP_PKT` does with an encoded header. -/
theorem decodeUdpPkt_status {ip b : IpPkt} {udp : UdpPkt} {mem m : Mem} {data : ℕ}
    (h : m.Holds data (encodeUdpPkt ip udp mem).2.1)
    (hfit : (udp.len.toNat : ℤ) = b.totalLen.toNat - b.ihl.toNat * 4) (udp0 : UdpPkt)
    (dataLen : UInt16) :
    (decodeUdpPkt udp0 b data m dataLen).status =
      if (encodeUdpPkt ip udp mem).1.chksum = 0 ∨
        (chksumUdp b { (encodeUdpPkt ip udp mem).1 with data := data + 8 } m).1 =
          (encodeUdpPkt ip udp mem).1.chksum then 0 else -1 := by
  simp only [encodeUdpPkt, Mem.holds_append, List.length_append, encodeU16_length,
    Nat.reduceAdd] at h
  obtain ⟨⟨⟨hsrc, hdst⟩, hlen⟩, hchk⟩ := h
  simp only [decodeUdpPkt, encodeUdpPkt, decodeU16_of_holds hsrc, decodeU16_of_holds hdst,
    decodeU16_of_holds hlen, decodeU16_of_holds hchk, if_neg (not_not.mpr hfit)]
  split_ifs <;> simp_all

theorem chksum_eq_zero_iff (ip : IpPkt) (udp : UdpPkt) (mem : Mem) :
    (encodeUdpPkt ip udp mem).1.chksum = 0 ↔ wordSum (checksummed ip udp mem) % 2 ^ 24 ≠ 0 ∧
      65535 ∣ wordSum (checksummed ip udp mem) % 2 ^ 24 := by
  have hb : 1 < 65536 := by decide
  have hzero : (0 : UInt16) = ~~~UInt16.ofNat 65535 := by decide
  have hchk : (encodeUdpPkt ip udp mem).1.chksum = (chksumUdp ip udp mem).1 := rfl
  rw [hchk, chksumUdp_fold, hzero, complement_inj (endAround_lt hb _) (by decide)]
  exact endAround_eq_max hb

/-- **A datagram is protected** unless the sum that is folded is a multiple of 65535 and not zero;
then every payload behind that header is accepted. -/
theorem encodeUdpPkt_protected (ip : IpPkt) (udp : UdpPkt) (mem : Mem) :
    (Protected ip udp mem ↔ ¬ (wordSum (checksummed ip udp mem) % 2 ^ 24 ≠ 0 ∧
        65535 ∣ wordSum (checksummed ip udp mem) % 2 ^ 24)) ∧
      (¬ Protected ip udp mem → ∀ (m : Mem) (data : ℕ) (b : IpPkt) (udp0 : UdpPkt)
        (dataLen : UInt16), m.Holds data (encodeUdpPkt ip udp mem).2.1 →
        (udp.len.toNat : ℤ) = b.totalLen.toNat - b.ihl.toNat * 4 →
        (decodeUdpPkt udp0 b data m dataLen).status = 0) := by
  have hprot : Protected ip udp mem ↔ (encodeUdpPkt ip udp mem).1.chksum ≠ 0 := by
    constructor
    · exact fun hp => hp.chksum
    · intro hne
      refine ⟨hne, fun m data b udp0 dataLen hm hfit => ?_⟩
      rw [decodeUdpPkt_status hm hfit]
      split_ifs with heq
      · exact iff_of_true rfl (heq.resolve_left hne)
      · exact iff_of_false (by decide) (heq ∘ .inr)
  constructor
  · rw [hprot, ne_eq, chksum_eq_zero_iff ip udp mem]
  · intro hnot m data b udp0 dataLen hm hfit
    have hzero : (encodeUdpPkt ip udp mem).1.chksum = 0 := not_not.mp (mt hprot.mpr hnot)
    rw [decodeUdpPkt_status hm hfit, if_pos (.inl hzero)]

/-- The words of this datagram add up to 65535. -/
def unprotected : Mem := fun i => if i = 0 then 0xc6 else 0x9b

/-- **The checksum 0 is sent**, and the header is accepted with another payload behind it. -/
theorem encodeUdpPkt_unprotected :
    ¬ Protected (plainIp 30) (plainUdp 6655 8000 10) unprotected ∧
      (decodeUdpPkt (plainUdp 0 0 0) (plainIp 30) 0 (Mem.write (fun _ => 7) 0
        (encodeUdpPkt (plainIp 30) (plainUdp 6655 8000 10) unprotected).2.1) 10).status = 0 := by
  refine ⟨fun hp => hp.chksum ?_, ?_⟩
  · decide
  · decide

end Ofpagent.Util
