/-
# What `DECODE_IP_PKT` accepts

The decoder looks at the version and at the checksum.  The checksum is right when the words of the
header add up to a multiple of 65535 and the checksum's own is not 0xffff (`chksumIpHdr_iff`), so one
changed word is always seen, but for 0 and 0xffff (`decodeIpPkt_corrupted`).  No length is looked at:
neither `IHL` nor the total length has to fit into the bytes that are there, and `*len` is lowered
before the checksum is compared (`decodeIpPkt_fits`).
-/
import Ofpagent.Util.Checksum

namespace Ofpagent.Util

open Ofpagent.Lib

variable {m m' : Mem} {data : ℕ}

/-! ## 1. The words of a header -/

theorem decodeU16_eq (m : Mem) (off : ℕ) : decodeU16 m off = be16 (m off) (m (off + 1)) := by
  have hhi := (m off).toNat_lt
  have hlo := (m (off + 1)).toNat_lt
  have hnat : leNat (m.read off 2).reverse = (m off).toNat * 256 + (m (off + 1)).toNat := by
    rw [Mem.read_succ, Mem.read_succ]
    simp only [Mem.read, List.range_zero, List.map_nil, List.reverse_cons, List.reverse_nil,
      List.nil_append, List.cons_append, leNat]
    omega
  apply UInt16.toNat_inj.mp
  rw [be16_toNat, decodeU16, hnat, UInt16.toNat_ofNat']
  omega

/-- The version and the length in words that the first byte holds. -/
def verAt (m : Mem) (data : ℕ) : ℕ := (m data).toNat / 16
def ihlAt (m : Mem) (data : ℕ) : ℕ := (m data).toNat % 16

/-- The words `CHKSUM_IP_HDR` is about: five times four bytes, and the options. -/
def headerWords (m : Mem) (data : ℕ) : List UInt16 :=
  (List.range (10 + (ihlAt m data - 5) * 2)).map fun k => decodeU16 m (data + 2 * k)

/-- The header adds up, with a checksum that can be the complement of a sum. -/
def Verifies (m : Mem) (data : ℕ) : Prop :=
  decodeU16 m (data + 10) ≠ 0xffff ∧ 65535 ∣ wordSum (headerWords m data)

instance (m : Mem) (data : ℕ) : Decidable (Verifies m data) := inferInstanceAs (Decidable (_ ∧ _))

/-- The packet behind the look at the version. -/
def headIpPkt (ip : IpPkt) (m : Mem) (data : ℕ) : IpPkt :=
  { ip with ver := BitVec.ofNat 4 ((m data).toNat / 16), ihl := BitVec.ofNat 4 (m data).toNat }

theorem headIpPkt_ihl (ip : IpPkt) (m : Mem) (data : ℕ) :
    (headIpPkt ip m data).ihl.toNat = ihlAt m data := by
  rw [headIpPkt, BitVec.toNat_ofNat, ihlAt]

theorem headIpPkt_ver (ip : IpPkt) (m : Mem) (data : ℕ) :
    (headIpPkt ip m data).ver = 4 ↔ verAt m data = 4 := by
  have hlt := (m data).toNat_lt
  have hver : (headIpPkt ip m data).ver.toNat = verAt m data := by
    rw [headIpPkt, BitVec.toNat_ofNat, verAt]
    omega
  rw [← hver, ← BitVec.toNat_inj]
  rfl

theorem headIpPkt_verIhl (ip : IpPkt) (m : Mem) (data : ℕ) :
    (headIpPkt ip m data).verIhl = m data := by
  have hlt := (m data).toNat_lt
  apply UInt8.toNat_inj.mp
  rw [IpPkt.verIhl_toNat, headIpPkt, BitVec.toNat_ofNat, BitVec.toNat_ofNat]
  omega

/-- The flags come out of a byte and the offset out of a word, and they go back into one. -/
theorem fillIpPkt_flagFrag (ip : IpPkt) (m : Mem) (data : ℕ) :
    (fillIpPkt ip m data).flagFrag = decodeU16 m (data + 6) := by
  have hhi := (m (data + 6)).toNat_lt
  have hlo := (m (data + 7)).toNat_lt
  have hword : (decodeU16 m (data + 6)).toNat = (m (data + 6)).toNat * 256 + (m (data + 7)).toNat := by
    rw [decodeU16_eq, be16_toNat]
  apply UInt16.toNat_inj.mp
  rw [IpPkt.flagFrag_toNat, fillIpPkt, BitVec.toNat_ofNat, BitVec.toNat_ofNat, hword]
  omega

theorem fillIpPkt_addrWords (ip : IpPkt) (m : Mem) (data : ℕ) : (fillIpPkt ip m data).addrWords =
    [decodeU16 m (data + 12), decodeU16 m (data + 14), decodeU16 m (data + 16),
      decodeU16 m (data + 18)] := by
  have haddr : ∀ off, wordsOf (ipAddrAt m off).toList = [decodeU16 m off, decodeU16 m (off + 2)] := by
    intro off
    rw [decodeU16_eq, decodeU16_eq]
    exact wordsOf_read m off 2
  have hsa : (fillIpPkt ip m data).cSA = ipAddrAt m (data + 12) := rfl
  have hda : (fillIpPkt ip m data).cDA = ipAddrAt m (data + 16) := rfl
  rw [← wordsOf_addrs, hsa, hda, haddr, haddr]
  rfl

theorem fillIpPkt_optWords (ip : IpPkt) (m : Mem) (data : ℕ) : (fillIpPkt ip m data).optWords =
    (List.range ((ip.ihl.toNat - 5) * 2)).map fun k => decodeU16 m (data + 2 * (10 + k)) := by
  by_cases h5 : ip.ihl = 5
  · have hpad : (fillIpPkt ip m data).ihl = 5 := h5
    rw [IpPkt.optWords_eq_nil hpad, h5]
    rfl
  · have hpad : (fillIpPkt ip m data).optPad = some fun i => m (data + 20 + i) := if_neg h5
    have hihl : (fillIpPkt ip m data).ihl = ip.ihl := rfl
    simp only [IpPkt.optWords, hpad, hihl]
    refine List.map_congr_left fun k _ => ?_
    have hoff : data + 20 + 2 * k = data + 2 * (10 + k) := by omega
    rw [decodeU16_eq, ← hoff]
    rfl

/-! ## 2. The checksum of a header -/

/-- The words of the header, with the checksum taken out. -/
def summedWords (m : Mem) (data : ℕ) : List UInt16 :=
  [decodeU16 m data, decodeU16 m (data + 2), decodeU16 m (data + 4), decodeU16 m (data + 6),
    decodeU16 m (data + 8), decodeU16 m (data + 12), decodeU16 m (data + 14),
    decodeU16 m (data + 16), decodeU16 m (data + 18)] ++
  (List.range ((ihlAt m data - 5) * 2)).map fun k => decodeU16 m (data + 2 * (10 + k))

theorem wordSum_headerWords (m : Mem) (data : ℕ) :
    wordSum (headerWords m data) = wordSum (summedWords m data) + (decodeU16 m (data + 10)).toNat := by
  have hten : (List.range 10).map (fun k => decodeU16 m (data + 2 * k)) =
      [decodeU16 m data, decodeU16 m (data + 2), decodeU16 m (data + 4), decodeU16 m (data + 6),
        decodeU16 m (data + 8), decodeU16 m (data + 10), decodeU16 m (data + 12),
        decodeU16 m (data + 14), decodeU16 m (data + 16), decodeU16 m (data + 18)] := rfl
  rw [headerWords, summedWords, List.range_add, List.map_append, hten, List.map_map,
    wordSum_append, wordSum_append]
  simp only [wordSum, List.map_cons, List.map_nil, List.sum_cons, List.sum_nil, Function.comp_def]
  omega

theorem chksumIpHdr_fillIpPkt (ip : IpPkt) (m : Mem) (data : ℕ) :
    chksumIpHdr (fillIpPkt (headIpPkt ip m data) m data) =
      checkSum (sumWords (summedWords m data)) := by
  have hver : (fillIpPkt (headIpPkt ip m data) m data).verIhl = m data := headIpPkt_verIhl ip m data
  have hfirst : be16 (m data) (m (data + 1)) = decodeU16 m data := (decodeU16_eq m data).symm
  have hfifth : be16 (m (data + 8)) (m (data + 9)) = decodeU16 m (data + 8) :=
    (decodeU16_eq m (data + 8)).symm
  rw [chksumIpHdr, hver, fillIpPkt_flagFrag, fillIpPkt_addrWords, fillIpPkt_optWords,
    headIpPkt_ihl, summedWords, ← hfirst, ← hfifth]
  rfl

/-- At most 29 words are added, so no carry is lost. -/
theorem summedWords_lt (m : Mem) (data : ℕ) : wordSum (summedWords m data) < 2 ^ 24 := by
  have hle := wordSum_le (summedWords m data)
  have hihl : ihlAt m data < 16 := Nat.mod_lt _ (by decide)
  have hlen : (summedWords m data).length = 9 + (ihlAt m data - 5) * 2 := by
    rw [summedWords, List.length_append, List.length_map, List.length_range]
    rfl
  omega

/-- The first word holds the version, so the sum is not zero. -/
theorem summedWords_ne_zero (h : verAt m data = 4) : wordSum (summedWords m data) ≠ 0 := by
  have hfirst : (decodeU16 m data).toNat = (m data).toNat * 256 + (m (data + 1)).toNat := by
    rw [decodeU16_eq, be16_toNat]
  rw [verAt] at h
  simp only [summedWords, wordSum, List.cons_append, List.map_cons, List.sum_cons]
  omega

/-- **`CHKSUM_IP_HDR`** gives the checksum of the header when the words add up. -/
theorem chksumIpHdr_iff (ip : IpPkt) (h : verAt m data = 4) :
    chksumIpHdr (fillIpPkt (headIpPkt ip m data) m data) =
      (fillIpPkt (headIpPkt ip m data) m data).headChksum ↔ Verifies m data := by
  have hlt := summedWords_lt m data
  have hchk : (fillIpPkt (headIpPkt ip m data) m data).headChksum = decodeU16 m (data + 10) := rfl
  have hmod : wordSum (summedWords m data) % 2 ^ 32 % 2 ^ 24 = wordSum (summedWords m data) := by
    omega
  rw [chksumIpHdr_fillIpPkt, hchk, checkSum_eq, sumWords_toNat, hmod,
    complement_fold_iff (summedWords_ne_zero h), Verifies, wordSum_headerWords]

/-- What `DECODE_IP_PKT` does, from the bytes. -/
theorem decodeIpPkt_eq (ip : IpPkt) (m : Mem) (data : ℕ) (len : UInt16) :
    decodeIpPkt ip m data len =
      if verAt m data = 4 then
        ⟨if Verifies m data then 1 else -1, fillIpPkt (headIpPkt ip m data) m data,
          some (data + ihlAt m data * 4), len - UInt16.ofNat (ihlAt m data * 4)⟩
      else ⟨-1, headIpPkt ip m data, none, len⟩ := by
  have hihl : (fillIpPkt (headIpPkt ip m data) m data).ihl.toNat = ihlAt m data :=
    headIpPkt_ihl ip m data
  by_cases hver : verAt m data = 4
  · have hhead : ¬ (headIpPkt ip m data).ver ≠ 4 := not_not.mpr ((headIpPkt_ver ip m data).mpr hver)
    have hrun : decodeIpPkt ip m data len =
        if chksumIpHdr (fillIpPkt (headIpPkt ip m data) m data) ≠
            (fillIpPkt (headIpPkt ip m data) m data).headChksum
        then ⟨-1, fillIpPkt (headIpPkt ip m data) m data,
          some (data + (fillIpPkt (headIpPkt ip m data) m data).ihl.toNat * 4),
          len - UInt16.ofNat ((fillIpPkt (headIpPkt ip m data) m data).ihl.toNat * 4)⟩
        else ⟨1, fillIpPkt (headIpPkt ip m data) m data,
          some (data + (fillIpPkt (headIpPkt ip m data) m data).ihl.toNat * 4),
          len - UInt16.ofNat ((fillIpPkt (headIpPkt ip m data) m data).ihl.toNat * 4)⟩ :=
      if_neg hhead
    rw [hrun, if_pos hver, hihl]
    by_cases hv : Verifies m data
    · rw [if_neg (not_not.mpr ((chksumIpHdr_iff ip hver).mpr hv)), if_pos hv]
    · rw [if_pos (mt (chksumIpHdr_iff ip hver).mp hv), if_neg hv]
  · rw [if_neg hver]
    exact if_pos (mt (headIpPkt_ver ip m data).mp hver)

/-! ## 3. A word that was changed -/

theorem wordSum_map_range {n k : ℕ} {f g : ℕ → UInt16} (hk : k < n)
    (h : ∀ j < n, j ≠ k → g j = f j) :
    wordSum ((List.range n).map g) + (f k).toNat = wordSum ((List.range n).map f) + (g k).toNat := by
  induction n with
  | zero => exact absurd hk (Nat.not_lt_zero k)
  | succ n ih =>
    have hlast : ∀ e : ℕ → UInt16, wordSum ((List.range (n + 1)).map e) =
        wordSum ((List.range n).map e) + (e n).toNat := by
      intro e
      rw [List.range_succ, List.map_append, wordSum_append]
      rfl
    rw [hlast, hlast]
    rcases Nat.lt_succ_iff_lt_or_eq.mp hk with hlt | rfl
    · have hn : g n = f n := h n n.lt_succ_self (by omega)
      have hrest := ih hlt fun j hj => h j (hj.trans n.lt_succ_self)
      rw [hn]
      omega
    · have hsame : (List.range k).map g = (List.range k).map f := by
        refine List.map_congr_left fun j hj => ?_
        have hj' : j < k := List.mem_range.mp hj
        exact h j (hj'.trans k.lt_succ_self) hj'.ne
      rw [hsame]
      omega

/-- The header at `data'` is the one at `data`, less its `k`th word. -/
structure OneWordOff (m m' : Mem) (data data' k : ℕ) : Prop where
  first : m' data' = m data
  lt : k < ihlAt m data * 2
  same : ∀ j < ihlAt m data * 2, j ≠ k → decodeU16 m' (data' + 2 * j) = decodeU16 m (data + 2 * j)
  ne : decodeU16 m' (data' + 2 * k) ≠ decodeU16 m (data + 2 * k)

/-- Zero and `0xffff` are the same in a one's complement sum. -/
def SameInSum (old new : UInt16) : Prop := old = 0 ∧ new = 0xffff ∨ old = 0xffff ∧ new = 0

theorem sameInSum_iff {old new : UInt16} (h : new ≠ old) {s s' : ℕ} (hs : 65535 ∣ s)
    (hsum : s' + old.toNat = s + new.toNat) : 65535 ∣ s' ↔ SameInSum old new := by
  have hold := old.toNat_lt
  have hnew := new.toNat_lt
  rw [ne_eq, ← UInt16.toNat_inj] at h
  rw [SameInSum, ← UInt16.toNat_inj, ← UInt16.toNat_inj, ← UInt16.toNat_inj, ← UInt16.toNat_inj]
  have hzero : (0 : UInt16).toNat = 0 := rfl
  have hmax : (0xffff : UInt16).toNat = 65535 := rfl
  rw [hzero, hmax]
  omega

variable {data' k : ℕ}

theorem OneWordOff.ihlAt (h : OneWordOff m m' data data' k) : ihlAt m' data' = ihlAt m data := by
  rw [Util.ihlAt, h.first, Util.ihlAt]

theorem OneWordOff.verAt (h : OneWordOff m m' data data' k) : verAt m' data' = verAt m data := by
  rw [Util.verAt, h.first, Util.verAt]

theorem OneWordOff.wordSum (h : OneWordOff m m' data data' k) (hihl : 5 ≤ Util.ihlAt m data) :
    Util.wordSum (headerWords m' data') + (decodeU16 m (data + 2 * k)).toNat =
      Util.wordSum (headerWords m data) + (decodeU16 m' (data' + 2 * k)).toNat := by
  have hn : 10 + (Util.ihlAt m data - 5) * 2 = Util.ihlAt m data * 2 := by omega
  rw [headerWords, headerWords, h.ihlAt, hn]
  exact wordSum_map_range h.lt h.same

/-- One word is a change that the sum sees, but for zero and `0xffff` outside the checksum. -/
theorem OneWordOff.verifies_iff (h : OneWordOff m m' data data' k) (hihl : 5 ≤ Util.ihlAt m data)
    (hok : Verifies m data) : Verifies m' data' ↔
      k ≠ 5 ∧ SameInSum (decodeU16 m (data + 2 * k)) (decodeU16 m' (data' + 2 * k)) := by
  rw [Verifies, sameInSum_iff h.ne hok.2 (h.wordSum hihl)]
  by_cases h5 : k = 5
  · subst h5
    simp only [ne_eq, not_true_eq_false, false_and, iff_false]
    rintro ⟨hnew, hdvd⟩
    rcases hdvd with ⟨-, hmax⟩ | ⟨hmax, -⟩
    · exact hnew hmax
    · exact hok.1 hmax
  · have hchk : decodeU16 m' (data' + 10) = decodeU16 m (data + 10) := h.same 5 (by omega) (Ne.symm h5)
    rw [hchk]
    exact and_congr_left fun _ => iff_of_true hok.1 h5

theorem decodeIpPkt_status_one {ip : IpPkt} {len : UInt16} :
    (decodeIpPkt ip m data len).status = 1 ↔ verAt m data = 4 ∧ Verifies m data := by
  rw [decodeIpPkt_eq]
  split_ifs with hver hv <;> simp [*]

theorem decodeIpPkt_status_neg {ip : IpPkt} {len : UInt16} :
    (decodeIpPkt ip m data len).status = -1 ↔ ¬ (verAt m data = 4 ∧ Verifies m data) := by
  rw [decodeIpPkt_eq]
  split_ifs with hver hv <;> simp [*]

/-- **One changed word is rejected**, unless it is another word than the checksum's and went from
zero to `0xffff` or back. -/
theorem decodeIpPkt_corrupted {ip : IpPkt} {len : UInt16} (hihl : 5 ≤ ihlAt m data)
    (hok : (decodeIpPkt ip m data len).status = 1) (h : OneWordOff m m' data data' k) (ip' : IpPkt)
    (len' : UInt16) :
    (decodeIpPkt ip' m' data' len').status = -1 ↔
      ¬ (k ≠ 5 ∧ SameInSum (decodeU16 m (data + 2 * k)) (decodeU16 m' (data' + 2 * k))) := by
  obtain ⟨hver, hv⟩ := decodeIpPkt_status_one.mp hok
  rw [decodeIpPkt_status_neg, h.verifies_iff hihl hv, h.verAt]
  exact not_congr (and_iff_right hver)

/-- A header of 20 bytes from 0.0.0.0 to 0.0.0.0, and one with another total length. -/
def plainHeader (totalLen : UInt8) : Mem :=
  fun i => [0x45, 0, 0, totalLen, 0, 0, 0, 0, 0x40, 0x11, 0x7a, 0xda].getD i 0

theorem decodeIpPkt_corrupted_total :
    (decodeIpPkt (plainIp 0) (plainHeader 21) 0 21).status = -1 := by
  have hoff : OneWordOff (plainHeader 20) (plainHeader 21) 0 0 1 :=
    ⟨rfl, by decide, by decide, by decide⟩
  have hsame : ¬ (1 ≠ 5 ∧ SameInSum (decodeU16 (plainHeader 20) 2) (decodeU16 (plainHeader 21) 2)) := by
    unfold SameInSum
    decide
  have hok : (decodeIpPkt (plainIp 0) (plainHeader 20) 0 20).status = 1 := by decide
  exact (decodeIpPkt_corrupted (by decide) hok hoff (plainIp 0) 21).mpr hsame

/-! ## 4. The lengths -/

/-- The bytes `DECODE_IP_PKT` reads: the first one, and with the right version the other 19 and
the options, which the checksum adds. -/
def decodeIpReads (m : Mem) (data : ℕ) : List ℕ :=
  data :: if verAt m data = 4 then
    (List.range 19).map (data + 1 + ·) ++ (List.range ((ihlAt m data - 5) * 4)).map (data + 20 + ·)
  else []

theorem IpPkt.Same.refl (ip : IpPkt) : ip.Same ip :=
  ⟨rfl, rfl, rfl, rfl, rfl, rfl, rfl, rfl, rfl, rfl, rfl, rfl, rfl⟩

theorem fillIpPkt_optBytes (ip : IpPkt) (m : Mem) (data : ℕ) :
    (fillIpPkt ip m data).optBytes = m.read (data + 20) ((ip.ihl.toNat - 5) * 4) := by
  by_cases h5 : ip.ihl = 5
  · have hpad : (fillIpPkt ip m data).ihl = 5 := h5
    rw [IpPkt.optBytes_eq_nil hpad, h5]
    rfl
  · have hpad : (fillIpPkt ip m data).optPad = some fun i => m (data + 20 + i) := if_neg h5
    have hihl : (fillIpPkt ip m data).ihl = ip.ihl := rfl
    simp only [IpPkt.optBytes, hpad, hihl, Mem.read, Nat.zero_add]

/-- The packet is a function of the 20 bytes and of the options. -/
theorem fillIpPkt_same {ip : IpPkt} (h : ∀ i < 20, m' (data + i) = m (data + i))
    (hopt : m'.read (data + 20) ((ip.ihl.toNat - 5) * 4) =
      m.read (data + 20) ((ip.ihl.toNat - 5) * 4)) :
    (fillIpPkt ip m' data).Same (fillIpPkt ip m data) := by
  have hword : ∀ i < 19, decodeU16 m' (data + i) = decodeU16 m (data + i) := by
    intro i hi
    have hlo := h (i + 1) (by omega)
    rw [decodeU16_eq, decodeU16_eq, h i (by omega), Nat.add_assoc, hlo]
  have haddr : ∀ i ≤ 16, ipAddrAt m' (data + i) = ipAddrAt m (data + i) := by
    intro i hi
    have hread : m'.read (data + i) 4 = m.read (data + i) 4 := by
      refine Mem.read_congr fun k h1 h2 => ?_
      have hk := h (k - data) (by omega)
      rwa [Nat.add_sub_cancel' (by omega : data ≤ k)] at hk
    simp only [ipAddrAt, hread]
  have hfrag : BitVec.ofNat 3 ((m' (data + 6)).toNat / 32) =
      BitVec.ofNat 3 ((m (data + 6)).toNat / 32) := by rw [h 6 (by decide)]
  have hoff : BitVec.ofNat 13 (decodeU16 m' (data + 6)).toNat =
      BitVec.ofNat 13 (decodeU16 m (data + 6)).toNat := by rw [hword 6 (by decide)]
  refine ⟨rfl, rfl, h 1 (by decide), hword 2 (by decide), hword 4 (by decide), hfrag, hoff,
    h 8 (by decide), h 9 (by decide), hword 10 (by decide), haddr 12 (by decide),
    haddr 16 le_rfl, ?_⟩
  rw [fillIpPkt_optBytes, fillIpPkt_optBytes, hopt]

/-- There are no others: what stands elsewhere changes nothing. -/
theorem decodeIpPkt_congr (h : ∀ i ∈ decodeIpReads m data, m' i = m i) (ip : IpPkt) (len : UInt16) :
    (decodeIpPkt ip m' data len).status = (decodeIpPkt ip m data len).status ∧
      (decodeIpPkt ip m' data len).ip.Same (decodeIpPkt ip m data len).ip ∧
      (decodeIpPkt ip m' data len).data = (decodeIpPkt ip m data len).data ∧
      (decodeIpPkt ip m' data len).len = (decodeIpPkt ip m data len).len := by
  have hfirst : m' data = m data := h data (by simp [decodeIpReads])
  have hhead : headIpPkt ip m' data = headIpPkt ip m data := by
    rw [headIpPkt, headIpPkt, hfirst]
  have hver : verAt m' data = verAt m data := by rw [verAt, verAt, hfirst]
  have hihl : ihlAt m' data = ihlAt m data := by rw [ihlAt, ihlAt, hfirst]
  rw [decodeIpPkt_eq, decodeIpPkt_eq, hver, hihl, hhead]
  by_cases h4 : verAt m data = 4
  · have hbyte : ∀ i < 20, m' (data + i) = m (data + i) := by
      intro i hi
      cases i with
      | zero => exact hfirst
      | succ i =>
        refine h _ ?_
        simp only [decodeIpReads, if_pos h4, List.mem_cons, List.mem_append, List.mem_map,
          List.mem_range]
        exact .inr (.inl ⟨i, by omega, by omega⟩)
    have hopt : m'.read (data + 20) ((ihlAt m data - 5) * 4) =
        m.read (data + 20) ((ihlAt m data - 5) * 4) := by
      refine List.map_congr_left fun k hk => h _ ?_
      simp only [decodeIpReads, if_pos h4, List.mem_cons, List.mem_append, List.mem_map]
      exact .inr (.inr ⟨k, hk, rfl⟩)
    rw [← headIpPkt_ihl ip] at hopt
    have hsame := fillIpPkt_same hbyte hopt
    have hv : Verifies m' data ↔ Verifies m data := by
      rw [← chksumIpHdr_iff ip h4, ← chksumIpHdr_iff ip (hver.trans h4), hhead, hsame.chksumIpHdr,
        hsame.headChksum]
    rw [if_pos h4, if_pos h4]
    simp only [hv]
    exact ⟨trivial, hsame, trivial, trivial⟩
  · rw [if_neg h4, if_neg h4]
    exact ⟨rfl, .refl _, rfl, rfl⟩

/-- A header that fits into the `len` bytes at `data`: `opt_pad` and `data` point into them, and
the length that is left is what the header left. -/
structure Fits (m : Mem) (data : ℕ) (len : UInt16) (d : IpDecoded) : Prop where
  ver : d.ip.ver = 4
  ihl : 5 ≤ d.ip.ihl.toNat
  header : d.ip.ihl.toNat * 4 ≤ len.toNat
  headerTotal : d.ip.ihl.toNat * 4 ≤ d.ip.totalLen.toNat
  total : d.ip.totalLen.toNat ≤ len.toNat
  reads : ∀ i ∈ decodeIpReads m data, data ≤ i ∧ i < data + len.toNat
  optPad : 20 + d.ip.optBytes.length ≤ len.toNat
  data : ∃ p, d.data = some p ∧ data ≤ p ∧
    p + (d.ip.totalLen.toNat - d.ip.ihl.toNat * 4) ≤ data + len.toNat
  left : d.len.toNat + d.ip.ihl.toNat * 4 = len.toNat

/-- An accepted header fits, and behind a rejected one `*len` is what it was. -/
structure DecodesWithin (m : Mem) (data : ℕ) (len : UInt16) (d : IpDecoded) : Prop where
  accepted : d.status = 1 → Fits m data len d
  rejected : d.status = -1 → d.len = len

theorem decodeIpReads_lt (h4 : verAt m data = 4) {n : ℕ} (h20 : 20 ≤ n)
    (hopt : 20 + (ihlAt m data - 5) * 4 ≤ n) : ∀ i ∈ decodeIpReads m data, data ≤ i ∧ i < data + n := by
  intro i hi
  simp only [decodeIpReads, if_pos h4, List.mem_cons, List.mem_append, List.mem_map,
    List.mem_range] at hi
  rcases hi with rfl | ⟨k, hk, rfl⟩ | ⟨k, hk, rfl⟩ <;> omega

/-- Lowering the length by `n` leaves what is left, unless it wraps. -/
theorem sub_ofNat_toNat {len : UInt16} {n : ℕ} (h : n ≤ len.toNat) :
    (len - UInt16.ofNat n).toNat + n = len.toNat := by
  have hlt := len.toNat_lt
  have hn : (UInt16.ofNat n).toNat = n := UInt16.toNat_ofNat_of_lt' (by simp only [UInt16.size]; omega)
  rw [UInt16.toNat_sub_of_le _ _ (UInt16.le_iff_toNat_le.mpr (hn.trans_le h)), hn]
  omega

theorem sub_ofNat_eq_self (len : UInt16) {n : ℕ} (hn : n < 65536) :
    len - UInt16.ofNat n = len ↔ n = 0 := by
  rw [sub_eq_self, ← UInt16.toNat_inj, UInt16.toNat_ofNat_of_lt' hn]
  rfl

/-- The lengths that nothing checks. -/
structure LengthsFit (m : Mem) (data : ℕ) (len : UInt16) : Prop where
  ihl : 5 ≤ ihlAt m data
  header : ihlAt m data * 4 ≤ (decodeU16 m (data + 2)).toNat
  total : (decodeU16 m (data + 2)).toNat ≤ len.toNat

theorem fits_iff (ip : IpPkt) (len : UInt16) (h4 : verAt m data = 4) :
    Fits m data len ⟨1, fillIpPkt (headIpPkt ip m data) m data, some (data + ihlAt m data * 4),
      len - UInt16.ofNat (ihlAt m data * 4)⟩ ↔ LengthsFit m data len := by
  have hihl : (fillIpPkt (headIpPkt ip m data) m data).ihl.toNat = ihlAt m data :=
    headIpPkt_ihl ip m data
  have htotal : (fillIpPkt (headIpPkt ip m data) m data).totalLen = decodeU16 m (data + 2) := rfl
  constructor
  · rintro ⟨-, h5, -, hheader, hlen, -⟩
    rw [hihl] at h5 hheader
    exact ⟨h5, hheader, hlen⟩
  · rintro ⟨h5, hheader, hlen⟩
    have hopt : (fillIpPkt (headIpPkt ip m data) m data).optBytes.length =
        (ihlAt m data - 5) * 4 := by rw [fillIpPkt_optBytes, Mem.read_length, headIpPkt_ihl]
    have hreads := decodeIpReads_lt (n := len.toNat) h4 (by omega) (by omega)
    have hleft := sub_ofNat_toNat (hheader.trans hlen)
    refine ⟨(headIpPkt_ver ip m data).mpr h4, ?_, ?_, ?_, hlen, hreads, ?_, ⟨_, rfl, ?_, ?_⟩, ?_⟩
    · rwa [hihl]
    · rw [hihl]
      exact hheader.trans hlen
    · rwa [hihl]
    · rw [hopt]
      omega
    · omega
    · rw [hihl, htotal]
      omega
    · rwa [hihl]

/-- **`DECODE_IP_PKT` checks the version and the checksum only.**  It stays within its input when the
lengths of a header that verifies happen to fit, and `*len` is kept behind a bad checksum only if
`IHL` is zero. -/
theorem decodeIpPkt_fits (ip : IpPkt) (m : Mem) (data : ℕ) (len : UInt16) :
    DecodesWithin m data len (decodeIpPkt ip m data len) ↔
      verAt m data ≠ 4 ∨ (Verifies m data ∧ LengthsFit m data len) ∨
        (¬ Verifies m data ∧ ihlAt m data = 0) := by
  have hlt : ihlAt m data < 16 := Nat.mod_lt _ (by decide)
  have hne : (1 : ℤ) ≠ -1 := by decide
  rw [decodeIpPkt_eq]
  by_cases h4 : verAt m data = 4
  · rw [if_pos h4, or_iff_right (not_not.mpr h4)]
    by_cases hv : Verifies m data
    · rw [if_pos hv, and_iff_right hv, or_iff_left (fun h => h.1 hv), ← fits_iff ip len h4]
      constructor
      · intro h
        exact h.accepted rfl
      · intro h
        exact ⟨fun _ => h, fun hneg => absurd hneg hne⟩
    · have hself := sub_ofNat_eq_self len (show ihlAt m data * 4 < 65536 by omega)
      rw [if_neg hv, and_iff_right hv, or_iff_right (fun h => hv h.1)]
      constructor
      · intro h
        have hzero := hself.mp (h.rejected rfl)
        omega
      · intro hzero
        exact ⟨fun hone => absurd hone.symm hne, fun _ => hself.mpr (by omega)⟩
  · rw [if_neg h4]
    exact iff_of_true ⟨fun hone => absurd hone.symm hne, fun _ => rfl⟩ (.inl h4)

/-- **Ten bytes are accepted** as a header of 20, and `*len` wraps; 21 bytes with a bad checksum are
rejected, and `*len` is 1. -/
theorem decodeIpPkt_unchecked :
    ¬ DecodesWithin (plainHeader 20) 0 10 (decodeIpPkt (plainIp 0) (plainHeader 20) 0 10) ∧
      ¬ DecodesWithin (plainHeader 21) 0 21 (decodeIpPkt (plainIp 0) (plainHeader 21) 0 21) := by
  constructor
  · intro h
    have hfits := h.accepted (by decide)
    exact absurd hfits.left (by decide)
  · intro h
    have hkept := h.rejected (by decide)
    exact absurd hkept (by decide)

end Ofpagent.Util
