/-
# Decoding undoes encoding

The bytes `ENCODE_IP_PKT`, `ENCODE_UDP_PKT` and the payload leave behind each other in a memory are
accepted by `DECODE_IP_PKT` and `DECODE_UDP_PKT`, which return the packets they were made of
(`decode_encode`).  The two sides do not compute alike: the flags and the fragment offset are one
word for the encoder and a byte and a word for the decoder, the options are copied by one and
pointed at by the other, and the sums run over different memories.  What carries the argument is
that both checksums are functions of the packet's contents (`IpPkt.Same.chksumIpHdr`,
`chksumUdp_congr`).
-/
import Ofpagent.Util.IpCodec

namespace Ofpagent.Util

open Ofpagent.Lib

variable {m : Mem} {off : ℕ}

/-! ## 1. Words in a memory -/

@[simp] theorem encodeU16_length (val : UInt16) : (encodeU16 val).length = 2 := beBytes_length 2 _

theorem decodeU16_of_holds {val : UInt16} (h : m.Holds off (encodeU16 val)) :
    decodeU16 m off = val := by
  have hval : beNat (m.read off 2) = val.toNat := Mem.Holds.beNat_read h val.toNat_lt
  rw [decodeU16, ← beNat, hval]
  exact UInt16.ofNat_toNat

/-- The byte that comes first. -/
theorem high_of_holds {val : UInt16} (h : m.Holds off (encodeU16 val)) :
    (m off).toNat = val.toNat / 256 := by
  have hlt := val.toNat_lt
  have hbytes : encodeU16 val = [UInt8.ofNat (val.toNat / 256), UInt8.ofNat val.toNat] := rfl
  rw [hbytes, Mem.holds_cons] at h
  rw [h.1, UInt8.toNat_ofNat']
  omega

theorem ipAddrAt_of_holds {v : Vector UInt8 4} (h : m.Holds off v.toList) : ipAddrAt m off = v := by
  apply Vector.toList_inj.mp
  rw [← h.read_eq v.length_toList]
  rfl

/-! ## 2. The same packet -/

/-- Two packets with the same contents; `opt_pad` may point elsewhere, to the same options. -/
structure IpPkt.Same (a b : IpPkt) : Prop where
  ver : a.ver = b.ver
  ihl : a.ihl = b.ihl
  tos : a.tos = b.tos
  totalLen : a.totalLen = b.totalLen
  id : a.id = b.id
  flag : a.flag = b.flag
  fragOff : a.fragOff = b.fragOff
  ttl : a.ttl = b.ttl
  proto : a.proto = b.proto
  headChksum : a.headChksum = b.headChksum
  cSA : a.cSA = b.cSA
  cDA : a.cDA = b.cDA
  optBytes : a.optBytes = b.optBytes

/-- The words of these bytes, two by two. -/
def wordsOf : List UInt8 → List UInt16
  | hi :: lo :: l => be16 hi lo :: wordsOf l
  | _ => []

/-- A sum over pairs of bytes in a memory is a sum over the words of what stands there. -/
theorem wordsOf_read (m : Mem) (off n : ℕ) :
    wordsOf (m.read off (2 * n)) =
      (List.range n).map fun i => be16 (m (off + 2 * i)) (m (off + 2 * i + 1)) := by
  induction n generalizing off with
  | zero => rfl
  | succ n ih =>
    have htail : ∀ i, off + 2 * (i + 1) = off + 1 + 1 + 2 * i := by
      intro i
      omega
    rw [Nat.mul_succ, Mem.read_succ, Mem.read_succ, wordsOf, ih, List.range_succ_eq_map,
      List.map_cons, List.map_map]
    simp only [Function.comp_def, Nat.succ_eq_add_one, htail, Nat.mul_zero, Nat.add_zero]

theorem IpPkt.optWords_eq (ip : IpPkt) : ip.optWords = wordsOf ip.optBytes := by
  unfold optWords optBytes
  cases ip.optPad with
  | none => rfl
  | some opt =>
    have h4 : (ip.ihl.toNat - 5) * 4 = 2 * ((ip.ihl.toNat - 5) * 2) := by omega
    rw [h4, wordsOf_read]
    simp

theorem IpPkt.Same.addrWords {a b : IpPkt} (h : a.Same b) : a.addrWords = b.addrWords := by
  rw [IpPkt.addrWords, IpPkt.addrWords, h.cSA, h.cDA]

/-- The checksum of the header is a function of its contents. -/
theorem IpPkt.Same.chksumIpHdr {a b : IpPkt} (h : a.Same b) :
    chksumIpHdr a = chksumIpHdr b := by
  have hverIhl : a.verIhl = b.verIhl := by rw [IpPkt.verIhl, IpPkt.verIhl, h.ver, h.ihl]
  have hflag : a.flagFrag = b.flagFrag := by rw [IpPkt.flagFrag, IpPkt.flagFrag, h.flag, h.fragOff]
  rw [Util.chksumIpHdr, Util.chksumIpHdr, hverIhl, hflag, h.tos, h.totalLen, h.id, h.ttl, h.proto,
    h.addrWords, a.optWords_eq, b.optWords_eq, h.optBytes]

/-! ## 3. The IP header -/

/-- The header of `ip` stands at `off`. -/
structure IpHeaderAt (m : Mem) (off : ℕ) (ip : IpPkt) : Prop where
  verIhl : m off = ip.verIhl
  tos : m (off + 1) = ip.tos
  totalLen : m.Holds (off + 2) (encodeU16 ip.totalLen)
  id : m.Holds (off + 4) (encodeU16 ip.id)
  flagFrag : m.Holds (off + 6) (encodeU16 ip.flagFrag)
  ttl : m (off + 8) = ip.ttl
  proto : m (off + 9) = ip.proto
  headChksum : m.Holds (off + 10) (encodeU16 ip.headChksum)
  cSA : m.Holds (off + 12) ip.cSA.toList
  cDA : m.Holds (off + 16) ip.cDA.toList
  optBytes : m.Holds (off + 20) ip.optBytes

theorem ipHeaderAt_of_holds {ip : IpPkt} (h : m.Holds off (encodeIpPkt ip).2) :
    IpHeaderAt m off (encodeIpPkt ip).1 := by
  simp only [encodeIpPkt, Mem.holds_append, Mem.holds_cons, Mem.holds_nil, and_true,
    List.length_append, List.length_cons, List.length_nil, encodeU16_length, Vector.length_toList,
    Nat.add_assoc, Nat.reduceAdd] at h
  obtain ⟨⟨⟨⟨⟨⟨⟨⟨⟨hverIhl, htos⟩, htotal⟩, hid⟩, hflag⟩, httl, hproto⟩, hchk⟩, hsa⟩, hda⟩, hopt⟩ := h
  exact ⟨hverIhl, htos, htotal, hid, hflag, httl, hproto, hchk, hsa, hda, hopt⟩

/-- The length of an encoded header. -/
theorem encodeIpPkt_length_eq {ip : IpPkt} (hihl : 5 ≤ ip.ihl.toNat)
    (hopt : 5 < ip.ihl.toNat → ip.optPad.isSome) : (encodeIpPkt ip).2.length = ip.ihl.toNat * 4 := by
  have hlen : ip.optBytes.length = (ip.ihl.toNat - 5) * 4 := by
    unfold IpPkt.optBytes
    cases hp : ip.optPad with
    | none =>
      have hnot : ¬ 5 < ip.ihl.toNat := fun h5 => by simpa [hp] using hopt h5
      rw [List.length_nil]
      omega
    | some opt => exact Mem.read_length _ _ _
  simp only [encodeIpPkt, List.length_append, List.length_cons, List.length_nil, encodeU16_length,
    Vector.length_toList, hlen]
  omega

theorem IpPkt.verIhl_toNat (ip : IpPkt) : ip.verIhl.toNat = ip.ver.toNat * 16 + ip.ihl.toNat := by
  have hver := ip.ver.isLt
  have hihl := ip.ihl.isLt
  rw [IpPkt.verIhl, UInt8.toNat_ofNat']
  omega

theorem IpPkt.flagFrag_toNat (ip : IpPkt) :
    ip.flagFrag.toNat = ip.flag.toNat * 8192 + ip.fragOff.toNat := by
  have hflag := ip.flag.isLt
  have hfrag := ip.fragOff.isLt
  rw [IpPkt.flagFrag, UInt16.toNat_ofNat']
  omega

/-- A bit-field is what its bits are. -/
theorem bitVec_ofNat_eq {w n : ℕ} {x : BitVec w} (h : n % 2 ^ w = x.toNat) : BitVec.ofNat w n = x := by
  apply BitVec.eq_of_toNat_eq
  rw [BitVec.toNat_ofNat, h]

/-- The decoder reads the packet whose header stands there. -/
theorem IpHeaderAt.same {ip ip0 : IpPkt} (h : IpHeaderAt m off ip)
    (hopt : 5 < ip.ihl.toNat → ip.optPad.isSome) (hihl : 5 ≤ ip.ihl.toNat) :
    (fillIpPkt { ip0 with ver := ip.ver, ihl := ip.ihl } m off).Same ip := by
  have hflag : BitVec.ofNat 3 ((m (off + 6)).toNat / 32) = ip.flag := by
    have hhigh := high_of_holds h.flagFrag
    have hbits := ip.flagFrag_toNat
    have hlt := ip.flag.isLt
    have hfrag := ip.fragOff.isLt
    apply bitVec_ofNat_eq
    omega
  have hfragOff : BitVec.ofNat 13 (decodeU16 m (off + 6)).toNat = ip.fragOff := by
    have hlt := ip.fragOff.isLt
    apply bitVec_ofNat_eq
    rw [decodeU16_of_holds h.flagFrag, ip.flagFrag_toNat]
    omega
  refine ⟨rfl, rfl, h.tos, decodeU16_of_holds h.totalLen, decodeU16_of_holds h.id, hflag, hfragOff,
    h.ttl, h.proto, decodeU16_of_holds h.headChksum, ipAddrAt_of_holds h.cSA,
    ipAddrAt_of_holds h.cDA, ?_⟩
  -- the options: none at five words, else what stands behind the 20 bytes
  have hbytes := h.optBytes
  by_cases h5 : ip.ihl = 5
  · have hzero : ip.optBytes = [] := by
      unfold IpPkt.optBytes
      cases ip.optPad with
      | none => rfl
      | some opt => simp [h5, Mem.read]
    have hpad : (fillIpPkt { ip0 with ver := ip.ver, ihl := ip.ihl } m off).optPad = none := if_pos h5
    rw [hzero, IpPkt.optBytes, hpad]
  · have hgt : 5 < ip.ihl.toNat := by
      have hne : ip.ihl.toNat ≠ 5 := fun e => h5 (BitVec.eq_of_toNat_eq e)
      omega
    obtain ⟨opt, hp⟩ := Option.isSome_iff_exists.mp (hopt hgt)
    have hlen : ip.optBytes.length = (ip.ihl.toNat - 5) * 4 := by simp [IpPkt.optBytes, hp]
    rw [Mem.Holds, hlen] at hbytes
    have hpad : (fillIpPkt { ip0 with ver := ip.ver, ihl := ip.ihl } m off).optPad
        = some fun i => m (off + 20 + i) := if_neg h5
    rw [← hbytes, IpPkt.optBytes, hpad]
    simp [fillIpPkt, Mem.read]

/-- **`DECODE_IP_PKT`** accepts an encoded header, whatever its structure held. -/
theorem decodeIpPkt_of_holds {ip : IpPkt} (h : m.Holds off (encodeIpPkt ip).2) (hver : ip.ver = 4)
    (hihl : 5 ≤ ip.ihl.toNat) (hopt : 5 < ip.ihl.toNat → ip.optPad.isSome) (ip0 : IpPkt)
    (len : UInt16) :
    (decodeIpPkt ip0 m off len).status = 1 ∧
      (decodeIpPkt ip0 m off len).ip.Same (encodeIpPkt ip).1 ∧
      (decodeIpPkt ip0 m off len).data = some (off + ip.ihl.toNat * 4) ∧
      (decodeIpPkt ip0 m off len).len = len - UInt16.ofNat (ip.ihl.toNat * 4) := by
  have hat := ipHeaderAt_of_holds h
  have hsame : (fillIpPkt { ip0 with ver := ip.ver, ihl := ip.ihl } m off).Same (encodeIpPkt ip).1 :=
    hat.same hopt hihl
  have hlt := ip.ihl.isLt
  have hbyte : (m off).toNat = ip.ver.toNat * 16 + ip.ihl.toNat := by
    rw [hat.verIhl]
    exact ip.verIhl_toNat
  have hver' : BitVec.ofNat 4 ((m off).toNat / 16) = ip.ver := by
    have hv := ip.ver.isLt
    apply bitVec_ofNat_eq
    omega
  have hihl' : BitVec.ofNat 4 (m off).toNat = ip.ihl := by
    apply bitVec_ofNat_eq
    omega
  have hchk : chksumIpHdr (fillIpPkt { ip0 with ver := ip.ver, ihl := ip.ihl } m off)
      = (fillIpPkt { ip0 with ver := ip.ver, ihl := ip.ihl } m off).headChksum := by
    rw [hsame.chksumIpHdr, hsame.headChksum]
    rfl
  have hrun : decodeIpPkt ip0 m off len
      = ⟨1, fillIpPkt { ip0 with ver := ip.ver, ihl := ip.ihl } m off,
          some (off + ip.ihl.toNat * 4), len - UInt16.ofNat (ip.ihl.toNat * 4)⟩ := by
    simp only [decodeIpPkt, hver', hihl']
    rw [if_neg (by simpa using hver), if_neg (by simpa using hchk)]
    rfl
  rw [hrun]
  exact ⟨rfl, hsame, rfl, rfl⟩

/-! ## 4. The UDP header and the payload -/

/-- A payload as the checksum adds it up: an odd one is padded with a zero byte. -/
def padded (payload : List UInt8) : List UInt8 :=
  if payload.length % 2 = 1 then payload ++ [0] else payload

/-- The sum of `CHKSUM_UDP` is over the addresses, the header and the padded payload. -/
theorem chksumUdp_eq (ip : IpPkt) (udp : UdpPkt) (mem : Mem) {n : ℕ}
    (h : udp.len.toNat = 8 + n) :
    (chksumUdp ip udp mem).1 = checkSum (sumWords (ip.addrWords ++
      [protoTypeUdp.toUInt16, udp.len, udp.src, udp.dst, udp.len] ++
      wordsOf (padded (mem.read udp.data n)))) := by
  have hn : (udp.len.toNat : ℤ) - 8 = n := by omega
  rcases Nat.mod_two_eq_zero_or_one n with heven | hodd
  · have hmod : ¬ (n : ℤ) % 2 = 1 := by omega
    have hhalf : ((n : ℤ) / 2).toNat = n / 2 := by omega
    have hdouble : 2 * (n / 2) = n := by omega
    have hread := wordsOf_read mem udp.data (n / 2)
    rw [hdouble] at hread
    simp only [chksumUdp, hn, if_neg hmod, hhalf, padded, Mem.read_length, heven, zero_ne_one,
      if_false, hread]
  · have hmod : (n : ℤ) % 2 = 1 := by omega
    have hhalf : (((n : ℤ) + 1) / 2).toNat = n / 2 + 1 := by omega
    have hoff : ((udp.data : ℤ) + n).toNat = udp.data + n := by omega
    have hdouble : 2 * (n / 2 + 1) = n + 1 := by omega
    have hread := wordsOf_read (mem.write (udp.data + n) [0]) udp.data (n / 2 + 1)
    have hzero : (mem.write (udp.data + n) [0]).read (udp.data + n) 1 = [0] :=
      Mem.read_write_self mem (udp.data + n) [0]
    rw [hdouble, Mem.read_add, hzero, Mem.read_write_of_disjoint (Or.inl le_rfl)] at hread
    simp only [chksumUdp, hn, if_pos hmod, hhalf, hoff, padded, Mem.read_length, hodd, if_true,
      hread]

/-- It writes behind the payload only. -/
theorem chksumUdp_mem_read (ip : IpPkt) (udp : UdpPkt) (mem : Mem) {n : ℕ}
    (h : udp.len.toNat = 8 + n) :
    (chksumUdp ip udp mem).2.read udp.data n = mem.read udp.data n := by
  have hn : (udp.len.toNat : ℤ) - 8 = n := by omega
  have hoff : ((udp.data : ℤ) + n).toNat = udp.data + n := by omega
  simp only [chksumUdp, hn, hoff]
  split
  · exact Mem.read_write_of_disjoint (Or.inl le_rfl)
  · rfl

/-- The checksum of a datagram is a function of the addresses, the header and the payload. -/
theorem chksumUdp_congr {a b : IpPkt} {udp udp' : UdpPkt} {mem mem' : Mem} {n : ℕ}
    (h : udp.len.toNat = 8 + n) (haddr : a.addrWords = b.addrWords) (hlen : udp'.len = udp.len)
    (hsrc : udp'.src = udp.src) (hdst : udp'.dst = udp.dst)
    (hread : mem'.read udp'.data n = mem.read udp.data n) :
    (chksumUdp a udp' mem').1 = (chksumUdp b udp mem).1 := by
  rw [chksumUdp_eq a udp' mem' (hlen ▸ h), chksumUdp_eq b udp mem h, haddr, hlen, hsrc, hdst, hread]

/-- The two decoders have accepted, and returned these packets and this payload. -/
structure Accepted (d : IpDecoded) (u : UdpDecoded) (ip : IpPkt) (udp : UdpPkt)
    (payload : List UInt8) : Prop where
  ipStatus : d.status = 1
  ip : d.ip.Same ip
  udpStatus : u.status = 0
  src : u.udp.src = udp.src
  dst : u.udp.dst = udp.dst
  len : u.udp.len = udp.len
  chksum : u.udp.chksum = udp.chksum
  read : u.mem.read u.udp.data payload.length = payload
  dataLen : u.dataLen.toNat = payload.length

/-- **`DECODE_UDP_PKT`** accepts an encoded header with its payload behind it. -/
theorem decodeUdpPkt_of_holds {a b : IpPkt} {udp : UdpPkt} {mem : Mem} {n : ℕ}
    (hlen : udp.len.toNat = 8 + n) (hsame : a.Same b)
    (htotal : b.totalLen.toNat = b.ihl.toNat * 4 + udp.len.toNat)
    (h : m.Holds off (encodeUdpPkt b udp mem).2.1)
    (hread : m.read (off + 8) n = mem.read udp.data n) (udp0 : UdpPkt) :
    ∃ u, decodeUdpPkt udp0 a off m udp.len = u ∧ u.status = 0 ∧
      u.udp = { (encodeUdpPkt b udp mem).1 with data := off + 8 } ∧
      u.mem.read (off + 8) n = mem.read udp.data n ∧ u.dataLen.toNat = n := by
  simp only [encodeUdpPkt, Mem.holds_append, List.length_append, encodeU16_length,
    Nat.reduceAdd] at h
  obtain ⟨⟨⟨hsrc, hdst⟩, hlen'⟩, hchk⟩ := h
  set u2 : UdpPkt := ⟨udp.src, udp.dst, udp.len, (chksumUdp b udp mem).1, off + 8⟩ with hu2
  have hsum : (chksumUdp a u2 m).1 = (chksumUdp b udp mem).1 :=
    chksumUdp_congr hlen hsame.addrWords rfl rfl rfl hread
  have hleft : (udp.len - 8).toNat = n := by
    rw [UInt16.toNat_sub_of_le _ _ (UInt16.le_iff_toNat_le.mpr (by simp; omega))]
    simp
    omega
  have hfit : ¬ (udp.len.toNat : ℤ) ≠ a.totalLen.toNat - a.ihl.toNat * 4 := by
    rw [hsame.totalLen, hsame.ihl]
    omega
  have hrun : decodeUdpPkt udp0 a off m udp.len
      = if u2.chksum = 0 then ⟨0, u2, udp.len - 8, m⟩
        else ⟨0, u2, udp.len - 8, (chksumUdp a u2 m).2⟩ := by
    simp only [decodeUdpPkt, decodeU16_of_holds hsrc, decodeU16_of_holds hdst,
      decodeU16_of_holds hlen', decodeU16_of_holds hchk, if_neg hfit, ← hu2]
    have hnot : ¬ (chksumUdp a u2 m).1 ≠ u2.chksum := not_not.mpr hsum
    rw [if_neg hnot]
  refine ⟨_, rfl, ?_⟩
  rw [hrun]
  split
  · exact ⟨rfl, rfl, hread, hleft⟩
  · exact ⟨rfl, rfl, (chksumUdp_mem_read a u2 m hlen).trans hread, hleft⟩

/-! ## 5. The round trip -/

/-- **Decoding undoes encoding**, wherever the bytes came from. -/
theorem accepted_of_holds {ip : IpPkt} {udp : UdpPkt} {mem : Mem} {n : ℕ} (hver : ip.ver = 4)
    (hihl : 5 ≤ ip.ihl.toNat) (hopt : 5 < ip.ihl.toNat → ip.optPad.isSome)
    (hlen : udp.len.toNat = 8 + n)
    (htotal : ip.totalLen.toNat = ip.ihl.toNat * 4 + udp.len.toNat)
    (h : m.Holds off ((encodeIpPkt ip).2 ++ (encodeUdpPkt (encodeIpPkt ip).1 udp mem).2.1 ++
      mem.read udp.data n)) (ip0 : IpPkt) (udp0 : UdpPkt) :
    ∃ data, (decodeIpPkt ip0 m off ip.totalLen).data = some data ∧
      Accepted (decodeIpPkt ip0 m off ip.totalLen)
        (decodeUdpPkt udp0 (decodeIpPkt ip0 m off ip.totalLen).ip data m
          (decodeIpPkt ip0 m off ip.totalLen).len)
        (encodeIpPkt ip).1 (encodeUdpPkt (encodeIpPkt ip).1 udp mem).1 (mem.read udp.data n) := by
  obtain ⟨hhead, hpayload⟩ := Mem.holds_append.mp h
  obtain ⟨hip, hudp⟩ := Mem.holds_append.mp hhead
  have hiplen := encodeIpPkt_length_eq hihl hopt
  rw [hiplen] at hudp
  rw [List.length_append, hiplen, encodeUdpPkt_length, Mem.Holds, Mem.read_length,
    ← Nat.add_assoc] at hpayload
  obtain ⟨hstatus, hsame, hdata, hleft⟩ :=
    decodeIpPkt_of_holds hip hver hihl hopt ip0 ip.totalLen
  have hrest : (decodeIpPkt ip0 m off ip.totalLen).len = udp.len := by
    rw [hleft]
    apply UInt16.toNat_inj.mp
    have hlt := ip.ihl.isLt
    have hconv : (UInt16.ofNat (ip.ihl.toNat * 4)).toNat = ip.ihl.toNat * 4 :=
      UInt16.toNat_ofNat_of_lt' (by simp only [UInt16.size]; omega)
    rw [UInt16.toNat_sub_of_le _ _ (UInt16.le_iff_toNat_le.mpr (by omega)), hconv]
    omega
  refine ⟨off + ip.ihl.toNat * 4, hdata, ?_⟩
  rw [hrest]
  obtain ⟨u, hu, hustatus, hupkt, hread, hn⟩ :=
    decodeUdpPkt_of_holds hlen hsame htotal hudp hpayload udp0
  rw [hu]
  refine ⟨hstatus, hsame, hustatus, by rw [hupkt], by rw [hupkt], by rw [hupkt],
    by rw [hupkt], ?_, ?_⟩
  · rw [hupkt, Mem.read_length]
    exact hread
  · rw [Mem.read_length]
    exact hn

/-- **Decoding undoes encoding.**  The header, the UDP header and then the payload are written to
`off` in any memory, the payload from where the checksum may have padded it; the decoders start
with structures of any contents, and `*len` is the total length. -/
theorem decode_encode {ip : IpPkt} {udp : UdpPkt} {mem : Mem} {n : ℕ} (hver : ip.ver = 4)
    (hihl : 5 ≤ ip.ihl.toNat) (hopt : 5 < ip.ihl.toNat → ip.optPad.isSome)
    (hlen : udp.len.toNat = 8 + n)
    (htotal : ip.totalLen.toNat = ip.ihl.toNat * 4 + udp.len.toNat)
    (m : Mem) (off : ℕ) (ip0 : IpPkt) (udp0 : UdpPkt) :
    let e := encodeIpPkt ip
    let u := encodeUdpPkt e.1 udp mem
    let buf := m.write off (e.2 ++ u.2.1 ++ u.2.2.read udp.data n)
    let d := decodeIpPkt ip0 buf off ip.totalLen
    ∃ data, d.data = some data ∧
      Accepted d (decodeUdpPkt udp0 d.ip data buf d.len) e.1 u.1 (mem.read udp.data n) := by
  intro e u buf d
  have hpayload : u.2.2.read udp.data n = mem.read udp.data n := chksumUdp_mem_read e.1 udp mem hlen
  have hbuf : buf.Holds off (e.2 ++ u.2.1 ++ mem.read udp.data n) := by
    rw [← hpayload]
    exact Mem.holds_write m off _
  exact accepted_of_holds hver hihl hopt hlen htotal hbuf ip0 udp0

/-- A header with one word of options, and three bytes of payload. -/
theorem decode_encode_options : ∃ ip udp mem, ip.ihl = 6 ∧ udp.len = 11 ∧
    let e := encodeIpPkt ip
    let u := encodeUdpPkt e.1 udp mem
    let buf := Mem.write (fun _ => 0) 0 (e.2 ++ u.2.1 ++ u.2.2.read udp.data 3)
    let d := decodeIpPkt ip buf 0 ip.totalLen
    ∃ data, d.data = some data ∧
      Accepted d (decodeUdpPkt udp d.ip data buf d.len) e.1 u.1 (mem.read udp.data 3) :=
  ⟨⟨4, 6, 0, 35, 1, 2, 7, 64, 17, 0, Vector.replicate 4 10, Vector.replicate 4 11, some fun _ => 1⟩,
    ⟨6655, 8000, 11, 0, 0⟩, fun i => UInt8.ofNat i, rfl, rfl,
    decode_encode rfl (by decide) (fun _ => rfl) rfl rfl _ _ _ _⟩

end Ofpagent.Util
