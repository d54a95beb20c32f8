/-
# What `DECODE_UDP_PKT` accepts, and what it writes

The length field is compared with what the IP header leaves, and never with the 8 bytes of a header:
a datagram of less is accepted when the IP header says so, and `*data_len` is lowered all the same.
The checksum of an odd payload writes its padding into the input (`chksumUdp_mem`), whether the
datagram is accepted or not.  `decodeUdpPkt_sound` says for which datagrams nothing of that shows.
-/
import Ofpagent.Util.Header

namespace Ofpagent.Util

open Ofpagent.Lib

variable {ip : IpPkt} {m : Mem} {data : ℕ}

/-- The UDP header at `data`, and its payload behind it. -/
def udpAt (m : Mem) (data : ℕ) : UdpPkt :=
  ⟨decodeU16 m data, decodeU16 m (data + 2), decodeU16 m (data + 4), decodeU16 m (data + 6), data + 8⟩

/-- The checksum field is the complement of what the sum folds to. -/
def UdpVerifies (ip : IpPkt) (m : Mem) (data : ℕ) : Prop :=
  ~~~UInt16.ofNat (endAround 65536 (wordSum (checksummed ip (udpAt m data) m) % 2 ^ 24)) =
    decodeU16 m (data + 6)

instance (ip : IpPkt) (m : Mem) (data : ℕ) : Decidable (UdpVerifies ip m data) :=
  inferInstanceAs (Decidable (_ = _))

/-- What `DECODE_UDP_PKT` does, from the bytes. -/
theorem decodeUdpPkt_eq (udp : UdpPkt) (ip : IpPkt) (data : ℕ) (m : Mem) (dataLen : UInt16) :
    decodeUdpPkt udp ip data m dataLen =
      if ((decodeU16 m (data + 4)).toNat : ℤ) ≠ ip.totalLen.toNat - ip.ihl.toNat * 4 then
        ⟨-1, { udpAt m data with chksum := udp.chksum, data := udp.data }, dataLen, m⟩
      else if decodeU16 m (data + 6) = 0 then ⟨0, udpAt m data, dataLen - 8, m⟩
      else if UdpVerifies ip m data then
        ⟨0, udpAt m data, dataLen - 8, (chksumUdp ip (udpAt m data) m).2⟩
      else ⟨-1, udpAt m data, dataLen, (chksumUdp ip (udpAt m data) m).2⟩ := by
  have hfold := chksumUdp_fold ip (udpAt m data) m
  have hiff : UdpVerifies ip m data ↔
      (chksumUdp ip (udpAt m data) m).1 = decodeU16 m (data + 6) := by rw [UdpVerifies, hfold]
  simp only [hiff, decodeUdpPkt, udpAt, ne_eq, ite_not]

/-- The zero behind an odd payload. -/
theorem chksumUdp_mem (ip : IpPkt) (m : Mem) (data : ℕ) :
    (chksumUdp ip (udpAt m data) m).2 =
      if (decodeU16 m (data + 4)).toNat % 2 = 1 then
        m.write (data + (decodeU16 m (data + 4)).toNat) [0]
      else m := by
  have hodd : ((decodeU16 m (data + 4)).toNat - 8 : ℤ) % 2 = 1 ↔
      (decodeU16 m (data + 4)).toNat % 2 = 1 := by omega
  have hoff : (((data + 8 : ℕ) : ℤ) + ((decodeU16 m (data + 4)).toNat - 8)).toNat =
      data + (decodeU16 m (data + 4)).toNat := by omega
  simp only [chksumUdp, udpAt, hodd, hoff]

theorem chksumUdp_mem_eq_self : (chksumUdp ip (udpAt m data) m).2 = m ↔
    ((decodeU16 m (data + 4)).toNat % 2 = 1 → m (data + (decodeU16 m (data + 4)).toNat) = 0) := by
  rw [chksumUdp_mem]
  split_ifs with hodd
  · rw [Mem.write_singleton_eq_self, forall_prop_of_true hodd]
  · exact iff_of_true rfl fun h => absurd h hodd

/-- What the decoder is for: a datagram has a header, `*data_len` becomes the payload's, and the input
is only read. -/
structure DatagramDecoded (m : Mem) (dataLen : UInt16) (d : UdpDecoded) : Prop where
  short : d.udp.len.toNat < 8 → d.status = -1
  lowered : d.status = 0 → d.dataLen.toNat + 8 = dataLen.toNat
  kept : d.status = -1 → d.dataLen = dataLen
  mem : d.mem = m

/-- The lengths that let a datagram be accepted, and the byte that lets its padding not be seen. -/
structure NothingShows (ip : IpPkt) (m : Mem) (data : ℕ) (dataLen : UInt16) : Prop where
  lengths : decodeU16 m (data + 6) = 0 ∨ UdpVerifies ip m data →
    8 ≤ (decodeU16 m (data + 4)).toNat ∧ 8 ≤ dataLen.toNat
  padding : decodeU16 m (data + 6) ≠ 0 → (decodeU16 m (data + 4)).toNat % 2 = 1 →
    m (data + (decodeU16 m (data + 4)).toNat) = 0

theorem sub_eight_toNat {x : UInt16} : (x - 8).toNat + 8 = x.toNat ↔ 8 ≤ x.toNat := by
  constructor
  · intro h
    omega
  · exact sub_ofNat_toNat

theorem datagramDecoded_accepted {udp : UdpPkt} {dataLen : UInt16} {m' : Mem} :
    DatagramDecoded m dataLen ⟨0, udp, dataLen - 8, m'⟩ ↔
      (8 ≤ udp.len.toNat ∧ 8 ≤ dataLen.toNat) ∧ m' = m := by
  have hne : (0 : ℤ) ≠ -1 := by decide
  constructor
  · rintro ⟨hshort, hlow, -, hmem⟩
    exact ⟨⟨not_lt.mp fun h => hne (hshort h), sub_eight_toNat.mp (hlow rfl)⟩, hmem⟩
  · rintro ⟨⟨hlen, hdata⟩, hmem⟩
    exact ⟨fun h => absurd hlen (not_le.mpr h), fun _ => sub_eight_toNat.mpr hdata,
      fun h => absurd h hne, hmem⟩

theorem datagramDecoded_rejected {udp : UdpPkt} {dataLen : UInt16} {m' : Mem} :
    DatagramDecoded m dataLen ⟨-1, udp, dataLen, m'⟩ ↔ m' = m := by
  have hne : (-1 : ℤ) ≠ 0 := by decide
  exact ⟨fun h => h.mem, fun h => ⟨fun _ => rfl, fun h0 => absurd h0 hne, fun _ => rfl, h⟩⟩

/-- **`DECODE_UDP_PKT`** takes a datagram of at least 8 bytes and leaves the input alone, unless the
length field agrees with a short IP packet or there is a checksum over an odd length. -/
theorem decodeUdpPkt_sound (ip : IpPkt) (m : Mem) (data : ℕ) (udp : UdpPkt) (dataLen : UInt16) :
    DatagramDecoded m dataLen (decodeUdpPkt udp ip data m dataLen) ↔
      (((decodeU16 m (data + 4)).toNat : ℤ) = ip.totalLen.toNat - ip.ihl.toNat * 4 →
        NothingShows ip m data dataLen) := by
  have hlen : (udpAt m data).len = decodeU16 m (data + 4) := rfl
  rw [decodeUdpPkt_eq]
  split_ifs with hfit hzero hv
  · rw [datagramDecoded_rejected]
    exact iff_of_true rfl fun h => absurd h hfit
  · rw [datagramDecoded_accepted, hlen, and_iff_left rfl, forall_prop_of_true (not_not.mp hfit)]
    exact ⟨fun h => ⟨fun _ => h, fun hne => absurd hzero hne⟩, fun h => h.lengths (.inl hzero)⟩
  · rw [datagramDecoded_accepted, hlen, chksumUdp_mem_eq_self, forall_prop_of_true (not_not.mp hfit)]
    exact ⟨fun h => ⟨fun _ => h.1, fun _ => h.2⟩, fun h => ⟨h.lengths (.inr hv), h.padding hzero⟩⟩
  · rw [datagramDecoded_rejected, chksumUdp_mem_eq_self, forall_prop_of_true (not_not.mp hfit)]
    exact ⟨fun h => ⟨fun hor => (hor.elim hzero hv).elim, fun _ => h⟩, fun h => h.padding hzero⟩

/-- An IP packet with four bytes for the datagram, and one with nine and a checksum, each with a right
header. -/
def fourBytes : Mem := fun i =>
  [0x45, 0, 0, 24, 0, 0, 0, 0, 0x40, 0x11, 0x7a, 0xd6, 0, 0, 0, 0, 0, 0, 0, 0,
    0, 0, 0, 0, 0, 4, 0, 0].getD i 0
def nineBytes : Mem := fun i =>
  [0x45, 0, 0, 29, 0, 0, 0, 0, 0x40, 0x11, 0x7a, 0xd1, 0, 0, 0, 0, 0, 0, 0, 0,
    0, 0, 0, 0, 0, 9, 0, 1].getD i 7

/-- **The four bytes are accepted**, and the nine are rejected with a zero written behind them. -/
theorem decodeUdpPkt_unsound :
    ((decodeIpPkt (plainIp 0) fourBytes 0 24).status = 1 ∧
      ¬ DatagramDecoded fourBytes 4 (decodeUdpPkt (plainUdp 0 0 0)
        (decodeIpPkt (plainIp 0) fourBytes 0 24).ip 20 fourBytes 4)) ∧
    ((decodeIpPkt (plainIp 0) nineBytes 0 29).status = 1 ∧
      ¬ DatagramDecoded nineBytes 9 (decodeUdpPkt (plainUdp 0 0 0)
        (decodeIpPkt (plainIp 0) nineBytes 0 29).ip 20 nineBytes 9)) := by
  refine ⟨⟨by decide, fun h => ?_⟩, ⟨by decide, fun h => ?_⟩⟩
  · have hshort := h.short (by decide)
    exact absurd hshort (by decide)
  · have hbyte := congrFun h.mem 29
    exact absurd hbyte (by decide)

end Ofpagent.Util
