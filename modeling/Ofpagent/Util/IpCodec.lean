/-
# `lib/com_util`: the codec of an IP header and of a UDP header

`ENCODE_IP_PKT` and `ENCODE_UDP_PKT` of `ip_codec.c` with the checksums they store, and
`DECODE_IP_PKT` and `DECODE_UDP_PKT` with the checksums they compare.  Where the source writes to
a cursor and returns the advanced cursor, the encoders here return the bytes written; the decoders
read a memory from an offset.  A pointer field is a memory and an offset into it: the UDP checksum
of an odd payload writes a byte behind it, and the memory is returned with that byte.
-/
import Ofpagent.Lib.Bytes

namespace Ofpagent.Util

open Ofpagent.Lib

/-! ## 1. Words and sums -/

/-- `(U16)(hi<<8 | lo)`. -/
def be16 (hi lo : UInt8) : UInt16 := hi.toUInt16 <<< 8 ||| lo.toUInt16

/-- `ENCODE_U16`. -/
def encodeU16 (val : UInt16) : List UInt8 := beBytes 2 val.toNat

/-- `CHECK_SUM`.  The carry is a `U8`, and it is added twice. -/
def checkSum (sum : UInt32) : UInt16 :=
  let carry := (sum >>> 16).toUInt8
  let value := sum &&& 0xffff
  let sum1 := carry.toUInt32 + value
  let carry1 := (sum1 >>> 16).toUInt8
  ~~~(sum1 + carry1.toUInt32).toUInt16

/-- The sum of these words as a `U32`. -/
def sumWords (l : List UInt16) : UInt32 := (l.map UInt16.toUInt32).sum

/-! ## 2. The IP header -/

/-- `tIP_PKT`, less its `data`.  `optPad` is the memory `opt_pad` points to. -/
structure IpPkt where
  ver : BitVec 4
  ihl : BitVec 4
  tos : UInt8
  totalLen : UInt16
  id : UInt16
  flag : BitVec 3
  fragOff : BitVec 13
  ttl : UInt8
  proto : UInt8
  headChksum : UInt16
  cSA : Vector UInt8 4
  cDA : Vector UInt8 4
  optPad : Option Mem

/-- The byte of `ver_ihl` and the word of `flag_frag`. -/
def IpPkt.verIhl (ip : IpPkt) : UInt8 := UInt8.ofNat (ip.ver.toNat * 16 + ip.ihl.toNat)
def IpPkt.flagFrag (ip : IpPkt) : UInt16 := UInt16.ofNat (ip.flag.toNat * 8192 + ip.fragOff.toNat)

/-- The four words of the two addresses, as both checksums add them. -/
def IpPkt.addrWords (ip : IpPkt) : List UInt16 :=
  [be16 ip.cSA[0] ip.cSA[1], be16 ip.cSA[2] ip.cSA[3],
    be16 ip.cDA[0] ip.cDA[1], be16 ip.cDA[2] ip.cDA[3]]

/-- The words of the options, `(IHL-5)*2` of them. -/
def IpPkt.optWords (ip : IpPkt) : List UInt16 :=
  match ip.optPad with
  | none => []
  | some opt => (List.range ((ip.ihl.toNat - 5) * 2)).map fun i => be16 (opt (2 * i)) (opt (2 * i + 1))

/-- `CHKSUM_IP_HDR`. -/
def chksumIpHdr (ip : IpPkt) : UInt16 :=
  checkSum (sumWords ([be16 ip.verIhl ip.tos, ip.totalLen, ip.id, ip.flagFrag,
    be16 ip.ttl ip.proto] ++ ip.addrWords ++ ip.optWords))

/-- The options `ENCODE_IP_PKT` copies.  `opt_len` is unsigned; a header of less than five
words with a non-NULL `opt_pad` is outside what the source is written for. -/
def IpPkt.optBytes (ip : IpPkt) : List UInt8 :=
  match ip.optPad with
  | none => []
  | some opt => opt.read 0 ((ip.ihl.toNat - 5) * 4)

/-- `ENCODE_IP_PKT`: the packet with its checksum, and the bytes written. -/
def encodeIpPkt (ip : IpPkt) : IpPkt × List UInt8 :=
  let ip1 := { ip with headChksum := chksumIpHdr ip }
  (ip1, [ip.verIhl, ip.tos] ++ encodeU16 ip.totalLen ++ encodeU16 ip.id ++ encodeU16 ip.flagFrag ++
    [ip.ttl, ip.proto] ++ encodeU16 ip1.headChksum ++ ip.cSA.toList ++ ip.cDA.toList ++ ip.optBytes)

/-- A header of five words has no options, whatever `opt_pad` points to, -/
theorem IpPkt.optBytes_eq_nil {ip : IpPkt} (h : ip.ihl = 5) : ip.optBytes = [] := by
  unfold optBytes
  cases ip.optPad with
  | none => rfl
  | some opt => simp [h, Mem.read]

theorem IpPkt.optWords_eq_nil {ip : IpPkt} (h : ip.ihl = 5) : ip.optWords = [] := by
  unfold optWords
  cases ip.optPad with
  | none => rfl
  | some opt => simp [h]

/-- so it takes 20 bytes, -/
theorem encodeIpPkt_length {ip : IpPkt} (h : ip.ihl = 5) : (encodeIpPkt ip).2.length = 20 := by
  simp [encodeIpPkt, encodeU16, IpPkt.optBytes_eq_nil h]

/-- and these are the same whatever `opt_pad` and the checksum hold. -/
theorem encodeIpPkt_congr {ip : IpPkt} (h : ip.ihl = 5) (chksum : UInt16) (opt : Option Mem) :
    (encodeIpPkt { ip with headChksum := chksum, optPad := opt }).2 = (encodeIpPkt ip).2 := by
  have h' : { ip with headChksum := chksum, optPad := opt }.ihl = 5 := h
  have hsum : chksumIpHdr { ip with headChksum := chksum, optPad := opt } = chksumIpHdr ip := by
    rw [chksumIpHdr, chksumIpHdr, IpPkt.optWords_eq_nil h, IpPkt.optWords_eq_nil h']
    rfl
  simp only [encodeIpPkt, hsum, IpPkt.optBytes_eq_nil h, IpPkt.optBytes_eq_nil h']
  rfl

/-! ## 3. The UDP header -/

/-- `struct UDP_PACKET`; `data` is an offset into the memory the payload is in. -/
structure UdpPkt where
  src : UInt16
  dst : UInt16
  len : UInt16
  chksum : UInt16
  data : ℕ

/-- `PROTO_TYPE_UDP`. -/
def protoTypeUdp : UInt8 := 17

/-- `CHKSUM_UDP`, and the payload's memory behind it: an odd payload is padded with a zero
byte there. -/
def chksumUdp (ip : IpPkt) (udp : UdpPkt) (mem : Mem) : UInt16 × Mem :=
  let dataLen : ℤ := udp.len.toNat - 8
  let mem1 := if dataLen % 2 = 1 then mem.write (udp.data + dataLen).toNat [0] else mem
  let dataLen1 := if dataLen % 2 = 1 then dataLen + 1 else dataLen
  let words := (List.range (dataLen1 / 2).toNat).map fun i =>
    be16 (mem1 (udp.data + 2 * i)) (mem1 (udp.data + 2 * i + 1))
  (checkSum (sumWords (ip.addrWords ++
    [protoTypeUdp.toUInt16, udp.len, udp.src, udp.dst, udp.len] ++ words)), mem1)

/-- `ENCODE_UDP_PKT`: the packet with its checksum, the bytes written, and the payload's
memory. -/
def encodeUdpPkt (ip : IpPkt) (udp : UdpPkt) (mem : Mem) : UdpPkt × List UInt8 × Mem :=
  let r := chksumUdp ip udp mem
  ({ udp with chksum := r.1 },
    encodeU16 udp.src ++ encodeU16 udp.dst ++ encodeU16 udp.len ++ encodeU16 r.1, r.2)

theorem encodeUdpPkt_length (ip : IpPkt) (udp : UdpPkt) (mem : Mem) :
    (encodeUdpPkt ip udp mem).2.1.length = 8 := by
  simp [encodeUdpPkt, encodeU16]

/-! ## 4. The decoders -/

/-- `DECODE_U16`: the high byte comes first. -/
def decodeU16 (m : Mem) (off : ℕ) : UInt16 := UInt16.ofNat (leNat (m.read off 2).reverse)

/-- `IP_ADDR_LEN` bytes of a memory. -/
def ipAddrAt (m : Mem) (off : ℕ) : Vector UInt8 4 := ⟨⟨m.read off 4⟩, by simp⟩

/-- What `DECODE_IP_PKT` returns and leaves: the packet, its `data` if that was assigned, and
`*len`. -/
structure IpDecoded where
  status : ℤ
  ip : IpPkt
  data : Option ℕ
  len : UInt16

/-- The assignments of `DECODE_IP_PKT` behind its look at the version.  `opt_pad` points into the
input when `IHL` is not 5, and the data is `IHL*4` bytes from the start. -/
def fillIpPkt (ip : IpPkt) (m : Mem) (data : ℕ) : IpPkt :=
  let tmp := decodeU16 m (data + 6)
  { ip with
    tos := m (data + 1)
    totalLen := decodeU16 m (data + 2)
    id := decodeU16 m (data + 4)
    flag := BitVec.ofNat 3 ((m (data + 6)).toNat / 32)
    fragOff := BitVec.ofNat 13 tmp.toNat
    ttl := m (data + 8)
    proto := m (data + 9)
    headChksum := decodeU16 m (data + 10)
    cSA := ipAddrAt m (data + 12)
    cDA := ipAddrAt m (data + 16)
    optPad := if ip.ihl = 5 then none else some fun i => m (data + 20 + i) }

/-- `DECODE_IP_PKT` of the bytes at `data`.  A bad version ends it at the first byte. -/
def decodeIpPkt (ip : IpPkt) (m : Mem) (data : ℕ) (len : UInt16) : IpDecoded :=
  let ip1 := { ip with
    ver := BitVec.ofNat 4 ((m data).toNat / 16), ihl := BitVec.ofNat 4 (m data).toNat }
  if ip1.ver ≠ 4 then ⟨-1, ip1, none, len⟩
  else
    let ip2 := fillIpPkt ip1 m data
    let len1 := len - UInt16.ofNat (ip2.ihl.toNat * 4)
    let data1 := some (data + ip2.ihl.toNat * 4)
    if chksumIpHdr ip2 ≠ ip2.headChksum then ⟨-1, ip2, data1, len1⟩ else ⟨1, ip2, data1, len1⟩

/-- What `DECODE_UDP_PKT` returns and leaves; the checksum may write to the input. -/
structure UdpDecoded where
  status : ℤ
  udp : UdpPkt
  dataLen : UInt16
  mem : Mem

/-- `DECODE_UDP_PKT` of the bytes at `data`, which is `ip_pkt->data`. -/
def decodeUdpPkt (udp : UdpPkt) (ip : IpPkt) (data : ℕ) (m : Mem) (dataLen : UInt16) :
    UdpDecoded :=
  let udp1 := { udp with
    src := decodeU16 m data, dst := decodeU16 m (data + 2), len := decodeU16 m (data + 4) }
  if (udp1.len.toNat : ℤ) ≠ ip.totalLen.toNat - ip.ihl.toNat * 4 then ⟨-1, udp1, dataLen, m⟩
  else
    let udp2 := { udp1 with chksum := decodeU16 m (data + 6), data := data + 8 }
    if udp2.chksum = 0 then ⟨0, udp2, dataLen - 8, m⟩
    else
      let r := chksumUdp ip udp2 m
      if r.1 ≠ udp2.chksum then ⟨-1, udp2, dataLen, r.2⟩ else ⟨0, udp2, dataLen - 8, r.2⟩

end Ofpagent.Util
