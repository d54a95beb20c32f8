/-
# The agent of `src/`: its data

The structures of `ofpd.h`, `ofp_common.h`, `ofp_asyn.h` and `ofp_ctrl2sw.h` that the agent
computes with.  They are all packed (`common.h` sets `#pragma pack(1)` ahead of them), so a
structure in memory is the concatenation of its fields, each in the byte order of the host;
`htons` and `htonl` reverse the bytes of a field.

Of `tOFP_PORT` the last three fields, `ofpbuf`, `ofpbuf_len` and `head`, are kept as the memory
they are, together with what is behind them: a copy into `ofpbuf` that is too long writes to
the other two, and the model has to show it.  The counters, names and capabilities of the
structure, which nothing reads, are left out, and so is `src_port` of `host_learn_t`, which
nothing writes or reads.
-/
import Ofpagent.Timer.State
import Ofpagent.Util.IpCodec

namespace Ofpagent.Agent

open Ofpagent.Lib

/-! ## 1. Byte order -/

/-- `htons`. -/
def htons (x : UInt16) : UInt16 := UInt16.ofNat (leNat (beBytes 2 x.toNat))

/-- `htonl`. -/
def htonl (x : UInt32) : UInt32 := UInt32.ofNat (leNat (beBytes 4 x.toNat))

/-- A `U16` read from memory and converted is the number in network order. -/
theorem htons_ofNat_leNat {l : List UInt8} (h : l.length = 2) :
    htons (UInt16.ofNat (leNat l)) = UInt16.ofNat (leNat l.reverse) := by
  have hlt : leNat l < 2 ^ 16 := by simpa [h] using leNat_lt l
  have hbytes : leBytes 2 (leNat l) = l := by rw [← h, leBytes_leNat]
  rw [htons, UInt16.toNat_ofNat_of_lt' hlt, beBytes, hbytes]

/-- `bitswap64`. -/
def bitswap64 (x : UInt64) : UInt64 := UInt64.ofNat (leNat (beBytes 8 x.toNat))

/-- What is converted stands in memory in network order. -/
theorem leBytes_htons (x : UInt16) : leBytes 2 (htons x).toNat = beBytes 2 x.toNat := by
  rw [htons, UInt16.toNat_ofNat_of_lt' (leNat_beBytes_lt 2 x.toNat), leBytes_leNat_beBytes]

theorem leBytes_htonl (x : UInt32) : leBytes 4 (htonl x).toNat = beBytes 4 x.toNat := by
  rw [htonl, UInt32.toNat_ofNat_of_lt' (leNat_beBytes_lt 4 x.toNat), leBytes_leNat_beBytes]

theorem leBytes_bitswap64 (x : UInt64) : leBytes 8 (bitswap64 x).toNat = beBytes 8 x.toNat := by
  rw [bitswap64, UInt64.toNat_ofNat_of_lt' (leNat_beBytes_lt 8 x.toNat), leBytes_leNat_beBytes]

/-- A `U16` and a `U32` in memory. -/
def u16At (m : Mem) (off : ℕ) : UInt16 := UInt16.ofNat (m.readLe off 2)
def u32At (m : Mem) (off : ℕ) : UInt32 := UInt32.ofNat (m.readLe off 4)

/-- The bytes of a MAC address in memory. -/
def macAt (m : Mem) (off : ℕ) : Vector UInt8 6 := ⟨⟨m.read off 6⟩, by simp⟩

/-- An `int` in memory. -/
def intAt (m : Mem) (off : ℕ) : ℤ := intOfU32 (u32At m off)

/-- The number a pointer is stored as, and back. -/
def ptrNat (p : Ptr) : ℕ := p.elim 0 fun a => a.1.toNat
def ptrOfNat (n : ℕ) : Ptr := if h : UInt64.ofNat n ≠ 0 then some ⟨_, h⟩ else none

/-- A pointer in memory. -/
def ptrAt (m : Mem) (off : ℕ) : Ptr := ptrOfNat (m.readLe off 8)

@[simp] theorem ptrOfNat_ptrNat (p : Ptr) : ptrOfNat (ptrNat p) = p := by
  cases p with
  | none => simp [ptrOfNat, ptrNat]
  | some a => simp [ptrOfNat, ptrNat, a.2]

theorem ptrNat_lt (p : Ptr) : ptrNat p < 256 ^ 8 := by
  cases p with
  | none => simp [ptrNat]
  | some a => exact a.1.toNat_lt

/-! ## 2. OpenFlow messages -/

/-- `OFP13_VERSION`. -/
def ofp13Version : UInt8 := 4

/-- The types of `OFPT_t` that the agent sends or looks for. -/
def ofptHello : UInt8 := 0
def ofptEchoRequest : UInt8 := 2
def ofptEchoReply : UInt8 := 3
def ofptFeaturesRequest : UInt8 := 5
def ofptFeaturesReply : UInt8 := 6
def ofptPacketIn : UInt8 := 10
def ofptPacketOut : UInt8 := 13
def ofptFlowMod : UInt8 := 14
def ofptMultipartRequest : UInt8 := 18
def ofptMultipartReply : UInt8 := 19

/-- `ofp_header_t`. -/
structure OfpHeader where
  version : UInt8
  type : UInt8
  length : UInt16
  xid : UInt32
  deriving DecidableEq

/-- `ofp_header_t` as it stands in memory. -/
def OfpHeader.bytes (h : OfpHeader) : List UInt8 :=
  [h.version, h.type] ++ leBytes 2 h.length.toNat ++ leBytes 4 h.xid.toNat

/-- `memcpy(&header, m + off, sizeof(ofp_header_t))`. -/
def OfpHeader.ofMem (m : Mem) (off : ℕ) : OfpHeader :=
  ⟨m off, m (off + 1), u16At m (off + 2), u32At m (off + 4)⟩

/-- `ofp_multipart_t`. -/
structure OfpMultipart where
  ofpHeader : OfpHeader
  type : UInt16
  flags : UInt16
  pad : UInt32
  deriving DecidableEq

def OfpMultipart.bytes (p : OfpMultipart) : List UInt8 :=
  p.ofpHeader.bytes ++ leBytes 2 p.type.toNat ++ leBytes 2 p.flags.toNat ++ leBytes 4 p.pad.toNat

/-- `memcpy(&multipart, m + off, sizeof(ofp_multipart_t))`. -/
def OfpMultipart.ofMem (m : Mem) (off : ℕ) : OfpMultipart :=
  ⟨.ofMem m off, u16At m (off + 8), u16At m (off + 10), u32At m (off + 12)⟩

/-- `ofp_oxm_header_t`.  `oxm_struct` is a second view of the bits of `oxmValue`: the length in
the low eight, `oxm_hasmask` in bit 8, the field in the seven above it. -/
structure OfpOxmHeader where
  oxmClass : UInt16
  oxmValue : UInt16
  deriving DecidableEq

def OfpOxmHeader.oxmField (o : OfpOxmHeader) : UInt16 := o.oxmValue >>> 9
def OfpOxmHeader.oxmLength (o : OfpOxmHeader) : UInt16 := o.oxmValue &&& 0xff

def OfpOxmHeader.setField (o : OfpOxmHeader) (v : UInt16) : OfpOxmHeader :=
  { o with oxmValue := (o.oxmValue &&& (0x1ff : UInt16)) ||| v <<< 9 }
def OfpOxmHeader.setHasmask (o : OfpOxmHeader) (v : UInt16) : OfpOxmHeader :=
  { o with oxmValue := (o.oxmValue &&& (0xfeff : UInt16)) ||| (v &&& (1 : UInt16)) <<< 8 }
def OfpOxmHeader.setLength (o : OfpOxmHeader) (v : UInt16) : OfpOxmHeader :=
  { o with oxmValue := (o.oxmValue &&& (0xff00 : UInt16)) ||| (v &&& (0xff : UInt16)) }

/-- `struct ofp_match`. -/
structure OfpMatch where
  type : UInt16
  length : UInt16
  oxmHeader : OfpOxmHeader
  deriving DecidableEq

def OfpMatch.bytes (p : OfpMatch) : List UInt8 :=
  leBytes 2 p.type.toNat ++ leBytes 2 p.length.toNat ++ leBytes 2 p.oxmHeader.oxmClass.toNat ++
    leBytes 2 p.oxmHeader.oxmValue.toNat

/-- `ofp_packet_in_t`. -/
structure OfpPacketIn where
  header : OfpHeader
  bufferId : UInt32
  totalLen : UInt16
  reason : UInt8
  tableId : UInt8
  cookie : UInt64
  «match» : OfpMatch
  deriving DecidableEq

def OfpPacketIn.bytes (p : OfpPacketIn) : List UInt8 :=
  p.header.bytes ++ leBytes 4 p.bufferId.toNat ++ leBytes 2 p.totalLen.toNat ++
    [p.reason, p.tableId] ++ leBytes 8 p.cookie.toNat ++ p.match.bytes

/-- `sizeof(ofp_header_t)`, `sizeof(ofp_multipart_t)` and `sizeof(ofp_packet_in_t)`. -/
@[simp] theorem OfpHeader.bytes_length (h : OfpHeader) : h.bytes.length = 8 := by
  simp [OfpHeader.bytes]

@[simp] theorem OfpMultipart.bytes_length (p : OfpMultipart) : p.bytes.length = 16 := by
  simp [OfpMultipart.bytes]

@[simp] theorem OfpPacketIn.bytes_length (p : OfpPacketIn) : p.bytes.length = 32 := by
  simp [OfpPacketIn.bytes, OfpMatch.bytes]

/-! ## 3. The learned hosts -/

/-- `host_learn_t`. -/
structure HostLearn where
  srcMac : Vector UInt8 6
  dstMac : Vector UInt8 6
  srcIp : UInt32
  dstIp : UInt32
  bufferId : UInt32
  next : Ptr
  deriving DecidableEq

/-- The allocated nodes.  Reading or writing through any other address is undefined. -/
abbrev Heap := AList fun _ : Addr => HostLearn

namespace Heap

/-- The link field of a node. -/
def link (hp : Heap) (a : Addr) : Option Ptr := (hp.lookup a).map HostLearn.next

/-- `a->next = q`. -/
def setNext (hp : Heap) (a : Addr) (q : Ptr) : Heap :=
  match hp.lookup a with
  | none => hp
  | some n => hp.insert a { n with next := q }

/-- Enough fuel for every list without a cycle. -/
def fuel (hp : Heap) : ℕ := hp.keys.length + 1

theorem link_insert (hp : Heap) (a : Addr) (n : HostLearn) :
    link (hp.insert a n) = Function.update hp.link a (some n.next) := by
  funext b
  rcases eq_or_ne b a with rfl | hb
  · simp [link]
  · simp [link, AList.lookup_insert_ne hb, Function.update_of_ne hb]

theorem link_erase (hp : Heap) (a : Addr) :
    link (hp.erase a) = Function.update hp.link a none := by
  funext b
  rcases eq_or_ne b a with rfl | hb
  · simp [link]
  · simp [link, AList.lookup_erase_ne hb, Function.update_of_ne hb]

theorem link_setNext {hp : Heap} {a : Addr} {n : HostLearn} (h : hp.lookup a = some n) (q : Ptr) :
    link (hp.setNext a q) = Function.update hp.link a (some q) := by
  rw [setNext, h]
  exact link_insert hp a _

theorem mem_of_link {hp : Heap} {a : Addr} (h : (hp.link a).isSome) : a ∈ hp := by
  rw [link, Option.isSome_map] at h
  exact AList.lookup_isSome.mp h

end Heap

/-- What a node says about its host, without the link. -/
def HostLearn.record (n : HostLearn) : HostLearn := { n with next := none }

/-- Relinking changes no record. -/
theorem Heap.record_setNext (hp : Heap) (a b : Addr) (q : Ptr) :
    ((hp.setNext a q).lookup b).map HostLearn.record = (hp.lookup b).map HostLearn.record := by
  unfold setNext
  cases h : hp.lookup a with
  | none => rfl
  | some n =>
    rcases eq_or_ne b a with rfl | hb
    · simp [h, HostLearn.record]
    · simp [AList.lookup_insert_ne hb]

/-! ## 4. The port block -/

/-- `OFP_STATE`. -/
inductive OfpState
  | closed
  | helloWait
  | featureWait
  | established
  | invalid
  deriving DecidableEq

/-- `OFP_EVENT_TYPE`, as the `U16` it is stored and compared as. -/
def eStart : UInt16 := 0
def eRecvHello : UInt16 := 1
def eFeatureRequest : UInt16 := 2
def eMultipartRequest : UInt16 := 3
def eOthers : UInt16 := 4
def eEchoReply : UInt16 := 5
def eOfpTimeout : UInt16 := 6
def ePacketOut : UInt16 := 9
def ePacketIn : UInt16 := 10
def eFlowMod : UInt16 := 11

/-- `ETH_MTU`. -/
def ethMtu : ℕ := 1500

/-- `tOFP_PORT`.  `block` is the memory from `ofpbuf` on: `ofpbuf` in its first `ETH_MTU`
bytes, then `ofpbuf_len`, then `head`, then what is behind the structure. -/
structure OfpPort where
  state : OfpState
  queryCnt : UInt8
  sockfd : ℤ
  event : UInt16
  ofpHeader : OfpHeader
  ofpMultipart : OfpMultipart
  ofpPacketIn : OfpPacketIn
  block : Mem

/-- Where `ofpbuf_len` and `head` are in `block`. -/
def ofpbufLenOff : ℕ := ethMtu
def headOff : ℕ := ethMtu + 2

namespace OfpPort

def ofpbufLen (p : OfpPort) : UInt16 := u16At p.block ofpbufLenOff
def head (p : OfpPort) : Ptr := ptrAt p.block headOff

/-- `ofpbuf_len = n`, the conversion to `uint16_t` included. -/
def setOfpbufLen (p : OfpPort) (n : ℕ) : OfpPort :=
  { p with block := p.block.writeLe ofpbufLenOff 2 n }

/-- `head = q`. -/
def setHead (p : OfpPort) (q : Ptr) : OfpPort :=
  { p with block := p.block.writeLe headOff 8 (ptrNat q) }

@[simp] theorem head_setHead (p : OfpPort) (q : Ptr) : (p.setHead q).head = q := by
  rw [head, ptrAt, setHead, Mem.readLe_writeLe, Nat.mod_eq_of_lt (ptrNat_lt q), ptrOfNat_ptrNat]

/-- A `head` that a write has not touched is what it was. -/
theorem head_congr {p p' : OfpPort} (h : p'.block.read headOff 8 = p.block.read headOff 8) :
    p'.head = p.head := by
  rw [head, ptrAt, Mem.readLe, h, head, ptrAt, Mem.readLe]

@[simp] theorem head_setOfpbufLen (p : OfpPort) (n : ℕ) : (p.setOfpbufLen n).head = p.head :=
  head_congr (Mem.read_write_of_disjoint (by simp [ofpbufLenOff, headOff]))

@[simp] theorem ofpbufLen_setOfpbufLen (p : OfpPort) (n : ℕ) :
    (p.setOfpbufLen n).ofpbufLen = UInt16.ofNat n := by
  rw [ofpbufLen, u16At, setOfpbufLen, Mem.readLe_writeLe]
  exact UInt16.ofNat_mod_size

@[simp] theorem ofpbufLen_setHead (p : OfpPort) (q : Ptr) :
    (p.setHead q).ofpbufLen = p.ofpbufLen := by
  have h : (p.setHead q).block.readLe ofpbufLenOff 2 = p.block.readLe ofpbufLenOff 2 :=
    Mem.readLe_writeLe_of_disjoint (by simp [ofpbufLenOff, headOff])
  rw [ofpbufLen, u16At, h, ofpbufLen, u16At]

end OfpPort

/-! ## 5. The process and its surroundings -/

/-- The indices of `ofp_io_fds`: 0 is the control plane, 1 the data plane. -/
inductive Plane
  | cp
  | dp
  deriving DecidableEq

/-- The memory of the main process: `ofp_ports[0]` and its address, the nodes, the static
`buffer_id` of `OFP_encode_packet_in`, and the globals of `ofpd.c` and `ofp_sock.c`. -/
structure Ofpd where
  ccb : Addr
  port : OfpPort
  heap : Heap
  bufferId : UInt32
  ofpIoFds : Plane → ℤ
  ofpQid : IpcId
  restart : UInt8

namespace Ofpd

/-- `port_ccb->event = event`, `port_ccb->sockfd = sockfd` and `port_ccb->state = state`. -/
def setEvent (s : Ofpd) (event : UInt16) : Ofpd :=
  { s with port := { s.port with event := event } }
def setSockfd (s : Ofpd) (sockfd : ℤ) : Ofpd :=
  { s with port := { s.port with sockfd := sockfd } }
def setState (s : Ofpd) (state : OfpState) : Ofpd :=
  { s with port := { s.port with state := state } }

@[simp] theorem setEvent_event (s : Ofpd) (event : UInt16) :
    (s.setEvent event).port.event = event := rfl

@[simp] theorem setEvent_sockfd (s : Ofpd) (event : UInt16) :
    (s.setEvent event).port.sockfd = s.port.sockfd := rfl

@[simp] theorem setSockfd_event (s : Ofpd) (sockfd : ℤ) :
    (s.setSockfd sockfd).port.event = s.port.event := rfl

@[simp] theorem setSockfd_sockfd (s : Ofpd) (sockfd : ℤ) :
    (s.setSockfd sockfd).port.sockfd = sockfd := rfl

end Ofpd

/-- An entry of `getifaddrs`: the family of the address it points to (`none` for NULL), the
name without its NUL, and what `SIOCGIFHWADDR` returns for the name. -/
structure IfAddr where
  saFamily : Option UInt16
  ifaName : List UInt8
  saData : Mem

/-- What one round of the main loop is given by the system and by the stack: the node `malloc`
returns, the socket `socket` returns, `SIOCGIFHWADDR` of `IF_NAME`, the list of `getifaddrs`
(`none` when it fails), and the contents the local variables start with. -/
structure Env where
  node : Addr
  socket : Plane → ℤ
  saData : Mem
  ifaddrs : Option (List IfAddr)
  dstIp : UInt32
  ipHdr : Util.IpPkt
  udpHdr : Util.UdpPkt
  stack : Mem

end Ofpagent.Agent
