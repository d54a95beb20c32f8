/-
# The OpenFlow 1.3 wire format

What is of variable length in an OpenFlow message are type-length-value items at three levels:
the OXM TLVs of a match, the instructions behind it, and the actions in an instruction.  A match,
an instruction and an action are filled up with zeros to a multiple of eight bytes; the length
of a match does not count them, those of the other two do.

For a PACKET_IN there is a parser, and it is inverse to the layout (`parsePacketIn_bytes`).  For a
flow mod there is the layout alone, with the action that counts first, `FlowMod.firstAction`.
-/
import Ofpagent.Lib.Bytes

namespace Ofpagent.Lib.OpenFlow

/-! ## 1. OXM TLVs -/

theorem ofNat_beNat_u16 (x : UInt16) : UInt16.ofNat (beNat (beBytes 2 x.toNat)) = x := by
  rw [beNat_beBytes]
  exact UInt16.ofNat_mod_size.trans UInt16.ofNat_toNat

structure Oxm where
  oxmClass : UInt16
  field : BitVec 7
  hasmask : Bool
  payload : List UInt8
  payload_lt : payload.length < 256
  deriving DecidableEq

/-- Field and mask bit share a byte. -/
def Oxm.bytes (o : Oxm) : List UInt8 :=
  beBytes 2 o.oxmClass.toNat ++
    [UInt8.ofNat (2 * o.field.toNat + o.hasmask.toNat), UInt8.ofNat o.payload.length] ++ o.payload

@[simp] theorem Oxm.bytes_length (o : Oxm) : o.bytes.length = o.payload.length + 4 := by
  simp [Oxm.bytes]
  omega

/-- The address in a TLV of OFPXMT_OFB_IPV4_DST. -/
def Oxm.ipv4Dst (o : Oxm) : Option (List UInt8) :=
  if o.oxmClass = 0x8000 ∧ o.field = 12 ∧ o.hasmask = false ∧ o.payload.length = 4 then
    some o.payload
  else none

/-- OFPXMT_OFB_IN_PORT and OFPXMT_OFB_IPV4_DST. -/
def Oxm.inPort (port : UInt32) : Oxm :=
  ⟨0x8000, 0, false, beBytes 4 port.toNat, (beBytes_length 4 _).trans_lt (by decide)⟩
def Oxm.dstTo (addr : UInt32) : Oxm :=
  ⟨0x8000, 12, false, beBytes 4 addr.toNat, (beBytes_length 4 _).trans_lt (by decide)⟩

theorem Oxm.of_ipv4Dst {o : Oxm} {v : List UInt8} (h : o.ipv4Dst = some v) :
    o.field = 12 ∧ o.hasmask = false ∧ o.payload = v ∧ v.length = 4 := by
  unfold Oxm.ipv4Dst at h
  split at h
  · next hdst =>
    obtain ⟨-, hfield, hmask, hlen⟩ := hdst
    cases h
    exact ⟨hfield, hmask, rfl, hlen⟩
  · cases h

/-- The TLV at the front of the bytes, and what is behind it. -/
def takeOxm : List UInt8 → Option (Oxm × List UInt8)
  | c :: c' :: f :: n :: l =>
    if n.toNat ≤ l.length then
      some (⟨UInt16.ofNat (beNat [c, c']), BitVec.ofNat 7 (f.toNat / 2), f.toNat % 2 == 1,
        l.take n.toNat, (List.length_take_le _ _).trans_lt n.toNat_lt⟩, l.drop n.toNat)
    else none
  | _ => none

theorem takeOxm_bytes (o : Oxm) (l : List UInt8) : takeOxm (o.bytes ++ l) = some (o, l) := by
  obtain ⟨c, f, m, p, hp⟩ := o
  obtain ⟨c0, c1, hc⟩ : ∃ c0 c1, beBytes 2 c.toNat = [c0, c1] := List.length_eq_two.mp (by simp)
  have hshape : (Oxm.mk c f m p hp).bytes ++ l = c0 :: c1 :: UInt8.ofNat (2 * f.toNat + m.toNat) ::
      UInt8.ofNat p.length :: (p ++ l) := by simp [Oxm.bytes, hc]
  have hclass : UInt16.ofNat (beNat [c0, c1]) = c := by rw [← hc, ofNat_beNat_u16]
  have hn : (UInt8.ofNat p.length).toNat = p.length := UInt8.toNat_ofNat_of_lt' hp
  have hbit : m.toNat < 2 := by cases m <;> decide
  have hbyte : (UInt8.ofNat (2 * f.toNat + m.toNat)).toNat = 2 * f.toNat + m.toNat := by
    have := f.isLt
    refine UInt8.toNat_ofNat_of_lt' ?_
    change _ < 256
    omega
  have hfield : BitVec.ofNat 7 ((2 * f.toNat + m.toNat) / 2) = f := by
    rw [show (2 * f.toNat + m.toNat) / 2 = f.toNat by omega, BitVec.ofNat_toNat,
      BitVec.setWidth_eq]
  have hmask : ((2 * f.toNat + m.toNat) % 2 == 1) = m := by
    rw [Nat.mul_add_mod]
    cases m <;> rfl
  rw [hshape, takeOxm, if_pos (by simp [hn])]
  simp only [hclass, hbyte, hn, hfield, hmask, List.take_left', List.drop_left']

/-- TLVs to the end of the bytes, at most as many as there is fuel. -/
def takeOxms : ℕ → List UInt8 → Option (List Oxm)
  | _, [] => some []
  | 0, _ :: _ => none
  | n + 1, b :: l =>
    (takeOxm (b :: l)).bind fun r => (takeOxms n r.2).map fun os => r.1 :: os

theorem takeOxms_flatMap {os : List Oxm} {n : ℕ} (hn : os.length ≤ n) :
    takeOxms n (os.flatMap Oxm.bytes) = some os := by
  induction os generalizing n with
  | nil => cases n <;> rfl
  | cons o os ih =>
    obtain ⟨m, rfl⟩ : ∃ m, n = m + 1 := ⟨n - 1, by simp at hn; omega⟩
    have hrest := ih (n := m) (by simpa using hn)
    have hpos : 0 < o.bytes.length := by simp
    obtain ⟨b, l, hb⟩ := List.exists_cons_of_length_pos hpos
    have htake := takeOxm_bytes o (os.flatMap Oxm.bytes)
    rw [hb, List.cons_append] at htake
    rw [List.flatMap_cons, hb, List.cons_append, takeOxms, htake, Option.bind_some, hrest]
    rfl

theorem length_le_flatMap (os : List Oxm) : os.length ≤ (os.flatMap Oxm.bytes).length := by
  induction os with
  | nil => exact le_rfl
  | cons o os ih =>
    rw [List.flatMap_cons, List.length_append, Oxm.bytes_length, List.length_cons]
    omega

/-! ## 2. Matches -/

/-- The next multiple of eight. -/
def pad8 (n : ℕ) : ℕ := (n + 7) / 8 * 8

theorem le_pad8 (n : ℕ) : n ≤ pad8 n := by
  unfold pad8
  omega

/-- Bytes, filled up with zeros. -/
def padded (l : List UInt8) : List UInt8 := l ++ List.replicate (pad8 l.length - l.length) 0

@[simp] theorem padded_length (l : List UInt8) : (padded l).length = pad8 l.length := by
  have := le_pad8 l.length
  simp only [padded, List.length_append, List.length_replicate]
  omega

/-- A match of type OFPMT_OXM. -/
structure Match where
  oxms : List Oxm
  size_lt : 4 + (oxms.flatMap Oxm.bytes).length < 2 ^ 16
  deriving DecidableEq

/-- A match of one TLV. -/
def Match.single (o : Oxm) : Match where
  oxms := [o]
  size_lt := by
    have := o.payload_lt
    rw [List.flatMap_singleton, Oxm.bytes_length]
    omega

/-- The length of a match, which does not count the padding. -/
def Match.length (m : Match) : ℕ := 4 + (m.oxms.flatMap Oxm.bytes).length

def Match.bytes (m : Match) : List UInt8 :=
  padded (beBytes 2 1 ++ beBytes 2 m.length ++ m.oxms.flatMap Oxm.bytes)

@[simp] theorem Match.bytes_length (m : Match) : m.bytes.length = pad8 m.length := by
  rw [Match.bytes, padded_length]
  congr 1
  simp [Match.length]
  omega

/-- The match at the front of the bytes, and what is behind it. -/
def takeMatch (l : List UInt8) : Option (Match × List UInt8) :=
  let n := beNat ((l.drop 2).take 2)
  if beNat (l.take 2) = 1 ∧ pad8 n ≤ l.length ∧
      (l.take (pad8 n)).drop n = List.replicate (pad8 n - n) 0 then
    (takeOxms n ((l.take n).drop 4)).bind fun os =>
      if h : 4 + (os.flatMap Oxm.bytes).length < 2 ^ 16 then some (⟨os, h⟩, l.drop (pad8 n))
      else none
  else none

theorem takeMatch_bytes (m : Match) (l : List UInt8) : takeMatch (m.bytes ++ l) = some (m, l) := by
  set os := m.oxms.flatMap Oxm.bytes with hos
  have hlt : m.length < 256 ^ 2 := m.size_lt
  have hle := le_pad8 m.length
  have hbody : (beBytes 2 1 ++ beBytes 2 m.length ++ os).length = m.length := by
    simp [Match.length, ← hos]
    omega
  have hbytes : m.bytes = beBytes 2 1 ++ beBytes 2 m.length ++ os ++
      List.replicate (pad8 m.length - m.length) 0 := by rw [Match.bytes, padded, hbody]
  have hn : beNat (((m.bytes ++ l).drop 2).take 2) = m.length := by
    rw [hbytes, List.append_assoc, List.append_assoc, List.append_assoc,
      List.drop_left' (beBytes_length 2 1), List.take_left' (beBytes_length 2 _), beNat_beBytes,
      Nat.mod_eq_of_lt hlt]
  have htype : beNat ((m.bytes ++ l).take 2) = 1 := by
    rw [hbytes, List.append_assoc, List.append_assoc, List.append_assoc,
      List.take_left' (beBytes_length 2 1)]
    rfl
  have hwhole : (m.bytes ++ l).take (pad8 m.length) = m.bytes := List.take_left' m.bytes_length
  have hpad : m.bytes.drop m.length = List.replicate (pad8 m.length - m.length) 0 := by
    rw [hbytes, List.drop_left' hbody]
  have hoxms : ((m.bytes ++ l).take m.length).drop 4 = os := by
    rw [hbytes, List.append_assoc, List.take_left' hbody]
    exact List.drop_left' (by simp)
  have hcount : m.oxms.length ≤ m.length :=
    (length_le_flatMap m.oxms).trans (by rw [Match.length]; omega)
  unfold takeMatch
  dsimp only
  rw [hn, hwhole, hpad, htype, hoxms, if_pos ⟨rfl, by simp, rfl⟩, hos, takeOxms_flatMap hcount,
    Option.bind_some, dif_pos m.size_lt, List.drop_left' m.bytes_length]

/-! ## 3. PACKET_IN -/

structure PacketIn where
  version : UInt8
  type : UInt8
  length : UInt16
  xid : UInt32
  bufferId : UInt32
  totalLen : UInt16
  reason : UInt8
  tableId : UInt8
  cookie : UInt64
  «match» : Match
  data : List UInt8
  deriving DecidableEq

/-- The fields of fixed length. -/
def PacketIn.front (p : PacketIn) : List UInt8 :=
  beBytes 1 p.version.toNat ++ beBytes 1 p.type.toNat ++ beBytes 2 p.length.toNat ++
    beBytes 4 p.xid.toNat ++ beBytes 4 p.bufferId.toNat ++ beBytes 2 p.totalLen.toNat ++
    beBytes 1 p.reason.toNat ++ beBytes 1 p.tableId.toNat ++ beBytes 8 p.cookie.toNat

/-- Two zeros stand between the match and the frame. -/
def PacketIn.bytes (p : PacketIn) : List UInt8 := p.front ++ (p.match.bytes ++ ([0, 0] ++ p.data))

@[simp] theorem PacketIn.front_length (p : PacketIn) : p.front.length = 24 := by
  simp [PacketIn.front]

/-- The number of `w` bytes at `off`. -/
def natAt (l : List UInt8) (off w : ℕ) : ℕ := beNat ((l.drop off).take w)

def parsePacketIn (l : List UInt8) : Option PacketIn :=
  (takeMatch (l.drop 24)).bind fun r =>
    if r.2.take 2 = [0, 0] then
      some
        { version := UInt8.ofNat (natAt l 0 1), type := UInt8.ofNat (natAt l 1 1)
          length := UInt16.ofNat (natAt l 2 2), xid := UInt32.ofNat (natAt l 4 4)
          bufferId := UInt32.ofNat (natAt l 8 4), totalLen := UInt16.ofNat (natAt l 12 2)
          reason := UInt8.ofNat (natAt l 14 1), tableId := UInt8.ofNat (natAt l 15 1)
          cookie := UInt64.ofNat (natAt l 16 8), «match» := r.1, data := r.2.drop 2 }
    else none

theorem natAt_here (w n : ℕ) (l : List UInt8) : natAt (beBytes w n ++ l) 0 w = n % 256 ^ w := by
  rw [natAt, List.drop_zero, List.take_left' (beBytes_length w n), beNat_beBytes]

theorem natAt_skip {k off : ℕ} (n : ℕ) (l : List UInt8) (w : ℕ) (h : k ≤ off) :
    natAt (beBytes k n ++ l) off w = natAt l (off - k) w := by
  rw [natAt, natAt, List.drop_append, List.drop_eq_nil_of_le (by simpa using h), beBytes_length,
    List.nil_append]

/-- **The parser is inverse to the layout.** -/
theorem parsePacketIn_bytes (p : PacketIn) : parsePacketIn p.bytes = some p := by
  have hdrop : p.bytes.drop 24 = p.match.bytes ++ ([0, 0] ++ p.data) :=
    List.drop_left' p.front_length
  have hpad : ([0, 0] ++ p.data).take 2 = [0, 0] := rfl
  have h8 : ∀ x : UInt8, UInt8.ofNat (x.toNat % 256 ^ 1) = x := fun x =>
    UInt8.ofNat_mod_size.trans UInt8.ofNat_toNat
  have h16 : ∀ x : UInt16, UInt16.ofNat (x.toNat % 256 ^ 2) = x := fun x =>
    UInt16.ofNat_mod_size.trans UInt16.ofNat_toNat
  have h32 : ∀ x : UInt32, UInt32.ofNat (x.toNat % 256 ^ 4) = x := fun x =>
    UInt32.ofNat_mod_size.trans UInt32.ofNat_toNat
  have h64 : ∀ x : UInt64, UInt64.ofNat (x.toNat % 256 ^ 8) = x := fun x =>
    UInt64.ofNat_mod_size.trans UInt64.ofNat_toNat
  unfold parsePacketIn
  rw [hdrop, takeMatch_bytes, Option.bind_some]
  dsimp only
  rw [if_pos hpad]
  simp only [PacketIn.bytes, PacketIn.front, List.append_assoc, natAt_skip, natAt_here,
    Nat.reduceLeDiff, Nat.reduceSub, h8, h16, h32, h64]
  rfl

/-! ## 4. FLOW_MOD -/

/-- An item whose length counts the padding. -/
def item (type : UInt16) (body : List UInt8) : List UInt8 :=
  padded (beBytes 2 type.toNat ++ beBytes 2 (pad8 (4 + body.length)) ++ body)

/-- An action: OFPAT_SET_FIELD, or one of another type. -/
inductive Action
  | setField (oxm : Oxm)
  | other (type : UInt16) (body : List UInt8) (type_ne : type ≠ 25)

def Action.bytes : Action → List UInt8
  | setField oxm => item 25 oxm.bytes
  | other type body _ => item type body

/-- The TLV of a SET_FIELD. -/
def Action.oxm : Action → Option Oxm
  | setField oxm => some oxm
  | other _ _ _ => none

/-- OFPIT_WRITE_ACTIONS, OFPIT_APPLY_ACTIONS and OFPIT_CLEAR_ACTIONS. -/
inductive ActionsKind
  | write
  | apply
  | clear

def ActionsKind.type : ActionsKind → UInt16
  | write => 3
  | apply => 4
  | clear => 5

inductive Instruction
  | actions (kind : ActionsKind) (actions : List Action)
  | other (type : UInt16) (body : List UInt8) (type_ne : ∀ kind : ActionsKind, type ≠ kind.type)

def Instruction.bytes : Instruction → List UInt8
  | actions kind as => item kind.type ([0, 0, 0, 0] ++ as.flatMap Action.bytes)
  | other type body _ => item type body

/-- The actions an apply-actions instruction has. -/
def Instruction.applied : Instruction → Option (List Action)
  | actions .apply as => some as
  | actions .write _ | actions .clear _ | other _ _ _ => none

structure FlowMod where
  xid : UInt32
  cookie : UInt64
  cookieMask : UInt64
  tableId : UInt8
  command : UInt8
  idleTimeout : UInt16
  hardTimeout : UInt16
  priority : UInt16
  bufferId : UInt32
  outPort : UInt32
  outGroup : UInt32
  flags : UInt16
  «match» : Match
  instructions : List Instruction
  size_lt : 48 + «match».bytes.length + (instructions.flatMap Instruction.bytes).length < 2 ^ 16

/-- The length of the message. -/
def FlowMod.length (f : FlowMod) : ℕ :=
  48 + f.match.bytes.length + (f.instructions.flatMap Instruction.bytes).length

/-- The fields of fixed length, ahead of the id of the buffered packet and from there on. -/
def FlowMod.front (f : FlowMod) : List UInt8 :=
  [4, 14] ++ beBytes 2 f.length ++ beBytes 4 f.xid.toNat ++ beBytes 8 f.cookie.toNat ++
    beBytes 8 f.cookieMask.toNat ++ [f.tableId, f.command] ++ beBytes 2 f.idleTimeout.toNat ++
    beBytes 2 f.hardTimeout.toNat ++ beBytes 2 f.priority.toNat
def FlowMod.ports (f : FlowMod) : List UInt8 :=
  beBytes 4 f.bufferId.toNat ++ beBytes 4 f.outPort.toNat ++ beBytes 4 f.outGroup.toNat ++
    beBytes 2 f.flags.toNat ++ [0, 0]

def FlowMod.bytes (f : FlowMod) : List UInt8 :=
  f.front ++ f.ports ++ f.match.bytes ++ f.instructions.flatMap Instruction.bytes

/-- **The first action** of the first apply-actions instruction. -/
def FlowMod.firstAction (f : FlowMod) : Option Action :=
  (f.instructions.findSome? Instruction.applied).bind List.head?

/-- The TLV of the first action, if that is a SET_FIELD. -/
def FlowMod.firstOxm (f : FlowMod) : Option Oxm := f.firstAction.bind Action.oxm

@[simp] theorem FlowMod.front_length (f : FlowMod) : f.front.length = 32 := by
  simp [FlowMod.front]

@[simp] theorem FlowMod.ports_length (f : FlowMod) : f.ports.length = 16 := by
  simp [FlowMod.ports]

/-- Where the parts of a flow mod stand. -/
theorem FlowMod.parts {f : FlowMod} {m : Mem} (h : m.Holds 0 f.bytes) :
    m.Holds 32 f.ports ∧ m.Holds 48 f.match.bytes ∧
      m.Holds (48 + pad8 f.match.length) (f.instructions.flatMap Instruction.bytes) := by
  simp only [FlowMod.bytes, Mem.holds_append, List.length_append, FlowMod.front_length,
    FlowMod.ports_length, Match.bytes_length, Nat.zero_add, Nat.reduceAdd] at h
  exact ⟨h.1.1.2, h.1.2, h.2⟩

/-- Where the body of an item stands. -/
theorem holds_item {type : UInt16} {body : List UInt8} {m : Mem} {off : ℕ}
    (h : m.Holds off (item type body)) :
    m.Holds off (beBytes 2 type.toNat) ∧ m.Holds (off + 4) body := by
  simp only [item, padded, Mem.holds_append, List.length_append, beBytes_length] at h
  exact ⟨h.1.1.1, h.1.2⟩

end Ofpagent.Lib.OpenFlow
