/-
# The way through the mailbox

A chunk that `recv` or `recvfrom` returns is copied three times before the decoder looks at it:
into `msg.buffer` of the reader, into `mail.refp` of `ofp_send2mailbox`, and with the whole `mail`
into `mbuf.mtext` of `ipc_sw`.  The queue carries `mtext`, and `main` casts what it receives to a
`tOFP_MBX` or a `tIPC_PRIM`, by the two bytes in front.

`mainStep_mailAt` connects these bytes with the mails of `Main.lean`.  `delivered_iff` says which
chunks arrive: the five bytes of the `tOFP_MSG` header count in the comparison with `ETH_MTU`, so
the longest five that `recv` can return do not.
-/
import Ofpagent.Agent.Extent

namespace Ofpagent.Agent

open Ofpagent.Lib

/-! ## 1. The bytes of a message -/

/-- Where `refp` and `len` are in `tOFP_MBX`, its size, and those of `tOFP_MSG` and `mtext`. -/
def refpOff : ℕ := 2
def lenOff : ℕ := 2 + ethMtu
def ofpMbxSize : ℕ := 2 + ethMtu + 4
def ofpMsgSize : ℕ := 1 + 4 + ethMtu
def mtextSize : ℕ := 1518

/-- `mail` of `ofp_send2mailbox`, over what the stack held. -/
def fillMbx (stack mu : Mem) (mulen : ℤ) : Mem :=
  let mail := stack.writeLe lenOff 4 (u32OfInt mulen).toNat
  (mail.write refpOff (mu.read 0 mulen.toNat)).writeLe 0 2 ipcEvTypeDrv.toNat

/-- `memcpy(mbuf.mtext, data, size)` of `ipc_sw` and of the timer task. -/
def fillMtext (mtext data : Mem) (size : ℕ) : Mem := mtext.write 0 (data.read 0 size)

/-- A copy: its length, and the sizes of the buffers that it reads and writes. -/
structure Copy where
  size : ℕ
  buffers : List ℕ

def Copy.Within (c : Copy) : Prop := ∀ b ∈ c.buffers, c.size ≤ b

/-- `ofp_send2mailbox` and `ipc_sw` up to `msgsnd`: the message, if there is one, and the
copies. -/
def send2mailbox (mu : Mem) (mulen : ℤ) (stack mtext : Mem) : Option Mem × List Copy :=
  if (ethMtu : ℤ) < mulen then (none, [])
  else
    (some (fillMtext mtext (fillMbx stack mu mulen) ofpMbxSize),
      [⟨mulen.toNat, [ofpMsgSize, ethMtu]⟩, ⟨ofpMbxSize, [ofpMbxSize, mtextSize]⟩])

/-- The type under which `ofp_sockd_cp` and `ofp_sockd_dp` send what they receive. -/
def Plane.driv : Plane → UInt8
  | cp => drivCp
  | dp => drivDp

/-- `ofp_sockd_cp` and `ofp_sockd_dp`, when `recv` has returned `chunk`. -/
def sockd (plane : Plane) (fd : ℤ) (chunk : List UInt8) (buffer stack mtext : Mem) :
    Option Mem × List Copy :=
  let msg := ofpMsg plane.driv fd (buffer.write 0 chunk)
  let sent := send2mailbox msg (chunk.length + 4 + 1) stack mtext
  (sent.1, ⟨chunk.length, [ethMtu]⟩ :: sent.2)

/-! ## 2. What `main` makes of it -/

/-- `(tOFP_MBX *)mbuf.mtext` and `(tIPC_PRIM *)mbuf.mtext`. -/
def mbxAt (mtext : Mem) : OfpMbx := ⟨fun i => mtext (refpOff + i), intAt mtext lenOff⟩
def primAt (mtext : Mem) : IpcPrim := ⟨u16At mtext 0, mtext 2, ptrAt mtext 3⟩

/-- The `switch` over `ipc_type`. -/
def mailAt (mtext : Mem) : Mail :=
  if u16At mtext 0 = ipcEvTypeTmr then .tmr (primAt mtext)
  else if u16At mtext 0 = ipcEvTypeDrv then .drv (mbxAt mtext)
  else .other

section Fill

variable {mu stack mtext mtext' : Mem} {mulen : ℤ}

/-- What is received of a message is what was sent, as far as `mtext` goes. -/
theorem agree_fillMbx (h : Mem.Agree mtextSize (fillMtext mtext (fillMbx stack mu mulen) ofpMbxSize)
    mtext') : Mem.Agree ofpMbxSize (fillMbx stack mu mulen) mtext' :=
  (Mem.agree_copy _ mtext ofpMbxSize).trans (h.mono (by decide))

theorem u16At_fillMbx : u16At (fillMbx stack mu mulen) 0 = ipcEvTypeDrv := by
  rw [u16At, fillMbx, Mem.readLe_writeLe]
  decide

theorem intAt_fillMbx (h0 : 0 ≤ mulen) (hmax : mulen ≤ ethMtu) :
    intAt (fillMbx stack mu mulen) lenOff = mulen := by
  simp only [ethMtu] at hmax
  have hlen : (u32OfInt mulen).toNat % 256 ^ 4 = (u32OfInt mulen).toNat :=
    Nat.mod_eq_of_lt (u32OfInt mulen).toNat_lt
  rw [intAt, u32At, fillMbx, Mem.readLe_writeLe_of_disjoint (by simp [lenOff, ethMtu]),
    Mem.readLe_write_of_disjoint, Mem.readLe_writeLe, hlen, UInt32.ofNat_toNat]
  · exact intOfU32_u32OfInt (by omega) (by omega)
  · simp only [Mem.read_length, refpOff, lenOff, ethMtu]
    omega

/-- `refp` holds the message, and behind it what the stack held. -/
theorem refp_fillMbx {i : ℕ} (hi : i < ethMtu) :
    fillMbx stack mu mulen (refpOff + i)
      = if i < mulen.toNat then mu i else stack (refpOff + i) := by
  simp only [ethMtu] at hi
  rw [fillMbx, Mem.writeLe, Mem.write_apply_of_disjoint (Or.inr (by simp [refpOff]))]
  split_ifs with hlt
  · rw [Mem.write_apply (by omega) (by rw [Mem.read_length]; omega)]
    simp [Mem.read]
  · rw [Mem.write_apply_of_disjoint (Or.inr (by rw [Mem.read_length]; omega)), Mem.writeLe,
      Mem.write_apply_of_disjoint (Or.inl (by simp only [refpOff, lenOff, ethMtu]; omega))]

end Fill

/-! ## 3. The mails of the main loop -/

/-- The decoder reads `refp` inside its `ETH_MTU` bytes. -/
theorem ofpDecodeFrame_of_agree {s : Ofpd} {mail mail' : OfpMbx} {e : Env}
    (hrefp : Mem.Agree ethMtu mail.refp mail'.refp) (hlen : mail'.len = mail.len) :
    ofpDecodeFrame s mail' e = ofpDecodeFrame s mail e := by
  have hmu : Mem.Agree muMax mail.mu mail'.mu := by
    intro i hi
    refine hrefp (5 + i) ?_
    simp only [muMax, ethMtu] at hi ⊢
    omega
  have htype : mail'.type = mail.type := hrefp 0 (by decide)
  have hsockfd : mail'.sockfd = mail.sockfd := by
    rw [OfpMbx.sockfd, intAt, u32At_congr hrefp (by decide), OfpMbx.sockfd, intAt]
  have hmulen : mail'.mulen = mail.mulen := by rw [OfpMbx.mulen, hlen, OfpMbx.mulen]
  have hpacketIn : ∀ t : Ofpd, ofpEncodePacketIn t mail'.mu mail.mulen e
      = ofpEncodePacketIn t mail.mu mail.mulen e := by
    intro t
    rcases Nat.lt_or_ge muMax mail.mulen.toNat with hlong | hmax
    · rw [ofpEncodePacketIn, if_pos hlong, ofpEncodePacketIn, if_pos hlong]
    · exact ofpEncodePacketIn_congr hmu (by decide) hmax
  have hcontrol : ∀ t : Ofpd, decodeControl t mail'.mu e = decodeControl t mail.mu e := by
    intro t
    exact decodeControl_congr hmu ⟨by decide, fun _ => by decide, fun _ => by decide,
      fun _ => .inr ⟨by decide, fun _ _ => .inl (by decide)⟩⟩
  simp only [ofpDecodeFrame, hlen, htype, hsockfd, hmulen, hpacketIn, hcontrol]

/-- **What `main` takes from the queue** is the mail that `ofp_send2mailbox` was called for. -/
theorem mainStep_mailAt {mu stack mtext mtext' msg : Mem} {mulen : ℤ} {mail : OfpMbx}
    (hmail : ofpSend2mailbox mu mulen (fun i => stack (refpOff + i)) = some mail)
    (h0 : 0 ≤ mulen) (hmsg : (send2mailbox mu mulen stack mtext).1 = some msg)
    (hrecv : Mem.Agree mtextSize msg mtext') (s : Ofpd) (e : Env) :
    mainStep s (mailAt mtext') e = mainStep s (.drv mail) e := by
  unfold send2mailbox at hmsg
  unfold ofpSend2mailbox at hmail
  split_ifs at hmsg hmail with hlong
  obtain rfl := Option.some.inj hmsg
  obtain rfl := Option.some.inj hmail
  have hmax : mulen ≤ ethMtu := not_lt.mp hlong
  have hag := agree_fillMbx hrecv
  have htype : u16At mtext' 0 = ipcEvTypeDrv := by
    rw [u16At_congr hag (by decide), u16At_fillMbx]
  have hlen : (mbxAt mtext').len = mulen := by
    rw [mbxAt, intAt, u32At_congr hag (by decide), ← intAt, intAt_fillMbx h0 hmax]
  have hrefp : Mem.Agree ethMtu (Mem.write (fun i => stack (refpOff + i)) 0 (mu.read 0 mulen.toNat))
      (mbxAt mtext').refp := by
    intro i hi
    have hi' : refpOff + i < ofpMbxSize := by
      simp only [refpOff, ofpMbxSize, ethMtu] at hi ⊢
      omega
    have hget : (mbxAt mtext').refp i = fillMbx stack mu mulen (refpOff + i) := hag _ hi'
    rw [hget, refp_fillMbx hi]
    split_ifs with hlt
    · rw [Mem.write_apply (Nat.zero_le i) (by simpa using hlt)]
      simp [Mem.read]
    · rw [Mem.write_apply_of_disjoint (Or.inr (by simpa using hlt))]
  have hdrv : mailAt mtext' = .drv (mbxAt mtext') := by
    rw [mailAt, htype, if_neg (by decide), if_pos rfl]
  have hdecode : ofpDecodeFrame s (mbxAt mtext') e
      = ofpDecodeFrame s ⟨Mem.write (fun i => stack (refpOff + i)) 0 (mu.read 0 mulen.toNat), mulen⟩ e :=
    ofpDecodeFrame_of_agree hrefp hlen
  rw [hdrv, mainStep, hdecode, mainStep]

/-- `tIPC_PRIM` in memory. -/
def primBytes (prim : IpcPrim) : List UInt8 :=
  leBytes 2 prim.type.toNat ++ (prim.evt :: leBytes 8 (ptrNat prim.ccb))

/-- The timer task puts the primitive itself into `mtext`, and `main` finds it there. -/
theorem mailAt_prim {prim : IpcPrim} {mtext mtext' : Mem} (htype : prim.type = ipcEvTypeTmr)
    (hrecv : Mem.Agree mtextSize (mtext.write 0 (primBytes prim)) mtext') :
    mailAt mtext' = .tmr prim := by
  have hlen : (primBytes prim).length = 11 := by simp [primBytes]
  have hholds : mtext'.Holds 0 (primBytes prim) := by
    refine (Mem.holds_write mtext 0 (primBytes prim)).congr fun k _ hk => hrecv k ?_
    rw [hlen] at hk
    exact hk.trans_le (by decide)
  rw [primBytes, Mem.holds_append, Mem.holds_cons] at hholds
  obtain ⟨h1, h2, h3⟩ := hholds
  simp only [leBytes_length, Nat.zero_add, Nat.reduceAdd] at h2 h3
  have hty : u16At mtext' 0 = prim.type := by
    have hmod : prim.type.toNat % 256 ^ 2 = prim.type.toNat := Nat.mod_eq_of_lt prim.type.toNat_lt
    rw [u16At, Mem.readLe, h1.read_eq (leBytes_length 2 _), leNat_leBytes, hmod,
      UInt16.ofNat_toNat]
  have hccb : ptrAt mtext' 3 = prim.ccb := by
    rw [ptrAt, Mem.readLe, h3.read_eq (leBytes_length 8 _), leNat_leBytes,
      Nat.mod_eq_of_lt (ptrNat_lt _), ptrOfNat_ptrNat]
  rw [mailAt, if_pos (hty.trans htype), primAt, hty, h2, hccb]

/-! ## 4. What arrives -/

/-- What `OFP_decode_frame` is to see of a chunk. -/
structure Sees (type : UInt8) (fd : ℤ) (chunk : List UInt8) (mail : OfpMbx) : Prop where
  len : mail.len ≤ ethMtu
  type : mail.type = type
  sockfd : mail.sockfd = fd
  mulen : mail.mulen.toNat = chunk.length
  mu : mail.mu.read 0 chunk.length = chunk

/-- **The chunk is delivered**: no copy leaves its buffers, and whatever stands in the memory of
`main` behind `mtext`, the decoder is called with the chunk. -/
structure Delivered (plane : Plane) (fd : ℤ) (chunk : List UInt8) (sent : Option Mem × List Copy) :
    Prop where
  copies : ∀ c ∈ sent.2, c.Within
  mail : ∃ mtext, sent.1 = some mtext ∧ ∀ mtext', Mem.Agree mtextSize mtext mtext' →
    ∃ mail, mailAt mtext' = .drv mail ∧ Sees plane.driv fd chunk mail

section Deliver

variable {plane : Plane} {fd : ℤ} {chunk : List UInt8} {buffer stack mtext : Mem}

/-- The header of a `tOFP_MSG`, and the message behind it. -/
theorem ofpMsg_fields (buffer : Mem) (type : UInt8) (h0 : -2 ^ 31 ≤ fd) (h1 : fd < 2 ^ 31) :
    ofpMsg type fd buffer 0 = type ∧ intAt (ofpMsg type fd buffer) 1 = fd ∧
      ∀ i, ofpMsg type fd buffer (5 + i) = buffer i := by
  have hholds : (ofpMsg type fd buffer).Holds 0 (type :: leBytes 4 (u32OfInt fd).toNat) :=
    Mem.holds_write _ 0 _
  obtain ⟨htype, hfd⟩ := Mem.holds_cons.mp hholds
  refine ⟨htype, ?_, fun i => ?_⟩
  · have hmod : (u32OfInt fd).toNat % 256 ^ 4 = (u32OfInt fd).toNat :=
      Nat.mod_eq_of_lt (u32OfInt fd).toNat_lt
    rw [intAt, u32At, Mem.readLe, hfd.read_eq (leBytes_length 4 _), leNat_leBytes, hmod,
      UInt32.ofNat_toNat, intOfU32_u32OfInt h0 h1]
  · rw [ofpMsg, Mem.write_apply_of_disjoint (Or.inr (by simp)), Nat.add_sub_cancel_left]

/-- What `main` finds in a message of at most `ETH_MTU` bytes. -/
theorem sees_of_agree {type : UInt8} {mtext' : Mem} (hmax : chunk.length + 5 ≤ ethMtu)
    (h0 : -2 ^ 31 ≤ fd) (h1 : fd < 2 ^ 31)
    (hag : Mem.Agree ofpMbxSize
      (fillMbx stack (ofpMsg type fd (buffer.write 0 chunk)) (chunk.length + 4 + 1)) mtext') :
    Sees type fd chunk (mbxAt mtext') := by
  obtain ⟨htype, hfd, hmsg⟩ := ofpMsg_fields (buffer.write 0 chunk) type h0 h1
  have htoNat : ((chunk.length : ℤ) + 4 + 1).toNat = chunk.length + 5 := by omega
  have hlen : (mbxAt mtext').len = chunk.length + 4 + 1 := by
    rw [mbxAt, intAt, u32At_congr hag (by decide), ← intAt, intAt_fillMbx (by omega) (by omega)]
  have hrefp : Mem.Agree (chunk.length + 5) (ofpMsg type fd (buffer.write 0 chunk))
      (mbxAt mtext').refp := by
    intro i hi
    have hi' : refpOff + i < ofpMbxSize := by
      simp only [refpOff, ofpMbxSize, ethMtu] at hmax ⊢
      omega
    have hget : (mbxAt mtext').refp i = _ := hag _ hi'
    rw [hget, refp_fillMbx (by omega), htoNat, if_pos hi]
  refine ⟨by omega, (hrefp 0 (by omega)).trans htype, ?_, ?_, ?_⟩
  · rw [OfpMbx.sockfd, intAt, u32At_congr hrefp (by omega), ← intAt, hfd]
  · simp only [ethMtu] at hmax
    rw [OfpMbx.mulen, hlen, UInt16.toNat_ofNat']
    omega
  · have hmu : Mem.Agree chunk.length (buffer.write 0 chunk) (mbxAt mtext').mu := by
      intro i hi
      exact (hrefp (5 + i) (by omega)).trans (hmsg i)
    rw [hmu.read_eq (by omega), Mem.read_write_self]

/-- **A chunk arrives exactly when it leaves five bytes of `ETH_MTU`**, on either plane, with any
descriptor, and whatever the buffers on the way held. -/
theorem delivered_iff (plane : Plane) (fd : ℤ) (chunk : List UInt8) (buffer stack mtext : Mem)
    (h0 : -2 ^ 31 ≤ fd) (h1 : fd < 2 ^ 31) (hpos : 1 ≤ chunk.length)
    (hrecv : chunk.length ≤ ethMtu) :
    Delivered plane fd chunk (sockd plane fd chunk buffer stack mtext)
      ↔ chunk.length + 5 ≤ ethMtu := by
  constructor
  · rintro ⟨-, msg, hmsg, -⟩
    by_contra hlong
    have hdrop : (ethMtu : ℤ) < chunk.length + 4 + 1 := by omega
    rw [sockd, send2mailbox, if_pos hdrop] at hmsg
    cases hmsg
  · intro hmax
    have hpass : ¬ (ethMtu : ℤ) < chunk.length + 4 + 1 := by omega
    have hsent : sockd plane fd chunk buffer stack mtext
        = (some (fillMtext mtext
            (fillMbx stack (ofpMsg plane.driv fd (buffer.write 0 chunk)) (chunk.length + 4 + 1))
            ofpMbxSize),
          [⟨chunk.length, [ethMtu]⟩,
            ⟨((chunk.length : ℤ) + 4 + 1).toNat, [ofpMsgSize, ethMtu]⟩,
            ⟨ofpMbxSize, [ofpMbxSize, mtextSize]⟩]) := by
      simp only [sockd, send2mailbox, if_neg hpass]
    rw [hsent]
    refine ⟨?_, _, rfl, fun mtext' hag => ⟨mbxAt mtext', ?_, ?_⟩⟩
    · simp only [List.forall_mem_cons, Copy.Within, ofpMsgSize, ofpMbxSize, mtextSize, ethMtu]
      simp only [ethMtu] at hmax
      refine ⟨⟨by omega, by simp⟩, ⟨by omega, by omega, by simp⟩, ⟨by omega, by omega, by simp⟩,
        by simp⟩
    · rw [mailAt, u16At_congr (agree_fillMbx hag) (by decide), u16At_fillMbx, if_neg (by decide),
        if_pos rfl]
    · exact sees_of_agree hmax h0 h1 (agree_fillMbx hag)

/-- The longest chunk that arrives. -/
theorem delivered_1495 : Delivered .cp 3 (List.replicate 1495 0)
    (sockd .cp 3 (List.replicate 1495 0) (fun _ => 0) (fun _ => 0) fun _ => 0) :=
  (delivered_iff .cp 3 (List.replicate 1495 0) _ _ _ (by decide) (by decide)
    (by rw [List.length_replicate]; decide) (by rw [List.length_replicate]; decide)).mpr
    (by rw [List.length_replicate]; decide)

/-- **A chunk of 1496 bytes**, which `recv` can return, is not even sent. -/
theorem not_delivered_1496 : ¬ Delivered .cp 3 (List.replicate 1496 0)
    (sockd .cp 3 (List.replicate 1496 0) (fun _ => 0) (fun _ => 0) fun _ => 0) := by
  rintro ⟨-, msg, hmsg, -⟩
  have hdrop : (ethMtu : ℤ) < (List.replicate 1496 (0 : UInt8)).length + 4 + 1 := by
    rw [List.length_replicate]
    decide
  rw [sockd, send2mailbox, if_pos hdrop] at hmsg
  cases hmsg

end Deliver

end Ofpagent.Agent
