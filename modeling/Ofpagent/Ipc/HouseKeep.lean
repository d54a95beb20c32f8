/-
# `ipc.c`: the registry and its callers

The functions of `ipc.c` that the registry process and its callers are made of: `GET_MSGQ`,
`DEL_MSGQ`, `ipc_send2who`, `ipcdInit`, and `house_keep`, one request at a time.  A request
leaves `house_keep` by one of five exits (`Exit`); the operations that succeeded on queues are
listed as it goes (`QueueOp`), so that what happens to one queue can be read off.

Of `tIPC_TBL` the fields `pid`, `name` and `type` are left out; they are copied and printed, and
nothing is decided by them.  `house_keep` runs only after `ipcdInit` found `ipc_tbl_msgid` to
be 0, the queue its callers send to.
-/
import Ofpagent.Basic
import Ofpagent.Lib.Msgq
import Mathlib

namespace Ofpagent.Ipc

open Ofpagent.Lib

/-! ## 1. Data -/

/-- `MAX_IPC_NUM`, `IPC_DEF_USR` and `IPC_DEF_QID`. -/
def maxIpcNum : ℕ := 64
def ipcDefUsr : ℤ := 10
def ipcDefQid : IpcId := 0

/-- `IPC_EV_TYPE_REG` and `IPC_EV_TYPE_MAP`. -/
def ipcEvTypeReg : ℤ := 6
def ipcEvTypeMap : ℤ := 7

/-- `ipc_tbl_msgkey`, and `ipc_tbl_msgid` as `ipcdInit` leaves it. -/
def ipcTblMsgkey : ℤ := 5
def ipcTblMsgid : IpcId := 0

/-- `tIPC_TBL`. -/
structure IpcTbl where
  qid : IpcId
  key : ℤ
  valid : Bool
  deriving DecidableEq

/-- `tMAIL` of a request: its data is a `tIPC_TBL`. -/
structure Mail where
  data : IpcTbl
  type : ℤ
  who : ℤ
  deriving DecidableEq

/-- What a message on the registry's queue carries: a request or an answer. -/
inductive Body
  | mail (m : Mail)
  | tbl (e : IpcTbl)
  deriving DecidableEq

/-- `ipc_tbl` of `house_keep`, and the queues of the system. -/
structure Registry where
  tbl : Fin maxIpcNum → IpcTbl
  queues : Msgqs Body

/-- An operation on a queue that succeeded. -/
inductive QueueOp
  | rmid (qid : IpcId)
  | snd (qid : IpcId) (mtype : ℤ) (body : Body)
  deriving DecidableEq

def QueueOp.qid : QueueOp → IpcId
  | .rmid qid => qid
  | .snd qid _ _ => qid

/-! ## 2. Queues -/

/-- What the system answers to the calls of `GET_MSGQ`, in their order: to the first `msgget`,
to the `msgget` that forces, to `IPC_RMID`, to the last `msgget`, to `IPC_STAT` and `IPC_SET`. -/
structure Answers where
  excl : Option ℤ
  force : Option ℤ
  rmid : Bool
  again : Option ℤ
  stat : Bool
  set : Bool

/-- The `IPC_RMID` of a queue that may not be there. -/
def rmidOps (k : Msgqs Body) (qid : IpcId) : List QueueOp :=
  if 0 ≤ qid ∧ qid ∈ k then [.rmid qid] else []

/-- What `GET_MSGQ` returns, what it writes to `*qid`, and what it does to the queues. -/
structure GetMsgq where
  status : Bool
  qid : IpcId
  queues : Msgqs Body
  ops : List QueueOp

/-- The middle of `GET_MSGQ`: the queue of the key, which is there already, is removed. -/
def forceRmid (k : Msgqs Body) (key : ℤ) (a : Answers) : Msgqs Body :=
  if a.rmid then (k.msgget key false a.force).2.rmid (k.msgget key false a.force).1
  else (k.msgget key false a.force).2

def forceRmidOps (k : Msgqs Body) (key : ℤ) (a : Answers) : List QueueOp :=
  if a.rmid then rmidOps (k.msgget key false a.force).2 (k.msgget key false a.force).1 else []

/-- `GET_MSGQ`. -/
def getMsgq (k : Msgqs Body) (key : ℤ) (a : Answers) : GetMsgq :=
  if (k.msgget key true a.excl).1 < 0 then
    let n := (forceRmid (k.msgget key true a.excl).2 key a).msgget key true a.again
    ⟨decide (0 ≤ n.1) && (a.stat && a.set), n.1, n.2,
      forceRmidOps (k.msgget key true a.excl).2 key a⟩
  else
    ⟨a.stat && a.set, (k.msgget key true a.excl).1, (k.msgget key true a.excl).2, []⟩

/-- `DEL_MSGQ`. -/
def delMsgq (k : Msgqs Body) (msgid : IpcId) : Msgqs Body := k.rmid msgid

/-- `SND_MSGQ` and `SND_MSGQT`. -/
def sndMsgq (k : Msgqs Body) (qid : IpcId) (msg : Body) : Option (Msgqs Body) :=
  k.msgsnd qid 0 msg
def sndMsgqt (k : Msgqs Body) (qid : IpcId) (msg : Body) (mtype : ℤ) : Option (Msgqs Body) :=
  k.msgsnd qid mtype msg

/-- `ipc_send2who`. -/
def ipcSend2who (k : Msgqs Body) (qid : IpcId) (data : Body) (who : ℤ) : Option (Msgqs Body) :=
  if who = 0 then sndMsgq k qid data else sndMsgqt k qid data who

/-- `ipcdInit`: the queues when the registry starts, or `none` when it does not. -/
def ipcdInit (k : Msgqs Body) (a : Answers) : Option (Msgqs Body) :=
  let g := getMsgq k ipcTblMsgkey a
  if g.status = false then none
  else if g.qid ≠ 0 then none
  else some g.queues

/-! ## 3. `house_keep` -/

/-- How a request leaves `house_keep`: with one of the three error texts, with an entry that is
sent to the requester, or as neither a registration nor a mapping. -/
inductive Exit
  | noResources
  | noMsgq
  | noMapping
  | entry (e : IpcTbl)
  | other
  deriving DecidableEq

/-- A request behind `house_keep`. -/
structure Handled where
  exit : Exit
  reg : Registry
  ops : List QueueOp

/-- The loop of `IPC_EV_TYPE_REG`: it ends at the entry of the key and at the first free one. -/
def regSlot (tbl : Fin maxIpcNum → IpcTbl) (key : ℤ) : Option (Fin maxIpcNum) :=
  Fin.find? fun i => ((tbl i).valid && (tbl i).key == key) || (tbl i).valid == false

/-- The loop of `IPC_EV_TYPE_MAP`. -/
def mapSlot (tbl : Fin maxIpcNum → IpcTbl) (key : ℤ) : Option (Fin maxIpcNum) :=
  Fin.find? fun i => (tbl i).valid && (tbl i).key == key

/-- `ipc_send2who` at the end of both cases.  A failure is only printed. -/
def Handled.reply (x : Handled) (e : IpcTbl) (who : ℤ) : Handled :=
  match ipcSend2who x.reg.queues ipcTblMsgid (.tbl e) who with
  | none => x
  | some q =>
    { x with
      reg := { x.reg with queues := q }
      ops := x.ops ++ [.snd ipcTblMsgid who (.tbl e)] }

/-- The queues when `GET_MSGQ` is called: an entry of the same key has lost its queue. -/
def regQueues (r : Registry) (key : ℤ) (i : Fin maxIpcNum) : Msgqs Body :=
  if (r.tbl i).valid && (r.tbl i).key == key then delMsgq r.queues (r.tbl i).qid else r.queues

def regOps (r : Registry) (key : ℤ) (i : Fin maxIpcNum) : List QueueOp :=
  if (r.tbl i).valid && (r.tbl i).key == key then rmidOps r.queues (r.tbl i).qid else []

/-- The `GET_MSGQ` of a registration that has the entry `i`. -/
def regGet (r : Registry) (key : ℤ) (i : Fin maxIpcNum) (a : Answers) : GetMsgq :=
  getMsgq (regQueues r key i) key a

/-- `IPC_EV_TYPE_REG`. -/
def houseKeepReg (r : Registry) (m : Mail) (a : Answers) : Handled :=
  match regSlot r.tbl m.data.key with
  | none => ⟨.noResources, r, []⟩
  | some i =>
    let g := regGet r m.data.key i a
    let ops := regOps r m.data.key i ++ g.ops
    -- `GET_MSGQ` writes its result to the entry before it is known to be one
    if g.status = false then
      ⟨.noMsgq, ⟨Function.update r.tbl i { r.tbl i with qid := g.qid }, g.queues⟩, ops⟩
    else
      let e : IpcTbl := ⟨g.qid, m.data.key, true⟩
      Handled.reply ⟨.entry e, ⟨Function.update r.tbl i e, g.queues⟩, ops⟩ e m.who

/-- `IPC_EV_TYPE_MAP`. -/
def houseKeepMap (r : Registry) (m : Mail) : Handled :=
  match mapSlot r.tbl m.data.key with
  | none => ⟨.noMapping, r, []⟩
  | some i => Handled.reply ⟨.entry (r.tbl i), r, []⟩ (r.tbl i) m.who

/-- The body of the loop of `house_keep` behind `ipc_rcv`. -/
def houseKeep (r : Registry) (m : Mail) (a : Answers) : Handled :=
  if m.type = ipcEvTypeReg then houseKeepReg r m a
  else if m.type = ipcEvTypeMap then houseKeepMap r m
  else ⟨.other, r, []⟩

/-! ## 4. What a call does to the queues -/

/-- The queue that `GET_MSGQ` removes is that of the key, or has just been made, or is none. -/
theorem lookup_forceRmid {k : Msgqs Body} {key : ℤ} {a : Answers} {b : ℤ} {q : Msgq Body}
    (hb : k.lookup b = some q) (hw : k.withKey key ≠ some b) :
    (forceRmid k key a).lookup b = some q := by
  have hmem : b ∈ k := AList.lookup_isSome.mp (by simp [hb])
  have hf : (k.msgget key false a.force).2.lookup b = some q := Msgqs.lookup_msgget hb
  unfold forceRmid
  split_ifs
  · rcases k.msgget_cases key false a.force with h | ⟨id, -, hid, h⟩ | ⟨id, -, hid, h⟩
    · rw [h] at hf ⊢
      exact hf
    · have hne : b ≠ id := by
        rintro rfl
        exact hid hmem
      rw [h] at hf ⊢
      rw [Msgqs.lookup_rmid_ne _ hne, hf]
    · have hne : b ≠ id := by
        rintro rfl
        exact hw hid
      rw [h] at hf ⊢
      rw [Msgqs.lookup_rmid_ne _ hne, hf]
  · exact hf

/-- **`GET_MSGQ` touches no queue but that of its key.** -/
theorem lookup_getMsgq {k : Msgqs Body} {key : ℤ} {a : Answers} {b : ℤ} {q : Msgq Body}
    (hb : k.lookup b = some q) (hw : k.withKey key ≠ some b) :
    (getMsgq k key a).queues.lookup b = some q := by
  unfold getMsgq
  split_ifs with hneg
  · rw [Msgqs.msgget_excl_of_neg hneg]
    exact Msgqs.lookup_msgget (lookup_forceRmid hb hw)
  · exact Msgqs.lookup_msgget hb

theorem keyOf_getMsgq {k : Msgqs Body} {key : ℤ} {a : Answers} {b key' : ℤ}
    (hb : k.keyOf b = some key') (hkey : key' ≠ key) :
    (getMsgq k key a).queues.keyOf b = some key' := by
  obtain ⟨q, hq, rfl⟩ := Option.map_eq_some_iff.mp hb
  have hw : k.withKey key ≠ some b := by
    intro hw
    obtain ⟨q', hq', hkey'⟩ := Msgqs.withKey_eq_some hw
    rw [hq] at hq'
    exact hkey (Option.some.inj hq' ▸ hkey')
  rw [Msgqs.keyOf, lookup_getMsgq hq hw]
  rfl

/-- **A successful `GET_MSGQ` yields a new queue of the key.** -/
theorem getMsgq_ok {k : Msgqs Body} {key : ℤ} {a : Answers}
    (h : (getMsgq k key a).status = true) :
    (getMsgq k key a).queues.lookup (getMsgq k key a).qid = some ⟨key, []⟩ := by
  by_cases hneg : (k.msgget key true a.excl).1 < 0
  · rw [getMsgq, if_pos hneg] at h ⊢
    have h0 := of_decide_eq_true (Bool.and_eq_true_iff.mp h).1
    exact Msgqs.lookup_msgget_excl h0
  · rw [getMsgq, if_neg hneg]
    exact Msgqs.lookup_msgget_excl (not_lt.mp hneg)

/-- The registry starts with its queue, and nothing is on it. -/
theorem ipcdInit_queue {k k' : Msgqs Body} {a : Answers} (h : ipcdInit k a = some k') :
    k'.lookup ipcTblMsgid = some ⟨ipcTblMsgkey, []⟩ := by
  unfold ipcdInit at h
  dsimp only at h
  split_ifs at h with hok hid
  have hq := getMsgq_ok (by simpa using hok)
  rw [not_ne_iff.mp hid, Option.some.inj h] at hq
  exact hq

/-! ## 5. The answer -/

/-- The queues behind a message to the registry's queue `q`. -/
def sentQueues (k : Msgqs Body) (q : Msgq Body) (mtype : ℤ) (body : Body) : Msgqs Body :=
  k.insert ipcTblMsgid { q with msgs := q.msgs ++ [(mtype, body)] }

/-- Type 0 is what `SND_MSGQ` sends. -/
theorem ipcSend2who_eq (k : Msgqs Body) (qid : IpcId) (data : Body) (who : ℤ) :
    ipcSend2who k qid data who = k.msgsnd qid who data := by
  unfold ipcSend2who sndMsgq sndMsgqt
  split_ifs with h
  · rw [h]
  · rfl

/-- An answer to a positive process number is sent, when the registry has its queue. -/
theorem Handled.reply_eq (x : Handled) (e : IpcTbl) {who : ℤ} {q : Msgq Body}
    (hq : x.reg.queues.lookup ipcTblMsgid = some q) (hpos : 0 < who) :
    x.reply e who =
      ⟨x.exit, ⟨x.reg.tbl, sentQueues x.reg.queues q who (.tbl e)⟩,
        x.ops ++ [.snd ipcTblMsgid who (.tbl e)]⟩ := by
  rw [reply, ipcSend2who_eq, Msgqs.msgsnd_eq _ hq hpos]
  rfl

/-- **An answer is sent or it is not**, and then nothing has happened. -/
theorem Handled.reply_cases (x : Handled) (e : IpcTbl) (who : ℤ) :
    x.reply e who = x ∨
      0 < who ∧ ∃ q, x.reg.queues.lookup ipcTblMsgid = some q ∧
        x.reply e who =
          ⟨x.exit, ⟨x.reg.tbl, sentQueues x.reg.queues q who (.tbl e)⟩,
            x.ops ++ [.snd ipcTblMsgid who (.tbl e)]⟩ := by
  cases h : ipcSend2who x.reg.queues ipcTblMsgid (.tbl e) who with
  | none =>
    left
    rw [reply, h]
  | some k =>
    right
    rw [ipcSend2who_eq] at h
    obtain ⟨hpos, q, hq, -⟩ := Msgqs.msgsnd_eq_some h
    exact ⟨hpos, q, hq, x.reply_eq e hq hpos⟩

/-! ## 6. The exits -/

/-- The entry a registration fills in. -/
def regEntry (r : Registry) (key : ℤ) (i : Fin maxIpcNum) (a : Answers) : IpcTbl :=
  ⟨(regGet r key i a).qid, key, true⟩

/-- A registration that is served, before its answer. -/
def regHandled (r : Registry) (key : ℤ) (i : Fin maxIpcNum) (a : Answers) : Handled :=
  ⟨.entry (regEntry r key i a),
    ⟨Function.update r.tbl i (regEntry r key i a), (regGet r key i a).queues⟩,
    regOps r key i ++ (regGet r key i a).ops⟩

theorem houseKeepReg_none {r : Registry} {m : Mail} (a : Answers)
    (hs : regSlot r.tbl m.data.key = none) : houseKeepReg r m a = ⟨.noResources, r, []⟩ := by
  unfold houseKeepReg
  rw [hs]

theorem houseKeepReg_failed {r : Registry} {m : Mail} {a : Answers} {i : Fin maxIpcNum}
    (hs : regSlot r.tbl m.data.key = some i) (hg : (regGet r m.data.key i a).status = false) :
    houseKeepReg r m a =
      ⟨.noMsgq,
        ⟨Function.update r.tbl i { r.tbl i with qid := (regGet r m.data.key i a).qid },
          (regGet r m.data.key i a).queues⟩,
        regOps r m.data.key i ++ (regGet r m.data.key i a).ops⟩ := by
  unfold houseKeepReg
  rw [hs]
  exact if_pos hg

theorem houseKeepReg_ok {r : Registry} {m : Mail} {a : Answers} {i : Fin maxIpcNum}
    (hs : regSlot r.tbl m.data.key = some i) (hg : (regGet r m.data.key i a).status = true) :
    houseKeepReg r m a =
      (regHandled r m.data.key i a).reply (regEntry r m.data.key i a) m.who := by
  unfold houseKeepReg
  rw [hs]
  exact if_neg (by simp [hg])

theorem houseKeepMap_none {r : Registry} {m : Mail} (hs : mapSlot r.tbl m.data.key = none) :
    houseKeepMap r m = ⟨.noMapping, r, []⟩ := by
  unfold houseKeepMap
  rw [hs]

theorem houseKeepMap_ok {r : Registry} {m : Mail} {i : Fin maxIpcNum}
    (hs : mapSlot r.tbl m.data.key = some i) :
    houseKeepMap r m = Handled.reply ⟨.entry (r.tbl i), r, []⟩ (r.tbl i) m.who := by
  unfold houseKeepMap
  rw [hs]

end Ofpagent.Ipc
