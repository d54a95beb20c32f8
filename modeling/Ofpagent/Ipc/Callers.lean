/-
# The registry and its callers, on one queue

`ipc_reg` and `ipc_map` put a request on the registry's queue and wait, without limit, for a
message of their process number on the same queue.  `ipc` is the system of the registry and any
number of callers: a caller sends its request, the registry takes the first request and handles
it, a caller takes the first message of its number.

Three of the five exits of `house_keep` send nothing: the table is full, `GET_MSGQ` fails, the
key has no entry.  Section 1 says exactly when a request is answered.  Section 3 follows the
callers: where every request that is taken meets that condition, and a caller has a number that
no waiting caller has, and not the registry's, each caller has its request on the queue or the
answer to it, and never more.
-/
import Ofpagent.Ipc.Registry

namespace Ofpagent.Ipc

open Ofpagent.Lib

/-! ## 1. One request -/

/-- What a request has done to the registry's own queue. -/
def Handled.ownOps (x : Handled) : List QueueOp := x.ops.filter fun o => o.qid == ipcTblMsgid

/-- Exactly one message has been put on the registry's queue, to the requester, with the entry
of its key; and the queue has not been removed. -/
def RepliedOnce (m : Mail) (x : Handled) : Prop :=
  ∃ e : IpcTbl, e.key = m.data.key ∧ x.ownOps = [.snd ipcTblMsgid m.who (.tbl e)]

/-- A registration finds an entry, whose queue is not the registry's own; the key is not that of
the registry's own queue; and `GET_MSGQ` succeeds.  A mapping request finds its key. -/
def Answerable (r : Registry) (m : Mail) (a : Answers) : Prop :=
  0 < m.who ∧
    if m.type = ipcEvTypeReg then
      ∃ i, regSlot r.tbl m.data.key = some i ∧
        ((r.tbl i).valid = true → (r.tbl i).qid ≠ ipcTblMsgid) ∧
        (regQueues r m.data.key i).withKey m.data.key ≠ some ipcTblMsgid ∧
        (regGet r m.data.key i a).status = true
    else ∃ i, mapSlot r.tbl m.data.key = some i

instance (r : Registry) (m : Mail) (a : Answers) : Decidable (Answerable r m a) :=
  inferInstanceAs (Decidable (_ ∧ ite _ _ _))

/-- The removal of a queue, as a filter of operations sees it. -/
theorem rmidOps_filter (k : Msgqs Body) (qid : IpcId) :
    ((rmidOps k qid).filter fun o => o.qid == ipcTblMsgid) =
      if qid = ipcTblMsgid ∧ ipcTblMsgid ∈ k then [.rmid ipcTblMsgid] else [] := by
  unfold rmidOps
  by_cases hq : qid = ipcTblMsgid
  · subst hq
    by_cases hk : ipcTblMsgid ∈ k
    · rw [if_pos ⟨by decide, hk⟩, if_pos ⟨rfl, hk⟩]
      rfl
    · rw [if_neg fun h => hk h.2, if_neg fun h => hk h.2]
      rfl
  · have hne : ¬ (qid = ipcTblMsgid ∧ ipcTblMsgid ∈ k) := fun h => hq h.1
    rw [if_neg hne]
    split_ifs
    · simp [QueueOp.qid, hq]
    · rfl

/-- A `GET_MSGQ` that succeeds has removed the registry's queue just when it is that of the
key. -/
theorem getMsgq_ops_filter {k : Msgqs Body} {key : ℤ} {a : Answers} (hk : ipcTblMsgid ∈ k)
    (hok : (getMsgq k key a).status = true) :
    ((getMsgq k key a).ops.filter fun o => o.qid == ipcTblMsgid) = [] ↔
      k.withKey key ≠ some ipcTblMsgid := by
  by_cases hneg : (k.msgget key true a.excl).1 < 0
  · have hexcl := Msgqs.msgget_excl_of_neg hneg
    rw [getMsgq, if_pos hneg, hexcl] at hok ⊢
    -- with the queue of the key still there the last `msgget` fails
    have hagain : k.withKey key = some ipcTblMsgid → forceRmid k key a ≠ k := by
      intro hw hf
      have hn := of_decide_eq_true (Bool.and_eq_true_iff.mp hok).1
      simp only [hf, Msgqs.msgget_excl_of_withKey hw] at hn
      exact absurd hn (by decide)
    constructor
    · intro hops hw
      simp only [forceRmidOps] at hops
      refine hagain hw ?_
      unfold forceRmid
      rcases Msgqs.msgget_force_of_withKey hw a.force with h | h
      · rw [h]
        split_ifs
        · rfl
        · rfl
      · rw [h] at hops ⊢
        split_ifs at hops ⊢ with hr
        · rw [rmidOps_filter, if_pos ⟨rfl, hk⟩] at hops
          exact absurd hops (List.cons_ne_nil _ _)
        · rfl
    · intro hw
      simp only [forceRmidOps]
      split_ifs
      · refine (rmidOps_filter _ _).trans (if_neg ?_)
        rintro ⟨hf, -⟩
        rcases k.msgget_cases key false a.force with h | ⟨id, -, hid, h⟩ | ⟨id, -, hid, h⟩
        · rw [h] at hf
          exact absurd (show (-1 : ℤ) = 0 from hf) (by decide)
        · rw [h] at hf
          exact hid ((show id = ipcTblMsgid from hf) ▸ hk)
        · rw [h] at hf
          exact hw (hid.trans (congrArg some hf))
      · rfl
  · rw [getMsgq, if_neg hneg]
    refine iff_of_true rfl ?_
    intro hw
    rw [Msgqs.msgget_excl_of_withKey hw] at hneg
    exact hneg (show (-1 : ℤ) < 0 by decide)

/-- The operations of a registration before its answer are removals. -/
theorem rmid_of_mem {r : Registry} {key : ℤ} {i : Fin maxIpcNum} {a : Answers} {o : QueueOp}
    (ho : o ∈ regOps r key i ++ (regGet r key i a).ops) : ∃ qid, o = .rmid qid := by
  have hrm : ∀ k qid, o ∈ rmidOps k qid → ∃ qid, o = .rmid qid := by
    intro k qid h
    unfold rmidOps at h
    split_ifs at h
    · exact ⟨qid, List.mem_singleton.mp h⟩
    · exact absurd h List.not_mem_nil
  rcases List.mem_append.mp ho with h | h
  · unfold regOps at h
    split_ifs at h
    · exact hrm _ _ h
    · exact absurd h List.not_mem_nil
  · unfold regGet getMsgq forceRmidOps at h
    split_ifs at h
    · exact hrm _ _ h
    · exact absurd h List.not_mem_nil
    · exact absurd h List.not_mem_nil

/-- What a registration does to the entry's queue is nothing to the registry's. -/
theorem regOps_filter {r : Registry} {key : ℤ} {i : Fin maxIpcNum} (hq : ipcTblMsgid ∈ r.queues)
    (hs : regSlot r.tbl key = some i) :
    ((regOps r key i).filter fun o => o.qid == ipcTblMsgid) = [] ↔
      ((r.tbl i).valid = true → (r.tbl i).qid ≠ ipcTblMsgid) := by
  have hkey := (regSlot_eq_some hs).1
  unfold regOps
  split_ifs with hold
  · have hv := (Bool.and_eq_true_iff.mp hold).1
    rw [rmidOps_filter]
    by_cases h : (r.tbl i).qid = ipcTblMsgid
    · rw [if_pos ⟨h, hq⟩]
      exact iff_of_false (List.cons_ne_nil _ _) (by simp [hv, h])
    · rw [if_neg fun hc => h hc.1]
      exact iff_of_true rfl fun _ => h
  · refine iff_of_true rfl ?_
    intro hv
    simp [hv, hkey hv] at hold

theorem lookup_regQueues {r : Registry} (key : ℤ) {i : Fin maxIpcNum} {q : Msgq Body}
    (hq : r.queues.lookup ipcTblMsgid = some q)
    (hi : (r.tbl i).valid = true → (r.tbl i).qid ≠ ipcTblMsgid) :
    (regQueues r key i).lookup ipcTblMsgid = some q := by
  unfold regQueues delMsgq
  split_ifs with hold
  · have hv := (Bool.and_eq_true_iff.mp hold).1
    rw [Msgqs.lookup_rmid_ne _ (hi hv).symm, hq]
  · exact hq

theorem lookup_sentQueues (k : Msgqs Body) (q : Msgq Body) (mtype : ℤ) (body : Body) :
    (sentQueues k q mtype body).lookup ipcTblMsgid =
      some { q with msgs := q.msgs ++ [(mtype, body)] } := AList.lookup_insert _

/-- **A request that is answerable is answered**, behind what was on the queue. -/
theorem houseKeep_answered {r : Registry} {m : Mail} {a : Answers} {q : Msgq Body}
    (hq : r.queues.lookup ipcTblMsgid = some q)
    (ht : m.type = ipcEvTypeReg ∨ m.type = ipcEvTypeMap) (h : Answerable r m a) :
    ∃ e : IpcTbl, e.key = m.data.key ∧
      (houseKeep r m a).ownOps = [.snd ipcTblMsgid m.who (.tbl e)] ∧
      (houseKeep r m a).reg.queues.lookup ipcTblMsgid =
        some { q with msgs := q.msgs ++ [(m.who, .tbl e)] } := by
  have hmem : ipcTblMsgid ∈ r.queues := AList.lookup_isSome.mp (by simp [hq])
  obtain ⟨hpos, h⟩ := h
  by_cases hreg : m.type = ipcEvTypeReg
  · rw [if_pos hreg] at h
    obtain ⟨i, hs, hi, hw, hok⟩ := h
    have hq1 := lookup_regQueues m.data.key hq hi
    have hmem1 : ipcTblMsgid ∈ regQueues r m.data.key i := AList.lookup_isSome.mp (by simp [hq1])
    have hq2 : (regGet r m.data.key i a).queues.lookup ipcTblMsgid = some q :=
      lookup_getMsgq hq1 hw
    have hops : ((regHandled r m.data.key i a).ops.filter fun o => o.qid == ipcTblMsgid) = [] := by
      rw [regHandled, List.filter_append, (regOps_filter hmem hs).mpr hi]
      exact (getMsgq_ops_filter hmem1 hok).mpr hw
    rw [houseKeep, if_pos hreg, houseKeepReg_ok hs hok, Handled.reply_eq _ _ hq2 hpos]
    refine ⟨regEntry r m.data.key i a, rfl, ?_, lookup_sentQueues _ _ _ _⟩
    rw [Handled.ownOps, List.filter_append, hops]
    rfl
  · rw [if_neg hreg] at h
    obtain ⟨i, hs⟩ := h
    have hmap := ht.resolve_left hreg
    rw [houseKeep, if_neg hreg, if_pos hmap, houseKeepMap_ok hs, Handled.reply_eq _ _ hq hpos]
    exact ⟨r.tbl i, (mapSlot_eq_some hs).2, rfl, lookup_sentQueues _ _ _ _⟩

/-- A registration that sends has found an entry and made its queue, and it sends behind what it
has removed. -/
theorem sent_of_reg {r : Registry} {m : Mail} {a : Answers} {who : ℤ} {body : Body}
    (h : .snd ipcTblMsgid who body ∈ (houseKeepReg r m a).ops) :
    0 < m.who ∧ ∃ i, regSlot r.tbl m.data.key = some i ∧
      (regGet r m.data.key i a).status = true ∧
      ∃ e, (houseKeepReg r m a).ops =
        (regOps r m.data.key i ++ (regGet r m.data.key i a).ops) ++
          [.snd ipcTblMsgid m.who (.tbl e)] := by
  cases hs : regSlot r.tbl m.data.key with
  | none =>
    rw [houseKeepReg_none a hs] at h
    exact absurd h List.not_mem_nil
  | some i =>
    cases hok : (regGet r m.data.key i a).status with
    | false =>
      rw [houseKeepReg_failed hs hok] at h
      obtain ⟨qid, h⟩ := rmid_of_mem h
      exact QueueOp.noConfusion h
    | true =>
      rw [houseKeepReg_ok hs hok] at h ⊢
      rcases (regHandled r m.data.key i a).reply_cases (regEntry r m.data.key i a) m.who
        with heq | ⟨hpos, q, -, heq⟩
      · rw [heq] at h
        obtain ⟨qid, h⟩ := rmid_of_mem h
        exact QueueOp.noConfusion h
      · rw [heq]
        exact ⟨hpos, i, rfl, hok, _, rfl⟩

/-- A mapping request that sends has found its key. -/
theorem sent_of_map {r : Registry} {m : Mail} {o : QueueOp} (h : o ∈ (houseKeepMap r m).ops) :
    0 < m.who ∧ ∃ i, mapSlot r.tbl m.data.key = some i := by
  cases hs : mapSlot r.tbl m.data.key with
  | none =>
    rw [houseKeepMap_none hs] at h
    exact absurd h List.not_mem_nil
  | some i =>
    rw [houseKeepMap_ok hs] at h
    rcases Handled.reply_cases ⟨.entry (r.tbl i), r, []⟩ (r.tbl i) m.who with heq | ⟨hpos, -⟩
    · rw [heq] at h
      exact absurd h List.not_mem_nil
    · exact ⟨hpos, i, rfl⟩

/-- **Which requests are answered**, exactly. -/
theorem repliedOnce_iff {r : Registry} {m : Mail} {a : Answers} (hmem : ipcTblMsgid ∈ r.queues)
    (ht : m.type = ipcEvTypeReg ∨ m.type = ipcEvTypeMap) :
    RepliedOnce m (houseKeep r m a) ↔ Answerable r m a := by
  obtain ⟨q, hq⟩ := Option.isSome_iff_exists.mp (AList.lookup_isSome.mpr hmem)
  constructor
  · rintro ⟨e, -, hops⟩
    have hsnd : (.snd ipcTblMsgid m.who (.tbl e) : QueueOp) ∈ (houseKeep r m a).ops := by
      have h : (.snd ipcTblMsgid m.who (.tbl e) : QueueOp) ∈ (houseKeep r m a).ownOps := by
        rw [hops]
        exact List.mem_singleton_self _
      exact List.mem_of_mem_filter h
    by_cases hreg : m.type = ipcEvTypeReg
    · rw [houseKeep, if_pos hreg] at hops hsnd
      obtain ⟨hpos, i, hs, hok, e', heq⟩ := sent_of_reg hsnd
      -- one message is all there is on the registry's queue, so no removal is
      rw [Handled.ownOps, heq, List.filter_append] at hops
      have hnil : ((regOps r m.data.key i ++ (regGet r m.data.key i a).ops).filter
          fun o => o.qid == ipcTblMsgid) = [] := by
        have hlen := congrArg List.length hops
        rw [List.length_append] at hlen
        exact List.eq_nil_of_length_eq_zero (Nat.succ.inj hlen)
      rw [List.filter_append, List.append_eq_nil_iff] at hnil
      have hi := (regOps_filter hmem hs).mp hnil.1
      have hq1 := lookup_regQueues m.data.key hq hi
      have hw := (getMsgq_ops_filter (AList.lookup_isSome.mp (by simp [hq1])) hok).mp hnil.2
      refine ⟨hpos, ?_⟩
      rw [if_pos hreg]
      exact ⟨i, hs, hi, hw, hok⟩
    · rw [houseKeep, if_neg hreg, if_pos (ht.resolve_left hreg)] at hsnd
      refine ⟨(sent_of_map hsnd).1, ?_⟩
      rw [if_neg hreg]
      exact (sent_of_map hsnd).2
  · intro h
    obtain ⟨e, hkey, hops, -⟩ := houseKeep_answered hq ht h
    exact ⟨e, hkey, hops⟩

/-! ## 2. The callers -/

/-- A process number. -/
abbrev Pid := { p : ℤ // 0 < p }

/-- What a caller of `ipc_reg` or `ipc_map` does: nothing, it waits with a request in
`ipc_sendw`, or the call has returned, with the entry it was answered with or without. -/
inductive Caller
  | idle
  | waiting (m : Mail)
  | answered (m : Mail) (e : IpcTbl)
  | failed
  deriving DecidableEq

/-- The registry, the mail it has received last, and the callers. -/
structure Sys (ι : Type*) where
  reg : Registry
  mail : Mail
  caller : ι → Caller

/-- The steps: a caller calls `ipc_reg` or `ipc_map`, with an entry that has its key and what
the stack held; `house_keep` goes once through its loop; a caller receives. -/
inductive Move (ι : Type*)
  | reg (c : ι) (entry : IpcTbl)
  | map (c : ι) (entry : IpcTbl)
  | serve (a : Answers)
  | receive (c : ι)

variable {ι : Type*}

def Caller.waits : Caller → Option Mail
  | .idle => none
  | .waiting m => some m
  | .answered _ _ => none
  | .failed => none

/-- `ipc_sendw` up to its `msgrcv`. -/
def ipcSendw [DecidableEq ι] (pid : ι → Pid) (s : Sys ι) (c : ι) (data : IpcTbl) (type : ℤ) :
    Option (Sys ι) :=
  if (s.caller c).waits.isSome then none
  else
    let mail : Mail := ⟨data, type, (pid c).1⟩
    match sndMsgqt s.reg.queues ipcDefQid (.mail mail) ipcDefUsr with
    | none => some { s with caller := Function.update s.caller c .failed }
    | some k =>
      some { s with
        reg := { s.reg with queues := k }
        caller := Function.update s.caller c (.waiting mail) }

/-- What `ipc_rcv` makes of `mail`: an answer is shorter than a mail and covers its data only. -/
def rcvMail (mail : Mail) (body : Body) : Mail :=
  match body with
  | .mail m => m
  | .tbl e => { mail with data := e }

/-- A waiting caller whose queue is removed is told so. -/
def wake (ops : List QueueOp) (x : Caller) : Caller :=
  if x.waits.isSome ∧ QueueOp.rmid ipcDefQid ∈ ops then .failed else x

/-- A step, where it can be taken.  A mail that is received in the place of an answer is longer
than the caller's entry; that is undefined. -/
def sysStep [DecidableEq ι] (pid : ι → Pid) (s : Sys ι) (l : Move ι) : Option (Sys ι) :=
  match l with
  | .reg c entry => ipcSendw pid s c entry ipcEvTypeReg
  | .map c entry => ipcSendw pid s c entry ipcEvTypeMap
  | .serve a =>
    (s.reg.queues.msgrcv ipcTblMsgid ipcDefUsr).map fun x =>
      let m := rcvMail s.mail x.1
      let h := houseKeep { s.reg with queues := x.2 } m a
      { reg := h.reg, mail := m, caller := fun c => wake h.ops (s.caller c) }
  | .receive c =>
    (s.caller c).waits.bind fun m =>
      (s.reg.queues.msgrcv ipcDefQid (pid c).1).bind fun x =>
        match x.1 with
        | .mail _ => none
        | .tbl e =>
          some { s with
            reg := { s.reg with queues := x.2 }
            caller := Function.update s.caller c (.answered m e) }

/-- The system: `ipcdInit` has succeeded, the table is empty and nobody has called. -/
def ipc [DecidableEq ι] (pid : ι → Pid) : Lts (Sys ι) (Move ι) where
  init s := (∃ k a, ipcdInit k a = some s.reg.queues) ∧ (∀ i, (s.reg.tbl i).valid = false) ∧
    ∀ c, s.caller c = .idle
  step s l s' := sysStep pid s l = some s'

/-! ## 3. Runs -/

/-- No other caller of the same number waits, and the number is not the registry's. -/
def MayCall (pid : ι → Pid) (s : Sys ι) (c : ι) : Prop :=
  (pid c).1 ≠ ipcDefUsr ∧ ∀ d, pid d = pid c → d ≠ c → (s.caller d).waits = none

/-- The condition on a step: who calls may call, and what is served is answerable. -/
def Orderly (pid : ι → Pid) (s : Sys ι) : Move ι → Prop
  | .reg c _ => MayCall pid s c
  | .map c _ => MayCall pid s c
  | .serve a => ∀ x, s.reg.queues.msgrcv ipcTblMsgid ipcDefUsr = some x →
      Answerable { s.reg with queues := x.2 } (rcvMail s.mail x.1) a
  | .receive _ => True

instance [Fintype ι] [DecidableEq ι] (pid : ι → Pid) (s : Sys ι) (c : ι) :
    Decidable (MayCall pid s c) :=
  inferInstanceAs (Decidable (_ ≠ _ ∧ ∀ _, _ = _ → _ ≠ _ → _ = _))

instance [Fintype ι] [DecidableEq ι] (pid : ι → Pid) (s : Sys ι) (l : Move ι) :
    Decidable (Orderly pid s l) :=
  match l with
  | .reg c _ => inferInstanceAs (Decidable (MayCall pid s c))
  | .map c _ => inferInstanceAs (Decidable (MayCall pid s c))
  | .serve a =>
    inferInstanceAs (Decidable (∀ x ∈ s.reg.queues.msgrcv ipcTblMsgid ipcDefUsr,
      Answerable { s.reg with queues := x.2 } (rcvMail s.mail x.1) a))
  | .receive _ => isTrue trivial

/-- Whose message it is: a request is its sender's, anything else goes by its type. -/
def addressee (x : ℤ × Body) : ℤ :=
  match x.2 with
  | .mail m => if x.1 = ipcDefUsr then m.who else x.1
  | .tbl _ => x.1

def mine (p : ℤ) (l : List (ℤ × Body)) : List (ℤ × Body) := l.filter fun x => addressee x == p

/-- **What a waiting caller has on the queue**: its request, or the answer to it. -/
inductive Pending (m : Mail) : List (ℤ × Body) → Prop
  | request : Pending m [(ipcDefUsr, .mail m)]
  | answer {e : IpcTbl} : e.key = m.data.key → Pending m [(m.who, .tbl e)]

/-- The invariant; `q` is the registry's queue. -/
structure Inv (pid : ι → Pid) (s : Sys ι) (q : Msgq Body) : Prop where
  queue : s.reg.queues.lookup ipcTblMsgid = some q
  owned : ∀ x ∈ q.msgs, ∃ c m, s.caller c = .waiting m ∧ addressee x = (pid c).1
  pending : ∀ c m, s.caller c = .waiting m → Pending m (mine (pid c).1 q.msgs)
  mail : ∀ c m, s.caller c = .waiting m →
    (m.type = ipcEvTypeReg ∨ m.type = ipcEvTypeMap) ∧ m.who = (pid c).1 ∧ (pid c).1 ≠ ipcDefUsr
  alone : ∀ c d m m', s.caller c = .waiting m → s.caller d = .waiting m' → pid c = pid d → c = d
  answered : ∀ c m e, s.caller c = .answered m e → e.key = m.data.key
  unfailed : ∀ c, s.caller c ≠ .failed

variable {pid : ι → Pid}

/-- A number that no waiting caller has is on no message. -/
theorem Inv.mine_eq_nil {s : Sys ι} {q : Msgq Body} (h : Inv pid s q) {p : ℤ}
    (hp : ∀ c m, s.caller c = .waiting m → (pid c).1 ≠ p) : mine p q.msgs = [] := by
  refine List.filter_eq_nil_iff.mpr ?_
  intro x hx hxp
  obtain ⟨c, m, hc, hxc⟩ := h.owned x hx
  exact hp c m hc (hxc.symm.trans (beq_iff_eq.mp hxp))

theorem mine_append (p : ℤ) (as bs : List (ℤ × Body)) :
    mine p (as ++ bs) = mine p as ++ mine p bs := List.filter_append ..

theorem mine_cons_of_ne {p : ℤ} {x : ℤ × Body} (hx : addressee x ≠ p) (l : List (ℤ × Body)) :
    mine p (x :: l) = mine p l := List.filter_cons_of_neg (by simpa using hx)

theorem mine_cons_self (x : ℤ × Body) (l : List (ℤ × Body)) :
    mine (addressee x) (x :: l) = x :: mine (addressee x) l :=
  List.filter_cons_of_pos (by simp)

/-- A message of another number is nothing to `p`, wherever it stands. -/
theorem mine_remove_of_ne {p : ℤ} {x : ℤ × Body} (hx : addressee x ≠ p) (as bs : List (ℤ × Body)) :
    mine p (as ++ x :: bs) = mine p (as ++ bs) := by
  rw [mine_append, mine_cons_of_ne hx, ← mine_append]

theorem mine_snoc_of_ne {p : ℤ} {x : ℤ × Body} (hx : addressee x ≠ p) (l : List (ℤ × Body)) :
    mine p (l ++ [x]) = mine p l := by
  rw [mine_remove_of_ne hx, List.append_nil]

theorem Pending.inv {m : Mail} {x : ℤ × Body} (h : Pending m [x]) :
    x = (ipcDefUsr, .mail m) ∨ ∃ e : IpcTbl, e.key = m.data.key ∧ x = (m.who, .tbl e) := by
  generalize hl : [x] = l at h
  cases h with
  | request => exact .inl (List.singleton_inj.mp hl)
  | answer he => exact .inr ⟨_, he, List.singleton_inj.mp hl⟩

theorem Pending.length_eq {m : Mail} {l : List (ℤ × Body)} (h : Pending m l) : l.length = 1 := by
  cases h with
  | request => rfl
  | answer _ => rfl

/-- What a caller has on the queue is one message, so a message of its number is that one, and
without it there is none. -/
theorem Pending.split {m : Mail} {x : ℤ × Body} {as bs : List (ℤ × Body)}
    (h : Pending m (mine (addressee x) (as ++ x :: bs))) :
    Pending m [x] ∧ mine (addressee x) (as ++ bs) = [] := by
  rw [mine_append, mine_cons_self] at h
  have hlen := h.length_eq
  rw [List.length_append, List.length_cons] at hlen
  have has : mine (addressee x) as = [] := List.eq_nil_of_length_eq_zero (by omega)
  have hbs : mine (addressee x) bs = [] := List.eq_nil_of_length_eq_zero (by omega)
  rw [has, hbs] at h
  rw [mine_append, has, hbs]
  exact ⟨h, rfl⟩

section Steps

variable [DecidableEq ι] {s s' : Sys ι} {q : Msgq Body}

/-- What a call does where the registry has its queue. -/
theorem ipcSendw_cases {c : ι} {data : IpcTbl} {type : ℤ}
    (hq : s.reg.queues.lookup ipcTblMsgid = some q)
    (hs : ipcSendw pid s c data type = some s') :
    (∀ m, s.caller c ≠ .waiting m) ∧ (∀ d, d ≠ c → s'.caller d = s.caller d) ∧
      s'.caller c = .waiting ⟨data, type, (pid c).1⟩ ∧
      s'.reg.queues.lookup ipcTblMsgid =
        some { q with msgs := q.msgs ++ [(ipcDefUsr, .mail ⟨data, type, (pid c).1⟩)] } := by
  have hsnd : sndMsgqt s.reg.queues ipcDefQid (.mail ⟨data, type, (pid c).1⟩) ipcDefUsr =
      some (sentQueues s.reg.queues q ipcDefUsr (.mail ⟨data, type, (pid c).1⟩)) :=
    Msgqs.msgsnd_eq _ hq (by decide)
  unfold ipcSendw at hs
  split_ifs at hs with hw
  simp only [hsnd] at hs
  rw [← Option.some.inj hs]
  refine ⟨?_, ?_, Function.update_self .., lookup_sentQueues ..⟩
  · intro m hm
    exact hw (by simp [hm, Caller.waits])
  · intro d hd
    exact Function.update_of_ne hd ..

omit [DecidableEq ι] in
/-- A step that moves one caller keeps what is said of the answered and of the failed ones, if it
holds of that one. -/
theorem Inv.settled (h : Inv pid s q) {c : ι} (hof : ∀ d, d ≠ c → s'.caller d = s.caller d)
    (hans : ∀ m e, s'.caller c = .answered m e → e.key = m.data.key)
    (hfail : s'.caller c ≠ .failed) :
    (∀ d m e, s'.caller d = .answered m e → e.key = m.data.key) ∧ ∀ d, s'.caller d ≠ .failed := by
  constructor
  · intro d m e hd
    rcases eq_or_ne d c with rfl | hdc
    · exact hans m e hd
    · exact h.answered d m e ((hof d hdc).symm.trans hd)
  · intro d hd
    rcases eq_or_ne d c with rfl | hdc
    · exact hfail hd
    · exact h.unfailed d ((hof d hdc).symm.trans hd)

/-- **A call** puts its request behind what is on the queue, where nothing is its own. -/
theorem Inv.send (h : Inv pid s q) {c : ι} {data : IpcTbl} {type : ℤ}
    (ht : type = ipcEvTypeReg ∨ type = ipcEvTypeMap) (hc : MayCall pid s c)
    (hs : ipcSendw pid s c data type = some s') : ∃ q', Inv pid s' q' := by
  obtain ⟨hidle, hof, hself, hqueue⟩ := ipcSendw_cases h.queue hs
  set mail : Mail := ⟨data, type, (pid c).1⟩
  have hother : ∀ d m, s.caller d = .waiting m → d ≠ c ∧ (pid d).1 ≠ (pid c).1 := by
    intro d m hd
    have hdc : d ≠ c := by
      rintro rfl
      exact hidle m hd
    refine ⟨hdc, ?_⟩
    intro hp
    have hnone := hc.2 d (Subtype.ext hp) hdc
    rw [hd] at hnone
    exact absurd hnone (by simp [Caller.waits])
  have hnew : ∀ d m, s'.caller d = .waiting m → d = c ∧ m = mail ∨ s.caller d = .waiting m := by
    intro d m hd
    rcases eq_or_ne d c with rfl | hdc
    · rw [hself] at hd
      exact .inl ⟨rfl, (Caller.waiting.inj hd).symm⟩
    · rw [hof d hdc] at hd
      exact .inr hd
  have hmine : addressee (ipcDefUsr, .mail mail) = (pid c).1 := by
    rw [addressee]
    exact if_pos rfl
  have hsettled := h.settled hof (fun _ _ hd => Caller.noConfusion (hself.symm.trans hd))
    (fun hd => Caller.noConfusion (hself.symm.trans hd))
  refine ⟨_, hqueue, ?_, ?_, ?_, ?_, ?_, ?_⟩
  · intro x hx
    rcases List.mem_append.mp hx with hx | hx
    · obtain ⟨d, m, hd, hxd⟩ := h.owned x hx
      exact ⟨d, m, (hof d (hother d m hd).1).trans hd, hxd⟩
    · rw [List.mem_singleton.mp hx]
      exact ⟨c, mail, hself, hmine⟩
  · intro d m hd
    rcases hnew d m hd with ⟨rfl, rfl⟩ | hd'
    · rw [mine_append, h.mine_eq_nil fun d m hd => (hother d m hd).2, List.nil_append, ← hmine,
        mine_cons_self]
      exact .request
    · have hne : addressee (ipcDefUsr, .mail mail) ≠ (pid d).1 := by
        rw [hmine]
        exact (hother d m hd').2.symm
      rw [mine_snoc_of_ne hne]
      exact h.pending d m hd'
  · intro d m hd
    rcases hnew d m hd with ⟨rfl, rfl⟩ | hd'
    · exact ⟨ht, rfl, hc.1⟩
    · exact h.mail d m hd'
  · intro d d' m m' hd hd' hp
    rcases hnew d m hd with ⟨rfl, rfl⟩ | hdw
    · rcases hnew d' m' hd' with ⟨rfl, rfl⟩ | hdw'
      · rfl
      · exact absurd (congrArg Subtype.val hp).symm (hother d' m' hdw').2
    · rcases hnew d' m' hd' with ⟨rfl, rfl⟩ | hdw'
      · exact absurd (congrArg Subtype.val hp) (hother d m hdw).2
      · exact h.alone d d' m m' hdw hdw' hp
  · exact hsettled.1
  · exact hsettled.2

/-- **A round of the registry** replaces a request by the answer to it. -/
theorem Inv.serve (h : Inv pid s q) {a : Answers} (ho : Orderly pid s (.serve a))
    (hs : sysStep pid s (.serve a) = some s') : ∃ q', Inv pid s' q' := by
  obtain ⟨⟨body, k⟩, hrcv, hs'⟩ := Option.map_eq_some_iff.mp hs
  obtain ⟨q', as, bs, hq', hmsgs, -, rfl⟩ := Msgqs.msgrcv_eq_some hrcv
  obtain rfl := Option.some.inj (hq'.symm.trans h.queue)
  -- the message is that of a waiting caller, and so it is its request
  obtain ⟨c, m, hc, hxc⟩ := h.owned (ipcDefUsr, body) (by simp [hmsgs])
  obtain ⟨ht, hwho, husr⟩ := h.mail c m hc
  have hsplit := h.pending c m hc
  rw [hmsgs, ← hxc] at hsplit
  obtain ⟨hx, hnil⟩ := hsplit.split
  obtain rfl : body = .mail m := by
    rcases hx.inv with hx | ⟨e, -, hx⟩
    · exact (Prod.mk.inj hx).2
    · exact absurd ((Prod.mk.inj hx).1.trans hwho).symm husr
  obtain ⟨e, hkey, hops, hqueue⟩ := houseKeep_answered (AList.lookup_insert _) ht (ho _ hrcv)
  have hcaller : ∀ d, s'.caller d = s.caller d := by
    intro d
    rw [← hs']
    refine if_neg ?_
    rintro ⟨-, hrm⟩
    have hown : QueueOp.rmid ipcDefQid ∈ [.snd ipcTblMsgid m.who (.tbl e)] := by
      rw [← hops]
      exact List.mem_filter.mpr ⟨hrm, rfl⟩
    exact QueueOp.noConfusion (List.mem_singleton.mp hown)
  have hmine : addressee (m.who, .tbl e) = (pid c).1 := hwho
  have hold : ∀ x ∈ as ++ bs, x ∈ q'.msgs := by
    intro x hx
    rw [hmsgs]
    exact ((List.sublist_cons_self _ bs).append_left as).subset hx
  refine ⟨{ q' with msgs := as ++ bs ++ [(m.who, .tbl e)] }, ?_, ?_, ?_, ?_, ?_, ?_, ?_⟩
  · rw [← hs']
    exact hqueue
  · intro x hx
    rcases List.mem_append.mp hx with hx | hx
    · obtain ⟨d, m', hd, hxd⟩ := h.owned x (hold x hx)
      exact ⟨d, m', (hcaller d).trans hd, hxd⟩
    · rw [List.mem_singleton.mp hx]
      exact ⟨c, m, (hcaller c).trans hc, hmine⟩
  · intro d m' hd
    rw [hcaller] at hd
    by_cases hp : pid d = pid c
    · obtain rfl := h.alone d c m' m hd hc hp
      obtain rfl := Caller.waiting.inj (hd.symm.trans hc)
      rw [mine_append, ← hxc, hnil, hxc, ← hmine, mine_cons_self]
      exact .answer hkey
    · have hne : (pid c).1 ≠ (pid d).1 := fun hv => hp (Subtype.ext hv.symm)
      have hpend := h.pending d m' hd
      rw [hmsgs, mine_remove_of_ne (hxc ▸ hne)] at hpend
      rw [mine_snoc_of_ne (hmine ▸ hne)]
      exact hpend
  · intro d m' hd
    rw [hcaller] at hd
    exact h.mail d m' hd
  · intro d d' m1 m2 hd hd' hp
    rw [hcaller] at hd hd'
    exact h.alone d d' m1 m2 hd hd' hp
  · intro d m' e' hd
    rw [hcaller] at hd
    exact h.answered d m' e' hd
  · intro d
    rw [hcaller]
    exact h.unfailed d

/-- What a receive does where the registry has its queue. -/
theorem receive_cases {c : ι} (hq : s.reg.queues.lookup ipcTblMsgid = some q)
    (hs : sysStep pid s (.receive c) = some s') :
    ∃ m e as bs, s.caller c = .waiting m ∧ q.msgs = as ++ ((pid c).1, .tbl e) :: bs ∧
      s'.caller c = .answered m e ∧ (∀ d, d ≠ c → s'.caller d = s.caller d) ∧
      s'.reg.queues.lookup ipcTblMsgid = some { q with msgs := as ++ bs } := by
  obtain ⟨m, hm, hs⟩ := Option.bind_eq_some_iff.mp hs
  obtain ⟨⟨body, k⟩, hrcv, hs⟩ := Option.bind_eq_some_iff.mp hs
  obtain ⟨q', as, bs, hq', hmsgs, -, rfl⟩ := Msgqs.msgrcv_eq_some hrcv
  obtain rfl := Option.some.inj (hq'.symm.trans hq)
  have hc : s.caller c = .waiting m := by
    cases hcc : s.caller c with
    | idle => simp [hcc, Caller.waits] at hm
    | waiting m' => simpa [hcc, Caller.waits] using hm
    | answered m' e => simp [hcc, Caller.waits] at hm
    | failed => simp [hcc, Caller.waits] at hm
  cases body with
  | mail m' => simp at hs
  | tbl e =>
    rw [← Option.some.inj hs]
    refine ⟨m, e, as, bs, hc, hmsgs, Function.update_self .., ?_, AList.lookup_insert _⟩
    intro d hd
    exact Function.update_of_ne hd ..

/-- **A caller that receives** gets the answer to its own request. -/
theorem Inv.receive (h : Inv pid s q) {c : ι} (hs : sysStep pid s (.receive c) = some s') :
    ∃ q', Inv pid s' q' := by
  obtain ⟨m, e, as, bs, hc, hmsgs, hself, hof, hqueue⟩ := receive_cases h.queue hs
  obtain ⟨-, hwho, husr⟩ := h.mail c m hc
  have hsplit := h.pending c m hc
  rw [hmsgs, show (pid c).1 = addressee ((pid c).1, .tbl e) from rfl] at hsplit
  obtain ⟨hx, hnil⟩ := hsplit.split
  have hkey : e.key = m.data.key := by
    rcases hx.inv with hx | ⟨e', he', hx⟩
    · exact Body.noConfusion (Prod.mk.inj hx).2
    · rw [Body.tbl.inj (Prod.mk.inj hx).2]
      exact he'
  have hwaits : ∀ d m', s'.caller d = .waiting m' → d ≠ c ∧ s.caller d = .waiting m' := by
    intro d m' hd
    have hdc : d ≠ c := by
      rintro rfl
      exact Caller.noConfusion (hself.symm.trans hd)
    exact ⟨hdc, (hof d hdc).symm.trans hd⟩
  have hanswered : ∀ m' e', s'.caller c = .answered m' e' → e'.key = m'.data.key := by
    intro m' e' hd
    obtain ⟨rfl, rfl⟩ := Caller.answered.inj (hself.symm.trans hd)
    exact hkey
  have hsettled := h.settled hof hanswered fun hd => Caller.noConfusion (hself.symm.trans hd)
  refine ⟨{ q with msgs := as ++ bs }, hqueue, ?_, ?_, ?_, ?_, ?_, ?_⟩
  · intro x hin
    have hold : x ∈ q.msgs := by
      rw [hmsgs]
      exact ((List.sublist_cons_self _ bs).append_left as).subset hin
    obtain ⟨d, m', hd, hxd⟩ := h.owned x hold
    have hdc : d ≠ c := by
      rintro rfl
      have hmem : x ∈ mine (addressee ((pid d).1, .tbl e)) (as ++ bs) :=
        List.mem_filter.mpr ⟨hin, beq_iff_eq.mpr hxd⟩
      rw [hnil] at hmem
      exact List.not_mem_nil hmem
    exact ⟨d, m', (hof d hdc).trans hd, hxd⟩
  · intro d m' hd
    obtain ⟨hdc, hd'⟩ := hwaits d m' hd
    have hne : addressee ((pid c).1, .tbl e) ≠ (pid d).1 := by
      intro hp
      exact hdc (h.alone d c m' m hd' hc (Subtype.ext hp.symm))
    have hpend := h.pending d m' hd'
    rw [hmsgs, mine_remove_of_ne hne] at hpend
    exact hpend
  · intro d m' hd
    exact h.mail d m' (hwaits d m' hd).2
  · intro d d' m1 m2 hd hd' hp
    exact h.alone d d' m1 m2 (hwaits d m1 hd).2 (hwaits d' m2 hd').2 hp
  · exact hsettled.1
  · exact hsettled.2

end Steps

/-- What the callers are promised: who waits has exactly its request or exactly its answer on
the registry's queue, and can go on or be served; who has been answered has the entry of its own
key; and no call has failed. -/
structure Promised [DecidableEq ι] (pid : ι → Pid) (s : Sys ι) : Prop where
  pending : ∀ c m, s.caller c = .waiting m →
    ∃ q, s.reg.queues.lookup ipcTblMsgid = some q ∧ Pending m (mine (pid c).1 q.msgs)
  goesOn : ∀ c m, s.caller c = .waiting m →
    (sysStep pid s (.receive c)).isSome ∨ ∀ a, (sysStep pid s (.serve a)).isSome
  answered : ∀ c m e, s.caller c = .answered m e → e.key = m.data.key
  unfailed : ∀ c, s.caller c ≠ .failed

/-- A waiting caller's answer can be received, and its request served. -/
theorem Inv.goesOn [DecidableEq ι] {s : Sys ι} {q : Msgq Body} (h : Inv pid s q) {c : ι} {m : Mail}
    (hc : s.caller c = .waiting m) :
    (sysStep pid s (.receive c)).isSome ∨ ∀ a, (sysStep pid s (.serve a)).isSome := by
  obtain ⟨-, hwho, husr⟩ := h.mail c m hc
  have hmem : ∀ x ∈ mine (pid c).1 q.msgs, x ∈ q.msgs := fun x => List.mem_of_mem_filter
  have hpend := h.pending c m hc
  generalize hl : mine (pid c).1 q.msgs = l at hpend hmem
  cases hpend with
  | request =>
    right
    intro a
    have hrcv := Msgqs.msgrcv_isSome h.queue (hmem _ (List.mem_singleton_self _))
    simpa [sysStep] using hrcv
  | @answer e he =>
    left
    have hin := hmem _ (List.mem_singleton_self _)
    obtain ⟨⟨body, k⟩, hrcv⟩ :=
      Option.isSome_iff_exists.mp (Msgqs.msgrcv_isSome h.queue hin)
    obtain ⟨q', as, bs, hq', hmsgs, -, -⟩ := Msgqs.msgrcv_eq_some hrcv
    obtain rfl := Option.some.inj (hq'.symm.trans h.queue)
    -- the first message of its number is the answer, there being no other
    have hfirst : (m.who, body) ∈ mine (pid c).1 q'.msgs := by
      refine List.mem_filter.mpr ⟨by simp [hmsgs], ?_⟩
      cases body with
      | mail m' => simp [addressee, hwho, husr]
      | tbl e' => simp [addressee, hwho]
    rw [hl, List.mem_singleton] at hfirst
    obtain rfl := (Prod.mk.inj hfirst).2
    have hrcv' : s.reg.queues.msgrcv ipcDefQid (pid c).1 = some (.tbl e, k) := hwho ▸ hrcv
    simp [sysStep, hc, Caller.waits, hrcv']

/-! ## 4. The system, started -/

/-- The system behind `ipcdInit`; the last mail is what the stack held. -/
def Sys.fresh (ι : Type*) : Sys ι := ⟨Registry.fresh, ⟨⟨0, 0, false⟩, 0, 0⟩, fun _ => .idle⟩

theorem ipc_init [DecidableEq ι] (pid : ι → Pid) : (ipc pid).init (Sys.fresh ι) :=
  ⟨⟨∅, ⟨some 0, none, true, none, true, true⟩, rfl⟩, fun _ => rfl, fun _ => rfl⟩

/-- Two callers, of the numbers 77 and 78. -/
def pids (c : Fin 2) : Pid := ⟨77 + c.1, by omega⟩

/-- **Which requests are answered, and what it means for the callers.**  A registration or a
mapping request gets exactly one reply, with the entry of its key, just when it is answerable;
and in every run whose steps are orderly every caller has what it is promised. -/
theorem requests_answered {ι : Type*} [DecidableEq ι] (pid : ι → Pid) :
    (∀ (r : Registry) (m : Mail) (a : Answers), ipcTblMsgid ∈ r.queues →
      m.type = ipcEvTypeReg ∨ m.type = ipcEvTypeMap →
        (RepliedOnce m (houseKeep r m a) ↔ Answerable r m a)) ∧
      ∀ ts s, Run (ipc pid) ts s → (∀ t ∈ ts, Orderly pid t.pre t.lab) → Promised pid s := by
  constructor
  · intro r m a hmem ht
    exact repliedOnce_iff hmem ht
  · intro ts s h hgood
    have hinv : ∃ q, Inv pid s q := by
      refine h.invariant (fun s => ∃ q, Inv pid s q) (Orderly pid) ?_ ?_ hgood
      · rintro s ⟨⟨k, a, hk⟩, -, hidle⟩
        refine ⟨_, ipcdInit_queue hk, ?_, ?_, ?_, ?_, ?_, ?_⟩
        · simp
        · simp [hidle]
        · simp [hidle]
        · simp [hidle]
        · simp [hidle]
        · simp [hidle]
      · rintro s l s' ⟨q, hq⟩ hl hs
        cases l with
        | reg c entry => exact hq.send (.inl rfl) hl hs
        | map c entry => exact hq.send (.inr rfl) hl hs
        | serve a => exact hq.serve hl hs
        | receive c => exact hq.receive hs
    obtain ⟨q, hq⟩ := hinv
    constructor
    · intro c m hc
      exact ⟨q, hq.queue, hq.pending c m hc⟩
    · intro c m hc
      exact hq.goesOn hc
    · exact hq.answered
    · exact hq.unfailed

/-- One caller registers the key, the other maps it; both have asked before either is served. -/
theorem requests_answered_two :
    ∃ ts s, Run (ipc pids) ts s ∧ ts.length = 5 ∧ Promised pids s ∧
      s.caller 1 = .answered ⟨⟨0, 1, false⟩, ipcEvTypeMap, 78⟩ ⟨8, 1, true⟩ := by
  obtain ⟨ts, s, h, hl, hgood, hP⟩ := Run.of_exec (fun _ _ _ hs => hs) (ipc_init pids)
    [.reg 0 ⟨0, 1, false⟩, .map 1 ⟨0, 1, false⟩, .serve .granted, .serve .refused, .receive 1]
    (Orderly pids)
    (fun s => s.caller 1 = .answered ⟨⟨0, 1, false⟩, ipcEvTypeMap, 78⟩ ⟨8, 1, true⟩)
    (by decide +kernel)
  refine ⟨ts, s, h, ?_, (requests_answered pids).2 ts s h hgood, hP⟩
  simpa using congrArg List.length hl

/-- The process 78 maps the key 1. -/
def reqMapEarly : Mail := ⟨⟨0, 1, false⟩, ipcEvTypeMap, 78⟩

/-- **A key without an entry**: its mapping request is not answered, and the caller waits with
nothing on the queue. -/
theorem unanswered_mapping :
    ¬ RepliedOnce reqMapEarly (houseKeep .fresh reqMapEarly .granted) ∧
      ∃ ts s, Run (ipc pids) ts s ∧ ¬ Promised pids s := by
  constructor
  · rw [repliedOnce_iff (by decide) (.inr rfl)]
    decide +kernel
  · obtain ⟨ts, s, h, -, -, hwait, hrcv, hserve⟩ := Run.of_exec (fun _ _ _ hs => hs) (ipc_init pids)
      [.map 1 ⟨0, 1, false⟩, .serve .granted] (fun _ _ => True)
      (fun s => (s.caller 1).waits.isSome ∧ (sysStep pids s (.receive 1)).isNone ∧
        (sysStep pids s (.serve .granted)).isNone)
      (by decide +kernel)
    refine ⟨ts, s, h, ?_⟩
    intro hp
    cases hc : s.caller 1 with
    | idle => simp [hc, Caller.waits] at hwait
    | answered m e => simp [hc, Caller.waits] at hwait
    | failed => simp [hc, Caller.waits] at hwait
    | waiting m =>
      rcases hp.goesOn 1 m hc with hr | hr
      · simp [Option.isNone_iff_eq_none.mp hrcv] at hr
      · have hr' := hr .granted
        simp [Option.isNone_iff_eq_none.mp hserve] at hr'

end Ofpagent.Ipc
