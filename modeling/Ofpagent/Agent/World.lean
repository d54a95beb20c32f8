/-
# The agent among its tasks

`Main.lean` has the main loop, one mail a round, and `Timer.Tasks` has the timer task.  `world` is
the system of the four processes around the message queue: the timer task, the two readers and
`main`, whose calls of the timer library go through the critical sections one by one.

* A round of `main` is computed when its mail is taken, and what it does to the world is done
  afterwards, act by act, in the order of the source.  The port belongs to `main`, so nobody can
  tell the difference; the next mail is taken when all is done.
* `msgsnd` succeeds, and the queue is first in, first out: every message has the one type
  `IPC_DEF_USR`.  A restart does not purge it.
* A killed process takes no further step.  Neither does a reader that has closed its socket:
  `select` fails on it from then on.
* The body of a critical section is one step.
-/
import Ofpagent.Agent.Buffers
import Ofpagent.Timer.Keys

namespace Ofpagent.Agent

open Ofpagent.Lib
open Ofpagent.Timer (Lab Call Sys TmrIdx)

/-! ## 1. The processes and the queue -/

/-- The reader of the control plane: there is none, it receives from `fd`, or it has found the
connection closed and closed its socket. -/
inductive Reader
  | none
  | reading (fd : ℤ)
  | closed
  deriving DecidableEq

/-- A message in the queue.  `session` and `start` are not in the source and nothing reads them:
the session it was sent in, and the start of the timer that has fired. -/
structure Msg where
  mail : Mail
  session : ℕ
  start : ℕ

/-- The four processes and the queue.  `todo` is what is left of the round of `main`; `dp` is the
socket of the data-plane reader.  The last four fields are not in the source and nothing reads
them: the number of the session, which `tmrInit` begins, how many timers have been started, by
which start each control block was put into the list, and that of the block popped last. -/
structure World where
  agent : Ofpd
  todo : List Act
  sys : Sys Unit
  alive : Bool
  cp : Reader
  dp : ℤ
  queue : List Msg
  session : ℕ
  starts : ℕ
  born : TmrIdx → ℕ
  popped : ℕ

/-- A step: of the timer task or of a signal to it; of a reader whose `recv` returns `rxlen`; of
`main`, which takes a mail, does the next act of its round, or goes on inside the timer
library. -/
inductive Ev
  | osTmr (l : Lab Unit)
  | sockdCp (rxlen : ℤ) (buffer stack : Mem)
  | sockdDp (rxlen : ℤ) (buffer stack : Mem)
  | ipcRcv2 (e : Env)
  | act
  | lib

/-- A step that is not one of an application. -/
def ofTimer : Lab Unit → Bool
  | .app _ _ => false
  | .tmr _ | .deliver | .eintr => true

/-- The call of the timer library that an act is. -/
def Act.timerCall : Act → Option Call
  | startTmr a => some (.startTmr a)
  | stopXtmr ccb event => some (.stopXtmr ccb event)
  | _ => none

namespace World

/-- What the timer task puts into the queue of `main` in this step. -/
def sends (w : World) : Lab Unit → List Msg
  | .tmr _ =>
    match w.sys.tmr with
    | .send _ que prim => if que = w.agent.ofpQid then [⟨.tmr prim, w.session, w.popped⟩] else []
    | _ => []
  | _ => []

/-- The start of the block at the head of the list, if the timer task is about to pop it. -/
def pops (w : World) : ℕ :=
  match w.sys.tmr with
  | .inside (.pop _) => w.sys.shm.tmrHdr.elim w.popped w.born
  | _ => w.popped

/-- A step of the timer task, or of a signal to it. -/
def osTmr (w : World) (l : Lab Unit) : Option World :=
  if w.alive = true ∧ ofTimer l = true then
    (w.sys.step l).map fun sys =>
      { w with sys := sys, queue := w.queue ++ w.sends l, popped := w.pops }
  else none

/-- What a reader puts into the queue. -/
def drvMsg (w : World) (mail : OfpMbx) : Msg := ⟨.drv mail, w.session, 0⟩

/-- `ofp_sockd_cp`, once round its loop. -/
def sockdCp (w : World) (rxlen : ℤ) (buffer stack : Mem) : Option World :=
  match w.cp with
  | .reading fd =>
    if -1 ≤ rxlen ∧ rxlen ≤ ethMtu then
      some { w with
        cp := if rxlen ≤ 0 then .closed else .reading fd
        queue := w.queue ++ ((ofpSockdCp fd rxlen buffer stack).map w.drvMsg).toList }
    else none
  | _ => none

/-- `ofp_sockd_dp`, once round its loop. -/
def sockdDp (w : World) (rxlen : ℤ) (buffer stack : Mem) : Option World :=
  if -1 ≤ rxlen ∧ rxlen ≤ ethMtu then
    some { w with queue := w.queue ++ ((ofpSockdDp w.dp rxlen buffer stack).map w.drvMsg).toList }
  else none

/-- `main` takes a mail when it has done with the one before. -/
def ipcRcv2 (w : World) (e : Env) : Option World :=
  match w.queue with
  | [] => none
  | m :: queue =>
    if w.sys.app () = .idle ∧ w.todo.isEmpty = true ∧ e.node ∉ w.agent.heap then
      (mainStep w.agent m.mail e).map fun q => { w with agent := q.1, todo := q.2, queue := queue }
    else none

/-- `main` enters the timer library. -/
def call (w : World) (c : Call) : World := { w with sys := w.sys.setApp () (.wait c.sec) }

/-- One act.  What is transmitted leaves the system, and a call of a handler has been recorded
only. -/
def perform (w : World) : Act → World
  | .startTmr a => w.call (.startTmr a)
  | .stopXtmr ccb event => w.call (.stopXtmr ccb event)
  | .killTasks => { w with alive := false, cp := .none }
  | .tmrInit => { w with sys := Sys.start w.sys.shm, alive := true, session := w.session + 1 }
  | .forkCp => { w with cp := .reading (w.agent.ofpIoFds .cp) }
  | .fsm _ | .hdl _ | .xmit _ _ | .notResponding => w

/-- The next act of the round. -/
def act (w : World) : Option World :=
  match w.todo with
  | [] => none
  | a :: todo => if w.sys.app () = .idle then some ({ w with todo := todo }.perform a) else none

/-- The bookkeeping of the starts: a block that joins the list gets the number of its start. -/
def stamp (w : World) : World :=
  match w.sys.app () with
  | .inside (.startInsert _ tcb) =>
    { w with starts := w.starts + 1, born := Function.update w.born tcb (w.starts + 1) }
  | _ => w

section Stamp

variable (w : World)

@[simp] theorem stamp_agent : w.stamp.agent = w.agent := by unfold stamp; split <;> rfl
@[simp] theorem stamp_todo : w.stamp.todo = w.todo := by unfold stamp; split <;> rfl
@[simp] theorem stamp_alive : w.stamp.alive = w.alive := by unfold stamp; split <;> rfl
@[simp] theorem stamp_cp : w.stamp.cp = w.cp := by unfold stamp; split <;> rfl
@[simp] theorem stamp_queue : w.stamp.queue = w.queue := by unfold stamp; split <;> rfl
@[simp] theorem stamp_session : w.stamp.session = w.session := by unfold stamp; split <;> rfl
@[simp] theorem stamp_popped : w.stamp.popped = w.popped := by unfold stamp; split <;> rfl

end Stamp

/-- A step of `main` inside the timer library, which knows by then what has been called. -/
def lib (w : World) : Option World :=
  if w.sys.app () = .idle then none
  else (w.sys.appl () (.stopTmrs none)).map fun sys => { w.stamp with sys := sys }

def step (w : World) : Ev → Option World
  | .osTmr l => w.osTmr l
  | .sockdCp rxlen buffer stack => w.sockdCp rxlen buffer stack
  | .sockdDp rxlen buffer stack => w.sockdDp rxlen buffer stack
  | .ipcRcv2 e => w.ipcRcv2 e
  | .act => w.act
  | .lib => w.lib

/-- `main` behind its first `OFP_FSM`, with all of its acts still to do.  Nobody looks at the
memory of the timer before `tmrInit`. -/
def start (agent : Ofpd) (acts : List Act) (shm : Timer.TmrCbs) : World :=
  { agent := agent, todo := acts, sys := Sys.start shm, alive := false, cp := .none
    dp := agent.ofpIoFds .dp, queue := [], session := 0, starts := 0, born := fun _ => 0
    popped := 0 }

/-- `main` is between two mails. -/
def Between (w : World) : Prop := w.sys.app () = .idle ∧ w.todo = []

end World

/-- **The agent among its tasks.** -/
def world : Lts World Ev where
  init w := ∃ ccb qid e agent acts shm, ofpdRestart (ofpdZero ccb qid) e = some (agent, acts) ∧
    w = World.start agent acts shm
  step w l w' := w.step l = some w'

/-! ## 2. What a step can do -/

/-- A step of the system. -/
inductive Moved (w : World) : Ev → World → Prop
  | osTmr {l sys} : w.alive = true → ofTimer l = true → w.sys.step l = some sys →
      Moved w (.osTmr l) { w with sys := sys, queue := w.queue ++ w.sends l, popped := w.pops }
  | sockdCp {fd rxlen buffer stack} : w.cp = .reading fd → -1 ≤ rxlen →
      Moved w (.sockdCp rxlen buffer stack)
        { w with
          cp := if rxlen ≤ 0 then .closed else .reading fd
          queue := w.queue ++ ((ofpSockdCp fd rxlen buffer stack).map w.drvMsg).toList }
  | sockdDp {rxlen buffer stack} : Moved w (.sockdDp rxlen buffer stack)
      { w with queue := w.queue ++ ((ofpSockdDp w.dp rxlen buffer stack).map w.drvMsg).toList }
  | ipcRcv2 {e m queue agent acts} : w.Between → w.queue = m :: queue → e.node ∉ w.agent.heap →
      mainStep w.agent m.mail e = some (agent, acts) →
      Moved w (.ipcRcv2 e) { w with agent := agent, todo := acts, queue := queue }
  | act {a todo} : w.sys.app () = .idle → w.todo = a :: todo →
      Moved w .act ({ w with todo := todo }.perform a)
  | lib {sys} : w.sys.app () ≠ .idle → w.sys.appl () (.stopTmrs none) = some sys →
      Moved w .lib { w.stamp with sys := sys }

theorem World.step_moved {w w' : World} {l : Ev} (h : w.step l = some w') : Moved w l w' := by
  cases l with
  | osTmr l =>
    simp only [World.step, World.osTmr] at h
    split_ifs at h with hc
    obtain ⟨sys, hsys, rfl⟩ := Option.map_eq_some_iff.mp h
    exact .osTmr hc.1 hc.2 hsys
  | sockdCp rxlen buffer stack =>
    simp only [World.step, World.sockdCp] at h
    split at h
    · next fd hcp =>
      by_cases hc : -1 ≤ rxlen ∧ rxlen ≤ ethMtu
      · rw [if_pos hc] at h
        cases h
        exact .sockdCp hcp hc.1
      · rw [if_neg hc] at h
        cases h
    · cases h
  | sockdDp rxlen buffer stack =>
    simp only [World.step, World.sockdDp] at h
    split_ifs at h
    cases h
    exact .sockdDp
  | ipcRcv2 e =>
    simp only [World.step, World.ipcRcv2] at h
    split at h
    · cases h
    · next m queue hq =>
      split_ifs at h with hc
      obtain ⟨⟨agent, acts⟩, hrun, rfl⟩ := Option.map_eq_some_iff.mp h
      exact .ipcRcv2 ⟨hc.1, List.isEmpty_iff.mp hc.2.1⟩ hq hc.2.2 hrun
  | act =>
    simp only [World.step, World.act] at h
    split at h
    · cases h
    · next a todo htodo =>
      split_ifs at h with hc
      cases h
      exact .act hc htodo
  | lib =>
    simp only [World.step, World.lib] at h
    split_ifs at h with hc
    obtain ⟨sys, hsys, rfl⟩ := Option.map_eq_some_iff.mp h
    exact .lib hc hsys

/-- What `start` leaves to do. -/
theorem world_init {w : World} (h : world.init w) : ∃ ccb qid e shm,
    w = World.start ((ofpdReady (ofpdZero ccb qid) e).setState .helloWait)
      (.tmrInit :: .forkCp :: .fsm eStart :: .hdl .aSendHello ::
        (aSendHello ((ofpdReady (ofpdZero ccb qid) e).setState .helloWait)).acts) shm := by
  obtain ⟨ccb, qid, e, agent, acts, shm, hrun, rfl⟩ := h
  rw [ofpdRestart_eq] at hrun
  obtain ⟨rfl, rfl⟩ := Prod.mk.inj (Option.some.inj hrun)
  exact ⟨ccb, qid, e, shm, rfl⟩

/-! ## 3. What the readers send -/

section Readers

variable {fd rxlen : ℤ} {buffer stack : Mem} {mail : OfpMbx}

/-- The mails of the control plane: one that reports the failure, or a message with the
descriptor it came from. -/
theorem ofpSockdCp_mail (hrx : -1 ≤ rxlen) (h : ofpSockdCp fd rxlen buffer stack = some mail) :
    mail.len ≤ ethMtu ∧ (rxlen ≤ 0 ∧ mail.type = drivCpFail ∨
      0 < rxlen ∧ mail.type = drivCp ∧ mail.sockfd = intOfU32 (u32OfInt fd)) := by
  unfold ofpSockdCp ofpSend2mailbox at h
  split_ifs at h with hfail hlong hlong
  · cases h
    have htype : 0 < (rxlen + 4 + 1).toNat := by omega
    refine ⟨not_lt.mp hlong, .inl ⟨hfail, ?_⟩⟩
    simp [OfpMbx.type, Mem.write, Mem.read, ofpMsg, htype]
  · obtain ⟨n, rfl⟩ : ∃ n : ℕ, rxlen = n + 1 := ⟨(rxlen - 1).toNat, by omega⟩
    have htoNat : ((n : ℤ) + 1 + 4 + 1).toNat = n + 6 := by omega
    rw [htoNat] at h
    cases h
    refine ⟨not_lt.mp hlong, .inr ⟨not_le.mp hfail, ?_, ?_⟩⟩
    · simp [OfpMbx.type, Mem.write, Mem.read, ofpMsg]
    · -- the four bytes behind the type are those of `sockfd`
      have hholds : (ofpMsg drivCp fd buffer).Holds 0
          (drivCp :: leBytes 4 (u32OfInt fd).toNat) := Mem.holds_write _ 0 _
      have hcopy : ∀ i < 5, stack.write 0 ((ofpMsg drivCp fd buffer).read 0 (n + 6)) i
          = ofpMsg drivCp fd buffer i := by
        intro i hi
        rw [Mem.write_apply (Nat.zero_le i) (by rw [Mem.read_length]; omega)]
        simp only [Mem.read, Nat.sub_zero, Nat.zero_add]
        rw [List.getElem_map, List.getElem_range]
      have hfd : (stack.write 0 ((ofpMsg drivCp fd buffer).read 0 (n + 6))).Holds 1
          (leBytes 4 (u32OfInt fd).toNat) := by
        refine (Mem.holds_cons.mp hholds).2.congr fun k _ hk => hcopy k ?_
        rwa [leBytes_length] at hk
      have hmod : (u32OfInt fd).toNat % 256 ^ 4 = (u32OfInt fd).toNat :=
        Nat.mod_eq_of_lt (u32OfInt fd).toNat_lt
      rw [OfpMbx.sockfd, intAt, u32At, Mem.readLe, hfd.read_eq (leBytes_length 4 _),
        leNat_leBytes, hmod, UInt32.ofNat_toNat]

/-- The failure is always reported. -/
theorem ofpSockdCp_fail (fd : ℤ) (buffer stack : Mem) (hrx : rxlen ≤ 0) :
    (ofpSockdCp fd rxlen buffer stack).isSome = true := by
  have hshort : ¬ (ethMtu : ℤ) < rxlen + 4 + 1 := by
    simp only [ethMtu]
    omega
  rw [ofpSockdCp, if_pos hrx, ofpSend2mailbox, if_neg hshort]
  rfl

end Readers

/-- The message of a reader, if it sends one. -/
theorem drvMsgs_cases (w : World) (x : Option OfpMbx) :
    ((x.map w.drvMsg).toList.length ≤ 1) ∧ ∀ m ∈ (x.map w.drvMsg).toList,
      m.session = w.session ∧ ∃ mail, x = some mail ∧ m.mail = .drv mail := by
  cases x with
  | none => exact ⟨by simp, by simp⟩
  | some mail => exact ⟨by simp, by simp [World.drvMsg]⟩

/-! ## 4. Schedules -/

/-- The system with the surroundings of `started`. -/
def World.started : World :=
  World.start Agent.started (.tmrInit :: .forkCp :: .fsm eStart :: .hdl .aSendHello ::
    (aSendHello Agent.started).acts) Timer.zeroShm

theorem world_started : world.init World.started :=
  ⟨_, _, _, _, _, _, ofpdRestart_eq _ _, rfl⟩

/-- Steps that can be executed from the start, each of them `good`, to a state with `P`, are those
of a run. -/
theorem world_of_exec (evs : List Ev) (good : World → Ev → Prop) (P : World → Prop)
    [∀ w, DecidablePred (good w)] [DecidablePred P]
    (h : (exec (fun w ev => if good w ev then World.step w ev else none) World.started evs).any
      (fun w => decide (P w)) = true) :
    ∃ ts w, Run world ts w ∧ (∀ t ∈ ts, good t.pre t.lab) ∧ P w := by
  obtain ⟨ts, w, hr, -, hg, hP⟩ :=
    Run.of_exec (S := world) (fun _ _ _ hs => hs) world_started evs good P h
  exact ⟨ts, w, hr, hg, hP⟩

/-- The same with one step more, and what it leads from and to. -/
theorem world_step_of_exec (evs : List Ev) (ev : Ev) (good : World → Ev → Prop)
    (P : World → World → Prop) [∀ w, DecidablePred (good w)] [∀ w, DecidablePred (P w)]
    (h : (exec (fun w ev => if good w ev then World.step w ev else none) World.started evs).any
      (fun w => decide (good w ev ∧
        (w.step ev).any (fun w' => decide (P w w')) = true)) = true) :
    ∃ ts t w, Run world (ts ++ [t]) w ∧ (∀ t' ∈ ts ++ [t], good t'.pre t'.lab) ∧ t.lab = ev ∧
      P t.pre t.post := by
  obtain ⟨ts, w, hr, hgood, hev, hany⟩ := world_of_exec evs good _ h
  obtain ⟨w', hw', hP⟩ := (Option.any_eq_true _ _).mp hany
  refine ⟨ts, ⟨w, ev, w'⟩, w', hr.snoc hw', ?_, rfl, of_decide_eq_true hP⟩
  intro t ht
  rcases List.mem_append.mp ht with ht | ht
  · exact hgood t ht
  · rw [List.mem_singleton.mp ht]
    exact hev

/-- The message at the head of the queue. -/
theorem head_of_any {q : List Msg} {p : Msg → Bool} (h : q.head?.any p = true) :
    ∃ m queue, q = m :: queue ∧ p m = true := by
  obtain ⟨m, hm, hp⟩ := (Option.any_eq_true _ _).mp h
  obtain ⟨queue, hq⟩ := List.head?_eq_some_iff.mp hm
  exact ⟨m, queue, hq, hp⟩

/-- The reader of the control plane receives these bytes. -/
def recvStep (bytes : List UInt8) : Ev :=
  .sockdCp bytes.length (Mem.write (fun _ => 0) 0 bytes) fun _ => 0

/-- The reader of the data plane receives this frame. -/
def frameStep (bytes : List UInt8) : Ev :=
  .sockdDp bytes.length (Mem.write (fun _ => 0) 0 bytes) fun _ => 0

/-- `main` takes a mail, does `acts` acts and goes `libs` steps in the timer library. -/
def rcvSteps (acts libs : ℕ) : List Ev :=
  .ipcRcv2 (Env.plain addr2) :: (List.replicate acts .act ++ List.replicate libs .lib)

/-- From the start to the established session. -/
def establishSteps : List Ev :=
  List.replicate 5 .act ++
    [recvStep (shortMsg ofptHello), recvStep (shortMsg ofptFeaturesRequest)] ++
    rcvSteps 1 0 ++ rcvSteps 7 11

/-- Ten ticks of a second each, the last of which sends the timeout. -/
def expirySteps : List Ev := List.replicate 98 (.osTmr (.tmr 1000000))

end Ofpagent.Agent
