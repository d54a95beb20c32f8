/-
# The timer task and its applications, one semaphore operation at a time

`Timer.State` has the critical sections of `os_timer.c`; this module has the processes that
run them.  A step is one `p`, one `v`, the body of one section, or one action between two
sections, so every order of the sections of any number of processes is a run.  The body of a
section is one step because nobody else is in a section then, which `Timer.Discipline` proves.

Two things outside the sections matter and are steps of their own:

* `SIGUSR1`, which `OSTMR_StartTmr` sends when it finds the list empty.  Delivered in `pause`
  it ends the pause; anywhere else it runs the empty handler `wakeup` and is forgotten;
* `semop` is one of the calls that fail with `EINTR` when a handler runs while they block, and
  they are never restarted.  `p` does not look at the result, so the timer task then goes on
  as if it had the semaphore (`Lab.eintr`).
-/
import Ofpagent.Lib.Semaphore
import Ofpagent.Timer.Lists

namespace Ofpagent.Timer

open Ofpagent.Lib

/-! ## 1. Program points -/

/-- The critical sections of `os_tmr`, in the order of the source; `retake` is the `p` behind
`pause`, with nothing to do until the `v`. -/
inductive TmrSec
  | isEmpty
  | retake
  | pop (delta : ℤ)
  | final (delta : ℤ)
  deriving DecidableEq

/-- Where `os_tmr` goes from a `v`. -/
inductive TmrCont
  | pause
  | usleep
  | send (delta : ℤ) (que : IpcId) (prim : IpcPrim)
  | final (delta : ℤ)
  | top
  deriving DecidableEq

/-- Where `os_tmr` is. -/
inductive TmrPc
  | wait (sec : TmrSec)
  | inside (sec : TmrSec)
  | out (k : TmrCont)
  | pause
  | paused
  | usleep
  | send (delta : ℤ) (que : IpcId) (prim : IpcPrim)
  deriving DecidableEq

def TmrCont.resume : TmrCont → TmrPc
  | pause => .pause
  | usleep => .usleep
  | send delta que prim => .send delta que prim
  | final delta => .wait (.final delta)
  | top => .wait .isEmpty

/-- What an application calls.  `OSTMR_StartTmr` of a NULL `ccb` does nothing. -/
inductive Call
  | startTmr (a : StartArgs)
  | stopXtmr (ccb : Ptr) (event : UInt16)
  | stopTmrs (ccb : Ptr)
  | isTmrExist (ccb : Ptr) (event : UInt16)

/-- The critical sections of the calls.  `OSTMR_StartTmr` has three: the one of
`OSTMR_StopXtmr`, the one of `OSTMR_MallocTmrCb`, and its own. -/
inductive AppSec
  | startStop (a : StartArgs)
  | startMalloc (a : StartArgs)
  | startInsert (a : StartArgs) (tcb : TmrIdx)
  | stopXtmr (ccb : Ptr) (event : UInt16)
  | stopTmrs (ccb : Ptr)
  | isTmrExist (ccb : Ptr) (event : UInt16)

/-- Where a call goes from a `v`. -/
inductive AppCont
  | ret
  | malloc (a : StartArgs)
  | fill (a : StartArgs) (tcb : TmrIdx)
  | kill

/-- Where an application is; `idle` is everything it does between its calls. -/
inductive AppPc
  | idle
  | wait (sec : AppSec)
  | inside (sec : AppSec)
  | out (k : AppCont)
  | fill (a : StartArgs) (tcb : TmrIdx)
  | kill

def AppCont.resume : AppCont → AppPc
  | ret => .idle
  | malloc a => .wait (.startMalloc a)
  | fill a tcb => .fill a tcb
  | kill => .kill

/-- `OSTMR_StartTmr` returns when there is no block. -/
def AppCont.afterMalloc (a : StartArgs) : Option TmrIdx → AppCont
  | none => .ret
  | some tcb => .fill a tcb

/-- The section a call begins with. -/
def Call.sec : Call → AppSec
  | startTmr a => .startStop a
  | stopXtmr ccb event => .stopXtmr ccb event
  | stopTmrs ccb => .stopTmrs ccb
  | isTmrExist ccb event => .isTmrExist ccb event

/-- The body of a section. -/
def AppSec.run (shm : TmrCbs) : AppSec → Option (TmrCbs × AppCont)
  | startStop a => (ostmrStopXtmr shm (some a.ccb) a.event).map fun shm' => (shm', .malloc a)
  | startMalloc a =>
    let r := ostmrMallocTmrCb shm
    some (r.1, .afterMalloc a r.2)
  | startInsert _ tcb => (insertTmr shm tcb).map fun r => (r.1, if r.2 then .kill else .ret)
  | stopXtmr ccb event => (ostmrStopXtmr shm ccb event).map fun shm' => (shm', .ret)
  | stopTmrs ccb => (ostmrStopTmrs shm ccb).map fun shm' => (shm', .ret)
  | isTmrExist ccb event => (ostmrIsTmrExist shm ccb event).map fun _ => (shm, .ret)

/-! ## 2. The system -/

/-- The processes: the timer task and the applications. -/
inductive Proc (ι : Type*)
  | tmr
  | app (i : ι)
  deriving DecidableEq

/-- The shared memory, the semaphore, where everybody is, and whether a `SIGUSR1` has been
sent to the timer task and not been delivered. -/
structure Sys (ι : Type*) where
  shm : TmrCbs
  sem : Sem (Proc ι)
  tmr : TmrPc
  app : ι → AppPc
  sigusr1 : Bool

/-- A step: of the timer task, which may read a time difference `d`; of an application, which
may make the call `c`; or of the signal. -/
inductive Lab (ι : Type*)
  | tmr (d : ℤ)
  | app (i : ι) (c : Call)
  | deliver
  | eintr

variable {ι : Type*} [DecidableEq ι]

namespace Sys

def setApp (s : Sys ι) (i : ι) (pc : AppPc) : Sys ι := { s with app := Function.update s.app i pc }

/-- A step of the timer task. -/
def osTmr (s : Sys ι) (d : ℤ) : Option (Sys ι) :=
  match s.tmr with
  | .wait sec => (s.sem.p .tmr).map fun k => { s with sem := k, tmr := .inside sec }
  | .inside .isEmpty =>
    some { s with tmr := .out (if ostmrIsTmrListEmpty s.shm then .pause else .usleep) }
  | .inside .retake => some { s with tmr := .out .usleep }
  | .inside (.pop delta) =>
    match tickPop s.shm delta with
    | none => some { s with tmr := .out (.final delta) }
    | some (shm, left, que, prim) => some { s with shm := shm, tmr := .out (.send left que prim) }
  | .inside (.final delta) => some { s with shm := tickFinal s.shm delta, tmr := .out .top }
  | .out k => some { s with sem := s.sem.v .tmr, tmr := k.resume }
  | .pause => some { s with tmr := .paused }
  | .paused => none
  | .usleep => some { s with tmr := .wait (.pop (tickDelta d)) }
  | .send delta _ _ => some { s with tmr := .wait (.pop delta) }

/-- A step of an application. -/
def appl (s : Sys ι) (i : ι) (c : Call) : Option (Sys ι) :=
  match s.app i with
  | .idle => some (s.setApp i (.wait c.sec))
  | .wait sec => (s.sem.p (.app i)).map fun k => { s with sem := k }.setApp i (.inside sec)
  | .inside sec => (sec.run s.shm).map fun r => { s with shm := r.1 }.setApp i (.out r.2)
  | .out k => some ({ s with sem := s.sem.v (.app i) }.setApp i k.resume)
  | .fill a tcb =>
    some ({ s with shm := fillTmr s.shm a tcb }.setApp i (.wait (.startInsert a tcb)))
  | .kill => some ({ s with sigusr1 := true }.setApp i .idle)

/-- The delivery of a pending signal: only `pause` takes notice. -/
def deliver (s : Sys ι) : Option (Sys ι) :=
  if s.sigusr1 then
    match s.tmr with
    | .paused => some { s with sigusr1 := false, tmr := .wait .retake }
    | _ => some { s with sigusr1 := false }
  else none

/-- A pending signal interrupts the timer task in the `semop` of `p`, which ignores that. -/
def eintr (s : Sys ι) : Option (Sys ι) :=
  match s.tmr with
  | .wait sec =>
    if s.sigusr1 && s.sem.val == 0 then some { s with sigusr1 := false, tmr := .inside sec }
    else none
  | _ => none

def step (s : Sys ι) : Lab ι → Option (Sys ι)
  | .tmr d => s.osTmr d
  | .app i c => s.appl i c
  | .deliver => s.deliver
  | .eintr => s.eintr

/-- `tmrInit` has been called, and `os_tmr` is about to run. -/
def start (shm : TmrCbs) : Sys ι :=
  ⟨ostmrInitTmrCbs shm, Sem.init, .wait .isEmpty, fun _ => .idle, false⟩

end Sys

/-- The timer task with the applications `ι`. -/
def tasks (ι : Type*) [DecidableEq ι] : Lts (Sys ι) (Lab ι) where
  init s := ∃ shm, s = Sys.start shm
  step s l s' := s.step l = some s'

/-! ## 3. What a step can do -/

/-- A step of the timer task. -/
inductive TmrMove (s : Sys ι) (d : ℤ) : Sys ι → Prop
  | p {sec k} : s.tmr = .wait sec → s.sem.p .tmr = some k →
      TmrMove s d { s with sem := k, tmr := .inside sec }
  | isEmpty : s.tmr = .inside .isEmpty → TmrMove s d
      { s with tmr := .out (if ostmrIsTmrListEmpty s.shm then .pause else .usleep) }
  | retake : s.tmr = .inside .retake → TmrMove s d { s with tmr := .out .usleep }
  | left {delta} : s.tmr = .inside (.pop delta) → tickPop s.shm delta = none →
      TmrMove s d { s with tmr := .out (.final delta) }
  | pop {delta shm left que prim} : s.tmr = .inside (.pop delta) →
      tickPop s.shm delta = some (shm, left, que, prim) →
      TmrMove s d { s with shm := shm, tmr := .out (.send left que prim) }
  | final {delta} : s.tmr = .inside (.final delta) →
      TmrMove s d { s with shm := tickFinal s.shm delta, tmr := .out .top }
  | v {k} : s.tmr = .out k → TmrMove s d { s with sem := s.sem.v .tmr, tmr := k.resume }
  | pause : s.tmr = .pause → TmrMove s d { s with tmr := .paused }
  | usleep : s.tmr = .usleep → TmrMove s d { s with tmr := .wait (.pop (tickDelta d)) }
  | send {delta que prim} : s.tmr = .send delta que prim →
      TmrMove s d { s with tmr := .wait (.pop delta) }

theorem Sys.osTmr_move {s s' : Sys ι} {d : ℤ} (h : s.osTmr d = some s') : TmrMove s d s' := by
  unfold Sys.osTmr at h
  split at h
  · next sec hpc =>
    obtain ⟨k, hk, rfl⟩ := Option.map_eq_some_iff.mp h
    exact .p hpc hk
  · next hpc => cases h; exact .isEmpty hpc
  · next hpc => cases h; exact .retake hpc
  · next delta hpc =>
    split at h
    · next hpop => cases h; exact .left hpc hpop
    · next hpop => cases h; exact .pop hpc hpop
  · next hpc => cases h; exact .final hpc
  · next hpc => cases h; exact .v hpc
  · next hpc => cases h; exact .pause hpc
  · cases h
  · next hpc => cases h; exact .usleep hpc
  · next hpc => cases h; exact .send hpc

/-- A step of an application. -/
inductive AppMove (s : Sys ι) (i : ι) (c : Call) : Sys ι → Prop
  | call : s.app i = .idle → AppMove s i c (s.setApp i (.wait c.sec))
  | p {sec k} : s.app i = .wait sec → s.sem.p (.app i) = some k →
      AppMove s i c ({ s with sem := k }.setApp i (.inside sec))
  | body {sec shm k} : s.app i = .inside sec → sec.run s.shm = some (shm, k) →
      AppMove s i c ({ s with shm := shm }.setApp i (.out k))
  | v {k} : s.app i = .out k →
      AppMove s i c ({ s with sem := s.sem.v (.app i) }.setApp i k.resume)
  | fill {a tcb} : s.app i = .fill a tcb →
      AppMove s i c ({ s with shm := fillTmr s.shm a tcb }.setApp i (.wait (.startInsert a tcb)))
  | kill : s.app i = .kill → AppMove s i c ({ s with sigusr1 := true }.setApp i .idle)

theorem Sys.appl_move {s s' : Sys ι} {i : ι} {c : Call} (h : s.appl i c = some s') :
    AppMove s i c s' := by
  unfold Sys.appl at h
  split at h
  · next hpc => cases h; exact .call hpc
  · next sec hpc =>
    obtain ⟨k, hk, rfl⟩ := Option.map_eq_some_iff.mp h
    exact .p hpc hk
  · next sec hpc =>
    obtain ⟨r, hr, rfl⟩ := Option.map_eq_some_iff.mp h
    exact .body hpc hr
  · next hpc => cases h; exact .v hpc
  · next hpc => cases h; exact .fill hpc
  · next hpc => cases h; exact .kill hpc

omit [DecidableEq ι] in
theorem Sys.deliver_cases {s s' : Sys ι} (h : s.deliver = some s') :
    s.sigusr1 = true ∧
      ((s.tmr = .paused ∧ s' = { s with sigusr1 := false, tmr := .wait .retake }) ∨
        (s.tmr ≠ .paused ∧ s' = { s with sigusr1 := false })) := by
  unfold Sys.deliver at h
  split at h
  · next hs =>
    refine ⟨hs, ?_⟩
    split at h
    · next hpc => cases h; exact Or.inl ⟨hpc, rfl⟩
    · next hpc => cases h; exact Or.inr ⟨hpc, rfl⟩
  · cases h

omit [DecidableEq ι] in
theorem Sys.eintr_cases {s s' : Sys ι} (h : s.eintr = some s') :
    ∃ sec, s.tmr = .wait sec ∧ s' = { s with sigusr1 := false, tmr := .inside sec } := by
  unfold Sys.eintr at h
  split at h
  · next sec hpc =>
    split at h
    · cases h; exact ⟨sec, hpc, rfl⟩
    · cases h
  · cases h

/-! ## 4. Schedules -/

instance (l : Lab ι) : Decidable (l = .eintr) :=
  match l with
  | .eintr => isTrue rfl
  | .tmr _ | .app _ _ | .deliver => isFalse nofun

instance (l : Lab ι) : Decidable (l = .deliver) :=
  match l with
  | .deliver => isTrue rfl
  | .tmr _ | .app _ _ | .eintr => isFalse nofun

/-- A schedule that can be executed from the start, with every step `good`, to a state with
`P`, is one of a run. -/
theorem run_of_exec (shm : TmrCbs) (ls : List (Lab ι)) (good : Sys ι → Lab ι → Prop)
    (P : Sys ι → Prop) [∀ s, DecidablePred (good s)] [DecidablePred P]
    (h : (exec (fun s l => if good s l then s.step l else none) (Sys.start shm) ls).any
      (fun s => decide (P s)) = true) :
    ∃ ts s, Run (tasks ι) ts s ∧ (∀ t ∈ ts, good t.pre t.lab) ∧ P s := by
  obtain ⟨ts, s, hr, -, hg, hP⟩ :=
    Run.of_exec (S := tasks ι) (fun _ _ _ hs => hs) ⟨shm, rfl⟩ ls good P h
  exact ⟨ts, s, hr, hg, hP⟩

/-- An application's steps from the call of `OSTMR_StartTmr` to its last `v`, nobody else being
in a section: three sections of three steps, the call, and the filling of the block. -/
def startSteps (i : ι) (a : StartArgs) : List (Lab ι) := List.replicate 11 (.app i (.startTmr a))

end Ofpagent.Timer
