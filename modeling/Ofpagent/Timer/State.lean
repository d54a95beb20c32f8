/-
# The timer of `lib/com_util/os_timer.c`: data and operations

The shared memory holds `MAX_TMR_CB_NUM` control blocks and the head of one list of them,
linked through `next`.  A block's `timeleft` counts from the block before it in the list.

Every function of this module is one critical section of the source, from `p(tmr_semid)` to
`v(tmr_semid)`, or the code between two of them; `ostmrStartTmr` and `osTmrTick` put them
together for a caller that nobody interrupts, and `Timer.Tasks` runs them concurrently.  The
loops run on fuel and are undefined (`none`) when it runs out; one step more than there are
blocks is enough for every list without a cycle (`Timer.Lists`).
-/
import Ofpagent.Basic

namespace Ofpagent.Timer

open Ofpagent.Lib

/-! ## 1. The control blocks -/

/-- `SEC`: the microseconds of a second. -/
def sec : ℤ := 1000000

/-- `MAX_TMR_CB_NUM`. -/
def maxTmrCbNum : ℕ := 1200

/-- `pTMR_CB` of a block in the pool: its index in `tcb`. -/
abbrev TmrIdx := Fin maxTmrCbNum

/-- A C string that `strcpy` can put into `tmr_name[30]`, its NUL included.  The one caller of
`OSTMR_StartTmr` passes a string literal of seven characters. -/
structure TmrName where
  chars : List UInt8
  fits : chars.length < 30
  deriving DecidableEq

/-- `tTMR_CB`. -/
@[ext] structure TmrCb where
  tmrName : TmrName
  timeleft : UInt32
  event : UInt8
  ccb : Ptr
  que : IpcId
  next : Option TmrIdx
  idle : Bool
  deriving DecidableEq

/-- `tTMR_CBs`, the shared memory.  `wrapped` is not in the source and nothing reads it: it
records that some `+=` or `-=` on a `timeleft` has left the range of `U32`. -/
structure TmrCbs where
  tcb : TmrIdx → TmrCb
  tmrHdr : Option TmrIdx
  wrapped : Bool

namespace TmrCbs

/-- Write to the block `i`. -/
def modify (shm : TmrCbs) (i : TmrIdx) (f : TmrCb → TmrCb) : TmrCbs :=
  { shm with tcb := fun j => if j = i then f (shm.tcb j) else shm.tcb j }

/-- `tcb[i].timeleft += t`. -/
def addTimeleft (shm : TmrCbs) (i : TmrIdx) (t : UInt32) : TmrCbs :=
  { shm.modify i fun c => { c with timeleft := c.timeleft + t } with
    wrapped := shm.wrapped || decide (2 ^ 32 ≤ (shm.tcb i).timeleft.toNat + t.toNat) }

/-- `tcb[i].timeleft -= t`. -/
def subTimeleft (shm : TmrCbs) (i : TmrIdx) (t : UInt32) : TmrCbs :=
  { shm.modify i fun c => { c with timeleft := c.timeleft - t } with
    wrapped := shm.wrapped || decide ((shm.tcb i).timeleft.toNat < t.toNat) }

/-- `tcb[i].next = q`. -/
def setNext (shm : TmrCbs) (i : TmrIdx) (q : Option TmrIdx) : TmrCbs :=
  shm.modify i fun c => { c with next := q }

/-- The link field of a block.  Every block of the pool can be read. -/
def link (shm : TmrCbs) (i : TmrIdx) : Option (Option TmrIdx) := some (shm.tcb i).next

end TmrCbs

/-- A new shared memory segment. -/
def zeroShm : TmrCbs :=
  { tcb := fun _ => ⟨⟨[], by decide⟩, 0, 0, none, 0, none, false⟩, tmrHdr := none, wrapped := false }

/-- Enough fuel for every loop along the list. -/
def fuel : ℕ := maxTmrCbNum + 1

/-! ## 2. The sections of the application's calls -/

/-- `OSTMR_InitTmrCbs`, on memory with any contents. -/
def ostmrInitTmrCbs (shm : TmrCbs) : TmrCbs :=
  { tcb := fun i => { shm.tcb i with idle := true }, tmrHdr := none, wrapped := false }

/-- `OSTMR_FreeTmrCb`. -/
def ostmrFreeTmrCb (shm : TmrCbs) (i : TmrIdx) : TmrCbs :=
  shm.modify i fun c => { c with idle := true }

/-- The removal of `cur` from the list, `prev` being the block before it: the code from the
comment "have found" on in `OSTMR_StopXtmr`, and the loop body of `OSTMR_StopTmrs`. -/
def unlinkTmr (shm : TmrCbs) (prev : Option TmrIdx) (cur : TmrIdx) : TmrCbs :=
  let nxt := (shm.tcb cur).next
  let shm1 := match prev with
    | some p => shm.setNext p nxt
    | none => { shm with tmrHdr := nxt }
  let shm2 := match nxt with
    | some n => shm1.addTimeleft n (shm1.tcb cur).timeleft
    | none => shm1
  ostmrFreeTmrCb shm2 cur

/-- The test of `OSTMR_StopXtmr`.  The `U8` of the block is compared as a `U16`. -/
def isXtmr (shm : TmrCbs) (ccb : Ptr) (event : UInt16) (i : TmrIdx) : Bool :=
  (shm.tcb i).ccb == ccb && event == (shm.tcb i).event.toUInt16

/-- `OSTMR_StopXtmr`. -/
def ostmrStopXtmr (shm : TmrCbs) (ccb : Ptr) (event : UInt16) : Option TmrCbs :=
  match scan shm.link (isXtmr shm ccb event) fuel none shm.tmrHdr with
  | none => none
  | some (_, none) => some shm
  | some (prev, some cur) => some (unlinkTmr shm prev cur)

/-- The loop of `OSTMR_StopTmrs`. -/
def stopTmrsLoop (ccb : Ptr) : ℕ → TmrCbs → Option TmrIdx → Option TmrIdx → Option TmrCbs
  | 0, _, _, _ => none
  | _ + 1, shm, _, none => some shm
  | n + 1, shm, prev, some cur =>
    if (shm.tcb cur).ccb ≠ ccb then stopTmrsLoop ccb n shm (some cur) (shm.tcb cur).next
    else stopTmrsLoop ccb n (unlinkTmr shm prev cur) prev (shm.tcb cur).next

/-- `OSTMR_StopTmrs`. -/
def ostmrStopTmrs (shm : TmrCbs) (ccb : Ptr) : Option TmrCbs :=
  stopTmrsLoop ccb fuel shm none shm.tmrHdr

/-- `OSTMR_IsTmrListEmpty`. -/
def ostmrIsTmrListEmpty (shm : TmrCbs) : Bool := shm.tmrHdr.isNone

/-- The test of `OSTMR_IsTmrExist`: event 0 stands for any event. -/
def isTmr (shm : TmrCbs) (ccb : Ptr) (event : UInt16) (i : TmrIdx) : Bool :=
  (shm.tcb i).ccb == ccb && (event == 0 || event == (shm.tcb i).event.toUInt16)

/-- `OSTMR_IsTmrExist`. -/
def ostmrIsTmrExist (shm : TmrCbs) (ccb : Ptr) (event : UInt16) : Option Bool :=
  (scan shm.link (isTmr shm ccb event) fuel none shm.tmrHdr).map fun r => r.2.isSome

/-- `OSTMR_MallocTmrCb`: the first idle block, if there is one. -/
def ostmrMallocTmrCb (shm : TmrCbs) : TmrCbs × Option TmrIdx :=
  match (List.finRange maxTmrCbNum).find? fun i => (shm.tcb i).idle with
  | some i => (shm.modify i fun c => { c with idle := false }, some i)
  | none => (shm, none)

/-- The arguments of `OSTMR_StartTmr`. -/
structure StartArgs where
  que : IpcId
  ccb : Addr
  delay : UInt32
  name : TmrName
  event : UInt16

/-- The one timer of the sources: `"ofp:txT"`, with the event `E_OFP_TIMEOUT`. -/
def ofpTxT (que : IpcId) (ccb : Addr) (delay : UInt32) : StartArgs :=
  { que := que, ccb := ccb, delay := delay, event := 6
    name := ⟨[0x6f, 0x66, 0x70, 0x3a, 0x74, 0x78, 0x54], by decide⟩ }

/-- The assignments of `OSTMR_StartTmr` to the block it was given.  `event` is stored in a
`U8`. -/
def fillTmr (shm : TmrCbs) (a : StartArgs) (tcb : TmrIdx) : TmrCbs :=
  shm.modify tcb fun c =>
    { c with
      que := a.que, ccb := some a.ccb, timeleft := a.delay, tmrName := a.name
      event := a.event.toUInt8, next := none }

/-- The search of `OSTMR_StartTmr`: walk past the blocks due by then, and take their time off
the new one. -/
def startLoop (tcb : TmrIdx) : ℕ → TmrCbs → Option TmrIdx → Option TmrIdx →
    Option (TmrCbs × Option TmrIdx × Option TmrIdx)
  | 0, _, _, _ => none
  | _ + 1, shm, prev, none => some (shm, prev, none)
  | n + 1, shm, prev, some cur =>
    if (shm.tcb tcb).timeleft < (shm.tcb cur).timeleft then some (shm, prev, some cur)
    else startLoop tcb n (shm.subTimeleft tcb (shm.tcb cur).timeleft) (some cur)
      (shm.tcb cur).next

/-- The insertion behind the search. -/
def linkTmr (shm : TmrCbs) (prev : Option TmrIdx) (tcb : TmrIdx) (cur : Option TmrIdx) :
    TmrCbs :=
  let shm1 := shm.setNext tcb cur
  let shm2 := match prev with
    | some p => shm1.setNext p (some tcb)
    | none => { shm1 with tmrHdr := some tcb }
  match cur with
  | some c => shm2.subTimeleft c (shm2.tcb tcb).timeleft
  | none => shm2

/-- The last section of `OSTMR_StartTmr`.  It also says whether the list was empty, in which
case the timer task is sent `SIGUSR1` behind the section. -/
def insertTmr (shm : TmrCbs) (tcb : TmrIdx) : Option (TmrCbs × Bool) :=
  match shm.tmrHdr with
  | none => some ({ shm with tmrHdr := some tcb }, true)
  | some _ => (startLoop tcb fuel shm none shm.tmrHdr).map fun r =>
      (linkTmr r.1 r.2.1 tcb r.2.2, false)

/-- `OSTMR_StartTmr` of a non-NULL `ccb`, without interruption.  With a NULL one the function
returns at once. -/
def ostmrStartTmr (shm : TmrCbs) (a : StartArgs) : Option TmrCbs :=
  match ostmrStopXtmr shm (some a.ccb) a.event with
  | none => none
  | some shm1 =>
    match ostmrMallocTmrCb shm1 with
    | (shm2, none) => some shm2
    | (shm2, some tcb) => (insertTmr (fillTmr shm2 a tcb) tcb).map Prod.fst

/-! ## 3. The sections of the timer task -/

/-- What `os_tmr` makes of the difference of two `tv_usec`. -/
def tickDelta (d : ℤ) : ℤ :=
  let delta := if d < 0 then sec / 2 else d
  if delta > sec then sec else delta

theorem tickDelta_range (d : ℤ) : 0 ≤ tickDelta d ∧ tickDelta d ≤ sec := by
  simp only [tickDelta, sec]
  split_ifs <;> omega

/-- `prim` of an expired block. -/
def primOf (c : TmrCb) : IpcPrim := ⟨ipcEvTypeTmr, c.event, c.ccb⟩

/-- One round of the tick's loop: nothing when it leaves the loop, else the head is popped and
freed, and its primitive is to be sent to its queue. -/
def tickPop (shm : TmrCbs) (delta : ℤ) : Option (TmrCbs × ℤ × IpcId × IpcPrim) :=
  match shm.tmrHdr with
  | none => none
  | some cur =>
    if (shm.tcb cur).timeleft > u32OfInt delta then none
    else
      let left := intOfU32 (u32OfInt delta - (shm.tcb cur).timeleft)
      some (ostmrFreeTmrCb { shm with tmrHdr := (shm.tcb cur).next } cur,
        if left < 0 then 0 else left, (shm.tcb cur).que, primOf (shm.tcb cur))

/-- The last section of the tick: charge what is left of `delta` to the head. -/
def tickFinal (shm : TmrCbs) (delta : ℤ) : TmrCbs :=
  match shm.tmrHdr with
  | none => shm
  | some h => shm.subTimeleft h (u32OfInt delta)

/-- The tick's loop, without interruption, and what it sends. -/
def tickLoop : ℕ → TmrCbs → ℤ → Option (TmrCbs × ℤ × List (IpcId × IpcPrim))
  | 0, _, _ => none
  | n + 1, shm, delta =>
    match tickPop shm delta with
    | none => some (shm, delta, [])
    | some (shm', delta', que, prim) =>
      (tickLoop n shm' delta').map fun r => (r.1, r.2.1, (que, prim) :: r.2.2)

/-- A tick, without interruption. -/
def osTmrTick (shm : TmrCbs) (delta : ℤ) : Option (TmrCbs × List (IpcId × IpcPrim)) :=
  (tickLoop fuel shm delta).map fun r => (tickFinal r.1 r.2.1, r.2.2)

end Ofpagent.Timer
