/-
# The one timer of the agent

`main` starts one timer only, that of `A_start_timer`.  This module says which calls of the timer
library a round leaves to do (`Rearm`), and what holds of the list, the timer task and the queue in
every state of `world` (`Clocked`): whatever is in the list, is held by the timer task or is queued
by it comes from such a start.
-/
import Ofpagent.Agent.World

namespace Ofpagent.Agent

open Ofpagent.Lib
open Ofpagent.Timer (Lab Call Sys TmrIdx StartArgs AppPc AppSec AppCont AppMove Keyed Good keys tmrOf
  isXtmr BodyEffect)

/-! ## 1. The calls of a round -/

/-- The timer of `A_start_timer`. -/
def keepalive (s : Ofpd) : StartArgs := Timer.ofpTxT s.ofpQid s.ccb ofpInterval

/-- The call of `A_stop_query_tmr` for the timer `k`. -/
def stopCall (k : StartArgs) : Call := .stopXtmr (some k.ccb) k.event

/-- The calls of the timer library a handler makes. -/
def Hdl.calls (k : StartArgs) : Hdl → List Call
  | aStartTimer => [.startTmr k]
  | aStopQueryTmr => [stopCall k]
  | _ => []

theorem Hdl.call_calls {s : Ofpd} {e : Env} {h : Hdl} {r : Ret} (hr : h.call s e = some r) :
    r.acts.filterMap Act.timerCall = h.calls (keepalive s) ∧ r.status ≠ 0 ∧
      keepalive r.agent = keepalive s := by
  have hone : (1 : ℤ) ≠ 0 := by decide
  have hneg : (-1 : ℤ) ≠ 0 := by decide
  cases h with
  | aSendMultipartReply =>
    simp only [Hdl.call, Agent.aSendMultipartReply] at hr
    split at hr
    · cases hr
      exact ⟨rfl, hneg, rfl⟩
    · obtain ⟨body, -, rfl⟩ := Option.map_eq_some_iff.mp hr
      exact ⟨rfl, hone, rfl⟩
  | aStartTimer =>
    cases hr
    refine ⟨?_, hone, rfl⟩
    simp only [Agent.aStartTimer]
    split_ifs <;> rfl
  | _ =>
    cases hr
    exact ⟨rfl, hone, rfl⟩

theorem runHdls_calls {e : Env} {hs : List Hdl} {s s' : Ofpd} {acts : List Act}
    (hrun : runHdls e hs s = some (s', acts)) :
    acts.filterMap Act.timerCall = hs.flatMap (Hdl.calls (keepalive s)) ∧
      keepalive s' = keepalive s := by
  induction hs generalizing s s' acts with
  | nil =>
    cases hrun
    exact ⟨rfl, rfl⟩
  | cons h hs ih =>
    obtain ⟨r, hr, hrun⟩ := Option.bind_eq_some_iff.mp hrun
    obtain ⟨hcalls, hstatus, hkeep⟩ := Hdl.call_calls hr
    rw [if_neg hstatus] at hrun
    obtain ⟨q, hq, hrun⟩ := Option.map_eq_some_iff.mp hrun
    cases hrun
    obtain ⟨hrest, hkeep'⟩ := ih hq
    refine ⟨?_, hkeep'.trans hkeep⟩
    have hcons : (Act.hdl h :: r.acts ++ q.2).filterMap Act.timerCall
        = r.acts.filterMap Act.timerCall ++ q.2.filterMap Act.timerCall := by
      rw [List.cons_append, List.filterMap_cons_none rfl, List.filterMap_append]
    rw [hcons, hcalls, hrest, hkeep, List.flatMap_cons]

theorem ofpFsm_calls {s s' : Ofpd} {event : UInt16} {e : Env} {acts : List Act}
    (h : ofpFsm s event e = some (s', acts)) :
    acts.filterMap Act.timerCall
        = (fsmHdls s.port.state event).flatMap (Hdl.calls (keepalive s)) ∧
      keepalive s' = keepalive s := by
  unfold ofpFsm at h
  split at h
  · next hrow =>
    cases h
    exact ⟨by simp [fsmHdls, hrow, Act.timerCall], rfl⟩
  · next r hrow =>
    obtain ⟨q, hq, h⟩ := Option.map_eq_some_iff.mp h
    cases h
    obtain ⟨hcalls, hkeep⟩ := runHdls_calls hq
    refine ⟨?_, hkeep⟩
    rw [List.filterMap_cons_none rfl, fsmHdls, hrow]
    exact hcalls

/-- What a round does about the timer `k`: it is in a state without one behind the round; it has
become established, and starts it; the timer has fired, and is started again; it is stopped and
started, on an echo reply; or the round is about something else. -/
inductive Rearm (k : StartArgs) (s : Ofpd) (m : Mail) (s' : Ofpd) : List Call → Prop
  | off : s'.port.state ≠ .established → (s.port.state = .established → m.Restarts) →
      Rearm k s m s' []
  | first : s.port.state = .featureWait → s'.port.state = .established → (∀ prim, m ≠ .tmr prim) →
      Rearm k s m s' [.startTmr k]
  | again {prim : IpcPrim} : s.port.state = .established → s'.port.state = .established →
      m = .tmr prim → Rearm k s m s' [.startTmr k]
  | echo : s.port.state = .established → s'.port.state = .established → (∀ prim, m ≠ .tmr prim) →
      Rearm k s m s' [stopCall k, .startTmr k]
  | other : s.port.state = .established → s'.port.state = .established → (∀ prim, m ≠ .tmr prim) →
      Rearm k s m s' []

/-- The rows of the table, by what they do about the timer. -/
theorem fsmHdls_calls (k : StartArgs) (state : OfpState) (event : UInt16) :
    (fsmNext state event ≠ .established ∧ state ≠ .established ∧
        (fsmHdls state event).flatMap (Hdl.calls k) = []) ∨
      (state = .featureWait ∧ fsmNext state event = .established ∧ event = eFeatureRequest ∧
        (fsmHdls state event).flatMap (Hdl.calls k) = [.startTmr k]) ∨
      (state = .established ∧ fsmNext state event = .established ∧ (event = eOfpTimeout ∧
          (fsmHdls state event).flatMap (Hdl.calls k) = [.startTmr k] ∨
        event ≠ eOfpTimeout ∧ ((fsmHdls state event).flatMap (Hdl.calls k) = [] ∨
          (fsmHdls state event).flatMap (Hdl.calls k) = [stopCall k, .startTmr k]))) := by
  cases hrow : findRow state event with
  | none =>
    have hnil : (fsmHdls state event).flatMap (Hdl.calls k) = [] := by simp [fsmHdls, hrow]
    by_cases hst : state = .established
    · refine .inr (.inr ⟨hst, by simpa [fsmNext, hrow] using hst, .inr ⟨?_, .inl hnil⟩⟩)
      rintro rfl
      rw [hst] at hrow
      exact absurd hrow (by decide)
    · exact .inl ⟨by simpa [fsmNext, hrow] using hst, hst, hnil⟩
  | some r =>
    obtain ⟨hmem, hev⟩ := findRow_mem hrow
    have hst := findRow_state hrow
    subst hev hst
    simp only [fsmNext, fsmHdls, hrow, Option.elim_some]
    fin_cases hmem
    · exact .inl ⟨by decide, by decide, rfl⟩
    · exact .inl ⟨by decide, by decide, rfl⟩
    · exact .inr (.inl ⟨rfl, rfl, rfl, rfl⟩)
    · exact .inr (.inr ⟨rfl, rfl, .inr ⟨by decide, .inl rfl⟩⟩)
    · exact .inr (.inr ⟨rfl, rfl, .inr ⟨by decide, .inl rfl⟩⟩)
    · exact .inr (.inr ⟨rfl, rfl, .inr ⟨by decide, .inr rfl⟩⟩)
    · exact .inr (.inr ⟨rfl, rfl, .inl ⟨rfl, rfl⟩⟩)
    · exact .inr (.inr ⟨rfl, rfl, .inr ⟨by decide, .inl rfl⟩⟩)
    · exact .inr (.inr ⟨rfl, rfl, .inr ⟨by decide, .inl rfl⟩⟩)

section Rounds

variable {s s' : Ofpd} {e : Env} {acts : List Act}

theorem rearm_of_fsm {s1 : Ofpd} {event : UInt16} {m : Mail}
    (hrun : ofpFsm s1 event e = some (s', acts)) (hst : s1.port.state = s.port.state)
    (hkeep : keepalive s1 = keepalive s)
    (hm : (∃ prim, m = .tmr prim) ∧ event = eOfpTimeout ∨
      (∀ prim, m ≠ .tmr prim) ∧ event ≠ eOfpTimeout) :
    Rearm (keepalive s) s m s' (acts.filterMap Act.timerCall) := by
  have hnext := (ofpFsm_call hrun).state
  rw [(ofpFsm_calls hrun).1, hkeep]
  rw [hst] at hnext ⊢
  rcases fsmHdls_calls (keepalive s) s.port.state event with ⟨hoff, hno, hnil⟩ |
    ⟨hfeat, hon, hev, hone⟩ | ⟨hest, hon, ⟨hev, hone⟩ | ⟨hev, hcalls⟩⟩
  · rw [hnil]
    exact .off (hnext ▸ hoff) fun hest => absurd hest hno
  · rw [hone]
    rcases hm with ⟨-, hm⟩ | ⟨hm, -⟩
    · rw [hm] at hev
      exact absurd hev (by decide)
    · exact .first hfeat (hnext.trans hon) hm
  · rw [hone]
    rcases hm with ⟨⟨prim, hm⟩, -⟩ | ⟨-, hm⟩
    · exact .again hest (hnext.trans hon) hm
    · exact absurd hev hm
  · rcases hm with ⟨-, hm⟩ | ⟨hm, -⟩
    · exact absurd hm hev
    · rcases hcalls with hcalls | hcalls <;> rw [hcalls]
      · exact .other hest (hnext.trans hon) hm
      · exact .echo hest (hnext.trans hon) hm

theorem OfpMbx.event_ne_timeout (mail : OfpMbx) : mail.event ≠ some eOfpTimeout := by
  unfold OfpMbx.event controlEvent
  split_ifs <;> decide

/-- A decoded message leaves an event that is not the one of the timer. -/
theorem Decoded.event_ne_timeout {mail : OfpMbx} (h : Decoded s mail .ok s')
    (hev : s.port.event ≠ eOfpTimeout) : s'.port.event ≠ eOfpTimeout := by
  cases h with
  | ok _ _ _ hev' =>
    rw [hev']
    cases hm : mail.event with
    | none => exact hev
    | some ev => exact fun h => mail.event_ne_timeout (hm.trans (congrArg some h))

theorem keepalive_of_same {s1 : Ofpd} (h : SameCtl s s1) : keepalive s1 = keepalive s := by
  rw [keepalive, h.ofpQid, h.ccb, keepalive]

/-- **A round and the timer.** -/
theorem rearm_of_round {r : Round} (h : agent.step s r s') (hev : s.port.event ≠ eOfpTimeout) :
    keepalive s' = keepalive s ∧ s'.port.event ≠ eOfpTimeout ∧
      Rearm (keepalive s) s r.mail s' ((s.acts r).filterMap Act.timerCall) := by
  obtain ⟨m, e⟩ := r
  by_cases hm : ∃ prim, m = .tmr prim
  · obtain ⟨prim, rfl⟩ := hm
    have hrun := agent_timer h
    refine ⟨(ofpFsm_calls hrun).2, ?_, rearm_of_fsm hrun rfl rfl (.inl ⟨⟨prim, rfl⟩, rfl⟩)⟩
    rwa [(ofpFsm_call hrun).event]
  · have hno : ∀ prim, m ≠ .tmr prim := fun prim hp => hm ⟨prim, hp⟩
    have hdid := (agent_did h).2
    generalize s.acts ⟨m, e⟩ = acts at hdid ⊢
    cases hdid with
    | quiet =>
      refine ⟨rfl, hev, ?_⟩
      by_cases hst : s.port.state = .established
      · exact .other hst hst hno
      · exact .off hst fun hest => absurd hest hst
    | timer hm => exact absurd hm (hno _)
    | restart _ hres s1 _ hsame hev1 =>
      have hkeep : keepalive s1 = keepalive s := keepalive_of_same hsame
      have hoff : ((ofpdReady s1 e).setState .helloWait).port.state ≠ .established := by
        change OfpState.helloWait ≠ .established
        decide
      exact ⟨hkeep, fun h => hev (hev1.symm.trans h), .off hoff fun _ => hres⟩
    | decode _ hlen hfail hd hrun =>
      have hdec := ofpDecodeFrame_decoded hd
      have hev1 := hdec.event_ne_timeout hev
      cases hdec with
      | ok _ _ hsame _ =>
        refine ⟨(ofpFsm_calls hrun).2.trans (keepalive_of_same hsame), ?_,
          rearm_of_fsm hrun hsame.state (keepalive_of_same hsame) (.inr ⟨hno, hev1⟩)⟩
        rwa [(ofpFsm_call hrun).event]

end Rounds

/-! ## 2. The timer task -/

/-- What the timer task has popped and not sent yet. -/
def heldBy : Timer.TmrPc → Option (IpcId × IpcPrim)
  | .out (.send _ que prim) => some (que, prim)
  | .send _ que prim => some (que, prim)
  | _ => none

/-- What a step of the timer task, or of a signal to it, does to the list: nothing, or its head is
popped and held; and what is held is sent. -/
inductive TmrEffect (s : Sys Unit) (lab : Lab Unit) (s' : Sys Unit) :
    List TmrIdx → List TmrIdx → Prop
  | quiet {l} : heldBy s'.tmr = heldBy s.tmr →
      (∀ d δ que prim, lab = .tmr d → s.tmr ≠ .send δ que prim) → TmrEffect s lab s' l l
  | pop {δ a r} : s.tmr = .inside (.pop δ) → Timer.Linked s.shm (a :: r) →
      heldBy s'.tmr = some ((s.shm.tcb a).que, Timer.primOf (s.shm.tcb a)) →
      TmrEffect s lab s' (a :: r) r
  | send {d δ que prim l} : lab = .tmr d → s.tmr = .send δ que prim → heldBy s'.tmr = none →
      TmrEffect s lab s' l l

section Timer

variable {s s' : Sys Unit} {l : List TmrIdx} {lab : Lab Unit}

theorem tmr_effect {d : ℤ} (h : Good s l) (hm : Timer.TmrMove s d s') :
    ∃ l', Timer.Linked s'.shm l' ∧ TmrEffect s (.tmr d) s' l l' := by
  cases hm with
  | pop hpc hpop =>
    obtain ⟨a, r, rfl, -, -, rfl, rfl, -, hf⟩ := h.popped hpc hpop
    exact ⟨r, hf.linked, .pop hpc h.linked rfl⟩
  | final hpc =>
    exact ⟨l, (h.freed_final hpc).linked, .quiet (by simp [heldBy, hpc]) (by simp [hpc])⟩
  | send hpc => exact ⟨l, h.linked, .send rfl hpc rfl⟩
  | @v k hpc =>
    refine ⟨l, h.linked, .quiet ?_ (by simp [hpc])⟩
    rw [hpc]
    cases k <;> rfl
  | isEmpty hpc =>
    refine ⟨l, h.linked, .quiet ?_ (by simp [hpc])⟩
    simp only [hpc]
    split_ifs <;> rfl
  | p hpc _ => exact ⟨l, h.linked, .quiet (by simp [heldBy, hpc]) (by simp [hpc])⟩
  | retake hpc => exact ⟨l, h.linked, .quiet (by simp [heldBy, hpc]) (by simp [hpc])⟩
  | left hpc _ => exact ⟨l, h.linked, .quiet (by simp [heldBy, hpc]) (by simp [hpc])⟩
  | pause hpc => exact ⟨l, h.linked, .quiet (by simp [heldBy, hpc]) (by simp [hpc])⟩
  | usleep hpc => exact ⟨l, h.linked, .quiet (by simp [heldBy, hpc]) (by simp [hpc])⟩

/-- An interrupted `p` changes neither the list nor an application. -/
theorem keyed_eintr {own : Ptr × UInt16 → Unit} (h : Keyed own s l) (hs : s.eintr = some s') :
    Keyed own s' l := by
  obtain ⟨sec, hpc, rfl⟩ := Sys.eintr_cases hs
  have hδ := h.delta
  refine ⟨⟨h.toPool, ?_⟩, h.nodup, h.calls, h.clear⟩
  simpa [hpc, Timer.TmrPc.DeltaOk] using hδ

/-- **A step of the timer task.** -/
theorem timer_step {own : Ptr × UInt16 → Unit} (h : Keyed own s l) (hlab : ofTimer lab = true)
    (hs : s.step lab = some s') : s'.app = s.app ∧
      ∃ l', Keyed own s' l' ∧ TmrEffect s lab s' l l' ∧
        ∀ tcb ∈ l', tcb ∈ l ∧ tmrOf (s'.shm.tcb tcb) = tmrOf (s.shm.tcb tcb) := by
  -- no control block joins the list in such a step
  have hmem : ∀ l', Good s' l' → ∀ tcb ∈ l',
      tcb ∈ l ∧ tmrOf (s'.shm.tcb tcb) = tmrOf (s.shm.tcb tcb) := by
    intro l' h' tcb ht
    rcases h.toGood.members hs h' tcb ht with hold | ⟨a, ⟨i, c, hl, -⟩, -⟩
    · exact hold
    · simp only at hl
      rw [hl] at hlab
      cases hlab
  cases lab with
  | tmr d =>
    have hm := Sys.osTmr_move hs
    obtain ⟨l', hl', heff⟩ := tmr_effect h.toGood hm
    obtain ⟨l₁, hk⟩ := h.tmr hm
    obtain rfl : l₁ = l' := hk.linked.unique hl'
    refine ⟨?_, l₁, hk, heff, hmem l₁ hk.toGood⟩
    cases hm <;> rfl
  | deliver =>
    have hok : Timer.CallOk own s .deliver := trivial
    obtain ⟨l', hk⟩ := h.step (by simp) hok hs
    obtain ⟨-, ⟨hpc, rfl⟩ | ⟨hpc, rfl⟩⟩ := Sys.deliver_cases hs
    · obtain rfl : l' = l := hk.linked.unique h.linked
      exact ⟨rfl, l', hk, .quiet (by simp [heldBy, hpc]) (by simp), hmem l' hk.toGood⟩
    · obtain rfl : l' = l := hk.linked.unique h.linked
      exact ⟨rfl, l', hk, .quiet rfl (by simp), hmem l' hk.toGood⟩
  | eintr =>
    have hk := keyed_eintr h hs
    obtain ⟨sec, hpc, rfl⟩ := Sys.eintr_cases hs
    exact ⟨rfl, l, hk, .quiet (by simp [heldBy, hpc]) (by simp), hmem l hk.toGood⟩
  | app i c => cases hlab

end Timer

/-! ## 3. `main` in the timer library -/

/-- Where `main` is in the timer library, and the calls it has still to make. -/
inductive Busy (k : StartArgs) : AppPc → List Call → Prop
  | idle {cs} : cs = [] ∨ cs = [.startTmr k] ∨ cs = [stopCall k, .startTmr k] → Busy k .idle cs
  | stop {pc} : pc = .wait (stopCall k).sec ∨ pc = .inside (stopCall k).sec →
      Busy k pc [.startTmr k]
  | ret {cs} : cs = [] ∨ cs = [.startTmr k] → Busy k (.out .ret) cs
  | start {pc} : pc.starting = some k → Busy k pc []
  | kill {pc} : pc = .out .kill ∨ pc = .kill → Busy k pc []

theorem Busy.of_idle {k : StartArgs} {cs : List Call} (h : Busy k .idle cs) :
    cs = [] ∨ cs = [.startTmr k] ∨ cs = [stopCall k, .startTmr k] := by
  cases h with
  | idle hcs => exact hcs
  | stop hstop => simp at hstop
  | start hstart => cases hstart
  | kill hkill => simp at hkill

/-- The call that `main` is in, until it has done its work. -/
def calling : AppPc → List Call
  | .wait (.stopXtmr ccb event) | .inside (.stopXtmr ccb event) => [.stopXtmr ccb event]
  | pc => (pc.starting.map Call.startTmr).toList

/-- What a step of `main` in the timer library does to the list: nothing, or the timer is taken
out, by `A_stop_query_tmr` or ahead of its start, or it joins the empty list. -/
inductive LibEffect (k : StartArgs) (s s' : Sys Unit) : List TmrIdx → List TmrIdx → Prop
  | quiet {l} : calling (s'.app ()) = calling (s.app ()) →
      (∀ a tcb, s.app () ≠ .inside (.startInsert a tcb)) → LibEffect k s s' l l
  | stop {l} : s.app () = .inside (stopCall k).sec → s'.app () = .out .ret → LibEffect k s s' l []
  | restart {l} : s.app () = .inside (.startStop k) → s'.app () = .out (.malloc k) →
      LibEffect k s s' l []
  | insert {tcb} : s.app () = .inside (.startInsert k tcb) → calling (s'.app ()) = [] →
      LibEffect k s s' [] [tcb]

section Lib

variable {own : Ptr × UInt16 → Unit} {k : StartArgs} {s s' : Sys Unit} {l : List TmrIdx}
  {cs : List Call} {c : Call}

theorem mem_keys (hev : k.event ≤ 255) (hk : ∀ tcb ∈ l, tmrOf (s.shm.tcb tcb) = k.tmr) {tcb : TmrIdx}
    (ht : tcb ∈ l) : (tmrOf (s.shm.tcb tcb)).key = k.key := by
  rw [hk tcb ht]
  exact k.key_tmr hev

/-- No timer with the key means no timer. -/
theorem eq_nil_of_key (hev : k.event ≤ 255) (hk : ∀ tcb ∈ l, tmrOf (s.shm.tcb tcb) = k.tmr)
    (hno : k.key ∉ keys s.shm l) : l = [] := by
  refine List.eq_nil_iff_forall_not_mem.mpr fun tcb ht => hno ?_
  rw [← mem_keys hev hk ht]
  exact List.mem_map_of_mem ht

/-- The pool is never full. -/
theorem exists_idle (h : Keyed own s l) (hev : k.event ≤ 255)
    (hk : ∀ tcb ∈ l, tmrOf (s.shm.tcb tcb) = k.tmr) (hno : (s.app ()).owns = none) :
    ¬ ∀ tcb, (s.shm.tcb tcb).idle = false := by
  intro hfull
  have hmem : ∀ tcb, tcb ∈ l := by
    intro tcb
    rcases h.used tcb (hfull tcb) with ht | ⟨i, hi⟩
    · exact ht
    · rw [hno] at hi
      cases hi
  have hsame := List.inj_on_of_nodup_map h.nodup (hmem ⟨0, by decide⟩) (hmem ⟨1, by decide⟩)
    ((mem_keys hev hk (hmem _)).trans (mem_keys hev hk (hmem _)).symm)
  exact absurd hsame (by decide)

/-- The body of a section `main` is inside of. -/
theorem body_step {sec : AppSec} {kont : AppCont} {shm : Timer.TmrCbs} {l' : List TmrIdx}
    (h : Keyed own s l) (hev : k.event ≤ 255) (hk : ∀ tcb ∈ l, tmrOf (s.shm.tcb tcb) = k.tmr)
    (hb : Busy k (s.app ()) cs) (hpc : s.app () = .inside sec)
    (he : BodyEffect s.shm l sec shm kont l') :
    Busy k (.out kont) cs ∧ LibEffect k s ({ s with shm := shm }.setApp () (.out kont)) l l' := by
  have herase : ∀ shm', Timer.Removed s.shm shm' l
      (l.eraseP (isXtmr s.shm (some k.ccb) k.event)) →
      l.eraseP (isXtmr s.shm (some k.ccb) k.event) = [] := by
    intro shm' hr
    refine List.eq_nil_iff_forall_not_mem.mpr fun tcb ht => hr.key_notMem h.nodup ?_
    have hkey := mem_keys hev hk (hr.sub.subset ht)
    rw [hr.same.keys, ← show k.key = (some k.ccb, k.event) from rfl, ← hkey]
    exact List.mem_map_of_mem ht
  rw [hpc] at hb
  cases hb with
  | stop hstop =>
    obtain rfl : sec = (stopCall k).sec := by simpa using hstop
    cases he with
    | stopXtmr hr =>
      rw [herase _ hr]
      exact ⟨.ret (.inr rfl), .stop hpc (by simp [Sys.setApp])⟩
  | kill hkill => simp at hkill
  | start hstart =>
    cases he with
    | @startStop a _ hr =>
      obtain rfl : a = k := by simpa [AppPc.starting] using hstart
      rw [herase _ hr]
      exact ⟨.start rfl, .restart hpc (by simp [Sys.setApp])⟩
    | full hfull => exact absurd hfull (exists_idle h hev hk (by rw [hpc]; rfl))
    | @malloc a tcb _ =>
      obtain rfl : a = k := by
        simpa [AppPc.starting, AppPc.stopped, AppSec.stopped] using hstart
      refine ⟨.start rfl, .quiet ?_ (by simp [hpc])⟩
      rw [hpc]
      simp only [Sys.setApp, Function.update_self]
      rfl
    | @insert a tcb shm' l₁ l₂ hi =>
      obtain rfl : a = k := by
        simpa [AppPc.starting, AppPc.stopped, AppSec.stopped] using hstart
      have hnil : l = [] := eq_nil_of_key hev hk (h.clear () a (by rw [hpc]; rfl))
      obtain ⟨rfl, rfl⟩ : l₁ = [] ∧ l₂ = [] := List.append_eq_nil_iff.mp (hi.split.symm.trans hnil)
      rw [hnil]
      split_ifs
      · refine ⟨.kill (.inl rfl), .insert hpc ?_⟩
        simp only [Sys.setApp, Function.update_self]
        rfl
      · refine ⟨.ret (.inl rfl), .insert hpc ?_⟩
        simp only [Sys.setApp, Function.update_self]
        rfl
    | stopXtmr | stopTmrs | isTmrExist => simp [AppPc.starting, AppPc.stopped, AppSec.stopped] at hstart

/-- `p` returns. -/
theorem Busy.inside {sec : AppSec} (hb : Busy k (.wait sec) cs) : Busy k (.inside sec) cs := by
  cases hb with
  | stop hstop =>
    obtain rfl : sec = (stopCall k).sec := by simpa using hstop
    exact .stop (.inr rfl)
  | kill hkill => simp at hkill
  | start hstart =>
    refine .start (hstart ▸ ?_)
    cases sec <;> rfl

/-- `v` returns. -/
theorem Busy.resume {kont : AppCont} (hb : Busy k (.out kont) cs) : Busy k kont.resume cs := by
  cases hb with
  | stop hstop => simp at hstop
  | kill hkill =>
    obtain rfl : kont = .kill := by simpa using hkill
    exact .kill (.inr rfl)
  | ret hcs => exact .idle (hcs.imp id Or.inl)
  | start hstart =>
    refine .start ?_
    rw [AppCont.resume_starting]
    exact hstart

/-- The block is filled. -/
theorem Busy.filled {a : StartArgs} {tcb : TmrIdx} (hb : Busy k (.fill a tcb) cs) :
    Busy k (.wait (.startInsert a tcb)) cs := by
  cases hb with
  | stop hstop => simp at hstop
  | kill hkill => simp at hkill
  | start hstart => exact .start hstart

/-- The signal is sent. -/
theorem Busy.killed (hb : Busy k .kill cs) : Busy k .idle cs := by
  cases hb with
  | stop hstop => simp at hstop
  | kill => exact .idle (.inl rfl)
  | start hstart => cases hstart

theorem Busy.startInsert {a : StartArgs} {tcb : TmrIdx} {pc : AppPc} (hb : Busy k pc cs)
    (hpc : pc = .inside (.startInsert a tcb)) : a = k := by
  subst hpc
  cases hb with
  | stop hstop => simp [stopCall, Call.sec] at hstop
  | kill hkill => simp at hkill
  | start hstart => simpa [AppPc.starting, AppPc.stopped, AppSec.stopped] using hstart

theorem calling_inside (sec : AppSec) : calling (.inside sec) = calling (.wait sec) := by
  cases sec <;> rfl

theorem calling_resume (kont : AppCont) : calling kont.resume = calling (.out kont) := by
  cases kont <;> rfl

/-- A block that joins the list is the one `main` has filled. -/
theorem lib_timers {l' : List TmrIdx} (h : Keyed own s l) (h' : Keyed own s' l')
    (hk : ∀ tcb ∈ l, tmrOf (s.shm.tcb tcb) = k.tmr) (hb : Busy k (s.app ()) cs)
    (hs : s.appl () c = some s') : ∀ tcb ∈ l', tmrOf (s'.shm.tcb tcb) = k.tmr := by
  intro tcb ht
  have hstep : s.step (.app () c) = some s' := hs
  rcases h.toGood.members hstep h'.toGood tcb ht with ⟨hold, hsame⟩ | ⟨a, ⟨i, c', -, hpc⟩, htmr⟩
  · rw [hsame, hk tcb hold]
  · obtain rfl := hb.startInsert hpc
    exact htmr

/-- **A step of `main` in the timer library.** -/
theorem lib_step (h : Keyed own s l) (hev : k.event ≤ 255)
    (hk : ∀ tcb ∈ l, tmrOf (s.shm.tcb tcb) = k.tmr) (hb : Busy k (s.app ()) cs)
    (hne : s.app () ≠ .idle) (hs : s.appl () c = some s') :
    s'.tmr = s.tmr ∧ Busy k (s'.app ()) cs ∧
      ∃ l', Keyed own s' l' ∧ LibEffect k s s' l l' ∧
        ∀ tcb ∈ l', tmrOf (s'.shm.tcb tcb) = k.tmr := by
  have hm := Sys.appl_move hs
  have hok : Timer.CallOk own s (.app () c) := by
    cases c <;> first | trivial | exact fun hidle => absurd hidle hne
  obtain ⟨l', hk'⟩ := h.appl hok hm
  have hmem := lib_timers h hk' hk hb hs
  -- most steps leave the shared memory
  have same : s'.shm = s.shm → l' = l := by
    intro hshm
    exact hk'.linked.unique (hshm ▸ h.linked)
  cases hm with
  | call hpc => exact absurd hpc hne
  | @body sec shm kont hpc hr =>
    obtain ⟨l₁, he⟩ := h.toPool.body_effect hpc hr
    obtain rfl : l' = l₁ := hk'.linked.unique (h.toPool.body hpc he).linked
    obtain ⟨hbusy, heff⟩ := body_step h hev hk hb hpc he
    refine ⟨rfl, ?_, l', hk', heff, hmem⟩
    simpa [Sys.setApp] using hbusy
  | @fill a tcb hpc =>
    obtain rfl : l' = l := hk'.linked.unique (h.toPool.fill hpc).linked
    rw [hpc] at hb
    refine ⟨rfl, ?_, l', hk', .quiet ?_ (by simp [hpc]), hmem⟩
    · simp only [Sys.setApp, Function.update_self]
      exact hb.filled
    · simp only [Sys.setApp, Function.update_self, hpc]
      rfl
  | @p sec sem hpc _ =>
    obtain rfl := same rfl
    rw [hpc] at hb
    refine ⟨rfl, ?_, l', hk', .quiet ?_ (by simp [hpc]), hmem⟩
    · simp only [Sys.setApp, Function.update_self]
      exact hb.inside
    · simp only [Sys.setApp, Function.update_self, hpc]
      exact calling_inside sec
  | @v kont hpc =>
    obtain rfl := same rfl
    rw [hpc] at hb
    refine ⟨rfl, ?_, l', hk', .quiet ?_ (by simp [hpc]), hmem⟩
    · simp only [Sys.setApp, Function.update_self]
      exact hb.resume
    · simp only [Sys.setApp, Function.update_self, hpc]
      exact calling_resume kont
  | kill hpc =>
    obtain rfl := same rfl
    rw [hpc] at hb
    refine ⟨rfl, ?_, l', hk', .quiet ?_ (by simp [hpc]), hmem⟩
    · simp only [Sys.setApp, Function.update_self]
      exact hb.killed
    · simp only [Sys.setApp, Function.update_self, hpc]
      rfl

end Lib

/-! ## 4. The invariant -/

/-- The one timer: what `main` is doing about it, and where its primitive may be. -/
structure Clocked (w : World) (l : List TmrIdx) : Prop extends Keyed (fun _ => ()) w.sys l where
  busy : Busy (keepalive w.agent) (w.sys.app ()) (w.todo.filterMap Act.timerCall)
  timers : ∀ tcb ∈ l, tmrOf (w.sys.shm.tcb tcb) = (keepalive w.agent).tmr
  held : ∀ que prim, heldBy w.sys.tmr = some (que, prim) →
    que = w.agent.ofpQid ∧ prim = keepalivePrim w.agent.ccb
  queued : ∀ m ∈ w.queue, m.mail.Sent w.agent.ccb
  event : w.agent.port.event ≠ eOfpTimeout

theorem keepalive_event_le (s : Ofpd) : (keepalive s).event ≤ 255 := by
  change (6 : UInt16) ≤ 255
  decide

section Clock

variable {w : World} {l : List TmrIdx}

/-- A block that holds the timer fires with its primitive. -/
theorem primOf_keepalive {s : Ofpd} {c : Timer.TmrCb} (h : tmrOf c = (keepalive s).tmr) :
    c.que = s.ofpQid ∧ Timer.primOf c = keepalivePrim s.ccb := by
  simp only [tmrOf, StartArgs.tmr, keepalive, Timer.ofpTxT, Timer.Tmr.mk.injEq] at h
  obtain ⟨hque, hccb, hev, -⟩ := h
  refine ⟨hque, ?_⟩
  rw [Timer.primOf, hccb, hev]
  rfl

theorem Clocked.osTmr (h : Clocked w l) {lab : Lab Unit} {sys : Sys Unit}
    (hlab : ofTimer lab = true) (hs : w.sys.step lab = some sys) : sys.app = w.sys.app ∧
      ∃ l', Clocked { w with sys := sys, queue := w.queue ++ w.sends lab, popped := w.pops } l' ∧
        TmrEffect w.sys lab sys l l' := by
  obtain ⟨happ, l', hk, heff, hmem⟩ := timer_step h.toKeyed hlab hs
  refine ⟨happ, l', ⟨hk, ?_, ?_, ?_, ?_, h.event⟩, heff⟩
  · rw [happ]
    exact h.busy
  · intro tcb ht
    rw [(hmem tcb ht).2]
    exact h.timers tcb (hmem tcb ht).1
  · intro que prim hp
    cases heff with
    | quiet hheld => exact h.held que prim (hheld ▸ hp)
    | @pop δ a r hpc _ hheld =>
      obtain ⟨rfl, rfl⟩ := Prod.mk.inj (Option.some.inj (hheld.symm.trans hp))
      exact primOf_keepalive (h.timers a List.mem_cons_self)
    | send _ _ hheld => rw [hheld] at hp; cases hp
  · intro m hm
    rcases List.mem_append.mp hm with hm | hm
    · exact h.queued m hm
    · unfold World.sends at hm
      split at hm
      · split at hm
        · next δ que prim hpc =>
          split_ifs at hm
          · rw [List.mem_singleton.mp hm]
            exact (h.held que prim (by rw [hpc]; rfl)).2
          · cases hm
        · cases hm
      · cases hm

theorem Clocked.lib (h : Clocked w l) {sys : Sys Unit} {c : Call} (hne : w.sys.app () ≠ .idle)
    (hs : w.sys.appl () c = some sys) :
    ∃ l', Clocked { w.stamp with sys := sys } l' ∧
      LibEffect (keepalive w.agent) w.sys sys l l' := by
  obtain ⟨htmr, hbusy, l', hk, heff, hmem⟩ :=
    lib_step h.toKeyed (keepalive_event_le _) h.timers h.busy hne hs
  refine ⟨l', ⟨hk, ?_, ?_, ?_, ?_, ?_⟩, heff⟩
  · simpa using hbusy
  · intro tcb ht
    simpa using hmem tcb ht
  · intro que prim hp
    simp only [World.stamp_agent]
    rw [htmr] at hp
    exact h.held que prim hp
  · intro m hm
    simp only [World.stamp_queue, World.stamp_agent] at hm ⊢
    exact h.queued m hm
  · simpa using h.event

/-- What a reader sends is not a primitive. -/
theorem Clocked.enqueue (h : Clocked w l) (ms : List Msg) (cp : Reader)
    (hms : ∀ m ∈ ms, ∃ mail, m.mail = .drv mail) :
    Clocked { w with cp := cp, queue := w.queue ++ ms } l := by
  refine ⟨h.toKeyed, h.busy, h.timers, h.held, ?_, h.event⟩
  intro m hm
  rcases List.mem_append.mp hm with hm | hm
  · exact h.queued m hm
  · obtain ⟨mail, hmail⟩ := hms m hm
    rw [hmail]
    trivial

/-- A mail is taken: this is a round of the agent. -/
theorem Clocked.round (h : Clocked w l) {e : Env} {m : Msg} {queue : List Msg} {s : Ofpd}
    {acts : List Act} (hq : w.queue = m :: queue) (hnode : e.node ∉ w.agent.heap)
    (hrun : mainStep w.agent m.mail e = some (s, acts)) :
    agent.step w.agent ⟨m.mail, e⟩ s ∧ w.agent.acts ⟨m.mail, e⟩ = acts := by
  have hsent : m.mail.Sent w.agent.ccb := h.queued m (by simp [hq])
  constructor
  · change w.agent.round ⟨m.mail, e⟩ = some s
    rw [Ofpd.round, if_pos ⟨hnode, hsent⟩, hrun]
    rfl
  · rw [Ofpd.acts, hrun]
    rfl

theorem Clocked.ipcRcv2 (h : Clocked w l) {e : Env} {m : Msg} {queue : List Msg} {s : Ofpd}
    {acts : List Act} (hb : w.Between) (hq : w.queue = m :: queue) (hnode : e.node ∉ w.agent.heap)
    (hrun : mainStep w.agent m.mail e = some (s, acts)) :
    Clocked { w with agent := s, todo := acts, queue := queue } l ∧
      Rearm (keepalive w.agent) w.agent m.mail s (acts.filterMap Act.timerCall) := by
  obtain ⟨hstep, hacts⟩ := h.round hq hnode hrun
  obtain ⟨hkeep, hev, hrearm⟩ := rearm_of_round hstep h.event
  rw [hacts] at hrearm
  have hccb : s.ccb = w.agent.ccb := congrArg StartArgs.ccb hkeep
  have hqid : s.ofpQid = w.agent.ofpQid := congrArg StartArgs.que hkeep
  refine ⟨⟨h.toKeyed, ?_, ?_, ?_, ?_, hev⟩, hrearm⟩
  · change Busy (keepalive s) (w.sys.app ()) _
    rw [hb.1, hkeep]
    refine .idle ?_
    change acts.filterMap Act.timerCall = _ ∨ acts.filterMap Act.timerCall = _ ∨ _
    generalize acts.filterMap Act.timerCall = cs at hrearm
    cases hrearm with
    | off | other => exact .inl rfl
    | first | again => exact .inr (.inl rfl)
    | echo => exact .inr (.inr rfl)
  · change ∀ tcb ∈ l, _ = (keepalive s).tmr
    rw [hkeep]
    exact h.timers
  · change ∀ que prim, _ → que = s.ofpQid ∧ prim = keepalivePrim s.ccb
    rw [hccb, hqid]
    exact h.held
  · intro m' hm
    change m'.mail.Sent s.ccb
    rw [hccb]
    exact h.queued m' (hq ▸ List.mem_cons_of_mem m hm)

/-- The list behind an act: `tmrInit` makes a new one. -/
def Act.listed (l : List TmrIdx) : Act → List TmrIdx
  | tmrInit => []
  | _ => l

theorem Clocked.act (h : Clocked w l) {a : Act} {todo : List Act} (hidle : w.sys.app () = .idle)
    (htodo : w.todo = a :: todo) : Clocked ({ w with todo := todo }.perform a) (a.listed l) := by
  have hb := h.busy
  rw [hidle, htodo] at hb
  have hcall : ∀ c : Call, Timer.CallOk (fun _ => ()) w.sys (.app () c) →
      Keyed (fun _ => ()) (w.sys.setApp () (.wait c.sec)) l := by
    intro c hok
    obtain ⟨l', hk⟩ := h.toKeyed.appl hok (.call hidle)
    rwa [hk.linked.unique h.linked] at hk
  have hskip : a.timerCall = none →
      Busy (keepalive w.agent) .idle (todo.filterMap Act.timerCall) := by
    intro hnone
    rwa [List.filterMap_cons_none hnone] at hb
  have skip : a.timerCall = none → Clocked { w with todo := todo } l := by
    intro hnone
    refine ⟨h.toKeyed, ?_, h.timers, h.held, h.queued, h.event⟩
    change Busy _ (w.sys.app ()) _
    rw [hidle]
    exact hskip hnone
  cases a with
  | startTmr a =>
    obtain ⟨rfl, hrest⟩ : a = keepalive w.agent ∧ todo.filterMap Act.timerCall = [] := by
      simpa [Act.timerCall, stopCall] using hb.of_idle
    refine ⟨hcall _ fun _ => ⟨keepalive_event_le _, rfl⟩, ?_, h.timers, h.held, h.queued, h.event⟩
    change Busy _ (Function.update w.sys.app () _ ()) (todo.filterMap Act.timerCall)
    rw [Function.update_self, hrest]
    exact .start rfl
  | stopXtmr ccb event =>
    obtain ⟨hstop, hrest⟩ : Call.stopXtmr ccb event = stopCall (keepalive w.agent) ∧
        todo.filterMap Act.timerCall = [.startTmr (keepalive w.agent)] := by
      simpa [Act.timerCall, stopCall] using hb.of_idle
    refine ⟨hcall _ trivial, ?_, h.timers, h.held, h.queued, h.event⟩
    change Busy _ (Function.update w.sys.app () (.wait (Call.stopXtmr ccb event).sec) ())
      (todo.filterMap Act.timerCall)
    rw [Function.update_self, hrest, hstop]
    exact .stop (.inl rfl)
  | tmrInit =>
    exact ⟨Timer.keyed_start _, hskip rfl, by simp [Act.listed],
      by simp [World.perform, Sys.start, heldBy], h.queued, h.event⟩
  | killTasks | forkCp =>
    have hs := skip rfl
    exact ⟨hs.toKeyed, hs.busy, hs.timers, hs.held, hs.queued, hs.event⟩
  | fsm | hdl | xmit | notResponding => exact skip rfl

theorem clocked_init (h : world.init w) : Clocked w [] := by
  obtain ⟨ccb, qid, e, shm, rfl⟩ := world_init h
  refine ⟨Timer.keyed_start shm, .idle (.inl rfl), by simp, ?_, ?_, ?_⟩
  · simp [World.start, Sys.start, heldBy]
  · simp [World.start]
  · change (0 : UInt16) ≠ 6
    decide

/-- **Every step keeps the one timer.** -/
theorem Clocked.step {w' : World} {ev : Ev} (h : Clocked w l) (hs : w.step ev = some w') :
    ∃ l', Clocked w' l' := by
  have hdrv : ∀ (x : Option OfpMbx) (m : Msg), m ∈ (x.map w.drvMsg).toList →
      ∃ mail, m.mail = .drv mail := by
    intro x m hm
    obtain ⟨-, mail, -, hmail⟩ := (drvMsgs_cases w x).2 m hm
    exact ⟨mail, hmail⟩
  cases World.step_moved hs with
  | osTmr _ hlab hsys =>
    obtain ⟨-, l', h', -⟩ := h.osTmr hlab hsys
    exact ⟨l', h'⟩
  | sockdCp => exact ⟨l, h.enqueue _ _ (hdrv _)⟩
  | sockdDp => exact ⟨l, h.enqueue _ w.cp (hdrv _)⟩
  | ipcRcv2 hb hq hnode hrun => exact ⟨l, (h.ipcRcv2 hb hq hnode hrun).1⟩
  | act hidle htodo => exact ⟨_, h.act hidle htodo⟩
  | lib hne hsys =>
    obtain ⟨l', h', -⟩ := h.lib hne hsys
    exact ⟨l', h'⟩

end Clock

end Ofpagent.Agent
