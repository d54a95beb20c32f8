/-
# The queue across a restart

A restart makes a new timer task, a new timer pool and a new reader, but the queue is the old one:
timeouts of the session before may still be in it.  They are harmless because of the order of the
queue.  The reader that reports the failure sends nothing behind its report, so nothing of the
control plane is left when the report is taken, and the new reader starts when the old timer task
is dead: whatever the new session receives stands behind all that is left of the old one.  Until
then the port waits for a HELLO, where a timeout does nothing.

`Phase` says how far a restart has got, `InOrder` what stands behind what in the queue, and
`timeout_of_session` is the result.
-/
import Ofpagent.Agent.Clock

namespace Ofpagent.Agent

open Ofpagent.Lib
open Ofpagent.Timer (Sys)

/-! ## 1. Rounds and restarts -/

/-- An act that is not one of a restart. -/
def Act.Plain : Act → Prop
  | killTasks | tmrInit | forkCp => False
  | _ => True

/-- A mail of the control plane. -/
def Mail.Control : Mail → Prop
  | .drv mail => mail.type ≠ drivDp
  | _ => False

/-- A primitive of the timer task. -/
def Mail.Timeout : Mail → Prop
  | .tmr _ => True
  | _ => False

theorem control_of_restarts {m : Mail} (h : m.Restarts) : m.Control := by
  cases m with
  | drv mail =>
    intro hdp
    have hfail := hdp.symm.trans h.2
    exact absurd hfail (by decide)
  | tmr prim => cases h
  | other => cases h

theorem not_control_of_timeout {m : Mail} (h : m.Timeout) : ¬ m.Control := by
  cases m with
  | tmr prim => exact fun hc => hc
  | drv mail => cases h
  | other => cases h

theorem FsmCall.plain {s s' : Ofpd} {event : UInt16} {acts : List Act}
    (h : FsmCall s event s' acts) : ∀ a ∈ acts, a.Plain := by
  obtain ⟨rest, rfl, hrest⟩ := h.acts
  intro a ha
  rcases List.mem_cons.mp ha with rfl | ha
  · trivial
  · obtain ⟨h', -, rfl | hby⟩ := hrest a ha
    · trivial
    · cases a <;> trivial

/-- A round that is no restart leaves only plain acts, and the sockets; a restart begins with
killing the two tasks. -/
theorem restart_cases {s s' : Ofpd} {r : Round} (h : agent.step s r s') :
    (¬ r.mail.Restarts ∧ (∀ a ∈ s.acts r, a.Plain) ∧ s'.ofpIoFds = s.ofpIoFds) ∨
      (r.mail.Restarts ∧ s'.port.state = .helloWait ∧ s'.port.sockfd = s'.ofpIoFds .cp ∧
        ∃ todo, s.acts r = .killTasks :: .tmrInit :: .forkCp :: todo ∧ ∀ a ∈ todo, a.Plain) := by
  have hdid := (agent_did h).2
  generalize s.acts r = acts at hdid ⊢
  cases hdid with
  | quiet _ hres => exact .inl ⟨hres, by simp, rfl⟩
  | timer hm hrun =>
    have hcall := ofpFsm_call hrun
    refine .inl ⟨?_, hcall.plain, hcall.same.ofpIoFds⟩
    rw [hm]
    exact fun hres => hres
  | restart _ hres s1 =>
    exact .inr ⟨hres, rfl, rfl, _, rfl, by simp [aSendHello, Act.Plain]⟩
  | decode hm hlen hfail hd hrun =>
    have hcall := ofpFsm_call hrun
    refine .inl ⟨?_, hcall.plain, ?_⟩
    · rw [hm]
      exact fun hres => hfail hres.2
    · cases ofpDecodeFrame_decoded hd with
      | ok _ _ hsame _ => exact hcall.same.ofpIoFds.trans hsame.ofpIoFds

/-- Without a mail of the control plane the port goes on waiting for a HELLO. -/
theorem helloWait_of_round {s s' : Ofpd} {r : Round} (h : agent.step s r s')
    (hst : s.port.state = .helloWait) (hno : ¬ r.mail.Control) : s'.port.state = .helloWait := by
  have hdid := (agent_did h).2
  generalize s.acts r = acts at hdid
  cases hdid with
  | quiet => exact hst
  | timer _ hrun =>
    rw [(ofpFsm_call hrun).state, hst, fsmNext_helloWait, if_neg (by decide)]
  | restart _ hres => exact absurd (control_of_restarts hres) hno
  | @decode mail s1 _ _ hm hlen hfail hd hrun =>
    have hdp : mail.type = drivDp := by
      by_contra hdp
      rw [hm] at hno
      exact hno hdp
    cases ofpDecodeFrame_decoded hd with
    | ok _ _ hsame hev =>
      have hpkt : s1.port.event = ePacketIn := by rw [hev, OfpMbx.event, if_pos hdp]; rfl
      rw [(ofpFsm_call hrun).state, hsame.state, hst, hpkt, fsmNext_helloWait, if_neg (by decide)]

/-- A timeout in `S_HELLO_WAIT` does nothing. -/
theorem timeout_in_helloWait {s s' : Ofpd} {prim : IpcPrim} {e : Env}
    (h : agent.step s ⟨.tmr prim, e⟩ s') (hst : s.port.state = .helloWait) :
    s' = s ∧ s.acts ⟨.tmr prim, e⟩ = [.fsm eOfpTimeout] := by
  have hrow : findRow s.port.state eOfpTimeout = none := by
    rw [hst, findRow_helloWait, if_neg (by decide)]
  have hrun := agent_timer h
  rw [ofpFsm, hrow] at hrun
  obtain ⟨hs, hacts⟩ := Prod.mk.inj (Option.some.inj hrun)
  exact ⟨hs.symm, hacts.symm⟩

/-! ## 2. How far a restart has got -/

/-- The reader and the timer task, and what is left to do: the session is up; its reader has
reported the failure; or the report has been taken and the two tasks are about to be killed, a
timer task to be made, a reader to be forked. -/
inductive Phase (w : World) : Prop
  | up {fd} : w.alive = true → (∀ a ∈ w.todo, a.Plain) → w.cp = .reading fd →
      (∀ m ∈ w.queue, ¬ m.mail.Restarts) → Phase w
  | lost {m} : w.alive = true → (∀ a ∈ w.todo, a.Plain) → w.cp = .closed → m ∈ w.queue →
      m.mail.Restarts → Phase w
  | kill {todo} : w.todo = .killTasks :: .tmrInit :: .forkCp :: todo → (∀ a ∈ todo, a.Plain) →
      w.alive = true → w.cp = .closed → (∀ m ∈ w.queue, ¬ m.mail.Control) →
      w.agent.port.state = .helloWait → Phase w
  | init {todo} : w.todo = .tmrInit :: .forkCp :: todo → (∀ a ∈ todo, a.Plain) →
      w.cp = .none → (∀ m ∈ w.queue, ¬ m.mail.Control) → w.agent.port.state = .helloWait → Phase w
  | fork {todo} : w.todo = .forkCp :: todo → (∀ a ∈ todo, a.Plain) → w.alive = true →
      w.cp = .none → (∀ m ∈ w.queue, ¬ m.mail.Control) → w.agent.port.state = .helloWait → Phase w

/-- A timeout of a session before. -/
def World.Stale (w : World) (m : Msg) : Prop := m.mail.Timeout ∧ m.session ≠ w.session

/-- What stands behind what in the queue: nothing of the control plane behind the report of a
failure, and no timeout of a session before behind anything of the control plane. -/
structure InOrder (w : World) : Prop where
  phase : Phase w
  sessions : ∀ m ∈ w.queue, m.session ≤ w.session
  behind : w.queue.Pairwise fun f m => f.mail.Restarts → ¬ m.mail.Control
  stale : w.queue.Pairwise fun c m => w.Stale m → ¬ c.mail.Control
  waits : ∀ m ∈ w.queue, w.Stale m → w.agent.port.state = .helloWait

section Order

variable {w : World}

/-- Messages that join the queue. -/
theorem InOrder.enqueue (h : InOrder w) {ms : List Msg} (cp : Reader) (hlen : ms.length ≤ 1)
    (hses : ∀ m ∈ ms, m.session = w.session)
    (hphase : Phase { w with cp := cp, queue := w.queue ++ ms })
    (hbehind : (∃ f ∈ w.queue, f.mail.Restarts) → ∀ m ∈ ms, ¬ m.mail.Control) :
    InOrder { w with cp := cp, queue := w.queue ++ ms } := by
  have hone : ∀ R : Msg → Msg → Prop, ms.Pairwise R := by
    intro R
    match ms, hlen with
    | [], _ => exact List.Pairwise.nil
    | [m], _ => exact List.pairwise_singleton R m
  refine ⟨hphase, ?_, ?_, ?_, ?_⟩
  · intro m hm
    rcases List.mem_append.mp hm with hm | hm
    · exact h.sessions m hm
    · exact (hses m hm).le
  · exact List.pairwise_append.mpr ⟨h.behind, hone _, fun f hf m hm hres => hbehind ⟨f, hf, hres⟩ m hm⟩
  · exact List.pairwise_append.mpr ⟨h.stale, hone _, fun c _ m hm hst => absurd (hses m hm) hst.2⟩
  · intro m hm hst
    rcases List.mem_append.mp hm with hm | hm
    · exact h.waits m hm hst
    · exact absurd (hses m hm) hst.2

/-- The phase is about these five only. -/
theorem Phase.congr {w' : World} (h : Phase w) (halive : w'.alive = w.alive)
    (htodo : w'.todo = w.todo) (hcp : w'.cp = w.cp) (hqueue : w'.queue = w.queue)
    (hagent : w'.agent = w.agent) : Phase w' := by
  cases h with
  | up hal hall hrd hno =>
    exact .up (halive.trans hal) (htodo ▸ hall) (hcp.trans hrd) (hqueue ▸ hno)
  | lost hal hall hrd hm hr =>
    exact .lost (halive.trans hal) (htodo ▸ hall) (hcp.trans hrd) (hqueue ▸ hm) hr
  | kill hacts hplain hal hrd hno hst =>
    exact .kill (htodo.trans hacts) hplain (halive.trans hal) (hcp.trans hrd) (hqueue ▸ hno)
      (hagent ▸ hst)
  | init hacts hplain hrd hno hst =>
    exact .init (htodo.trans hacts) hplain (hcp.trans hrd) (hqueue ▸ hno) (hagent ▸ hst)
  | fork hacts hplain hal hrd hno hst =>
    exact .fork (htodo.trans hacts) hplain (halive.trans hal) (hcp.trans hrd) (hqueue ▸ hno)
      (hagent ▸ hst)

/-- A message that is neither of the control plane nor a report of a failure. -/
theorem Phase.enqueue (h : Phase w) {ms : List Msg} (hms : ∀ m ∈ ms, ¬ m.mail.Control) :
    Phase { w with queue := w.queue ++ ms } := by
  have hres : ∀ m ∈ ms, ¬ m.mail.Restarts := fun m hm hr => hms m hm (control_of_restarts hr)
  have happ : ∀ P : Msg → Prop, (∀ m ∈ w.queue, P m) → (∀ m ∈ ms, P m) →
      ∀ m ∈ w.queue ++ ms, P m := by
    intro P hq hm m hmem
    exact (List.mem_append.mp hmem).elim (hq m) (hm m)
  cases h with
  | up hal htodo hcp hno => exact .up hal htodo hcp (happ _ hno hres)
  | lost hal htodo hcp hm hr => exact .lost hal htodo hcp (List.mem_append_left ms hm) hr
  | kill htodo hplain hal hcp hno hst => exact .kill htodo hplain hal hcp (happ _ hno hms) hst
  | init htodo hplain hcp hno hst => exact .init htodo hplain hcp (happ _ hno hms) hst
  | fork htodo hplain hal hcp hno hst => exact .fork htodo hplain hal hcp (happ _ hno hms) hst

/-- A reader is at work in a session that is up only. -/
theorem Phase.of_reading (h : Phase w) {fd : ℤ} (hcp : w.cp = .reading fd) :
    w.alive = true ∧ (∀ a ∈ w.todo, a.Plain) ∧ ∀ m ∈ w.queue, ¬ m.mail.Restarts := by
  cases h with
  | up hal htodo _ hno => exact ⟨hal, htodo, hno⟩
  | lost _ _ hcp' => rw [hcp'] at hcp; cases hcp
  | kill _ _ _ hcp' => rw [hcp'] at hcp; cases hcp
  | init _ _ hcp' => rw [hcp'] at hcp; cases hcp
  | fork _ _ _ hcp' => rw [hcp'] at hcp; cases hcp

/-- A mail is taken when nothing is left of a restart. -/
theorem Phase.of_between (h : Phase w) (hb : w.Between) : w.alive = true ∧
    ((∃ fd, w.cp = .reading fd ∧ ∀ m ∈ w.queue, ¬ m.mail.Restarts) ∨
      (w.cp = .closed ∧ ∃ m ∈ w.queue, m.mail.Restarts)) := by
  cases h with
  | up hal _ hcp hno => exact ⟨hal, .inl ⟨_, hcp, hno⟩⟩
  | lost hal _ hcp hm hr => exact ⟨hal, .inr ⟨hcp, _, hm, hr⟩⟩
  | kill htodo => rw [hb.2] at htodo; cases htodo
  | init htodo => rw [hb.2] at htodo; cases htodo
  | fork htodo => rw [hb.2] at htodo; cases htodo

theorem Phase.ipcRcv2 (h : InOrder w) {e : Env} {m : Msg} {queue : List Msg} {s : Ofpd}
    (hb : w.Between) (hq : w.queue = m :: queue) (hstep : agent.step w.agent ⟨m.mail, e⟩ s) :
    Phase { w with agent := s, todo := w.agent.acts ⟨m.mail, e⟩, queue := queue } := by
  have hbehind := h.behind
  rw [hq, List.pairwise_cons] at hbehind
  obtain ⟨hal, hcp⟩ := h.phase.of_between hb
  rcases restart_cases hstep with ⟨hno, hplain, -⟩ | ⟨hres, hst, -, todo, hacts, hplain⟩ <;>
    rcases hcp with ⟨fd, hcp, hall⟩ | ⟨hcp, f, hf, hr⟩
  · exact .up hal hplain hcp fun m' hm' => hall m' (hq ▸ List.mem_cons_of_mem m hm')
  · rw [hq] at hf
    rcases List.mem_cons.mp hf with rfl | hf
    · exact absurd hr hno
    · exact .lost hal hplain hcp hf hr
  · exact absurd hres (hall m (by simp [hq]))
  · exact .kill hacts hplain hal hcp (fun m' hm' => hbehind.1 m' hm' hres) hst

theorem InOrder.ipcRcv2 (h : InOrder w) {e : Env} {m : Msg} {queue : List Msg} {s : Ofpd}
    (hb : w.Between) (hq : w.queue = m :: queue) (hstep : agent.step w.agent ⟨m.mail, e⟩ s) :
    InOrder { w with agent := s, todo := w.agent.acts ⟨m.mail, e⟩, queue := queue } := by
  have hmem : ∀ m' ∈ queue, m' ∈ w.queue := fun m' hm' => hq ▸ List.mem_cons_of_mem m hm'
  have hbehind := h.behind
  have hstale := h.stale
  rw [hq, List.pairwise_cons] at hbehind hstale
  refine ⟨Phase.ipcRcv2 h hb hq hstep, fun m' hm' => h.sessions m' (hmem m' hm'), hbehind.2,
    hstale.2, fun m' hm' hst => ?_⟩
  exact helloWait_of_round hstep (h.waits m' (hmem m' hm') hst) (hstale.1 m' hm' hst)

/-- A plain act is none of the queue's business. -/
theorem World.perform_plain (w : World) {a : Act} (h : a.Plain) :
    (w.perform a).agent = w.agent ∧ (w.perform a).todo = w.todo ∧ (w.perform a).alive = w.alive ∧
      (w.perform a).cp = w.cp ∧ (w.perform a).queue = w.queue ∧
      (w.perform a).session = w.session := by
  cases a with
  | killTasks | tmrInit | forkCp => cases h
  | _ => exact ⟨rfl, rfl, rfl, rfl, rfl, rfl⟩

/-- Order is about the queue, the session and the state only. -/
theorem InOrder.congr {w' : World} (h : InOrder w) (hphase : Phase w')
    (hqueue : w'.queue = w.queue) (hses : w'.session = w.session)
    (hagent : w'.agent = w.agent) : InOrder w' := by
  have hstale : w'.Stale = w.Stale := by
    funext m
    rw [World.Stale, hses, World.Stale]
  refine ⟨hphase, ?_, ?_, ?_, ?_⟩
  · rw [hqueue, hses]
    exact h.sessions
  · rw [hqueue]
    exact h.behind
  · rw [hqueue, hstale]
    exact h.stale
  · rw [hqueue, hstale, hagent]
    exact h.waits

theorem InOrder.act (h : InOrder w) {a : Act} {todo : List Act} (htodo : w.todo = a :: todo) :
    InOrder ({ w with todo := todo }.perform a) := by
  have hplain : a.Plain → Phase { w with todo := todo } →
      InOrder ({ w with todo := todo }.perform a) := by
    intro ha hphase
    obtain ⟨hagent, htodo', halive, hcp, hqueue, hses⟩ :=
      World.perform_plain { w with todo := todo } ha
    exact h.congr (hphase.congr halive htodo' hcp hqueue hagent) hqueue hses hagent
  cases h.phase with
  | up hal hall hcp hno =>
    rw [htodo, List.forall_mem_cons] at hall
    exact hplain hall.1 (.up hal hall.2 hcp hno)
  | lost hal hall hcp hm hr =>
    rw [htodo, List.forall_mem_cons] at hall
    exact hplain hall.1 (.lost hal hall.2 hcp hm hr)
  | kill hacts hplain' _ _ hno hst =>
    obtain ⟨rfl, rfl⟩ := List.cons.inj (htodo.symm.trans hacts)
    exact h.congr (.init rfl hplain' rfl hno hst) rfl rfl rfl
  | init hacts hplain' hcp hno hst =>
    obtain ⟨rfl, rfl⟩ := List.cons.inj (htodo.symm.trans hacts)
    -- every timeout in the queue belongs to a session before from now on
    refine ⟨.fork rfl hplain' rfl hcp hno hst, fun m hm => (h.sessions m hm).trans (Nat.le_succ _),
      h.behind, ?_, fun _ _ _ => hst⟩
    exact List.Pairwise.imp_of_mem (fun {c m} hc _ _ _ => hno c hc) h.behind
  | fork hacts hplain' hal _ hno hst =>
    obtain ⟨rfl, rfl⟩ := List.cons.inj (htodo.symm.trans hacts)
    exact h.congr (.up hal hplain' rfl fun m hm hr => hno m hm (control_of_restarts hr)) rfl rfl rfl

/-- Where a timeout does something, it is one of the session. -/
theorem InOrder.session_eq (h : InOrder w) {m : Msg} (hm : m ∈ w.queue) (htm : m.mail.Timeout)
    (hst : w.agent.port.state ≠ .helloWait) : m.session = w.session := by
  by_contra hne
  exact hst (h.waits m hm ⟨htm, hne⟩)

/-- The message that a timer task sends, if it does. -/
theorem sends_cases (w : World) (lab : Timer.Lab Unit) :
    (w.sends lab).length ≤ 1 ∧ ∀ m ∈ w.sends lab, m.mail.Timeout ∧ m.session = w.session := by
  unfold World.sends
  split
  · split
    · split_ifs
      · exact ⟨by simp, by simp [Mail.Timeout]⟩
      · exact ⟨by simp, by simp⟩
    · exact ⟨by simp, by simp⟩
  · exact ⟨by simp, by simp⟩

theorem InOrder.osTmr (h : InOrder w) (lab : Timer.Lab Unit) (sys : Sys Unit) (popped : ℕ) :
    InOrder { w with sys := sys, queue := w.queue ++ w.sends lab, popped := popped } := by
  obtain ⟨hlen, hmem⟩ := sends_cases w lab
  have hno : ∀ m ∈ w.sends lab, ¬ m.mail.Control := fun m hm =>
    not_control_of_timeout (hmem m hm).1
  have hq := h.enqueue w.cp hlen (fun m hm => (hmem m hm).2) (h.phase.enqueue hno)
    fun _ m hm => hno m hm
  exact hq.congr (hq.phase.congr rfl rfl rfl rfl rfl) rfl rfl rfl

theorem InOrder.sockdDp (h : InOrder w) (rxlen : ℤ) (buffer stack : Mem) :
    InOrder { w with
      queue := w.queue ++ ((ofpSockdDp w.dp rxlen buffer stack).map w.drvMsg).toList } := by
  obtain ⟨hlen, hmem⟩ := drvMsgs_cases w (ofpSockdDp w.dp rxlen buffer stack)
  have hno : ∀ m ∈ ((ofpSockdDp w.dp rxlen buffer stack).map w.drvMsg).toList,
      ¬ m.mail.Control := by
    intro m hm
    obtain ⟨-, mail, hmail, hm'⟩ := hmem m hm
    rw [hm']
    exact fun hc => hc (ofpSockdDp_spec hmail).2.2.1
  exact h.enqueue w.cp hlen (fun m hm => (hmem m hm).1) (h.phase.enqueue hno)
    fun _ m hm => hno m hm

theorem InOrder.sockdCp (h : InOrder w) {fd rxlen : ℤ} (buffer stack : Mem)
    (hcp : w.cp = .reading fd) (hrx : -1 ≤ rxlen) :
    InOrder { w with
      cp := if rxlen ≤ 0 then .closed else .reading fd
      queue := w.queue ++ ((ofpSockdCp fd rxlen buffer stack).map w.drvMsg).toList } := by
  obtain ⟨hlen, hmem⟩ := drvMsgs_cases w (ofpSockdCp fd rxlen buffer stack)
  obtain ⟨hal, hplain, hno⟩ := h.phase.of_reading hcp
  refine h.enqueue _ hlen (fun m hm => (hmem m hm).1) ?_ fun ⟨f, hf, hr⟩ => absurd hr (hno f hf)
  by_cases hfail : rxlen ≤ 0
  · -- the report is the last that the reader sends
    obtain ⟨mail, hmail⟩ := Option.isSome_iff_exists.mp (ofpSockdCp_fail fd buffer stack hfail)
    obtain ⟨hmax, ⟨-, htype⟩ | ⟨hpos, -⟩⟩ := ofpSockdCp_mail hrx hmail
    · refine .lost (m := w.drvMsg mail) hal hplain (if_pos hfail) ?_ ⟨hmax, htype⟩
      simp [hmail]
    · exact absurd hfail (not_le.mpr hpos)
  · refine .up hal hplain (if_neg hfail) fun m hm => ?_
    rcases List.mem_append.mp hm with hm | hm
    · exact hno m hm
    · obtain ⟨-, mail, hmail, hm'⟩ := hmem m hm
      obtain ⟨-, ⟨hle, -⟩ | ⟨-, htype, -⟩⟩ := ofpSockdCp_mail hrx hmail
      · exact absurd hle hfail
      · rw [hm']
        intro hres
        have hne := htype.symm.trans hres.2
        exact absurd hne (by decide)

theorem InOrder.lib (h : InOrder w) (sys : Sys Unit) : InOrder { w.stamp with sys := sys } := by
  have hphase : Phase { w.stamp with sys := sys } :=
    h.phase.congr w.stamp_alive w.stamp_todo w.stamp_cp w.stamp_queue w.stamp_agent
  exact h.congr hphase w.stamp_queue w.stamp_session w.stamp_agent

theorem inOrder_init (h : world.init w) : InOrder w := by
  obtain ⟨ccb, qid, e, shm, rfl⟩ := world_init h
  refine ⟨.init rfl ?_ rfl ?_ rfl, ?_, .nil, .nil, ?_⟩
  · simp [aSendHello, Act.Plain]
  · simp [World.start]
  · simp [World.start]
  · simp [World.start]

/-- **Every step keeps the queue in order.** -/
theorem InOrder.step {l : List Timer.TmrIdx} {w' : World} {ev : Ev} (hc : Clocked w l)
    (h : InOrder w) (hs : w.step ev = some w') : InOrder w' := by
  cases World.step_moved hs with
  | osTmr => exact h.osTmr _ _ _
  | sockdCp hcp hrx => exact h.sockdCp _ _ hcp hrx
  | sockdDp => exact h.sockdDp _ _ _
  | ipcRcv2 hb hq hnode hrun =>
    obtain ⟨hstep, hacts⟩ := hc.round hq hnode hrun
    rw [← hacts]
    exact h.ipcRcv2 hb hq hstep
  | act _ htodo => exact h.act htodo
  | lib => exact h.lib _

end Order

/-! ## 3. The result -/

/-- What holds of every state. -/
def Steady (w : World) : Prop := (∃ l, Clocked w l) ∧ InOrder w

theorem steady_init {w : World} (h : world.init w) : Steady w :=
  ⟨⟨[], clocked_init h⟩, inOrder_init h⟩

theorem Steady.step {w w' : World} {ev : Ev} (h : Steady w) (hs : w.step ev = some w') :
    Steady w' := by
  obtain ⟨⟨l, hc⟩, ho⟩ := h
  exact ⟨hc.step hs, ho.step hc hs⟩

theorem steady_of_run {ts : List (Transition World Ev)} {w : World} (h : Run world ts w) :
    Steady w ∧ ∀ t ∈ ts, Steady t.pre ∧ world.step t.pre t.lab t.post := by
  have hstep : ∀ w ev w', Steady w → True → world.step w ev w' → Steady w' :=
    fun _ _ _ hw _ hs => hw.step hs
  refine ⟨h.invariant Steady (fun _ _ => True) (fun w hw => steady_init hw) hstep (by simp), ?_⟩
  intro t ht
  obtain ⟨hpre, hs, -⟩ :=
    h.invariant_mem Steady (fun _ _ => True) (fun w hw => steady_init hw) hstep (by simp) t ht
  exact ⟨hpre, hs⟩

/-- **No timeout crosses a restart**: a timeout that the timer task of a session before has queued
is taken while the port waits for a HELLO, and the round does nothing. -/
theorem timeout_of_session {ts : List (Transition World Ev)} {w : World} (h : Run world ts w) :
    ∀ t ∈ ts, ∀ e m queue, t.lab = .ipcRcv2 e → t.pre.queue = m :: queue → m.mail.Timeout →
      m.session ≠ t.pre.session →
      m.session < t.pre.session ∧ t.pre.agent.port.state = .helloWait ∧
        t.post.agent = t.pre.agent ∧ t.post.todo = [.fsm eOfpTimeout] := by
  intro t ht e m queue hlab hq htm hne
  obtain ⟨⟨⟨l, hc⟩, ho⟩, hs⟩ := (steady_of_run h).2 t ht
  have hmem : m ∈ t.pre.queue := by simp [hq]
  have hst := ho.waits m hmem ⟨htm, hne⟩
  refine ⟨lt_of_le_of_ne (ho.sessions m hmem) hne, hst, ?_⟩
  obtain ⟨pre, lab, post⟩ := t
  simp only at hlab hq hs hst ⊢
  subst hlab
  cases World.step_moved hs with
  | ipcRcv2 hb hq' hnode hrun =>
    obtain ⟨rfl, rfl⟩ := List.cons.inj (hq.symm.trans hq')
    obtain ⟨hstep, hacts⟩ := hc.round hq' hnode hrun
    cases hmail : m.mail with
    | tmr prim =>
      rw [hmail] at hstep hacts
      obtain ⟨hsame, hdone⟩ := timeout_in_helloWait hstep hst
      exact ⟨hsame, hacts.symm.trans hdone⟩
    | drv mail => rw [hmail] at htm; cases htm
    | other => rw [hmail] at htm; cases htm

instance : DecidablePred Mail.Timeout := fun m =>
  match m with
  | .tmr _ => isTrue trivial
  | .drv _ | .other => isFalse nofun

/-- A restart while the timer fires: the timeout of the first session is taken in the second. -/
theorem timeout_of_session_second : ∃ ts t w m queue, Run world (ts ++ [t]) w ∧ m.mail.Timeout ∧
    t.pre.queue = m :: queue ∧ m.session = 1 ∧ t.pre.session = 2 ∧
    t.pre.agent.port.state = .helloWait ∧ t.post.agent = t.pre.agent ∧
    t.post.todo = [.fsm eOfpTimeout] := by
  obtain ⟨ts, t, w, hr, -, hlab, hhead, hses⟩ := world_step_of_exec
    (establishSteps ++ .sockdCp 0 (fun _ => 0) (fun _ => 0) :: expirySteps ++ rcvSteps 6 0)
    (.ipcRcv2 (Env.plain addr2)) (fun _ _ => True)
    (fun w _ => (w.queue.head?.any fun m => decide (m.mail.Timeout ∧ m.session = 1)) = true ∧
      w.session = 2) (by decide +kernel)
  obtain ⟨m, queue, hq, htm⟩ := head_of_any hhead
  obtain ⟨htm, hold⟩ := of_decide_eq_true htm
  have hne : m.session ≠ t.pre.session := by
    rw [hold, hses]
    decide
  obtain ⟨-, hst, hsame, hdone⟩ := timeout_of_session hr t
    (List.mem_append_right ts (List.mem_singleton_self t)) _ m queue hlab hq htm hne
  exact ⟨ts, t, w, m, queue, hr, htm, hq, hold, hses, hst, hsame, hdone⟩

end Ofpagent.Agent
