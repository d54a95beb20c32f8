/-
# The keepalive

The timer of an established session is in the list, or its expiry is on the way to `main`: held by
`os_tmr` between pop and send, or in the queue.  `tokens` collects what is in the three places, and
`Turn` says what one step of `world` does to them.

`keepalive_lives` says that the timer is not lost: there is a token, or `main` is about to start the
timer.  `timeout_current` says that there is one at most, and that it comes from the last start.
This second result has a condition: `OSTMR_StopXtmr` takes the timer out of the list, and an expiry
that has left the list by then is not called back.
-/
import Ofpagent.Agent.Sessions

namespace Ofpagent.Agent

open Ofpagent.Lib
open Ofpagent.Timer (Lab Call Sys TmrIdx AppPc isXtmr)

/-! ## 1. Where the timer is -/

/-- The start whose expiry this message reports, in the session. -/
def Msg.live (session : ℕ) (m : Msg) : Option ℕ :=
  match m.mail with
  | .tmr _ => if m.session = session then some m.start else none
  | .drv _ | .other => none

namespace World

/-- The starts whose expiry has left the list and is on its way. -/
def inFlight (w : World) : List ℕ :=
  ((heldBy w.sys.tmr).map fun _ => w.popped).toList ++ w.queue.filterMap (Msg.live w.session)

/-- The starts whose expiry is still to be taken. -/
def tokens (w : World) (l : List TmrIdx) : List ℕ := l.map w.born ++ w.inFlight

/-- The calls of the timer library that `main` has still to do. -/
def pending (w : World) : List Call := calling (w.sys.app ()) ++ w.todo.filterMap Act.timerCall

end World

theorem live_eq_none {session : ℕ} {m : Msg} (h : ∀ prim, m.mail ≠ .tmr prim) :
    m.live session = none := by
  unfold Msg.live
  split
  · next prim hm => exact absurd hm (h prim)
  · rfl
  · rfl

theorem live_of_timeout {session : ℕ} {m : Msg} (h : m.mail.Timeout) (hses : m.session = session) :
    m.live session = some m.start := by
  cases hm : m.mail with
  | tmr prim => simp [Msg.live, hm, hses]
  | drv mail => rw [hm] at h; cases h
  | other => rw [hm] at h; cases h

theorem timeout_of_live {session n : ℕ} {m : Msg} (h : m.live session = some n) :
    m.mail.Timeout ∧ m.session = session := by
  unfold Msg.live at h
  split at h
  · next prim hm =>
    split_ifs at h with hses
    exact ⟨by rw [hm]; trivial, hses⟩
  · cases h
  · cases h

section Places

variable {w : World} {l : List TmrIdx}

/-- `main` has nothing to do about the timer, or is about to start it, or to stop it first. -/
theorem Clocked.pending_cases (h : Clocked w l) :
    w.pending = [] ∨ w.pending = [.startTmr (keepalive w.agent)] ∨
      w.pending = [stopCall (keepalive w.agent), .startTmr (keepalive w.agent)] := by
  have hb := h.busy
  rw [World.pending]
  generalize w.sys.app () = pc at hb
  generalize w.todo.filterMap Act.timerCall = cs at hb
  cases hb with
  | idle hcs => exact hcs
  | stop hstop => rcases hstop with rfl | rfl <;> exact .inr (.inr rfl)
  | ret hcs => exact hcs.imp id Or.inl
  | start hstart =>
    refine .inr (.inl ?_)
    have hcalling : calling pc = (pc.starting.map Call.startTmr).toList := by
      unfold calling
      split
      · cases hstart
      · cases hstart
      · rfl
    rw [hcalling, hstart]
    rfl
  | kill hkill => rcases hkill with rfl | rfl <;> exact .inl rfl

/-- Behind the stop there is the start to come, and behind the start there is nothing. -/
theorem Clocked.calls_of_stop (h : Clocked w l)
    (hcall : calling (w.sys.app ()) = [stopCall (keepalive w.agent)]) :
    w.todo.filterMap Act.timerCall = [.startTmr (keepalive w.agent)] := by
  have hcases := h.pending_cases
  rw [World.pending, hcall] at hcases
  simpa [stopCall] using hcases

theorem Clocked.calls_of_start (h : Clocked w l)
    (hcall : calling (w.sys.app ()) = [.startTmr (keepalive w.agent)]) :
    w.todo.filterMap Act.timerCall = [] := by
  have hcases := h.pending_cases
  rw [World.pending, hcall] at hcases
  simpa [stopCall] using hcases

/-- `main` has nothing to do about the timer between two mails. -/
theorem World.Between.pending (hb : w.Between) : w.pending = [] := by
  rw [World.pending, hb.1, hb.2]
  rfl

/-- One block at most is in the list, and it holds the timer. -/
theorem Clocked.countP_eq (h : Clocked w l) :
    l.countP (isXtmr w.sys.shm (some w.agent.ccb) eOfpTimeout) = l.length ∧ l.length ≤ 1 := by
  have hkey : ∀ tcb ∈ l, (Timer.tmrOf (w.sys.shm.tcb tcb)).key = (keepalive w.agent).key :=
    fun tcb ht => mem_keys (keepalive_event_le _) h.timers ht
  constructor
  · refine List.countP_eq_length.mpr fun tcb ht => ?_
    rw [Timer.isXtmr_eq]
    exact beq_iff_eq.mpr (hkey tcb ht)
  · have hnd := h.nodup
    have hall : Timer.keys w.sys.shm l = List.replicate l.length (keepalive w.agent).key := by
      rw [Timer.keys, ← List.length_map (f := fun i => (Timer.tmrOf (w.sys.shm.tcb i)).key)]
      refine List.eq_replicate_of_mem fun key hmem => ?_
      obtain ⟨tcb, ht, rfl⟩ := List.mem_map.mp hmem
      exact hkey tcb ht
    rw [hall] at hnd
    exact List.nodup_replicate.mp hnd

end Places

/-! ## 2. What a step does -/

/-- A step, seen by the timer: nothing but the place of the token may have changed; a mail has been
taken; the timer task is a new one; or `main` has done some of its work in the timer library. -/
inductive Turn (w : World) (l : List TmrIdx) (ev : Ev) (w' : World) (l' : List TmrIdx) : Prop
  | same : w'.agent.port.state = w.agent.port.state → (w'.tokens l').Perm (w.tokens l) →
      w'.starts = w.starts → w'.pending = w.pending →
      (.tmrInit ∈ w.todo → .tmrInit ∈ w'.todo) → Turn w l ev w' l'
  | round {m queue} : w.Between → w.queue = m :: queue →
      Rearm (keepalive w.agent) w.agent m.mail w'.agent w'.pending →
      (m.mail.Restarts → .tmrInit ∈ w'.todo) →
      (w.tokens l).Perm ((m.live w.session).toList ++ w'.tokens l') → w'.starts = w.starts →
      Turn w l ev w' l'
  | fresh : w.agent.port.state = .helloWait → w'.agent.port.state = .helloWait →
      w'.tokens l' = [] → w'.pending = w.pending → Turn w l ev w' l'
  | stop : ev = .lib → w.sys.app () = .inside (stopCall (keepalive w.agent)).sec →
      w.pending = [stopCall (keepalive w.agent), .startTmr (keepalive w.agent)] →
      w'.pending = [.startTmr (keepalive w.agent)] → w'.tokens l' = w.inFlight →
      w'.agent.port.state = w.agent.port.state → w'.starts = w.starts → Turn w l ev w' l'
  | restart : w.pending = [.startTmr (keepalive w.agent)] →
      w'.pending = [.startTmr (keepalive w.agent)] → w'.tokens l' = w.inFlight →
      w'.agent.port.state = w.agent.port.state → w'.starts = w.starts → Turn w l ev w' l'
  | insert : w.pending = [.startTmr (keepalive w.agent)] → w'.pending = [] →
      w'.tokens l' = w'.starts :: w.inFlight →
      w'.agent.port.state = w.agent.port.state → Turn w l ev w' l'

section Turns

variable {w w' : World} {l l' : List TmrIdx}

/-- What is not a timeout of the session changes nothing in flight. -/
theorem filterMap_live_append {session : ℕ} {q ms : List Msg}
    (hms : ∀ m ∈ ms, m.live session = none) :
    (q ++ ms).filterMap (Msg.live session) = q.filterMap (Msg.live session) := by
  rw [List.filterMap_append, List.filterMap_eq_nil_iff.mpr hms, List.append_nil]

theorem perm_front (a b c d : List ℕ) : (a ++ (b ++ (c ++ d))).Perm (c ++ (a ++ (b ++ d))) := by
  calc (a ++ (b ++ (c ++ d)))
    _ = (a ++ b) ++ c ++ d := by simp
    List.Perm _ (c ++ (a ++ b) ++ d) := (List.perm_append_comm).append_right d
    _ = c ++ (a ++ (b ++ d)) := by simp

/-- `popped` is not overwritten while it is needed. -/
theorem World.pops_of_held (h : heldBy w.sys.tmr ≠ none) : w.pops = w.popped := by
  unfold World.pops
  split
  · next hpc =>
    rw [hpc] at h
    exact absurd rfl h
  · rfl

/-- The timer task sends from one program point only. -/
theorem World.sends_eq_nil {lab : Lab Unit}
    (h : ∀ d δ que prim, lab = .tmr d → w.sys.tmr ≠ .send δ que prim) : w.sends lab = [] := by
  unfold World.sends
  split
  · next d =>
    split
    · next δ que prim hpc => exact absurd hpc (h d δ que prim rfl)
    · rfl
  · rfl

/-- **The timer task moves the token** from the list to its hands, and from there to the queue. -/
theorem tokens_osTmr (h : Clocked w l) {lab : Lab Unit} {sys : Sys Unit}
    (he : TmrEffect w.sys lab sys l l') :
    (World.tokens { w with sys := sys, queue := w.queue ++ w.sends lab, popped := w.pops } l').Perm
      (w.tokens l) := by
  cases he with
  | quiet hheld hno =>
    have hsends := World.sends_eq_nil hno
    have hpopped : (heldBy sys.tmr).map (fun _ => w.pops)
        = (heldBy w.sys.tmr).map fun _ => w.popped := by
      rw [hheld]
      cases hw : heldBy w.sys.tmr with
      | none => rfl
      | some x => rw [World.pops_of_held (by simp [hw])]
    simp only [World.tokens, World.inFlight, hsends, hpopped, List.append_nil]
    exact List.Perm.refl _
  | @pop δ a r hpc hl hheld =>
    have hhead : w.sys.shm.tmrHdr = some a := hl.head
    have hold : heldBy w.sys.tmr = none := by rw [hpc]; rfl
    have hsends : w.sends lab = [] := World.sends_eq_nil (by simp [hpc])
    have hpops : w.pops = w.born a := by
      unfold World.pops
      rw [hpc, hhead]
      rfl
    simp only [World.tokens, World.inFlight, hsends, hheld, hold, hpops, List.append_nil,
      Option.map_some, Option.map_none, Option.toList_some, Option.toList_none, List.nil_append,
      List.map_cons, List.cons_append]
    exact List.perm_middle
  | @send d δ que prim _ hlab hpc hheld =>
    subst hlab
    obtain ⟨rfl, -⟩ := h.held que prim (by rw [hpc]; rfl)
    have hold : heldBy w.sys.tmr = some (w.agent.ofpQid, prim) := by rw [hpc]; rfl
    have hsends : w.sends (.tmr d) = [⟨.tmr prim, w.session, w.popped⟩] := by
      unfold World.sends
      rw [hpc]
      exact if_pos rfl
    have hlive : (w.queue ++ w.sends (.tmr d)).filterMap (Msg.live w.session)
        = w.queue.filterMap (Msg.live w.session) ++ [w.popped] := by
      rw [hsends, List.filterMap_append]
      simp [Msg.live]
    simp only [World.tokens, World.inFlight, hlive, hheld, hold, Option.map_some, Option.map_none,
      Option.toList_some, Option.toList_none, List.nil_append]
    exact (List.perm_append_comm).append_left _

theorem turn_osTmr (h : Clocked w l) {lab : Lab Unit} {sys : Sys Unit}
    (hlab : ofTimer lab = true) (hs : w.sys.step lab = some sys) :
    ∃ l', Clocked { w with sys := sys, queue := w.queue ++ w.sends lab, popped := w.pops } l' ∧
      Turn w l (.osTmr lab)
        { w with sys := sys, queue := w.queue ++ w.sends lab, popped := w.pops } l' := by
  obtain ⟨happ, l', hc, he⟩ := h.osTmr hlab hs
  refine ⟨l', hc, .same rfl (tokens_osTmr h he) rfl ?_ id⟩
  rw [World.pending, happ, World.pending]

/-- A reader adds no token. -/
theorem turn_enqueue (ms : List Msg) (cp : Reader) (ev : Ev)
    (hms : ∀ m ∈ ms, ∃ mail, m.mail = .drv mail) :
    Turn w l ev { w with cp := cp, queue := w.queue ++ ms } l := by
  have hlive : (w.queue ++ ms).filterMap (Msg.live w.session)
      = w.queue.filterMap (Msg.live w.session) := by
    refine filterMap_live_append fun m hm => live_eq_none fun prim hp => ?_
    obtain ⟨mail, hmail⟩ := hms m hm
    rw [hmail] at hp
    cases hp
  refine .same rfl ?_ rfl rfl id
  simp only [World.tokens, World.inFlight, hlive]
  exact List.Perm.refl _

/-- **A mail is taken**, and with it the token if the mail is a timeout. -/
theorem turn_ipcRcv2 (h : Clocked w l) {e : Env} {m : Msg} {queue : List Msg} {s : Ofpd}
    {acts : List Act} (hb : w.Between) (hq : w.queue = m :: queue) (hnode : e.node ∉ w.agent.heap)
    (hrun : mainStep w.agent m.mail e = some (s, acts)) :
    Turn w l (.ipcRcv2 e) { w with agent := s, todo := acts, queue := queue } l := by
  obtain ⟨hstep, hacts⟩ := h.round hq hnode hrun
  have hpending : World.pending { w with agent := s, todo := acts, queue := queue }
      = acts.filterMap Act.timerCall := by
    rw [World.pending, hb.1]
    rfl
  refine .round hb hq ?_ ?_ ?_ rfl
  · rw [hpending]
    exact (h.ipcRcv2 hb hq hnode hrun).2
  · intro hres
    rcases restart_cases hstep with ⟨hno, -⟩ | ⟨-, -, -, todo, htodo, -⟩
    · exact absurd hres hno
    · rw [← hacts, htodo]
      simp
  · have hlive : w.queue.filterMap (Msg.live w.session)
        = (m.live w.session).toList ++ queue.filterMap (Msg.live w.session) := by
      rw [hq]
      cases hm : m.live w.session with
      | none => rw [List.filterMap_cons_none hm]; rfl
      | some n => rw [List.filterMap_cons_some hm]; rfl
    simp only [World.tokens, World.inFlight, hlive]
    exact perm_front _ _ _ _

/-- A timer task is made while the port waits for a HELLO. -/
theorem Phase.of_tmrInit (h : Phase w) {todo : List Act} (htodo : w.todo = .tmrInit :: todo) :
    w.agent.port.state = .helloWait := by
  have hno : ¬ ∀ a ∈ w.todo, a.Plain := fun hall => hall .tmrInit (by simp [htodo])
  cases h with
  | up _ hall => exact absurd hall hno
  | lost _ hall => exact absurd hall hno
  | kill _ _ _ _ _ hst => exact hst
  | init _ _ _ _ hst => exact hst
  | fork _ _ _ _ _ hst => exact hst

/-- **An act.**  A call of the timer library is as pending behind it as ahead of it. -/
theorem turn_act (ho : InOrder w) {a : Act} {todo : List Act} (hidle : w.sys.app () = .idle)
    (htodo : w.todo = a :: todo) :
    Turn w l .act ({ w with todo := todo }.perform a) (a.listed l) := by
  have hpending : w.pending = (a.timerCall).toList ++ todo.filterMap Act.timerCall := by
    rw [World.pending, hidle, htodo]
    cases ha : a.timerCall with
    | none => rw [List.filterMap_cons_none ha]; rfl
    | some c => rw [List.filterMap_cons_some ha]; rfl
  have hmem : a ≠ .tmrInit → .tmrInit ∈ w.todo → .tmrInit ∈ todo := by
    intro hne hm
    rw [htodo] at hm
    exact (List.mem_cons.mp hm).resolve_left (Ne.symm hne)
  have hskip : World.pending { w with todo := todo } = todo.filterMap Act.timerCall := by
    rw [World.pending, hidle]
    rfl
  cases a with
  | startTmr b =>
    refine .same rfl (List.Perm.refl _) rfl ?_ (hmem (by simp))
    rw [hpending]
    simp only [World.pending, World.perform, World.call, Sys.setApp, Function.update_self]
    rfl
  | stopXtmr ccb event =>
    refine .same rfl (List.Perm.refl _) rfl ?_ (hmem (by simp))
    rw [hpending]
    simp only [World.pending, World.perform, World.call, Sys.setApp, Function.update_self]
    rfl
  | tmrInit =>
    have hst := ho.phase.of_tmrInit htodo
    -- what is queued has been sent in a session before
    have hlive : w.queue.filterMap (Msg.live (w.session + 1)) = [] := by
      refine List.filterMap_eq_nil_iff.mpr fun m hm => ?_
      by_contra hne
      obtain ⟨n, hn⟩ := Option.ne_none_iff_exists'.mp hne
      have hses := ho.sessions m hm
      rw [(timeout_of_live hn).2] at hses
      exact absurd hses (Nat.not_succ_le_self _)
    refine .fresh hst hst ?_ ?_
    · simp only [World.tokens, World.inFlight, World.perform, Act.listed, hlive]
      rfl
    · rw [hpending]
      rfl
  | killTasks | forkCp | fsm | hdl | xmit | notResponding =>
    refine .same rfl (List.Perm.refl _) rfl ?_ (hmem (by simp))
    rw [hpending]
    exact hskip

theorem appl_tmr {s s' : Sys Unit} {c : Call} (h : s.appl () c = some s') : s'.tmr = s.tmr := by
  cases Sys.appl_move h <;> rfl

/-- `stamp` has something to do in one section only. -/
theorem World.stamp_of_ne (h : ∀ a tcb, w.sys.app () ≠ .inside (.startInsert a tcb)) :
    w.stamp = w := by
  unfold World.stamp
  split
  · next a tcb hpc => exact absurd hpc (h a tcb)
  · rfl

/-- **A step of `main` in the timer library.** -/
theorem turn_lib (h : Clocked w l) {sys : Sys Unit} {c : Call} (hne : w.sys.app () ≠ .idle)
    (hs : w.sys.appl () c = some sys) :
    ∃ l', Clocked { w.stamp with sys := sys } l' ∧
      Turn w l .lib { w.stamp with sys := sys } l' := by
  obtain ⟨l', hc, he⟩ := h.lib hne hs
  have htmr := appl_tmr hs
  refine ⟨l', hc, ?_⟩
  cases he with
  | quiet hcall hno =>
    rw [World.stamp_of_ne hno]
    refine .same rfl ?_ rfl ?_ id
    · simp only [World.tokens, World.inFlight, htmr]
      exact List.Perm.refl _
    · rw [World.pending, hcall, World.pending]
  | stop hpc hpc' =>
    have hno : ∀ a tcb, w.sys.app () ≠ .inside (.startInsert a tcb) := by
      intro a tcb hins
      rw [hpc] at hins
      cases hins
    have hcalls := h.calls_of_stop (by rw [hpc]; rfl)
    rw [World.stamp_of_ne hno]
    refine .stop rfl hpc ?_ ?_ ?_ rfl rfl
    · rw [World.pending, hpc, hcalls]
      rfl
    · simp only [World.pending, hpc', hcalls]
      rfl
    · simp only [World.tokens, World.inFlight, htmr]
      rfl
  | restart hpc hpc' =>
    have hno : ∀ a tcb, w.sys.app () ≠ .inside (.startInsert a tcb) := by
      intro a tcb hins
      rw [hpc] at hins
      cases hins
    have hcalls := h.calls_of_start (by rw [hpc]; rfl)
    rw [World.stamp_of_ne hno]
    refine .restart ?_ ?_ ?_ rfl rfl
    · rw [World.pending, hpc, hcalls]
      rfl
    · simp only [World.pending, hpc', hcalls]
      rfl
    · simp only [World.tokens, World.inFlight, htmr]
      rfl
  | @insert tcb hpc hcall =>
    have hcalls := h.calls_of_start (by rw [hpc]; rfl)
    have hstamp : w.stamp = { w with
        starts := w.starts + 1, born := Function.update w.born tcb (w.starts + 1) } := by
      unfold World.stamp
      rw [hpc]
    rw [hstamp]
    refine .insert ?_ ?_ ?_ rfl
    · rw [World.pending, hpc, hcalls]
      rfl
    · simp only [World.pending, hcall, hcalls]
      rfl
    · simp only [World.tokens, World.inFlight, htmr, List.map_cons, Function.update_self]
      rfl

/-- **Every step is a turn.** -/
theorem turn_of_step {ev : Ev} (hc : Clocked w l) (ho : InOrder w) (hs : w.step ev = some w') :
    ∃ l', Clocked w' l' ∧ Turn w l ev w' l' := by
  have hdrv : ∀ (x : Option OfpMbx) (m : Msg), m ∈ (x.map w.drvMsg).toList →
      ∃ mail, m.mail = .drv mail := by
    intro x m hm
    obtain ⟨-, mail, -, hmail⟩ := (drvMsgs_cases w x).2 m hm
    exact ⟨mail, hmail⟩
  cases World.step_moved hs with
  | osTmr _ hlab hsys => exact turn_osTmr hc hlab hsys
  | sockdCp => exact ⟨l, hc.enqueue _ _ (hdrv _), turn_enqueue _ _ _ (hdrv _)⟩
  | sockdDp => exact ⟨l, hc.enqueue _ w.cp (hdrv _), turn_enqueue _ w.cp _ (hdrv _)⟩
  | ipcRcv2 hb hq hnode hrun =>
    exact ⟨l, (hc.ipcRcv2 hb hq hnode hrun).1, turn_ipcRcv2 hc hb hq hnode hrun⟩
  | act hidle htodo => exact ⟨_, hc.act hidle htodo, turn_act ho hidle htodo⟩
  | lib hne hsys => exact turn_lib hc hne hsys

end Turns

/-! ## 3. The timer is not lost -/

/-- A session has its timer, or `main` is about to start it. -/
def Armed (w : World) (l : List TmrIdx) : Prop :=
  w.agent.port.state = .established → w.tokens l ≠ [] ∨ w.pending ≠ []

theorem Armed.step {w w' : World} {l l' : List TmrIdx} {ev : Ev} (h : Armed w l)
    (ht : Turn w l ev w' l') : Armed w' l' := by
  intro hest
  cases ht with
  | same hst hperm _ hpending _ =>
    rcases h (hst.symm.trans hest) with htok | hpend
    · exact .inl fun hnil => htok (List.perm_nil.mp (hnil ▸ hperm.symm))
    · exact .inr (hpending.symm ▸ hpend)
  | @round m queue hb _ hre _ hperm _ =>
    generalize hp : w'.pending = cs at hre
    cases hre with
    | off hoff => exact absurd hest hoff
    | first | again | echo => exact .inr (List.cons_ne_nil _ _)
    | other hst _ hm =>
      -- the token is where it was
      have htok : w.tokens l ≠ [] := (h hst).resolve_right (not_not_intro hb.pending)
      rw [live_eq_none hm] at hperm
      exact .inl fun hnil => htok (List.perm_nil.mp (hnil ▸ hperm))
  | fresh _ hst => rw [hst] at hest; cases hest
  | stop _ _ _ hpend => exact .inr (hpend ▸ List.cons_ne_nil _ _)
  | restart _ hpend => exact .inr (hpend ▸ List.cons_ne_nil _ _)
  | insert _ _ htok => exact .inl (htok ▸ List.cons_ne_nil _ _)

/-- **The keepalive does not die**: in every state of every run one block at most holds it, and
between two mails of an established session it is in the list, in the queue, or in the hands of the
timer task. -/
theorem keepalive_lives {ts : List (Transition World Ev)} {w : World} (h : Run world ts w) :
    ∃ l, Timer.Linked w.sys.shm l ∧
      l.countP (isXtmr w.sys.shm (some w.agent.ccb) eOfpTimeout) ≤ 1 ∧
      (w.Between → w.agent.port.state = .established →
        l.countP (isXtmr w.sys.shm (some w.agent.ccb) eOfpTimeout) = 1 ∨
        (∃ m ∈ w.queue, m.mail = .tmr (keepalivePrim w.agent.ccb)) ∨
        (w.alive = true ∧
          heldBy w.sys.tmr = some (w.agent.ofpQid, keepalivePrim w.agent.ccb))) := by
  have hinit : ∀ w, world.init w → ∃ l, Clocked w l ∧ InOrder w ∧ Armed w l := by
    intro w hw
    refine ⟨[], clocked_init hw, inOrder_init hw, ?_⟩
    intro hest
    obtain ⟨ccb, qid, e, shm, rfl⟩ := world_init hw
    cases hest
  have hstep : ∀ w ev w', (∃ l, Clocked w l ∧ InOrder w ∧ Armed w l) → True →
      world.step w ev w' → ∃ l, Clocked w' l ∧ InOrder w' ∧ Armed w' l := by
    rintro w ev w' ⟨l, hc, ho, ha⟩ - hs
    obtain ⟨l', hc', ht⟩ := turn_of_step hc ho hs
    exact ⟨l', hc', ho.step hc hs, ha.step ht⟩
  obtain ⟨l, hc, ho, ha⟩ := h.invariant (fun w => ∃ l, Clocked w l ∧ InOrder w ∧ Armed w l)
    (fun _ _ => True) hinit hstep (by simp)
  obtain ⟨hcount, hone⟩ := hc.countP_eq
  refine ⟨l, hc.linked, hcount ▸ hone, ?_⟩
  intro hb hest
  have htok : w.tokens l ≠ [] := (ha hest).resolve_right (not_not_intro hb.pending)
  obtain ⟨n, hn⟩ := List.exists_mem_of_ne_nil _ htok
  rcases List.mem_append.mp hn with hn | hn
  · have hpos := List.length_pos_of_mem hn
    rw [List.length_map] at hpos
    exact .inl (hcount.trans (le_antisymm hone hpos))
  · rcases List.mem_append.mp hn with hn | hn
    · obtain ⟨⟨que, prim⟩, hheld, -⟩ := Option.map_eq_some_iff.mp (Option.mem_toList.mp hn)
      obtain ⟨rfl, rfl⟩ := hc.held que prim hheld
      exact .inr (.inr ⟨(ho.phase.of_between hb).1, hheld⟩)
    · obtain ⟨m, hm, hlive⟩ := List.mem_filterMap.mp hn
      have hsent := hc.queued m hm
      refine .inr (.inl ⟨m, hm, ?_⟩)
      cases hmail : m.mail with
      | tmr prim =>
        rw [hmail] at hsent
        exact congrArg Mail.tmr hsent
      | drv mail => rw [Msg.live, hmail] at hlive; cases hlive
      | other => rw [Msg.live, hmail] at hlive; cases hlive

/-- The established session, with its timer in the list. -/
theorem keepalive_lives_established : ∃ ts w, Run world ts w ∧ w.Between ∧
    w.agent.port.state = .established ∧ ∃ l, Timer.Linked w.sys.shm l ∧
      l.countP (isXtmr w.sys.shm (some w.agent.ccb) eOfpTimeout) = 1 := by
  obtain ⟨ts, w, hr, -, hidle, htodo, hest, hq, hheld⟩ := world_of_exec establishSteps
    (fun _ _ => True)
    (fun w => w.sys.app () = .idle ∧ w.todo.isEmpty = true ∧ w.agent.port.state = .established ∧
      w.queue.isEmpty = true ∧ (heldBy w.sys.tmr).isNone = true) (by decide +kernel)
  have hb : w.Between := ⟨hidle, List.isEmpty_iff.mp htodo⟩
  obtain ⟨l, hl, -, hcases⟩ := keepalive_lives hr
  refine ⟨ts, w, hr, hb, hest, l, hl, ?_⟩
  rcases hcases hb hest with hone | ⟨m, hm, -⟩ | ⟨-, hsome⟩
  · exact hone
  · rw [List.isEmpty_iff.mp hq] at hm
    cases hm
  · rw [hsome] at hheld
    cases hheld

/-! ## 4. The timer that is stopped -/

/-- `main` is inside of the section of `OSTMR_StopXtmr` that `A_stop_query_tmr` has called. -/
def stopping : AppPc → Bool
  | .inside (.stopXtmr _ _) => true
  | _ => false

/-- When `A_stop_query_tmr` takes the timer out of the list, no expiry is on its way. -/
def StopsInTime (w : World) : Ev → Prop
  | .lib => stopping (w.sys.app ()) = true → w.inFlight = []
  | _ => True

instance (w : World) : DecidablePred (StopsInTime w)
  | .lib => inferInstanceAs (Decidable (stopping (w.sys.app ()) = true → w.inFlight = []))
  | .osTmr _ | .sockdCp _ _ _ | .sockdDp _ _ _ | .ipcRcv2 _ | .act => isTrue trivial

/-- The one token of a session is that of the last start; there is none when the next start is all
that `main` has to do, and none without a session. -/
structure Current (w : World) (l : List TmrIdx) : Prop where
  last : w.agent.port.state = .established →
    (w.tokens l).length ≤ 1 ∧ ∀ n ∈ w.tokens l, n = w.starts
  clear : w.agent.port.state = .established → w.pending.length = 1 → w.tokens l = []
  off : w.agent.port.state ≠ .established →
    w.pending = [] ∧ (.tmrInit ∉ w.todo → w.tokens l = [])

section Current

variable {w w' : World} {l l' : List TmrIdx} {ev : Ev}

/-- No token, no condition. -/
theorem Current.of_nil (htok : w.tokens l = []) (hest : w.agent.port.state = .established) :
    Current w l := by
  refine ⟨?_, fun _ _ => htok, fun hoff => absurd hest hoff⟩
  intro _
  rw [htok]
  exact ⟨Nat.zero_le 1, by simp⟩

/-- A mail of an established session is taken. -/
theorem Current.round (h : Current w l) (ho : InOrder w) {m : Msg} {queue : List Msg}
    (hb : w.Between) (hq : w.queue = m :: queue)
    (hre : Rearm (keepalive w.agent) w.agent m.mail w'.agent w'.pending)
    (hinit : m.mail.Restarts → .tmrInit ∈ w'.todo)
    (hperm : (w.tokens l).Perm ((m.live w.session).toList ++ w'.tokens l'))
    (hstarts : w'.starts = w.starts) : Current w' l' := by
  have hsub : ∀ n ∈ w'.tokens l', n ∈ w.tokens l := fun n hn =>
    hperm.mem_iff.mpr (List.mem_append_right _ hn)
  have hnil : w.tokens l = [] → w'.tokens l' = [] := fun htok =>
    List.eq_nil_iff_forall_not_mem.mpr fun n hn => by simpa [htok] using hsub n hn
  have hlen := hperm.length_eq
  rw [List.length_append] at hlen
  -- without a session there is no token between two mails
  have hoff : w.agent.port.state ≠ .established → w.tokens l = [] := fun hne =>
    (h.off hne).2 (by simp [hb.2])
  generalize hp : w'.pending = cs at hre
  cases hre with
  | off hne hres =>
    refine ⟨fun hest => absurd hest hne, fun hest => absurd hest hne, fun _ => ⟨hp, ?_⟩⟩
    intro hno
    exact hnil (hoff fun hest => hno (hinit (hres hest)))
  | first hst hest =>
    exact .of_nil (hnil (hoff (by rw [hst]; decide))) hest
  | again hst hest hm =>
    -- the timeout is the token
    have htm : m.mail.Timeout := by rw [hm]; trivial
    have hses := ho.session_eq (by simp [hq]) htm (by rw [hst]; decide)
    rw [live_of_timeout htm hses] at hlen
    have hone := (h.last hst).1
    refine .of_nil (List.eq_nil_of_length_eq_zero ?_) hest
    rw [Option.toList_some, List.length_singleton] at hlen
    omega
  | echo hst hest | other hst hest =>
    obtain ⟨hone, hall⟩ := h.last hst
    refine ⟨fun _ => ⟨by omega, fun n hn => ?_⟩, fun _ hlen => ?_, fun hne => absurd hest hne⟩
    · rw [hstarts]
      exact hall n (hsub n hn)
    · rw [hp] at hlen
      cases hlen

/-- Calls are pending in an established session only. -/
theorem Current.established (h : Current w l) (hpend : w.pending ≠ []) :
    w.agent.port.state = .established := by
  by_contra hne
  exact hpend (h.off hne).1

/-- With the start pending alone, nothing is in flight. -/
theorem Current.inFlight_eq (h : Current w l) {c : Call} (hpend : w.pending = [c]) :
    w.inFlight = [] := by
  have hest := h.established (by simp [hpend])
  exact (List.append_eq_nil_iff.mp (h.clear hest (by rw [hpend]; rfl))).2

theorem Current.step (h : Current w l) (ho : InOrder w) (hgood : StopsInTime w ev)
    (ht : Turn w l ev w' l') : Current w' l' := by
  cases ht with
  | same hst hperm hstarts hpending hinit =>
    refine ⟨?_, ?_, ?_⟩
    · intro hest
      obtain ⟨hone, hall⟩ := h.last (hst.symm.trans hest)
      refine ⟨hperm.length_eq ▸ hone, ?_⟩
      intro n hn
      rw [hstarts]
      exact hall n (hperm.mem_iff.mp hn)
    · intro hest hlen
      rw [hpending] at hlen
      exact List.perm_nil.mp (h.clear (hst.symm.trans hest) hlen ▸ hperm)
    · intro hne
      obtain ⟨hpend, htok⟩ := h.off (hst ▸ hne)
      refine ⟨hpending.trans hpend, ?_⟩
      intro hno
      exact List.perm_nil.mp (htok (fun hmem => hno (hinit hmem)) ▸ hperm)
  | round hb hq hre hinit hperm hstarts => exact h.round ho hb hq hre hinit hperm hstarts
  | fresh hold hst htok hpending =>
    have hne : ¬ w'.agent.port.state = .established := by rw [hst]; decide
    refine ⟨fun hest => absurd hest hne, fun hest => absurd hest hne, ?_⟩
    intro _
    exact ⟨hpending.trans (h.off (by rw [hold]; decide)).1, fun _ => htok⟩
  | stop hev hpc hpend _ htok hst =>
    subst hev
    have hempty : w.inFlight = [] := hgood (by rw [hpc]; rfl)
    exact .of_nil (htok.trans hempty) (hst.trans (h.established (by simp [hpend])))
  | restart hpend _ htok hst =>
    exact .of_nil (htok.trans (h.inFlight_eq hpend)) (hst.trans (h.established (by simp [hpend])))
  | insert hpend hpend' htok hst =>
    rw [h.inFlight_eq hpend] at htok
    have hest := hst.trans (h.established (by simp [hpend]))
    refine ⟨?_, ?_, fun hne => absurd hest hne⟩
    · intro _
      rw [htok]
      exact ⟨le_rfl, by simp⟩
    · intro _ hlen
      rw [hpend'] at hlen
      cases hlen

end Current

theorem current_init {w : World} (h : world.init w) : Current w [] := by
  obtain ⟨ccb, qid, e, shm, rfl⟩ := world_init h
  refine ⟨?_, ?_, fun _ => ⟨?_, ?_⟩⟩
  · intro hest
    cases hest
  · intro hest
    cases hest
  · simp [World.pending, World.start, Sys.start, calling, AppPc.starting, AppPc.stopped, aSendHello,
      Act.timerCall]
  · intro hno
    simp [World.start] at hno

/-- **A stopped timer stays stopped**, as long as it is stopped in time: a timeout that is handled
in an established session is the expiry of the timer started last. -/
theorem timeout_current {ts : List (Transition World Ev)} {w : World} (h : Run world ts w)
    (hgood : ∀ t ∈ ts, StopsInTime t.pre t.lab) :
    ∀ t ∈ ts, ∀ e m queue, t.lab = .ipcRcv2 e → t.pre.queue = m :: queue → m.mail.Timeout →
      t.pre.agent.port.state = .established → m.start = t.pre.starts := by
  have hinit : ∀ w, world.init w → ∃ l, Clocked w l ∧ InOrder w ∧ Current w l := fun w hw =>
    ⟨[], clocked_init hw, inOrder_init hw, current_init hw⟩
  have hstep : ∀ w ev w', (∃ l, Clocked w l ∧ InOrder w ∧ Current w l) → StopsInTime w ev →
      world.step w ev w' → ∃ l, Clocked w' l ∧ InOrder w' ∧ Current w' l := by
    rintro w ev w' ⟨l, hc, ho, hcur⟩ hgood hs
    obtain ⟨l', hc', ht⟩ := turn_of_step hc ho hs
    exact ⟨l', hc', ho.step hc hs, hcur.step ho hgood ht⟩
  intro t ht e m queue _ hq htm hest
  obtain ⟨⟨l, -, ho, hcur⟩, -⟩ := h.invariant_mem
    (fun w => ∃ l, Clocked w l ∧ InOrder w ∧ Current w l) StopsInTime hinit hstep hgood t ht
  have hmem : m ∈ t.pre.queue := by simp [hq]
  have hses := ho.session_eq hmem htm (by rw [hest]; decide)
  refine (hcur.last hest).2 m.start (List.mem_append_right _ (List.mem_append_right _ ?_))
  exact List.mem_filterMap.mpr ⟨m, hmem, live_of_timeout htm hses⟩

/-- `main` takes an ECHO_REPLY: it stops the timer, clears the count and starts the timer. -/
def echoSteps : List Ev :=
  rcvSteps 3 3 ++ List.replicate 3 .act ++ List.replicate 11 .lib

/-- The echo reply comes in time: the timeout behind it is that of the second start. -/
theorem timeout_current_second : ∃ ts t w m queue, Run world (ts ++ [t]) w ∧
    t.pre.queue = m :: queue ∧ m.mail.Timeout ∧ t.pre.agent.port.state = .established ∧
    t.pre.starts = 2 ∧ m.start = t.pre.starts := by
  obtain ⟨ts, t, w, hr, hgood, hlab, hest, hstarts, hhead⟩ := world_step_of_exec
    (establishSteps ++ [recvStep (shortMsg ofptEchoReply)] ++ echoSteps ++ expirySteps)
    (.ipcRcv2 (Env.plain addr2)) StopsInTime
    (fun w _ => w.agent.port.state = .established ∧ w.starts = 2 ∧
      (w.queue.head?.any fun m => decide m.mail.Timeout) = true) (by decide +kernel)
  obtain ⟨m, queue, hq, htm⟩ := head_of_any hhead
  have htm := of_decide_eq_true htm
  exact ⟨ts, t, w, m, queue, hr, hq, htm, hest, hstarts, timeout_current hr hgood t
    (List.mem_append_right ts (List.mem_singleton_self t)) _ m queue hlab hq htm hest⟩

/-- **A stopped timer fires**: the timeout of the first start is in the queue when the echo reply
ahead of it stops the timer, and it is counted after the second start. -/
theorem timeout_superseded : ∃ ts t w e m queue, Run world (ts ++ [t]) w ∧ t.lab = .ipcRcv2 e ∧
    t.pre.queue = m :: queue ∧ m.mail.Timeout ∧ t.pre.agent.port.state = .established ∧
    m.start = 1 ∧ t.pre.starts = 2 ∧ t.pre.agent.port.queryCnt = 1 ∧
    t.post.agent.port.queryCnt = 2 := by
  obtain ⟨ts, t, w, hr, -, hlab, hest, hstarts, hhead, hcnt, hcnt'⟩ := world_step_of_exec
    (establishSteps ++ [recvStep (shortMsg ofptEchoReply)] ++ expirySteps ++ echoSteps)
    (.ipcRcv2 (Env.plain addr2)) (fun _ _ => True)
    (fun w w' => w.agent.port.state = .established ∧ w.starts = 2 ∧
      (w.queue.head?.any fun m => decide (m.mail.Timeout ∧ m.start = 1)) = true ∧
      w.agent.port.queryCnt = 1 ∧ w'.agent.port.queryCnt = 2) (by decide +kernel)
  obtain ⟨m, queue, hq, htm⟩ := head_of_any hhead
  obtain ⟨htm, hold⟩ := of_decide_eq_true htm
  exact ⟨ts, t, w, _, m, queue, hr, hlab, hq, htm, hest, hold, hstarts, hcnt, hcnt'⟩

end Ofpagent.Agent
