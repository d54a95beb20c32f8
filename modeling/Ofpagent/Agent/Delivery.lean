/-
# What comes out of the queue

`world` has four processes around a queue, and `agent` one that is given a mail at a time.  Most of
this development is about runs of `agent`; here is that they are the runs of `world`, with the steps
left out that are none of a round (`rounds_of_run`).  Between the two nothing is lost, nothing is
done twice and nothing changes its place: what the readers and the timer task put into the queue is
what the rounds have taken and what is still there, and the acts of the rounds are what has been done
and what is left to do.

`announced_in_order` puts this to use.  The frames that the controller is told of, with the ids that
they have, are those that an established port was given, in the order in which the data-plane reader
read them, whatever the other processes did meanwhile.
-/
import Ofpagent.Agent.Sessions
import Ofpagent.Agent.Provenance
import Ofpagent.Agent.Wire

namespace Ofpagent.Agent

open Ofpagent.Lib
open Ofpagent.Lib.OpenFlow (PacketIn parsePacketIn)

/-! ## 1. What a step puts and takes -/

namespace World

/-- The round that `main` computes in this step. -/
def taken (w : World) : Ev → Option Round
  | .ipcRcv2 e => w.queue.head?.map fun m => ⟨m.mail, e⟩
  | _ => none

/-- What is put into the queue. -/
def put (w : World) : Ev → List Msg
  | .osTmr l => w.sends l
  | .sockdCp rxlen buffer stack =>
    match w.cp with
    | .reading fd => ((ofpSockdCp fd rxlen buffer stack).map w.drvMsg).toList
    | _ => []
  | .sockdDp rxlen buffer stack => ((ofpSockdDp w.dp rxlen buffer stack).map w.drvMsg).toList
  | .ipcRcv2 _ | .act | .lib => []

/-- What is taken from it. -/
def got (w : World) : Ev → List Msg
  | .ipcRcv2 _ => w.queue.head?.toList
  | _ => []

/-- The acts that a round leaves to do, -/
def assigned (w : World) (ev : Ev) : List Act := (w.taken ev).elim [] w.agent.acts

/-- and the act that is done. -/
def does (w : World) : Ev → List Act
  | .act => w.todo.head?.toList
  | _ => []

end World

/-- The rounds of a run of the system. -/
def rounds (ts : List (Transition World Ev)) : List (Transition Ofpd Round) :=
  ts.filterMap (Transition.seen World.agent World.taken)

/-- All that was put into the queue. -/
def queued (ts : List (Transition World Ev)) : List Msg := ts.flatMap fun t => t.pre.put t.lab

/-- All that was done. -/
def done (ts : List (Transition World Ev)) : List Act := ts.flatMap fun t => t.pre.does t.lab

section Step

variable {w w' : World} {ev : Ev}

theorem agent_of_perform (w : World) (a : Act) :
    (w.perform a).agent = w.agent ∧ (w.perform a).todo = w.todo ∧ (w.perform a).queue = w.queue := by
  cases a <;> exact ⟨rfl, rfl, rfl⟩

/-- A step of another process, or inside a round, is not seen. -/
theorem agent_of_step (h : w.step ev = some w') (hno : w.taken ev = none) :
    w'.agent = w.agent := by
  cases World.step_moved h with
  | @ipcRcv2 e m queue s acts _ hq =>
    rw [World.taken, hq] at hno
    cases hno
  | act => exact (agent_of_perform _ _).1
  | lib => exact World.stamp_agent w
  | osTmr | sockdCp | sockdDp => rfl

/-- **A mail that is taken makes a round.** -/
theorem round_of_step (hs : Steady w) (h : w.step ev = some w') {r : Round}
    (hr : w.taken ev = some r) : agent.step w.agent r w'.agent := by
  cases World.step_moved h with
  | ipcRcv2 _ hq hnode hrun =>
    obtain ⟨⟨l, hc⟩, -⟩ := hs
    rw [World.taken, hq] at hr
    cases hr
    exact (hc.round hq hnode hrun).1
  | osTmr | sockdCp | sockdDp | act | lib => cases hr

/-- First in, first out. -/
theorem queue_of_step (h : w.step ev = some w') : w.queue ++ w.put ev = w.got ev ++ w'.queue := by
  cases World.step_moved h with
  | osTmr => rfl
  | sockdCp hcp =>
    rw [World.put, hcp]
    rfl
  | sockdDp => rfl
  | ipcRcv2 _ hq =>
    rw [World.put, World.got, hq]
    simp
  | act => simp [World.put, World.got, (agent_of_perform _ _).2.2]
  | lib => simp [World.put, World.got]

/-- The acts are done in the order in which they stand. -/
theorem todo_of_step (h : w.step ev = some w') :
    w.todo ++ w.assigned ev = w.does ev ++ w'.todo := by
  cases World.step_moved h with
  | ipcRcv2 hb hq hnode hrun =>
    rw [hb.2, World.assigned, World.taken, hq]
    simp [World.does, Ofpd.acts, hrun]
  | act _ htodo =>
    rw [World.does, (agent_of_perform _ _).2.1, htodo]
    simp [World.assigned, World.taken]
  | osTmr | sockdCp | sockdDp | lib => simp [World.assigned, World.taken, World.does]

end Step

/-! ## 2. The rounds of a run -/

section Rounds

variable {ts : List (Transition World Ev)} {w : World}

theorem mails_of_got : ∀ ts : List (Transition World Ev),
    (ts.flatMap fun t => t.pre.got t.lab).map Msg.mail = (rounds ts).map fun u => u.lab.mail := by
  have hone : ∀ t : Transition World Ev, (t.pre.got t.lab).map Msg.mail
      = ((t.seen World.agent World.taken).map fun u => u.lab.mail).toList := by
    rintro ⟨w, ev, w'⟩
    cases ev with
    | ipcRcv2 e => cases hq : w.queue <;> simp [World.got, Transition.seen, World.taken, hq]
    | _ => rfl
  intro ts
  induction ts with
  | nil => rfl
  | cons t ts ih =>
    rw [List.flatMap_cons, List.map_append, hone, ih, rounds, rounds, List.filterMap_cons]
    cases t.seen World.agent World.taken <;> rfl

theorem acts_of_assigned : ∀ ts : List (Transition World Ev),
    (ts.flatMap fun t => t.pre.assigned t.lab) = (rounds ts).flatMap fun u => u.pre.acts u.lab := by
  intro ts
  induction ts with
  | nil => rfl
  | cons t ts ih =>
    rw [List.flatMap_cons, ih, rounds, rounds, List.filterMap_cons, World.assigned, Transition.seen]
    cases t.pre.taken t.lab <;> rfl

theorem run_of_rounds (h : Run world ts w) : Run agent (rounds ts) w.agent := by
  refine (h.refines (A := agent) World.agent World.taken Steady ?_ (fun _ _ _ hs => hs.step)
    (fun _ _ _ => agent_of_step) fun _ _ _ _ hw hs => round_of_step hw hs).2
  rintro w₀ hw₀
  refine ⟨steady_init hw₀, ?_⟩
  obtain ⟨ccb, qid, e, ag, acts, shm, hrun, rfl⟩ := hw₀
  exact ⟨ccb, qid, e, acts, hrun⟩

theorem mails_of_rounds (h : Run world ts w) : (queued ts).map Msg.mail
    = (rounds ts).map (fun u => u.lab.mail) ++ w.queue.map Msg.mail := by
  obtain ⟨w₀, hw₀, heq⟩ := h.balance World.queue World.put World.got (fun _ => True)
    (fun _ _ => True) (by simp) (fun _ _ _ _ _ hs => ⟨trivial, queue_of_step hs⟩) (by simp)
  obtain ⟨ccb, qid, e, shm, rfl⟩ := world_init hw₀
  have hmails := congrArg (List.map Msg.mail) heq
  rwa [List.map_append, List.map_append, mails_of_got] at hmails

theorem acts_of_rounds (h : Run world ts w) : ∃ w₀, world.init w₀ ∧
    w₀.todo ++ (rounds ts).flatMap (fun u => u.pre.acts u.lab) = done ts ++ w.todo := by
  obtain ⟨w₀, hw₀, heq⟩ := h.balance World.todo World.assigned World.does (fun _ => True)
    (fun _ _ => True) (by simp) (fun _ _ _ _ _ hs => ⟨trivial, todo_of_step hs⟩) (by simp)
  rw [acts_of_assigned] at heq
  exact ⟨w₀, hw₀, heq⟩

/-- **The main loop is what the system does.**  The rounds of a run of the system are a run of the
agent, to the same state.  Their mails, and those still in the queue, are what was put into it, in
this order; what was done, and what is left to do, are the acts of the start and of the rounds. -/
theorem rounds_of_run (h : Run world ts w) : Run agent (rounds ts) w.agent ∧
    (queued ts).map Msg.mail = (rounds ts).map (fun u => u.lab.mail) ++ w.queue.map Msg.mail ∧
    ∃ w₀, world.init w₀ ∧
      w₀.todo ++ (rounds ts).flatMap (fun u => u.pre.acts u.lab) = done ts ++ w.todo :=
  ⟨run_of_rounds h, mails_of_rounds h, acts_of_rounds h⟩

/-- A mail that is taken is in the rounds. -/
theorem mem_rounds {t : Transition World Ev} (ht : t ∈ ts) {r : Round}
    (hr : t.pre.taken t.lab = some r) : ⟨t.pre.agent, r, t.post.agent⟩ ∈ rounds ts :=
  List.mem_filterMap.mpr ⟨t, ht, by rw [Transition.seen, hr, Option.map_some]⟩

end Rounds

/-- The HELLO waits in the queue while `main` does the acts of the start. -/
theorem rounds_of_run_hello : ∃ ts w u, Run world ts w ∧ u ∈ rounds ts ∧
    u.post.port.state = .featureWait ∧ Run agent (rounds ts) w.agent := by
  obtain ⟨ts, t, w, hr, -, hlab, hsome, hst⟩ := world_step_of_exec
    (List.replicate 2 .act ++ recvStep (shortMsg ofptHello) :: List.replicate 3 .act)
    (.ipcRcv2 (Env.plain addr2)) (fun _ _ => True)
    (fun w w' => (w.taken (.ipcRcv2 (Env.plain addr2))).isSome = true ∧
      w'.agent.port.state = .featureWait) (by decide +kernel)
  rw [← hlab] at hsome
  obtain ⟨r, hr'⟩ := Option.isSome_iff_exists.mp hsome
  exact ⟨_, w, _, hr, mem_rounds (List.mem_append_right ts (List.mem_singleton_self t)) hr', hst,
    (rounds_of_run hr).1⟩

/-! ## 3. What the controller is told -/

/-- The frame that a step reads. -/
def Ev.frame : Ev → Option (List UInt8)
  | .sockdDp rxlen buffer _ => if 0 < rxlen then some (buffer.read 0 rxlen.toNat) else none
  | _ => none

/-- The frame that a mail brings. -/
def Mail.frame (m : Mail) : Option (List UInt8) :=
  if m.Learns then some (m.message.read 0 m.messageLen.toNat) else none

/-- The frame that an established port is given in a round, under the id of the round. -/
def heardIn (u : Transition Ofpd Round) : Option (UInt32 × List UInt8) :=
  if u.pre.port.state = .established then u.lab.mail.frame.map fun f => (u.pre.bufferId, f) else none

/-- The id and the frame that a controller reads in a PACKET_IN. -/
def readPacketIn (x : Xmit) : Option (UInt32 × List UInt8) :=
  (parsePacketIn x.mu).map fun m => (m.bufferId, m.data)

/-- The event of a frame is not handled a second time, for a message without a case. -/
def Once (s : Ofpd) (r : Round) : Prop :=
  r.mail.Repeats → s.port.state = .established → s.port.event ≠ ePacketIn

instance (s : Ofpd) : DecidablePred (Once s) := fun r =>
  inferInstanceAs (Decidable (r.mail.Repeats → s.port.state = .established → _))

section Reader

variable {fd rxlen : ℤ} {buffer stack : Mem} {mail : OfpMbx}

/-- The reader passes on what it has read. -/
theorem mu_of_ofpSockdDp (h : ofpSockdDp fd rxlen buffer stack = some mail) :
    mail.mu.read 0 mail.mulen.toNat = buffer.read 0 rxlen.toNat := by
  have hlen := mulen_of_ofpSockdDp h
  obtain ⟨hpos, -, -, -⟩ := ofpSockdDp_spec h
  unfold ofpSockdDp ofpSend2mailbox at h
  split_ifs at h
  obtain ⟨n, rfl⟩ : ∃ n : ℕ, rxlen = n + 1 := ⟨(rxlen - 1).toNat, by omega⟩
  have htoNat : ((n : ℤ) + 1 + 4 + 1).toNat = n + 6 := by omega
  have hn : mail.mulen.toNat = n + 1 := by omega
  rw [htoNat] at h
  cases h
  rw [hn, show ((n : ℤ) + 1).toNat = n + 1 by omega]
  refine Mem.read_congr fun k _ hk => ?_
  -- behind the five bytes of the header the copy of the copy is `buffer`
  have hcopy : 5 + k - 0 < ((ofpMsg drivDp fd buffer).read 0 (n + 6)).length := by
    rw [Mem.read_length]
    omega
  refine (Mem.write_apply (Nat.zero_le _) hcopy).trans ?_
  simp [Mem.read, ofpMsg, Mem.write]

end Reader

section Announce

variable {s s' : Ofpd} {r : Round}

/-- **One round**: a frame is announced if an established port is given it, and nothing is otherwise,
unless a message without a case repeats the event of a frame. -/
theorem packetIn_of_round (h : agent.step s r s')
    (hfit : r.mail.Learns → r.mail.messageLen.toNat + 42 ≤ ethMtu)
    (hrep : Once s r) : ((s.acts r).filterMap Act.packetIn).map readPacketIn
      = ((heardIn ⟨s, r, s'⟩).map some).toList := by
  by_cases hhear : r.mail.Learns ∧ s.port.state = .established
  · obtain ⟨hlearn, hst⟩ := hhear
    obtain ⟨s0, s2, hs0, hrun, hs2, -⟩ := encoded_of_learns h hlearn
    have hparse := parse_of_packetIn (hfit hlearn) hrun
    rw [← hs2.frame, hs0.bufferId] at hparse
    have hone : (s.acts r).filterMap Act.packetIn
        = [drvXmit s' s'.port.frame (s'.ofpIoFds .cp)] := by
      rw [acts_of_fills h .cp hlearn hst]
      rfl
    rw [hone, heardIn, if_pos hst, Mail.frame, if_pos hlearn, List.map_singleton, readPacketIn,
      drvXmit_mu, hparse]
    rfl
  · have hnone : heardIn ⟨s, r, s'⟩ = none := by
      rw [heardIn, Mail.frame]
      split_ifs with hst hlearn
      · exact absurd ⟨hlearn, hst⟩ hhear
      · rfl
      · rfl
    have hsilent : (s.acts r).filterMap Act.packetIn = [] := by
      refine List.filterMap_eq_nil_iff.mpr fun a ha => ?_
      cases a with
      | xmit hd x =>
        cases hd with
        | aSendPacketIn =>
          obtain ⟨⟨hst, hfill | ⟨hr, hev⟩⟩, -⟩ := (xmit_frame_iff h .cp x).mp ha
          · exact absurd ⟨hfill, hst⟩ hhear
          · exact absurd hev (hrep hr hst)
        | _ => rfl
      | _ => rfl
    rw [hsilent, hnone]
    rfl

end Announce

section Order

variable {ts : List (Transition World Ev)} {w w' : World} {ev : Ev}

/-- A mail that brings a frame is from the data-plane reader. -/
theorem frames_of_step (h : w.step ev = some w') :
    ((w.put ev).filterMap fun m => m.mail.frame).Sublist ev.frame.toList := by
  have hno : ∀ ms : List Msg, (∀ m ∈ ms, ¬ m.mail.Learns) →
      (ms.filterMap fun m => m.mail.frame).Sublist ev.frame.toList := by
    intro ms hms
    have hnil : (ms.filterMap fun m => m.mail.frame) = [] :=
      List.filterMap_eq_nil_iff.mpr fun m hm => by rw [Mail.frame, if_neg (hms m hm)]
    rw [hnil]
    exact List.nil_sublist _
  cases World.step_moved h with
  | osTmr =>
    refine hno _ fun m hm hlearn => ?_
    have htm := ((sends_cases w _).2 m hm).1
    cases hmail : m.mail with
    | tmr prim =>
      rw [hmail] at hlearn
      exact hlearn
    | drv mail =>
      rw [hmail] at htm
      exact htm
    | other =>
      rw [hmail] at hlearn
      exact hlearn
  | @sockdCp fd rxlen buffer stack hcp hrx =>
    refine hno _ fun m hm hlearn => ?_
    rw [World.put, hcp] at hm
    obtain ⟨-, mail, hmail, hm⟩ := (drvMsgs_cases w _).2 m hm
    rw [hm] at hlearn
    rcases (ofpSockdCp_mail hrx hmail).2 with ⟨-, hty⟩ | ⟨-, hty, -⟩
    · exact absurd (hty.symm.trans hlearn.2) (by decide)
    · exact absurd (hty.symm.trans hlearn.2) (by decide)
  | @sockdDp rxlen buffer stack =>
    rw [World.put]
    cases hmail : ofpSockdDp w.dp rxlen buffer stack with
    | none => exact List.nil_sublist _
    | some mail =>
      obtain ⟨hpos, hmax, hty, hlen⟩ := ofpSockdDp_spec hmail
      have hlearn : (Mail.drv mail).Learns := by
        refine ⟨?_, hty⟩
        rw [hlen]
        simp only [muMax] at hmax
        omega
      have hframe : (Mail.drv mail).frame = some (buffer.read 0 rxlen.toNat) := by
        rw [Mail.frame, if_pos hlearn]
        exact congrArg some (mu_of_ofpSockdDp hmail)
      have hmsg : (w.drvMsg mail).mail.frame = some (buffer.read 0 rxlen.toNat) := hframe
      simp [hmsg, Ev.frame, hpos]
  | ipcRcv2 | act | lib => exact hno _ (by simp [World.put])

theorem frames_queued (h : ∀ t ∈ ts, t.pre.step t.lab = some t.post) :
    ((queued ts).filterMap fun m => m.mail.frame).Sublist (ts.filterMap fun t => t.lab.frame) := by
  induction ts with
  | nil => exact List.nil_sublist _
  | cons t ts ih =>
    have hhead : ((t :: ts).filterMap fun t => t.lab.frame)
        = t.lab.frame.toList ++ ts.filterMap fun t => t.lab.frame := by
      cases hf : t.lab.frame <;> simp [hf]
    rw [queued, List.flatMap_cons, List.filterMap_append, hhead]
    exact (frames_of_step (h t List.mem_cons_self)).append
      (ih fun u hu => h u (List.mem_cons_of_mem t hu))

/-- The frames of the rounds are frames that the reader has read, in order, -/
theorem frames_of_rounds (h : Run world ts w) :
    ((rounds ts).filterMap fun u => u.lab.mail.frame).Sublist (ts.filterMap fun t => t.lab.frame) := by
  have hmails := mails_of_rounds h
  have hq := frames_queued fun t ht => ((steady_of_run h).2 t ht).2
  have hsplit : ((queued ts).filterMap fun m => m.mail.frame)
      = ((rounds ts).filterMap fun u => u.lab.mail.frame)
        ++ w.queue.filterMap fun m => m.mail.frame := by
    have h := congrArg (List.filterMap Mail.frame) hmails
    rwa [List.filterMap_append, List.filterMap_map, List.filterMap_map, List.filterMap_map] at h
  rw [hsplit] at hq
  exact (List.sublist_append_left _ _).trans hq

/-- and what an established port is given are some of them. -/
theorem heard_sublist (us : List (Transition Ofpd Round)) :
    ((us.filterMap heardIn).map Prod.snd).Sublist (us.filterMap fun u => u.lab.mail.frame) := by
  induction us with
  | nil => exact List.nil_sublist _
  | cons u us ih =>
    have hu : heardIn u = if u.pre.port.state = .established then
        u.lab.mail.frame.map (fun f => (u.pre.bufferId, f)) else none := rfl
    cases hf : u.lab.mail.frame with
    | none =>
      rw [hf, Option.map_none, ite_self] at hu
      simp only [List.filterMap_cons, hu, hf]
      exact ih
    | some f =>
      rw [hf, Option.map_some] at hu
      split_ifs at hu with hst
      · simp only [List.filterMap_cons, hu, hf, List.map_cons]
        exact ih.cons_cons f
      · simp only [List.filterMap_cons, hu, hf]
        exact ih.cons f

/-- What the rounds have to announce. -/
theorem packetIns_of_rounds {us : List (Transition Ofpd Round)}
    (h : ∀ u ∈ us, agent.step u.pre u.lab u.post)
    (hfit : ∀ u ∈ us, u.lab.mail.Learns → u.lab.mail.messageLen.toNat + 42 ≤ ethMtu)
    (hrep : ∀ u ∈ us, Once u.pre u.lab) :
    ((us.flatMap fun u => u.pre.acts u.lab).filterMap Act.packetIn).map readPacketIn
      = (us.filterMap heardIn).map some := by
  induction us with
  | nil => rfl
  | cons u us ih =>
    have hu := List.mem_cons_self (a := u) (l := us)
    have hhead : (u :: us).filterMap heardIn = (heardIn u).toList ++ us.filterMap heardIn := by
      cases hf : heardIn u <;> simp [hf]
    rw [List.flatMap_cons, List.filterMap_append, List.map_append,
      packetIn_of_round (h u hu) (hfit u hu) (hrep u hu),
      ih (fun v hv => h v (List.mem_cons_of_mem u hv))
        (fun v hv => hfit v (List.mem_cons_of_mem u hv))
        (fun v hv => hrep v (List.mem_cons_of_mem u hv)), hhead, List.map_append]
    cases heardIn u <;> rfl

/-- **The controller is told in order**: the PACKET_INs that have been sent, and those that a round
has left to send, are read back as the frames that an established port was given, each once, under
the ids of the rounds; and these are frames that the data-plane reader has read, in this order. -/
theorem announced_in_order (h : Run world ts w)
    (hfit : ∀ t ∈ ts, ∀ f, t.lab.frame = some f → f.length + 42 ≤ ethMtu)
    (hrep : ∀ u ∈ rounds ts, Once u.pre u.lab) :
    ((done ts ++ w.todo).filterMap Act.packetIn).map readPacketIn
        = ((rounds ts).filterMap heardIn).map some ∧
      (((rounds ts).filterMap heardIn).map Prod.snd).Sublist
        (ts.filterMap fun t => t.lab.frame) := by
  have hrun := run_of_rounds h
  obtain ⟨w₀, hw₀, hacts⟩ := acts_of_rounds h
  have hframes := frames_of_rounds h
  refine ⟨?_, (heard_sublist _).trans hframes⟩
  have hfits : ∀ u ∈ rounds ts, u.lab.mail.Learns →
      u.lab.mail.messageLen.toNat + 42 ≤ ethMtu := by
    intro u hu hlearn
    have hf : u.lab.mail.frame
        = some (u.lab.mail.message.read 0 u.lab.mail.messageLen.toNat) := if_pos hlearn
    obtain ⟨t, ht, htf⟩ :=
      List.mem_filterMap.mp (hframes.subset (List.mem_filterMap.mpr ⟨u, hu, hf⟩))
    have hle := hfit t ht _ htf
    rwa [Mem.read_length] at hle
  have hstart : w₀.todo.filterMap Act.packetIn = [] := by
    obtain ⟨ccb, qid, e, shm, rfl⟩ := world_init hw₀
    rfl
  rw [← hacts, List.filterMap_append, hstart, List.nil_append]
  exact packetIns_of_rounds (fun u hu => (hrun.invariant_mem (fun _ => True) (fun _ _ => True)
    (by simp) (by simp) (by simp) u hu).2.1) hfits hrep

end Order

/-- A frame behind the handshake. -/
theorem announced_in_order_frame : ∃ ts w x b, Run world ts w ∧
    x ∈ (done ts ++ w.todo).filterMap Act.packetIn ∧
    readPacketIn x = some (b, frame60) := by
  obtain ⟨ts, t, w, hr, hgood, hlab, hP⟩ := world_step_of_exec
    (establishSteps ++ [frameStep frame60]) (.ipcRcv2 (Env.plain addr2))
    (fun w ev => (ev.frame.all fun f => decide (f.length + 42 ≤ ethMtu)) = true ∧
      ((w.taken ev).all fun r => decide (Once w.agent r)) = true)
    (fun w _ => w.agent.port.state = .established ∧
      ((w.taken (.ipcRcv2 (Env.plain addr2))).any fun r =>
        decide (r.mail.frame = some frame60)) = true) (by decide +kernel)
  obtain ⟨hst, htaken⟩ := hP
  obtain ⟨r, hr', hframe⟩ := (Option.any_eq_true _ _).mp htaken
  rw [← hlab] at hr'
  have hmem := mem_rounds (List.mem_append_right ts (List.mem_singleton_self t)) hr'
  have hheard : heardIn ⟨t.pre.agent, r, t.post.agent⟩
      = some (t.pre.agent.bufferId, frame60) := by
    rw [heardIn, if_pos hst, of_decide_eq_true hframe]
    rfl
  have hread := (announced_in_order hr (fun t' ht' f hf => ?_) fun u hu => ?_).1
  · have hmap : some (t.pre.agent.bufferId, frame60) ∈
        ((rounds (ts ++ [t])).filterMap heardIn).map some :=
      List.mem_map_of_mem (List.mem_filterMap.mpr ⟨_, hmem, hheard⟩)
    rw [← hread] at hmap
    obtain ⟨x, hx, hxr⟩ := List.mem_map.mp hmap
    exact ⟨_, w, x, _, hr, hx, hxr⟩
  · have hall := (hgood t' ht').1
    rw [hf] at hall
    exact of_decide_eq_true hall
  · obtain ⟨t', ht', hseen⟩ := List.mem_filterMap.mp hu
    obtain ⟨r', hr'', rfl⟩ := Option.map_eq_some_iff.mp hseen
    have hall := (hgood t' ht').2
    rw [hr''] at hall
    exact of_decide_eq_true hall

end Ofpagent.Agent
