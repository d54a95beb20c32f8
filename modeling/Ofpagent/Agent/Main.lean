/-
# `ofp_sock.c` and `ofpd.c`: the readers, the main loop, and its runs

The two reader processes turn what they receive into mails (`ofpSockdCp`, `ofpSockdDp`), `main`
takes mails from its queue and feeds the decoder and the state machine (`mainStep`), and on the
failure of the control connection it initializes everything again (`ofpdRestart`).  `agent` is
the transition system of the main loop; a step is one mail, and its label says which mail and
what the system and the stack provided.
-/
import Ofpagent.Agent.Fsm

namespace Ofpagent.Agent

open Ofpagent.Lib

/-! ## 1. The readers -/

/-- `tOFP_MSG` in memory: `type`, `sockfd` and `buffer`. -/
def ofpMsg (type : UInt8) (sockfd : ℤ) (buffer : Mem) : Mem :=
  Mem.write (fun i => buffer (i - 5)) 0 (type :: leBytes 4 (u32OfInt sockfd).toNat)

/-- `ofp_send2mailbox`: the mail that is put on the queue, or `none` for a message that is too
long.  What `refp` holds behind the message is what the stack held. -/
def ofpSend2mailbox (mu : Mem) (mulen : ℤ) (stack : Mem) : Option OfpMbx :=
  if (ethMtu : ℤ) < mulen then none
  else some { refp := stack.write 0 (mu.read 0 mulen.toNat), len := mulen }

/-- `ofp_sockd_cp` from `recv` on, which has returned `rxlen` and filled `buffer`. -/
def ofpSockdCp (fd : ℤ) (rxlen : ℤ) (buffer stack : Mem) : Option OfpMbx :=
  if rxlen ≤ 0 then ofpSend2mailbox (ofpMsg drivCpFail 0 buffer) (rxlen + 4 + 1) stack
  else ofpSend2mailbox (ofpMsg drivCp fd buffer) (rxlen + 4 + 1) stack

/-- `ofp_sockd_dp` from `recvfrom` on. -/
def ofpSockdDp (fd : ℤ) (rxlen : ℤ) (buffer stack : Mem) : Option OfpMbx :=
  if rxlen ≤ 0 then none
  else ofpSend2mailbox (ofpMsg drivDp fd buffer) (rxlen + 4 + 1) stack

/-! ## 2. Initialization -/

/-- `OFP_SOCK_INIT`, when it succeeds: the sockets that `restart` asks for are made anew.  A
failed attempt leaves a descriptor that the next attempt overwrites. -/
def ofpSockInit (s : Ofpd) (e : Env) : Ofpd :=
  let fds0 :=
    if s.restart &&& 1 = 1 then Function.update s.ofpIoFds .cp (e.socket .cp) else s.ofpIoFds
  let fds1 := if s.restart &&& 2 = 2 then Function.update fds0 .dp (e.socket .dp) else fds0
  { s with ofpIoFds := fds1 }

/-- `ofpdInit`.  Neither `event` nor the message buffers of the port are reset, and the nodes of
the list are not freed. -/
def ofpdInit (s : Ofpd) (e : Env) : Ofpd :=
  let s1 := ofpSockInit s e
  { s1 with port := { s1.port with queryCnt := 1, state := .closed }.setHead none }

/-- What `main` does at its start and after a failure alike ahead of `E_START`. -/
def ofpdReady (s : Ofpd) (e : Env) : Ofpd :=
  let s1 := ofpdInit s e
  { s1.setSockfd (s1.ofpIoFds .cp) with restart := 0 }

/-- A start or a restart: initialization, a new reader, and `E_START`. -/
def ofpdRestart (s : Ofpd) (e : Env) : Option (Ofpd × List Act) :=
  (ofpFsm (ofpdReady s e) eStart e).map fun q => (q.1, .tmrInit :: .forkCp :: q.2)

/-- The process before `main`: globals are zero, and `buffer_id` is 1.  `main` asks for both
sockets. -/
def ofpdZero (ccb : Addr) (ofpQid : IpcId) : Ofpd where
  ccb := ccb
  port :=
    { state := .closed, queryCnt := 0, sockfd := 0, event := 0, ofpHeader := ⟨0, 0, 0, 0⟩
      ofpMultipart := ⟨⟨0, 0, 0, 0⟩, 0, 0, 0⟩
      ofpPacketIn := ⟨⟨0, 0, 0, 0⟩, 0, 0, 0, 0, 0, ⟨0, 0, ⟨0, 0⟩⟩⟩, block := fun _ => 0 }
  heap := ∅
  bufferId := 1
  ofpIoFds := fun _ => 0
  ofpQid := ofpQid
  restart := cpRestart ||| dpRestart

/-! ## 3. The main loop -/

/-- What `main` takes from its queue, by `ipc_type`. -/
inductive Mail
  | drv (mail : OfpMbx)
  | tmr (prim : IpcPrim)
  | other

/-- One round of the main loop.  A primitive for a port that is not `ofp_ports[0]` is outside
this model; nobody starts a timer for one. -/
def mainStep (s : Ofpd) (m : Mail) (e : Env) : Option (Ofpd × List Act) :=
  match m with
  | .other => some (s, [])
  | .tmr prim =>
    match prim.ccb with
    | none => some (s, [])
    | some a => if a = s.ccb then ofpFsm s prim.evt.toUInt16 e else none
  | .drv mail =>
    match ofpDecodeFrame s mail e with
    | none => none
    | some (.error, s1) => some (s1, [])
    | some (.restart, s1) => (ofpdRestart s1 e).map fun q => (q.1, .killTasks :: q.2)
    | some (.ok, s1) => ofpFsm s1 s1.port.event e

/-- One round: the mail, and what the system and the stack provide. -/
structure Round where
  mail : Mail
  env : Env

/-- What the timer task sends for the timer of `A_start_timer`. -/
def keepalivePrim (ccb : Addr) : IpcPrim := ⟨ipcEvTypeTmr, eOfpTimeout.toUInt8, some ccb⟩

/-! ## 4. What a round does -/

/-- What a restart leaves: the port waits for a HELLO with no learned hosts, and the event of
the mail before is still there. -/
structure Restarted (s s' : Ofpd) : Prop where
  state : s'.port.state = .helloWait
  queryCnt : s'.port.queryCnt = 1
  event : s'.port.event = s.port.event
  head : s'.port.head = none
  heap : s'.heap = s.heap
  ccb : s'.ccb = s.ccb

/-- A restart goes through to the HELLO it sends. -/
theorem ofpdRestart_eq (s : Ofpd) (e : Env) :
    ofpdRestart s e = some ((ofpdReady s e).setState .helloWait,
      .tmrInit :: .forkCp :: .fsm eStart :: .hdl .aSendHello ::
        (aSendHello ((ofpdReady s e).setState .helloWait)).acts) := by
  have hrow : findRow (ofpdReady s e).port.state eStart
      = some ⟨.closed, eStart, .helloWait, [.aSendHello]⟩ := by
    rw [show (ofpdReady s e).port.state = .closed from rfl, findRow_closed, if_pos rfl]
  have hrun : ofpFsm (ofpdReady s e) eStart e
      = some ((ofpdReady s e).setState .helloWait,
          .fsm eStart :: .hdl .aSendHello ::
            (aSendHello ((ofpdReady s e).setState .helloWait)).acts) := by
    rw [ofpFsm, hrow]
    rfl
  rw [ofpdRestart, hrun]
  rfl

theorem ofpdReady_restarted (s : Ofpd) (e : Env) :
    Restarted s ((ofpdReady s e).setState .helloWait) :=
  ⟨rfl, rfl, rfl, OfpPort.head_setHead _ none, rfl, rfl⟩

/-- What one round of the main loop does. -/
inductive Move (s : Ofpd) (r : Round) : Ofpd → List Act → Prop
  /-- Nothing: no mail for the port, or one that is too long. -/
  | none : (∀ mail, r.mail = .drv mail → (ethMtu : ℤ) < mail.len) → Move s r s []
  /-- The keepalive timer has fired. -/
  | timer {prim : IpcPrim} {s' : Ofpd} {acts : List Act} : r.mail = .tmr prim →
      FsmCall s prim.evt.toUInt16 s' acts → Move s r s' acts
  /-- The control connection has failed. -/
  | restart {mail : OfpMbx} {s' : Ofpd} : r.mail = .drv mail →
      mail.len ≤ ethMtu → mail.type = drivCpFail → Restarted s s' →
      Move s r s' (.killTasks :: .tmrInit :: .forkCp :: .fsm eStart :: .hdl .aSendHello ::
        (aSendHello s').acts)
  /-- A message has been decoded. -/
  | decode {mail : OfpMbx} {s1 s' : Ofpd} {acts : List Act} : r.mail = .drv mail →
      mail.len ≤ ethMtu → mail.type ≠ drivCpFail → SameCtl s s1 →
      s1.port.event = mail.event.getD s.port.event →
      FsmCall s1 s1.port.event s' acts → Move s r s' acts

theorem mainStep_move {s s' : Ofpd} {r : Round} {acts : List Act}
    (h : mainStep s r.mail r.env = some (s', acts)) : Move s r s' acts := by
  unfold mainStep at h
  split at h
  · next hm => cases h; exact .none (by simp [hm])
  · next prim hm =>
    split at h
    · cases h; exact .none (by simp [hm])
    · split at h
      · exact .timer hm (ofpFsm_call h)
      · cases h
  · next mail hm =>
    cases hd : ofpDecodeFrame s mail r.env with
    | none => rw [hd] at h; cases h
    | some p =>
      obtain ⟨st, s1⟩ := p
      rw [hd] at h
      cases ofpDecodeFrame_decoded hd with
      | error hlen =>
        cases h
        exact .none fun mail' hm' => by
          obtain rfl : mail = mail' := by simpa [hm] using hm'
          exact hlen
      | restart hlen hfail =>
        simp only [ofpdRestart_eq, Option.map_some, Option.some.injEq, Prod.mk.injEq] at h
        obtain ⟨rfl, rfl⟩ := h
        have hr := ofpdReady_restarted
          { s.setSockfd mail.sockfd with restart := s.restart ||| cpRestart } r.env
        exact .restart hm hlen hfail ⟨hr.state, hr.queryCnt, hr.event, hr.head, hr.heap, hr.ccb⟩
      | ok hlen hfail hsame hev => exact .decode hm hlen hfail hsame hev (ofpFsm_call h)

/-! ## 5. Runs -/

/-- A primitive in the queue is one of the keepalive timer. -/
def Mail.Sent (ccb : Addr) : Mail → Prop
  | .tmr prim => prim = keepalivePrim ccb
  | .drv _ | .other => True

instance (ccb : Addr) : DecidablePred (Mail.Sent ccb) := fun m =>
  match m with
  | .tmr prim => inferInstanceAs (Decidable (prim = keepalivePrim ccb))
  | .drv _ | .other => isTrue trivial

/-- A round in its surroundings: `malloc` returns an address that is not allocated, and the
timer task sends primitives of the one timer there is. -/
def Ofpd.round (s : Ofpd) (r : Round) : Option Ofpd :=
  if r.env.node ∉ s.heap ∧ r.mail.Sent s.ccb then (mainStep s r.mail r.env).map Prod.fst else none

theorem Ofpd.round_cases {s s' : Ofpd} {r : Round} (h : s.round r = some s') :
    r.env.node ∉ s.heap ∧ r.mail.Sent s.ccb ∧ ∃ acts, mainStep s r.mail r.env = some (s', acts) := by
  unfold Ofpd.round at h
  split at h
  · next hc =>
    obtain ⟨⟨t, acts⟩, hrun, rfl⟩ := Option.map_eq_some_iff.mp h
    exact ⟨hc.1, hc.2, acts, hrun⟩
  · cases h

/-- **The agent.** -/
def agent : Lts Ofpd Round where
  init s := ∃ ccb qid e acts, ofpdRestart (ofpdZero ccb qid) e = some (s, acts)
  step s r s' := s.round r = some s'

/-- What the agent does in a round. -/
def Ofpd.acts (s : Ofpd) (r : Round) : List Act :=
  ((mainStep s r.mail r.env).map Prod.snd).getD []

/-- A step of the agent is a move, with its acts. -/
theorem agent_move {s s' : Ofpd} {r : Round} (h : agent.step s r s') :
    r.mail.Sent s.ccb ∧ Move s r s' (s.acts r) := by
  obtain ⟨-, hsent, acts, hrun⟩ := Ofpd.round_cases h
  have hacts : s.acts r = acts := by simp [Ofpd.acts, hrun]
  rw [hacts]
  exact ⟨hsent, mainStep_move hrun⟩

/-- A state the agent can be in between two mails. -/
def Reachable (s : Ofpd) : Prop := ∃ ts, Run agent ts s

/-! ## 6. Runs on given mails -/

/-- Surroundings with no interface, an address for `malloc`, and zeros on the stack. -/
def Env.plain (node : Addr) : Env where
  node := node
  socket := fun
    | .cp => 3
    | .dp => 4
  saData := fun _ => 0
  ifaddrs := some []
  dstIp := 0
  ipHdr := ⟨0, 0, 0, 0, 0, 0, 0, 0, 0, 0, Vector.replicate 4 0, Vector.replicate 4 0, none⟩
  udpHdr := ⟨0, 0, 0, 0, 0⟩
  stack := fun _ => 0

/-- The mail of the bytes of one `recv`, of one `recvfrom`, and of a `recv` that fails. -/
def cpMail (bytes : List UInt8) : OfpMbx :=
  (ofpSockdCp 3 bytes.length (Mem.write (fun _ => 0) 0 bytes) fun _ => 0).getD ⟨fun _ => 0, 0⟩
def dpMail (bytes : List UInt8) : OfpMbx :=
  (ofpSockdDp 4 bytes.length (Mem.write (fun _ => 0) 0 bytes) fun _ => 0).getD ⟨fun _ => 0, 0⟩
def failMail : OfpMbx := (ofpSockdCp 3 0 (fun _ => 0) fun _ => 0).getD ⟨fun _ => 0, 0⟩

/-- A frame for the agent: a UDP datagram from 192.168.10.1 to port 6655 of 192.168.10.138, which the
filter of the raw socket passes.  One of 60 bytes is the shortest on an Ethernet. -/
def hostIp (len : ℕ) : Util.IpPkt :=
  ⟨4, 5, 0, UInt16.ofNat (28 + len), 0, 0, 0, 64, Util.protoTypeUdp, 0, #v[192, 168, 10, 1],
    #v[192, 168, 10, 138], none⟩
def hostFrame (data : List UInt8) : List UInt8 :=
  [2, 0, 0, 0, 0, 138] ++ [2, 0, 0, 0, 0, 1] ++ beBytes 2 0x0800 ++
    (Util.encodeIpPkt (hostIp data.length)).2 ++ beBytes 2 8000 ++ beBytes 2 6655 ++
    beBytes 2 (8 + data.length) ++ [0, 0] ++ data
def frame60 : List UInt8 := hostFrame (List.replicate 18 7)

theorem hostFrame_length (data : List UInt8) : (hostFrame data).length = 42 + data.length := by
  have hip : (Util.encodeIpPkt (hostIp data.length)).2.length = 20 := Util.encodeIpPkt_length rfl
  simp only [hostFrame, List.length_append, hip, beBytes_length, List.length_cons, List.length_nil]

/-- An OpenFlow message of eight bytes, and the round in which the agent receives it. -/
def shortMsg (type : UInt8) : List UInt8 := [4, type, 0, 8, 0, 0, 0, 1]
def shortRound (type : UInt8) : Round :=
  ⟨.drv (cpMail (shortMsg type)), Env.plain addr2⟩
def failRound : Round := ⟨.drv failMail, Env.plain addr2⟩

/-- A flow mod of the layout the source expects: one OXM in the match, and one instruction whose
action sets the IPv4 destination. -/
def flowModMsg (bufferId : UInt32) : List UInt8 :=
  [4, ofptFlowMod, 0, 88, 0, 0, 0, 1] ++ List.replicate 24 0 ++ beBytes 4 bufferId.toNat ++
    List.replicate 12 0 ++ [0, 1, 0, 12, 0x80, 0, 24, 4] ++ [10, 0, 0, 1] ++ [0, 0, 0, 0] ++
    [0, 4, 0, 24, 0, 0, 0, 0] ++ [0, 25, 0, 16] ++ [0x80, 0, 24, 4] ++ [10, 0, 0, 2] ++ [0, 0, 0, 0]

/-- The process behind its start. -/
def started : Ofpd :=
  (ofpdReady (ofpdZero addr1 7) (Env.plain addr2)).setState .helloWait

theorem agent_started : agent.init started := ⟨_, _, _, _, ofpdRestart_eq _ _⟩

/-- Rounds that can be executed from the start, to a state with `P`, are those of a run. -/
theorem run_of_exec (rs : List Round) (P : Ofpd → Prop) [DecidablePred P]
    (h : (exec (fun s r => if True then Ofpd.round s r else none) started rs).any
      (fun s => decide (P s)) = true) :
    ∃ ts s, Run agent ts s ∧ ts.map Transition.lab = rs ∧ P s := by
  obtain ⟨ts, s, hr, hlab, -, hP⟩ :=
    Run.of_exec (S := agent) (fun _ _ _ hs => hs) agent_started rs (fun _ _ => True) P h
  exact ⟨ts, s, hr, hlab, hP⟩

end Ofpagent.Agent
