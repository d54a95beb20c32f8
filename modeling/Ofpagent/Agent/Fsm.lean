/-
# `ofp_fsm.c`: the transition table and its handlers

`ofpFsm` looks up the state of the port and the event in `ofpFsmTbl`, changes the state, and
calls the handlers of the row.  What the handlers do to the world is recorded as a list of
`Act`s, in order: the bytes given to `drv_xmit`, the calls of the timer, the calls of handlers
themselves, and the event each call of `OFP_FSM` was given.
-/
import Ofpagent.Agent.Codec

namespace Ofpagent.Agent

open Ofpagent.Lib

/-! ## 1. What the agent does -/

/-- The handlers of the table. -/
inductive Hdl
  | aSendHello
  | aSendEchoRequest
  | aSendFeatureReply
  | aSendMultipartReply
  | aStartTimer
  | aClearQueryCnt
  | aStopQueryTmr
  | aQueryTmrExpire
  | aSendPacketIn
  | aSendToHost
  deriving DecidableEq

/-- The call behind `drv_xmit`: `send` on a connected socket, or `sendto` with the link-layer
address of the raw one. -/
inductive Xmit
  | send (sockfd : ℤ) (mu : List UInt8)
  | sendto (sockfd : ℤ) (mu : List UInt8)
  deriving DecidableEq

/-- What the main process does to the world, and the calls that claims are about. -/
inductive Act
  /-- `OFP_FSM` is called with this event. -/
  | fsm (event : UInt16)
  /-- The table calls this handler. -/
  | hdl (h : Hdl)
  /-- This handler transmits. -/
  | xmit (h : Hdl) (x : Xmit)
  | startTmr (a : Timer.StartArgs)
  | stopXtmr (ccb : Ptr) (event : UInt16)
  /-- `A_start_timer` reports that the controller does not respond. -/
  | notResponding
  /-- `OFP_decode_frame` kills the timer task and the control-plane reader. -/
  | killTasks
  | tmrInit
  /-- A new control-plane reader is forked. -/
  | forkCp

/-- `drv_xmit`. -/
def drvXmit (s : Ofpd) (mu : List UInt8) (sockfd : ℤ) : Xmit :=
  if sockfd = s.ofpIoFds .cp then .send sockfd mu else .sendto sockfd mu

/-! ## 2. The handlers -/

/-- What a handler leaves and returns.  `OFP_FSM` stops at a handler that returns 0. -/
structure Ret where
  agent : Ofpd
  acts : List Act
  status : ℤ := 1

/-- `ofp_interval`, set by `ofpdInit` to `10*SEC`, and `ofp_max_msg_per_query`. -/
def ofpInterval : UInt32 := 10000000
def ofpMaxMsgPerQuery : UInt8 := 10

/-- `A_send_hello`. -/
def aSendHello (s : Ofpd) : Ret :=
  let ofHeader : OfpHeader := ⟨4, ofptHello, htons 8, 0x45⟩
  { agent := s, acts := [.xmit .aSendHello (drvXmit s ofHeader.bytes s.port.sockfd)] }

/-- `A_send_echo_request`. -/
def aSendEchoRequest (s : Ofpd) : Ret :=
  let ofHeader : OfpHeader := ⟨4, ofptEchoRequest, htons 8, 0⟩
  let s1 := s.setSockfd (s.ofpIoFds .cp)
  { agent := s1, acts := [.xmit .aSendEchoRequest (drvXmit s1 ofHeader.bytes s1.port.sockfd)] }

/-- The conversion of a `char` to `uint64_t`. -/
def charU64 (b : UInt8) : UInt64 :=
  if b < 128 then b.toUInt64 else b.toUInt64 + 0xffffffffffffff00

/-- `datapath_id` as the loop of `A_send_feature_reply` adds it up. -/
def datapathId (saData : Mem) : UInt64 :=
  ([5, 4, 3, 2, 1, 0].map fun i => charU64 (saData i) <<< UInt64.ofNat (i * 8)).sum

/-- `ofp_switch_features_t` as `A_send_feature_reply` fills it.  `pad` and `reserved` are not
assigned. -/
def featureBytes (length : UInt16) (e : Env) : List UInt8 :=
  (OfpHeader.mk 4 ofptFeaturesReply (htons length) 0).bytes ++
    leBytes 8 (bitswap64 (datapathId e.saData)).toNat ++ leBytes 4 (htonl 256).toNat ++
    [254, 0] ++ e.stack.read 0 2 ++ leBytes 4 (htonl (1 ||| 4 ||| 64)).toNat ++ e.stack.read 2 4

/-- `A_send_feature_reply`.  `length` counts the header twice, so the copy takes eight bytes
from behind the structure. -/
def aSendFeatureReply (s : Ofpd) (e : Env) : Ret :=
  let length : UInt16 := 8 + 32
  let mu := featureBytes length e ++ e.stack.read 6 (length.toNat - 32)
  { agent := s, acts := [.xmit .aSendFeatureReply (drvXmit s mu s.port.sockfd)] }

/-- `A_start_timer`. -/
def aStartTimer (s : Ofpd) : Ret :=
  { agent := s
    acts := (if s.port.queryCnt > ofpMaxMsgPerQuery then [.notResponding] else []) ++
      [.startTmr (Timer.ofpTxT s.ofpQid s.ccb ofpInterval)] }

/-- `A_stop_query_tmr`. -/
def aStopQueryTmr (s : Ofpd) : Ret :=
  { agent := s, acts := [.stopXtmr (some s.ccb) eOfpTimeout] }

/-- `A_query_tmr_expire`. -/
def aQueryTmrExpire (s : Ofpd) : Ret :=
  { agent := { s with port.queryCnt := s.port.queryCnt + 1 }, acts := [] }

/-- `A_clear_query_cnt`. -/
def aClearQueryCnt (s : Ofpd) : Ret :=
  { agent := { s with port.queryCnt := 1 }, acts := [] }

/-- `AF_PACKET`. -/
def afPacket : UInt16 := 17

/-- The assignments to `ofp_port_desc` for the interface of index `i`.  The structure is cleared
once, ahead of the loop. -/
def fillPortDesc (desc : Mem) (i : ℕ) (ifa : IfAddr) : Mem :=
  ((desc.writeLe 0 4 (htonl (UInt32.ofNat i)).toNat).write 16 (ifa.ifaName ++ [0])).write 8
    (ifa.saData.read 0 6)

/-- The loop of `A_send_multipart_reply` over the interfaces: the descriptions it has copied
behind the header.  One that does not fit into `buf` is written behind it, which is
undefined. -/
def portDescs : List IfAddr → ℕ → Mem → List UInt8 → Option (List UInt8)
  | [], _, _, body => some body
  | ifa :: ifas, i, desc, body =>
    if ifa.saFamily = some afPacket then
      if 256 < 16 + body.length + 64 then none
      else
        let desc1 := fillPortDesc desc i ifa
        portDescs ifas (i + 1) desc1 (body ++ desc1.read 0 64)
    else portDescs ifas (i + 1) desc body

/-- `A_send_multipart_reply`. -/
def aSendMultipartReply (s : Ofpd) (e : Env) : Option Ret :=
  match e.ifaddrs with
  | none => some { agent := s, acts := [], status := -1 }
  | some ifas =>
    (portDescs ifas 0 (fun _ => 0) []).map fun body =>
      let length := UInt16.ofNat (16 + body.length)
      let reply : OfpMultipart :=
        { s.port.ofpMultipart with
          ofpHeader.type := ofptMultipartReply, ofpHeader.length := htons length }
      { agent := s
        acts := [.xmit .aSendMultipartReply
          (drvXmit s ((reply.bytes ++ body).take length.toNat) s.port.sockfd)] }

/-- The bytes of `ofpbuf` that are to be sent. -/
def OfpPort.frame (p : OfpPort) : List UInt8 := p.block.read 0 p.ofpbufLen.toNat

/-- `A_send_packet_in`. -/
def aSendPacketIn (s : Ofpd) : Ret :=
  { agent := s, acts := [.xmit .aSendPacketIn (drvXmit s s.port.frame (s.ofpIoFds .cp))] }

/-- `A_send_to_host`. -/
def aSendToHost (s : Ofpd) : Ret :=
  { agent := s, acts := [.xmit .aSendToHost (drvXmit s s.port.frame (s.ofpIoFds .dp))] }

/-- A call through the function pointer of a row. -/
def Hdl.call (s : Ofpd) (e : Env) : Hdl → Option Ret
  | aSendHello => some (Agent.aSendHello s)
  | aSendEchoRequest => some (Agent.aSendEchoRequest s)
  | aSendFeatureReply => some (Agent.aSendFeatureReply s e)
  | aSendMultipartReply => Agent.aSendMultipartReply s e
  | aStartTimer => some (Agent.aStartTimer s)
  | aClearQueryCnt => some (Agent.aClearQueryCnt s)
  | aStopQueryTmr => some (Agent.aStopQueryTmr s)
  | aQueryTmrExpire => some (Agent.aQueryTmrExpire s)
  | aSendPacketIn => some (Agent.aSendPacketIn s)
  | aSendToHost => some (Agent.aSendToHost s)

/-! ## 3. The table -/

/-- `tOFP_STATE_TBL`. -/
structure OfpStateTbl where
  state : OfpState
  event : UInt16
  nextState : OfpState
  hdl : List Hdl

/-- `ofp_fsm_tbl`, without the row of `S_INVALID` that ends it. -/
def ofpFsmTbl : List OfpStateTbl :=
  [⟨.closed, eStart, .helloWait, [.aSendHello]⟩,
    ⟨.helloWait, eRecvHello, .featureWait, []⟩,
    ⟨.featureWait, eFeatureRequest, .established,
      [.aSendFeatureReply, .aSendEchoRequest, .aStartTimer]⟩,
    ⟨.established, eMultipartRequest, .established, [.aSendMultipartReply]⟩,
    ⟨.established, eOthers, .established, []⟩,
    ⟨.established, eEchoReply, .established, [.aStopQueryTmr, .aClearQueryCnt, .aStartTimer]⟩,
    ⟨.established, eOfpTimeout, .established,
      [.aQueryTmrExpire, .aSendEchoRequest, .aStartTimer]⟩,
    ⟨.established, ePacketIn, .established, [.aSendPacketIn]⟩,
    ⟨.established, eFlowMod, .established, [.aSendToHost]⟩]

/-- The two searches of `OFP_FSM`: the first row of the state, and from there the row of the
event, as long as the rows are of the state. -/
def findRow (state : OfpState) (event : UInt16) : Option OfpStateTbl :=
  ((ofpFsmTbl.dropWhile fun r => r.state ≠ state).takeWhile fun r => r.state = state).find?
    fun r => r.event = event

/-- The loop over the handlers of a row. -/
def runHdls (e : Env) : List Hdl → Ofpd → Option (Ofpd × List Act)
  | [], s => some (s, [])
  | h :: hs, s =>
    (h.call s e).bind fun r =>
      if r.status = 0 then some (r.agent, .hdl h :: r.acts)
      else (runHdls e hs r.agent).map fun q => (q.1, .hdl h :: r.acts ++ q.2)

/-- `OFP_FSM`.  A state or an event that is not in the table is reported and changes nothing. -/
def ofpFsm (s : Ofpd) (event : UInt16) (e : Env) : Option (Ofpd × List Act) :=
  match findRow s.port.state event with
  | none => some (s, [.fsm event])
  | some r =>
    (runHdls e r.hdl (s.setState r.nextState)).map fun q => (q.1, .fsm event :: q.2)

/-! ## 4. What a call of `OFP_FSM` does -/

/-- The state and the handlers of the row that is found, if one is. -/
def fsmNext (state : OfpState) (event : UInt16) : OfpState :=
  (findRow state event).elim state OfpStateTbl.nextState
def fsmHdls (state : OfpState) (event : UInt16) : List Hdl :=
  (findRow state event).elim [] OfpStateTbl.hdl

/-- The event `OFP_FSM` is called with, if this is what is done. -/
def Act.event : Act → Option UInt16
  | fsm event => some event
  | _ => none

/-- What handler `h` may do. -/
def Act.By (h : Hdl) : Act → Prop
  | fsm _ | hdl _ | killTasks | tmrInit | forkCp => False
  | xmit h' _ => h' = h
  | startTmr _ | stopXtmr _ _ | notResponding => True

/-- What the handlers do not change. -/
structure SameFsm (s s' : Ofpd) : Prop where
  state : s'.port.state = s.port.state
  event : s'.port.event = s.port.event
  block : s'.port.block = s.port.block
  heap : s'.heap = s.heap
  ccb : s'.ccb = s.ccb
  ofpIoFds : s'.ofpIoFds = s.ofpIoFds

theorem SameFsm.refl (s : Ofpd) : SameFsm s s := ⟨rfl, rfl, rfl, rfl, rfl, rfl⟩

theorem SameFsm.trans {s s1 s' : Ofpd} (h : SameFsm s s1) (h' : SameFsm s1 s') : SameFsm s s' :=
  ⟨h'.state.trans h.state, h'.event.trans h.event, h'.block.trans h.block,
    h'.heap.trans h.heap, h'.ccb.trans h.ccb, h'.ofpIoFds.trans h.ofpIoFds⟩

/-- A handler leaves state, event and list alone, and transmits in its own name. -/
theorem Hdl.call_spec {s : Ofpd} {e : Env} {h : Hdl} {r : Ret} (hr : h.call s e = some r) :
    SameFsm s r.agent ∧ ∀ a ∈ r.acts, a.By h := by
  cases h with
  | aSendMultipartReply =>
    simp only [Hdl.call, Agent.aSendMultipartReply] at hr
    split at hr
    · cases hr
      exact ⟨SameFsm.refl s, by simp⟩
    · obtain ⟨body, -, rfl⟩ := Option.map_eq_some_iff.mp hr
      exact ⟨SameFsm.refl s, by simp [Act.By]⟩
  | aStartTimer =>
    cases hr
    refine ⟨SameFsm.refl s, ?_⟩
    simp only [Agent.aStartTimer]
    split_ifs <;> simp [Act.By]
  | aSendEchoRequest | aClearQueryCnt | aQueryTmrExpire =>
    cases hr
    exact ⟨⟨rfl, rfl, rfl, rfl, rfl, rfl⟩, by
      simp [Act.By, Agent.aSendEchoRequest, Agent.aClearQueryCnt, Agent.aQueryTmrExpire]⟩
  | aSendHello | aSendFeatureReply | aStopQueryTmr | aSendPacketIn | aSendToHost =>
    cases hr
    exact ⟨SameFsm.refl s, by
      simp [Act.By, Agent.aSendHello, Agent.aSendFeatureReply, Agent.aStopQueryTmr,
        Agent.aSendPacketIn, Agent.aSendToHost]⟩

/-- What is done by a handler of the list, or is the call of one. -/
def Act.ByAny (hs : List Hdl) (a : Act) : Prop := ∃ h ∈ hs, a = .hdl h ∨ a.By h

theorem runHdls_spec {e : Env} {hs : List Hdl} {s s' : Ofpd} {acts : List Act}
    (hrun : runHdls e hs s = some (s', acts)) : SameFsm s s' ∧ ∀ a ∈ acts, a.ByAny hs := by
  induction hs generalizing s s' acts with
  | nil =>
    cases hrun
    exact ⟨SameFsm.refl s, by simp⟩
  | cons h hs ih =>
    obtain ⟨r, hr, hrun⟩ := Option.bind_eq_some_iff.mp hrun
    obtain ⟨hsame, hacts⟩ := Hdl.call_spec hr
    have hfirst : ∀ a ∈ Act.hdl h :: r.acts, a.ByAny (h :: hs) := by
      intro a ha
      rcases List.mem_cons.mp ha with rfl | ha
      · exact ⟨h, by simp, Or.inl rfl⟩
      · exact ⟨h, by simp, Or.inr (hacts a ha)⟩
    split at hrun
    · cases hrun
      exact ⟨hsame, hfirst⟩
    · obtain ⟨q, hq, hrun⟩ := Option.map_eq_some_iff.mp hrun
      cases hrun
      obtain ⟨hsame', hrest⟩ := ih hq
      refine ⟨hsame.trans hsame', ?_⟩
      intro a ha
      rcases List.mem_append.mp ha with ha | ha
      · exact hfirst a ha
      · obtain ⟨h', hh', ha'⟩ := hrest a ha
        exact ⟨h', List.mem_cons_of_mem _ hh', ha'⟩

/-- What a call of `OFP_FSM` with `event` does, in a state of which it found the row. -/
structure FsmCall (s : Ofpd) (event : UInt16) (s' : Ofpd) (acts : List Act) : Prop where
  state : s'.port.state = fsmNext s.port.state event
  same : SameFsm (s.setState s'.port.state) s'
  acts : ∃ rest, acts = .fsm event :: rest ∧
    ∀ a ∈ rest, a.ByAny (fsmHdls s.port.state event)

theorem ofpFsm_call {s s' : Ofpd} {event : UInt16} {e : Env} {acts : List Act}
    (h : ofpFsm s event e = some (s', acts)) : FsmCall s event s' acts := by
  unfold ofpFsm at h
  split at h
  · next hrow =>
    cases h
    refine ⟨by simp [fsmNext, hrow], SameFsm.refl _, [], rfl, by simp⟩
  · next r hrow =>
    obtain ⟨q, hq, h⟩ := Option.map_eq_some_iff.mp h
    cases h
    obtain ⟨hsame, hacts⟩ := runHdls_spec hq
    have hst : q.1.port.state = r.nextState := hsame.state
    refine ⟨by simp [fsmNext, hrow, hst], by rw [hst]; exact hsame, q.2, rfl, ?_⟩
    simpa [fsmHdls, hrow] using hacts

/-- Exactly one call of `OFP_FSM` is among the acts of one. -/
theorem FsmCall.events {s s' : Ofpd} {event : UInt16} {acts : List Act}
    (h : FsmCall s event s' acts) : acts.filterMap Act.event = [event] := by
  obtain ⟨rest, rfl, hrest⟩ := h.acts
  rw [List.filterMap_cons, Act.event]
  have hnone : rest.filterMap Act.event = [] := by
    refine List.filterMap_eq_nil_iff.mpr fun a ha => ?_
    obtain ⟨h', -, hby⟩ := hrest a ha
    cases a with
    | fsm event' => rcases hby with hby | hby <;> cases hby
    | _ => rfl
  rw [hnone]

/-- The row that is found is one of the table, for the event. -/
theorem findRow_mem {state : OfpState} {event : UInt16} {r : OfpStateTbl}
    (h : findRow state event = some r) : r ∈ ofpFsmTbl ∧ r.event = event := by
  refine ⟨?_, by simpa using List.find?_some h⟩
  have hr := List.mem_of_find?_eq_some h
  exact (List.dropWhile_suffix _).subset ((List.takeWhile_prefix _).subset hr)

/-- The row of MULTIPART_REQUEST is the only one whose handlers can go wrong. -/
theorem multipart_of_hdl {r : OfpStateTbl} (h : r ∈ ofpFsmTbl) (hh : .aSendMultipartReply ∈ r.hdl) :
    r.event = eMultipartRequest := by
  fin_cases h <;> simp_all

theorem runHdls_eq_some {e : Env} {hs : List Hdl} {s : Ofpd} (hn : .aSendMultipartReply ∉ hs) :
    ∃ q, runHdls e hs s = some q := by
  induction hs generalizing s with
  | nil => exact ⟨_, rfl⟩
  | cons h hs ih =>
    rw [List.mem_cons, not_or] at hn
    obtain ⟨r, hr⟩ : ∃ r, h.call s e = some r := by
      cases h with
      | aSendMultipartReply => exact absurd rfl hn.1
      | _ => exact ⟨_, rfl⟩
    obtain ⟨q, hq⟩ := ih (s := r.agent) hn.2
    rw [runHdls, hr, Option.bind_some, hq]
    split
    · exact ⟨_, rfl⟩
    · exact ⟨_, rfl⟩

theorem ofpFsm_eq_some {s : Ofpd} {event : UInt16} {e : Env} (h : event ≠ eMultipartRequest) :
    ∃ q, ofpFsm s event e = some q := by
  unfold ofpFsm
  split
  · exact ⟨_, rfl⟩
  · next r hrow =>
    obtain ⟨hmem, hev⟩ := findRow_mem hrow
    obtain ⟨q, hq⟩ := runHdls_eq_some (e := e) (s := s.setState r.nextState)
      fun hh => h (hev ▸ multipart_of_hdl hmem hh)
    exact ⟨_, by rw [hq]; rfl⟩

/-! ## 5. The table, state by state -/

theorem findRow_closed (event : UInt16) :
    findRow .closed event
      = if event = eStart then some ⟨.closed, eStart, .helloWait, [.aSendHello]⟩ else none := by
  simp [findRow, ofpFsmTbl, eq_comm]

theorem findRow_helloWait (event : UInt16) :
    findRow .helloWait event
      = if event = eRecvHello then some ⟨.helloWait, eRecvHello, .featureWait, []⟩ else none := by
  simp [findRow, ofpFsmTbl, eq_comm]

theorem findRow_featureWait (event : UInt16) :
    findRow .featureWait event
      = if event = eFeatureRequest then
          some ⟨.featureWait, eFeatureRequest, .established,
            [.aSendFeatureReply, .aSendEchoRequest, .aStartTimer]⟩
        else none := by
  simp [findRow, ofpFsmTbl, eq_comm]

theorem fsmNext_helloWait (event : UInt16) :
    fsmNext .helloWait event = if event = eRecvHello then .featureWait else .helloWait := by
  rw [fsmNext, findRow_helloWait]
  split_ifs <;> rfl

theorem fsmNext_featureWait (event : UInt16) :
    fsmNext .featureWait event = if event = eFeatureRequest then .established else .featureWait := by
  rw [fsmNext, findRow_featureWait]
  split_ifs <;> rfl

/-- Nothing is called for while the port waits for a HELLO. -/
theorem fsmHdls_helloWait (event : UInt16) : fsmHdls .helloWait event = [] := by
  rw [fsmHdls, findRow_helloWait]
  split_ifs <;> rfl

theorem fsmHdls_featureWait {event : UInt16} (h : event ≠ eFeatureRequest) :
    fsmHdls .featureWait event = [] := by
  rw [fsmHdls, findRow_featureWait, if_neg h]
  rfl

/-- An established port stays so in every row. -/
theorem fsmNext_established (event : UInt16) : fsmNext .established event = .established := by
  simp only [fsmNext, findRow]
  cases h : List.find? _ _ with
  | none => rfl
  | some r =>
    have hr := List.mem_of_find?_eq_some h
    simp [ofpFsmTbl] at hr
    rcases hr with rfl | rfl | rfl | rfl | rfl | rfl <;> rfl

end Ofpagent.Agent
