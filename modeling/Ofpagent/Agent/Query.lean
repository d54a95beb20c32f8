/-
# The count of unanswered requests

`query_cnt` is 1 when the port becomes established and behind every ECHO_REPLY, and a timeout of
the keepalive timer adds 1.  Nothing else changes it (`ofpFsm_queryCnt`), so `A_start_timer`
compares one more than the number of timeouts with `ofp_max_msg_per_query`: but the field is a
`U8`, and the comparison is with that number modulo 256 (`queryCnt_of_quiet`).  With the 255th
timeout the count is 0, and a controller that was found dead is not any more.
-/
import Ofpagent.Agent.Clock

namespace Ofpagent.Agent

open Ofpagent.Lib

/-! ## 1. What the handlers make of the count -/

def Hdl.count (n : UInt8) : Hdl → UInt8
  | aQueryTmrExpire => n + 1
  | aClearQueryCnt => 1
  | aSendHello | aSendEchoRequest | aSendFeatureReply | aSendMultipartReply | aStartTimer
  | aStopQueryTmr | aSendPacketIn | aSendToHost => n

theorem Hdl.call_count {s : Ofpd} {e : Env} {h : Hdl} {r : Ret} (hr : h.call s e = some r) :
    r.agent.port.queryCnt = h.count s.port.queryCnt := by
  cases h with
  | aSendMultipartReply =>
    simp only [Hdl.call, Agent.aSendMultipartReply] at hr
    split at hr
    · cases hr
      rfl
    · obtain ⟨body, -, rfl⟩ := Option.map_eq_some_iff.mp hr
      rfl
  | _ =>
    cases hr
    rfl

theorem runHdls_count {e : Env} {hs : List Hdl} {s s' : Ofpd} {acts : List Act}
    (hrun : runHdls e hs s = some (s', acts)) :
    s'.port.queryCnt = hs.foldl Hdl.count s.port.queryCnt := by
  induction hs generalizing s s' acts with
  | nil =>
    cases hrun
    rfl
  | cons h hs ih =>
    obtain ⟨r, hr, hrun⟩ := Option.bind_eq_some_iff.mp hrun
    rw [if_neg (Hdl.call_calls hr).2.1] at hrun
    obtain ⟨q, hq, hrun⟩ := Option.map_eq_some_iff.mp hrun
    cases hrun
    rw [ih hq, Hdl.call_count hr, List.foldl_cons]

/-- The rows of the table, by what they make of the count. -/
theorem count_hdl {r : OfpStateTbl} (h : r ∈ ofpFsmTbl) (hev : r.event ≠ eEchoReply) (n : UInt8) :
    r.hdl.foldl Hdl.count n = if r.event = eOfpTimeout then n + 1 else n := by
  fin_cases h
  case «5» => exact absurd rfl hev
  all_goals rfl

/-- **A timeout adds 1**, and an event that is not an ECHO_REPLY changes nothing otherwise. -/
theorem ofpFsm_queryCnt {s s' : Ofpd} {event : UInt16} {e : Env} {acts : List Act}
    (hrun : ofpFsm s event e = some (s', acts)) (hst : s.port.state = .established)
    (hev : event ≠ eEchoReply) :
    s'.port.queryCnt = if event = eOfpTimeout then s.port.queryCnt + 1 else s.port.queryCnt := by
  unfold ofpFsm at hrun
  split at hrun
  · next hrow =>
    cases hrun
    have hno : event ≠ eOfpTimeout := by
      rintro rfl
      rw [hst] at hrow
      exact absurd hrow (by decide)
    rw [if_neg hno]
  · next r hrow =>
    obtain ⟨hmem, rfl⟩ := findRow_mem hrow
    obtain ⟨q, hq, hrun⟩ := Option.map_eq_some_iff.mp hrun
    cases hrun
    rw [runHdls_count hq, count_hdl hmem hev]
    rfl

/-- The round of a timeout reports the controller when the count behind it is too large. -/
theorem ofpFsm_notResponding {s s' : Ofpd} {e : Env} {acts : List Act}
    (hrun : ofpFsm s eOfpTimeout e = some (s', acts)) (hst : s.port.state = .established) :
    .notResponding ∈ acts ↔ ofpMaxMsgPerQuery < s'.port.queryCnt := by
  have hrow : findRow s.port.state eOfpTimeout = some ⟨.established, eOfpTimeout, .established,
      [.aQueryTmrExpire, .aSendEchoRequest, .aStartTimer]⟩ := by
    rw [hst]
    rfl
  rw [ofpFsm, hrow] at hrun
  obtain ⟨rfl, rfl⟩ := Prod.mk.inj (Option.some.inj hrun)
  simp [aQueryTmrExpire, aSendEchoRequest, aStartTimer]

/-! ## 2. Runs without an echo reply -/

/-- `MAX_OFP_QUERY_NUM`. -/
def maxOfpQueryNum : ℕ := 10

/-- The condition that `A_start_timer` tests. -/
def Ofpd.Unresponsive (s : Ofpd) : Prop := ofpMaxMsgPerQuery < s.port.queryCnt

/-- How many timeouts `OFP_FSM` is called with in a round, and in rounds. -/
def Ofpd.timeouts (s : Ofpd) (r : Round) : ℕ :=
  ((s.acts r).filterMap Act.event).count eOfpTimeout
def timeouts (ts : List (Transition Ofpd Round)) : ℕ := (ts.map fun t => t.pre.timeouts t.lab).sum

/-- The agent from a state in which the count has been set to 1, as long as it is established and
there is no echo reply. -/
def quiet (s₀ : Ofpd) : Lts Ofpd Round where
  init s := s = s₀ ∧ s.port.state = .established ∧ s.port.queryCnt = 1
  step s r s' := agent.step s r s' ∧ s'.port.state = .established ∧
    eEchoReply ∉ (s.acts r).filterMap Act.event

/-- What a round does to the count, and what it reports. -/
structure Counts (s : Ofpd) (r : Round) (s' : Ofpd) : Prop where
  atMost : s.timeouts r ≤ 1
  queryCnt : s'.port.queryCnt.toNat = (s.port.queryCnt.toNat + s.timeouts r) % 256
  reports : s.timeouts r ≠ 0 → (.notResponding ∈ s.acts r ↔ s'.Unresponsive)

/-- A call of `OFP_FSM` in an established state, behind a decoder that leaves the count alone. -/
theorem counts_of_fsm {s s1 s' : Ofpd} {r : Round} {event : UInt16}
    (hrun : ofpFsm s1 event r.env = some (s', s.acts r)) (hst : s1.port.state = .established)
    (hcnt : s1.port.queryCnt = s.port.queryCnt)
    (hev : eEchoReply ∉ (s.acts r).filterMap Act.event) : Counts s r s' := by
  have hevents := (ofpFsm_call hrun).events
  have hne : event ≠ eEchoReply := by
    rintro rfl
    exact hev (by simp [hevents])
  have hlt : s.port.queryCnt.toNat < 256 := s.port.queryCnt.toNat_lt
  have hstep := ofpFsm_queryCnt hrun hst hne
  rw [hcnt] at hstep
  by_cases htime : event = eOfpTimeout
  · subst htime
    have hone : s.timeouts r = 1 := by simp [Ofpd.timeouts, hevents]
    rw [if_pos rfl] at hstep
    refine ⟨hone.le, ?_, fun _ => ofpFsm_notResponding hrun hst⟩
    rw [hstep, hone, UInt8.toNat_add]
    rfl
  · have hzero : s.timeouts r = 0 := by simp [Ofpd.timeouts, hevents, htime]
    rw [if_neg htime] at hstep
    refine ⟨by omega, ?_, fun h => absurd hzero h⟩
    rw [hstep, hzero, Nat.add_zero, Nat.mod_eq_of_lt hlt]

/-- **One round.** -/
theorem quiet_step {s₀ s s' : Ofpd} {r : Round} (h : (quiet s₀).step s r s')
    (hst : s.port.state = .established) : Counts s r s' := by
  obtain ⟨hstep, hst', hev⟩ := h
  have hdid := (agent_did hstep).2
  generalize hacts : s.acts r = acts at hdid
  cases hdid with
  | quiet =>
    have hzero : s.timeouts r = 0 := by simp [Ofpd.timeouts, hacts]
    refine ⟨by omega, ?_, fun h => absurd hzero h⟩
    rw [hzero, Nat.add_zero, Nat.mod_eq_of_lt s.port.queryCnt.toNat_lt]
  | timer _ hrun =>
    rw [← hacts] at hrun
    exact counts_of_fsm hrun hst rfl hev
  | restart _ _ s1 _ _ _ =>
    have hwait : ((ofpdReady s1 r.env).setState .helloWait).port.state = .helloWait := rfl
    rw [hwait] at hst'
    exact absurd hst' (by decide)
  | decode _ _ _ hd hrun =>
    rw [← hacts] at hrun
    cases ofpDecodeFrame_decoded hd with
    | ok _ _ hsame _ => exact counts_of_fsm hrun (hsame.state.trans hst) hsame.queryCnt hev

theorem timeouts_snoc (ts : List (Transition Ofpd Round)) (t : Transition Ofpd Round) :
    timeouts (ts ++ [t]) = timeouts ts + t.pre.timeouts t.lab := by
  simp [timeouts]

/-- **The count is one more than the number of timeouts**, modulo 256. -/
theorem queryCnt_of_quiet {s₀ s : Ofpd} {ts : List (Transition Ofpd Round)}
    (h : Run (quiet s₀) ts s) :
    s.port.state = .established ∧ s.port.queryCnt.toNat = (timeouts ts + 1) % 256 := by
  induction h with
  | start h0 =>
    obtain ⟨-, hst, hcnt⟩ := h0
    exact ⟨hst, by rw [hcnt]; rfl⟩
  | snoc _ hs ih =>
    have hc := quiet_step hs ih.1
    refine ⟨hs.2.1, ?_⟩
    rw [hc.queryCnt, ih.2, timeouts_snoc]
    dsimp only
    omega

theorem unresponsive_of_quiet {s₀ s : Ofpd} {ts : List (Transition Ofpd Round)}
    (h : Run (quiet s₀) ts s) : s.Unresponsive ↔ maxOfpQueryNum < (timeouts ts + 1) % 256 := by
  rw [← (queryCnt_of_quiet h).2, Ofpd.Unresponsive, UInt8.lt_iff_toNat_lt]
  rfl

/-- No round loses the detection, as long as the count has not been all the way round. -/
theorem kept_iff {s₀ s : Ofpd} {ts : List (Transition Ofpd Round)} (h : Run (quiet s₀) ts s) :
    (∀ t ∈ ts, t.pre.Unresponsive → t.post.Unresponsive) ↔ timeouts ts < 255 := by
  induction h with
  | start _ => simp [timeouts]
  | @snoc ts s s' r hr hs ih =>
    have hc := quiet_step hs (queryCnt_of_quiet hr).1
    have hpre := unresponsive_of_quiet hr
    have hpost := unresponsive_of_quiet (hr.snoc hs)
    have hone := hc.atMost
    have hall : (∀ t ∈ ts ++ [⟨s, r, s'⟩], t.pre.Unresponsive → t.post.Unresponsive) ↔
        (∀ t ∈ ts, t.pre.Unresponsive → t.post.Unresponsive) ∧
          (s.Unresponsive → s'.Unresponsive) := by
      simp [or_imp, forall_and]
    rw [hall, ih, hpre, hpost, timeouts_snoc, maxOfpQueryNum]
    dsimp only
    omega

/-- **When a dead controller is detected.**  The condition of `A_start_timer` is that of ten
timeouts until the count goes round, and again behind its tenth; no round loses the detection
exactly when there have been fewer than 255; and `A_start_timer` reports accordingly. -/
theorem dead_controller_detected {s₀ s : Ofpd} {ts : List (Transition Ofpd Round)}
    (h : Run (quiet s₀) ts s) :
    ((s.Unresponsive ↔ maxOfpQueryNum ≤ timeouts ts) ↔
        timeouts ts < maxOfpQueryNum ∨ maxOfpQueryNum < (timeouts ts + 1) % 256) ∧
      ((∀ t ∈ ts, t.pre.Unresponsive → t.post.Unresponsive) ↔ timeouts ts < 255) ∧
      ∀ t ∈ ts, t.pre.timeouts t.lab ≠ 0 →
        (.notResponding ∈ t.pre.acts t.lab ↔ t.post.Unresponsive) := by
  refine ⟨?_, kept_iff h, ?_⟩
  · rw [unresponsive_of_quiet h, maxOfpQueryNum]
    omega
  · intro t ht
    obtain ⟨us, vs, hts⟩ := List.append_of_mem ht
    obtain ⟨hpre, hs⟩ := h.split us t vs hts
    exact (quiet_step hs (queryCnt_of_quiet hpre).1).reports

/-! ## 3. Timeouts alone -/

/-- The round of a timeout. -/
def timeoutRound (ccb : Addr) : Round := ⟨.tmr (keepalivePrim ccb), Env.plain addr2⟩

/-- An established port goes through it, with one more timeout. -/
theorem quiet_timeout {s₀ s : Ofpd} (hst : s.port.state = .established) (hnode : addr2 ∉ s.heap) :
    ∃ s', (quiet s₀).step s (timeoutRound s.ccb) s' ∧ s.timeouts (timeoutRound s.ccb) = 1 ∧
      addr2 ∉ s'.heap := by
  obtain ⟨⟨s', acts⟩, hrun⟩ : ∃ q, ofpFsm s eOfpTimeout (Env.plain addr2) = some q :=
    ofpFsm_eq_some (by decide)
  have hmain : mainStep s (timeoutRound s.ccb).mail (timeoutRound s.ccb).env = some (s', acts) := by
    have hevt : eOfpTimeout.toUInt8.toUInt16 = eOfpTimeout := rfl
    simpa only [mainStep, timeoutRound, keepalivePrim, if_true, hevt] using hrun
  have hacts : s.acts (timeoutRound s.ccb) = acts := by simp [Ofpd.acts, hmain]
  have hcall := ofpFsm_call hrun
  have hev := hcall.events
  refine ⟨s', ⟨?_, ?_, ?_⟩, ?_, ?_⟩
  · have hok : (timeoutRound s.ccb).env.node ∉ s.heap ∧ (timeoutRound s.ccb).mail.Sent s.ccb :=
      ⟨hnode, rfl⟩
    change s.round (timeoutRound s.ccb) = some s'
    rw [Ofpd.round, if_pos hok, hmain, Option.map_some]
  · rw [hcall.state, hst, fsmNext_established]
  · rw [hacts, hev]
    decide
  · rw [Ofpd.timeouts, hacts, hev]
    rfl
  · rw [hcall.same.heap]
    exact hnode

/-- There are runs with any number of timeouts, from behind the handshake. -/
theorem exists_timeouts (n : ℕ) : ∃ s₀ ts s, Reachable s₀ ∧ Run (quiet s₀) ts s ∧ timeouts ts = n := by
  obtain ⟨us, s₀, hr, -, hst, hcnt, hnode⟩ := run_of_exec
    [shortRound ofptHello, shortRound ofptFeaturesRequest]
    (fun s => s.port.state = .established ∧ s.port.queryCnt = 1 ∧ addr2 ∉ s.heap) (by decide +kernel)
  have hrun : ∃ ts s, Run (quiet s₀) ts s ∧ timeouts ts = n ∧ addr2 ∉ s.heap := by
    induction n with
    | zero => exact ⟨[], s₀, .start ⟨rfl, hst, hcnt⟩, rfl, hnode⟩
    | succ n ih =>
      obtain ⟨ts, s, h, hn, hfree⟩ := ih
      obtain ⟨s', hs, hone, hfree'⟩ := quiet_timeout (queryCnt_of_quiet h).1 hfree
      refine ⟨_, s', h.snoc hs, ?_, hfree'⟩
      rw [timeouts_snoc, hn, hone]
  obtain ⟨ts, s, h, hn, -⟩ := hrun
  exact ⟨s₀, ts, s, ⟨us, hr⟩, h, hn⟩

/-- Ten timeouts. -/
theorem dead_controller_detected_ten : ∃ s₀ ts s, Reachable s₀ ∧ Run (quiet s₀) ts s ∧
    timeouts ts = 10 ∧ s.Unresponsive := by
  obtain ⟨s₀, ts, s, hs₀, h, hn⟩ := exists_timeouts 10
  have hcond : timeouts ts < maxOfpQueryNum ∨ maxOfpQueryNum < (timeouts ts + 1) % 256 := by
    rw [hn]
    decide
  refine ⟨s₀, ts, s, hs₀, h, hn, ((dead_controller_detected h).1.mpr hcond).mpr ?_⟩
  rw [hn]
  decide

/-- **255 timeouts**, and the controller is not found dead. -/
theorem undetected_at_255 : ∃ s₀ ts s, Reachable s₀ ∧ Run (quiet s₀) ts s ∧
    timeouts ts = 255 ∧ ¬ (s.Unresponsive ↔ maxOfpQueryNum ≤ timeouts ts) ∧
    ¬ ∀ t ∈ ts, t.pre.Unresponsive → t.post.Unresponsive := by
  obtain ⟨s₀, ts, s, hs₀, h, hn⟩ := exists_timeouts 255
  refine ⟨s₀, ts, s, hs₀, h, hn, ?_, ?_⟩
  · rw [unresponsive_of_quiet h, hn]
    decide
  · rw [kept_iff h, hn]
    decide

end Ofpagent.Agent
