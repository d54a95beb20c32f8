/-
# The descriptors of `main`

`Main.lean` takes the sockets of a session as given.  Here is where they come from: `sockInit` is
`OFP_SOCK_INIT` with all its calls and their failures, on the table of descriptors that are open in
the process of `main`, and `untilOk` the loop in which `main` calls it after a failure of the
control connection.  `hosted` is the main loop with this table.

`main` closes a descriptor only where an `ioctl` or the filter fails.  The reader that sees the
connection fail closes its own copy, which is not the one of `main`; and a `connect` that is refused
leaves the socket behind.  So `sockets_of_run`: the descriptors of all sessions are open and
distinct, the raw socket among them, and nothing else has been opened but the sockets refused.
`restart_iff` draws the consequence: a session can follow as long as there is a descriptor left, and
then the loop never ends.
-/
import Ofpagent.Lib.Descriptors
import Ofpagent.Agent.Buffers

namespace Ofpagent.Agent

open Ofpagent.Lib

variable {n : ℕ}

/-! ## 1. `OFP_SOCK_INIT` -/

/-- What the calls of `OFP_SOCK_INIT` return: `true` for success.  `socket` fails without it also
where no descriptor is left; what `bind` and `SIOCGIFINDEX` return is not looked at. -/
structure SockCalls where
  socketCp : Bool
  siocgifaddr : Bool
  connect : Bool
  socketDp : Bool
  siocgifflags : Bool
  siocsifflags : Bool
  attachFilter : Bool

/-- `ofp_io_fds`, and the descriptors that are open in `main`. -/
structure Fds (n : ℕ) where
  ofpIoFds : Plane → ℤ
  opened : Finset (Fin n)

namespace Fds

/-- `ofp_io_fds[pl] = socket(...)`. -/
def socket (f : Fds n) (pl : Plane) (ok : Bool) : Option (Fin n) × Fds n :=
  match if ok then lowest f.opened else none with
  | none => (none, { f with ofpIoFds := Function.update f.ofpIoFds pl (-1) })
  | some fd => (some fd, ⟨Function.update f.ofpIoFds pl (fd : ℕ), insert fd f.opened⟩)

/-- `close(fd)`. -/
def close (f : Fds n) (fd : Fin n) : Fds n := { f with opened := f.opened.erase fd }

end Fds

/-- The part of `OFP_SOCK_INIT` for the control plane: what it returns, and the descriptors. -/
def sockInitCp (f : Fds n) (c : SockCalls) : Bool × Fds n :=
  match f.socket .cp c.socketCp with
  | (none, f1) => (false, f1)
  | (some fd, f1) =>
    if !c.siocgifaddr then (false, f1.close fd)
    else if !c.connect then (false, f1)
    else (true, f1)

/-- The part for the data plane. -/
def sockInitDp (f : Fds n) (c : SockCalls) : Bool × Fds n :=
  match f.socket .dp c.socketDp with
  | (none, f1) => (false, f1)
  | (some fd, f1) =>
    if !c.siocgifflags then (false, f1.close fd)
    else if !c.siocsifflags then (false, f1.close fd)
    else if !c.attachFilter then (false, f1.close fd)
    else (true, f1)

/-- `OFP_SOCK_INIT`. -/
def sockInit (restart : UInt8) (f : Fds n) (c : SockCalls) : Bool × Fds n :=
  let r := if restart &&& 1 = 1 then sockInitCp f c else (true, f)
  if !r.1 then r
  else if restart &&& 2 = 2 then sockInitDp r.2 c
  else r

/-- The loop of `main` around `ofpdInit`: the calls of all attempts, of which the last succeeds. -/
def untilOk (restart : UInt8) : Fds n → List SockCalls → Option (Fds n)
  | _, [] => none
  | f, c :: cs =>
    match sockInit restart f c with
    | (true, f1) => if cs.isEmpty then some f1 else none
    | (false, f1) => untilOk restart f1 cs

/-- The attempt gets as far as `connect`, which fails. -/
def SockCalls.refused (c : SockCalls) : Bool := c.socketCp && c.siocgifaddr && !c.connect

/-- What one attempt for the control plane does to the descriptors. -/
inductive CpInit (f : Fds n) (c : SockCalls) : Bool → Fds n → Prop
  | ok {fd : Fin n} : fd ∉ f.opened → c.refused = false →
      CpInit f c true ⟨Function.update f.ofpIoFds .cp (fd : ℕ), insert fd f.opened⟩
  | refused {fd : Fin n} : fd ∉ f.opened → c.refused = true →
      CpInit f c false ⟨Function.update f.ofpIoFds .cp (fd : ℕ), insert fd f.opened⟩
  | none {fd : ℤ} : f.opened.card < n → c.refused = false →
      CpInit f c false ⟨Function.update f.ofpIoFds .cp fd, f.opened⟩
  | full : f.opened.card = n → CpInit f c false ⟨Function.update f.ofpIoFds .cp (-1), f.opened⟩

theorem sockInitCp_spec (f : Fds n) (c : SockCalls) :
    CpInit f c (sockInitCp f c).1 (sockInitCp f c).2 := by
  rcases (card_le f.opened).eq_or_lt with hfull | hlt
  · have hnone : lowest f.opened = none := lowest_eq_none_iff.mpr hfull
    simp only [sockInitCp, Fds.socket, hnone, ite_self]
    exact .full hfull
  · obtain ⟨fd, hfd⟩ := Option.ne_none_iff_exists'.mp fun h => hlt.ne (lowest_eq_none_iff.mp h)
    have hnew := lowest_notMem hfd
    rcases hs : c.socketCp with _ | _
    · simp only [sockInitCp, Fds.socket, hs, Bool.false_eq_true, if_false]
      exact .none hlt (by simp [SockCalls.refused, hs])
    rcases hg : c.siocgifaddr with _ | _
    · simp only [sockInitCp, Fds.socket, hs, hg, hfd, if_true, Bool.not_false, Fds.close,
        Finset.erase_insert hnew]
      exact .none hlt (by simp [SockCalls.refused, hg])
    rcases hc : c.connect with _ | _
    · simp only [sockInitCp, Fds.socket, hs, hg, hc, hfd, if_true, Bool.not_true, Bool.not_false,
        Bool.false_eq_true, if_false]
      exact .refused hnew (by simp [SockCalls.refused, hs, hg, hc])
    · simp only [sockInitCp, Fds.socket, hs, hg, hc, hfd, if_true, Bool.not_true,
        Bool.false_eq_true, if_false]
      exact .ok hnew (by simp [SockCalls.refused, hc])

/-- What an attempt for the data plane that succeeds does. -/
theorem sockInitDp_ok {f f' : Fds n} {c : SockCalls} (h : sockInitDp f c = (true, f')) :
    ∃ fd, fd ∉ f.opened ∧
      f' = ⟨Function.update f.ofpIoFds .dp (fd : ℕ), insert fd f.opened⟩ := by
  unfold sockInitDp Fds.socket at h
  cases hfd : (if c.socketDp then lowest f.opened else none) with
  | none =>
    rw [hfd] at h
    cases h
  | some fd =>
    rw [hfd] at h
    simp only at h
    split_ifs at h hfd
    all_goals cases h
    exact ⟨fd, lowest_notMem hfd, rfl⟩

/-- An attempt after a failure of the control connection makes the one socket. -/
theorem sockInit_cp (f : Fds n) (c : SockCalls) : sockInit cpRestart f c = sockInitCp f c := by
  have hcp : cpRestart &&& 1 = 1 := by decide
  have hdp : ¬ cpRestart &&& 2 = 2 := by decide
  simp only [sockInit, if_pos hcp, if_neg hdp, ite_self]

/-- What `main` has when the loop ends: one descriptor more in `ofp_io_fds`, and those of the
attempts that were refused. -/
structure Reopened (f : Fds n) (refused : ℕ) (fd : Fin n) (f' : Fds n) : Prop where
  ofpIoFds : f'.ofpIoFds = Function.update f.ofpIoFds .cp (fd : ℕ)
  mem : fd ∈ f'.opened
  notMem : fd ∉ f.opened
  subset : f.opened ⊆ f'.opened
  card : f'.opened.card = f.opened.card + refused + 1

/-- **The loop.** -/
theorem untilOk_spec {f f' : Fds n} {cs : List SockCalls} (h : untilOk cpRestart f cs = some f') :
    ∃ fd, Reopened f (cs.countP SockCalls.refused) fd f' := by
  induction cs generalizing f with
  | nil => cases h
  | cons c cs ih =>
    have hspec := sockInitCp_spec f c
    rw [untilOk, sockInit_cp] at h
    rw [List.countP_cons]
    generalize sockInitCp f c = r at hspec h
    obtain ⟨b, f1⟩ := r
    cases hspec with
    | @ok fd hnew hok =>
      simp only at h
      split_ifs at h with hcs
      cases h
      obtain rfl : cs = [] := List.isEmpty_iff.mp hcs
      refine ⟨fd, rfl, Finset.mem_insert_self _ _, hnew, Finset.subset_insert _ _, ?_⟩
      rw [Finset.card_insert_of_notMem hnew, hok]
      rfl
    | @refused fd hnew href =>
      obtain ⟨k, hk⟩ := ih h
      have hcard := hk.card
      rw [Finset.card_insert_of_notMem hnew] at hcard
      refine ⟨k, ?_, hk.mem, fun hmem => hk.notMem (Finset.mem_insert_of_mem hmem),
        (Finset.subset_insert _ _).trans hk.subset, ?_⟩
      · rw [hk.ofpIoFds, Function.update_idem]
      · rw [hcard, href, if_pos rfl]
        omega
    | none _ hok =>
      obtain ⟨k, hk⟩ := ih h
      refine ⟨k, ?_, hk.mem, hk.notMem, hk.subset, ?_⟩
      · rw [hk.ofpIoFds, Function.update_idem]
      · rw [hk.card, hok]
        rfl
    | full hfull =>
      -- no attempt can succeed from here
      obtain ⟨k, hk⟩ := ih h
      have hle := card_le f'.opened
      have hcard := hk.card
      simp only [hfull] at hcard
      omega

/-- It can end as long as a descriptor is left. -/
theorem untilOk_isSome_iff (f : Fds n) :
    (∃ cs, (untilOk cpRestart f cs).isSome) ↔ f.opened.card < n := by
  constructor
  · rintro ⟨cs, h⟩
    obtain ⟨f', hf'⟩ := Option.isSome_iff_exists.mp h
    obtain ⟨fd, hk⟩ := untilOk_spec hf'
    have hle := card_le f'.opened
    have hcard := hk.card
    omega
  · intro hlt
    obtain ⟨fd, hfd⟩ := Option.ne_none_iff_exists'.mp fun h => hlt.ne (lowest_eq_none_iff.mp h)
    refine ⟨[⟨true, true, true, true, true, true, true⟩], ?_⟩
    simp [untilOk, sockInit_cp, sockInitCp, Fds.socket, hfd]

/-! ## 2. What a round does to `restart` and to the sockets -/

section Globals

variable {s s' : Ofpd} {e : Env}

/-- A handler changes the port and nothing else. -/
theorem Hdl.call_restart {h : Hdl} {r : Ret} (hr : h.call s e = some r) :
    r.agent.restart = s.restart := by
  cases h with
  | aSendMultipartReply =>
    simp only [Hdl.call, Agent.aSendMultipartReply] at hr
    split at hr
    · cases hr
      rfl
    · obtain ⟨body, -, rfl⟩ := Option.map_eq_some_iff.mp hr
      rfl
  | _ =>
    cases hr
    rfl

theorem runHdls_restart {hs : List Hdl} {acts : List Act}
    (hrun : runHdls e hs s = some (s', acts)) : s'.restart = s.restart := by
  induction hs generalizing s s' acts with
  | nil =>
    cases hrun
    rfl
  | cons h hs ih =>
    obtain ⟨r, hr, hrun⟩ := Option.bind_eq_some_iff.mp hrun
    split at hrun
    · cases hrun
      exact Hdl.call_restart hr
    · obtain ⟨q, hq, hrun⟩ := Option.map_eq_some_iff.mp hrun
      cases hrun
      exact (ih hq).trans (Hdl.call_restart hr)

theorem ofpFsm_restart {event : UInt16} {acts : List Act}
    (h : ofpFsm s event e = some (s', acts)) : s'.restart = s.restart := by
  unfold ofpFsm at h
  split at h
  · cases h
    rfl
  · next r hrow =>
    obtain ⟨q, hq, h⟩ := Option.map_eq_some_iff.mp h
    cases h
    have hrestart : q.1.restart = (s.setState r.nextState).restart := runHdls_restart hq
    exact hrestart

theorem decodeControl_restart {mu : Mem} (h : decodeControl s mu e = some s') :
    s'.restart = s.restart := by
  by_cases hflow : mu 1 = ofptFlowMod
  · rw [decodeControl_flowMod hflow] at h
    rcases ofpEncodeBackToHost_cases h with ⟨-, rfl⟩ | ⟨-, hp, a, node, -, -, rfl⟩ <;> rfl
  · obtain ⟨hdr, mp, rfl⟩ := decodeControl_cases hflow h
    rfl

theorem ofpDecodeFrame_restart {mail : OfpMbx} (h : ofpDecodeFrame s mail e = some (.ok, s')) :
    s'.restart = s.restart := by
  unfold ofpDecodeFrame at h
  simp only at h
  split_ifs at h
  · cases h
  · obtain ⟨s2, hs2, h⟩ := Option.map_eq_some_iff.mp h
    obtain ⟨-, r, -, rfl⟩ := ofpEncodePacketIn_cases hs2
    cases h
    rfl
  · cases h
  · obtain ⟨s2, hs2, h⟩ := Option.map_eq_some_iff.mp h
    cases h
    exact (decodeControl_restart hs2).trans rfl

/-- The round of a failure of the control connection. -/
theorem mainStep_restart {mail : OfpMbx} (hres : (Mail.drv mail).Restarts) :
    ∃ acts, mainStep s (.drv mail) e = some ((ofpdReady { s.setSockfd mail.sockfd with
      restart := s.restart ||| cpRestart } e).setState .helloWait, acts) := by
  obtain ⟨hlen, hfail⟩ := hres
  have hdp : mail.type ≠ drivDp := by
    rw [hfail]
    decide
  have hdec : ofpDecodeFrame s mail e
      = some (.restart, { s.setSockfd mail.sockfd with restart := s.restart ||| cpRestart }) := by
    rw [ofpDecodeFrame, if_neg (not_lt.mpr hlen), if_neg hdp, if_pos hfail]
    rfl
  simp only [mainStep, hdec, ofpdRestart_eq, Option.map_some]
  exact ⟨_, rfl⟩

/-- A round that is no restart leaves both. -/
theorem globals_of_step {r : Round} (h : agent.step s r s') (hres : ¬ r.mail.Restarts) :
    s'.restart = s.restart ∧ s'.ofpIoFds = s.ofpIoFds := by
  have hdid := (agent_did h).2
  generalize s.acts r = acts at hdid
  cases hdid with
  | quiet => exact ⟨rfl, rfl⟩
  | timer _ hrun => exact ⟨ofpFsm_restart hrun, (ofpFsm_call hrun).same.ofpIoFds⟩
  | restart _ hr => exact absurd hr hres
  | decode hm hlen hfail hd hrun =>
    have hsame := (ofpFsm_call hrun).same.ofpIoFds
    cases ofpDecodeFrame_decoded hd with
    | ok _ _ hctl _ =>
      exact ⟨(ofpFsm_restart hrun).trans (ofpDecodeFrame_restart hd), hsame.trans hctl.ofpIoFds⟩

/-- A restart leaves the nodes. -/
theorem heap_of_restart {r : Round} (h : agent.step s r s') (hres : r.mail.Restarts) :
    s'.heap = s.heap := by
  obtain ⟨-, -, acts, hrun⟩ := Ofpd.round_cases h
  obtain ⟨m, e⟩ := r
  cases m with
  | drv mail =>
    obtain ⟨acts', hrun'⟩ := mainStep_restart (s := s) (e := e) hres
    rw [hrun'] at hrun
    cases hrun
    rfl
  | tmr prim => cases hres
  | other => cases hres

/-- A restart, if none is under way: the control socket is made anew. -/
theorem globals_of_restart {r : Round} (h : agent.step s r s') (hres : r.mail.Restarts)
    (h0 : s.restart = 0) :
    s'.restart = 0 ∧ s'.ofpIoFds = Function.update s.ofpIoFds .cp (r.env.socket .cp) := by
  obtain ⟨-, -, acts, hrun⟩ := Ofpd.round_cases h
  obtain ⟨m, e⟩ := r
  cases m with
  | drv mail =>
    obtain ⟨acts', hrun'⟩ := mainStep_restart (s := s) (e := e) hres
    rw [hrun'] at hrun
    cases hrun
    have hcp : (0 ||| cpRestart) &&& 1 = 1 := by decide
    have hno : ¬ (0 ||| cpRestart) &&& 2 = 2 := by decide
    refine ⟨rfl, ?_⟩
    change (ofpSockInit _ e).ofpIoFds = _
    simp only [ofpSockInit, Ofpd.setSockfd, h0, if_pos hcp, if_neg hno]
  | tmr prim => cases hres
  | other => cases hres

/-- A restart can be taken from every state. -/
theorem restart_isSome {r : Round} (hres : r.mail.Restarts) (hnode : r.env.node ∉ s.heap) :
    (s.round r).isSome := by
  obtain ⟨m, e⟩ := r
  cases m with
  | drv mail =>
    obtain ⟨acts, hrun⟩ := mainStep_restart (s := s) (e := e) hres
    have hcond : e.node ∉ s.heap ∧ (Mail.drv mail).Sent s.ccb := ⟨hnode, trivial⟩
    rw [Ofpd.round, if_pos hcond, hrun]
    rfl
  | tmr prim => cases hres
  | other => cases hres

end Globals

/-! ## 3. The main loop with its descriptors -/

/-- The process of `main`. -/
structure Hosted (n : ℕ) where
  ofpd : Ofpd
  opened : Finset (Fin n)

/-- The round with the descriptors that its calls of `socket` have returned. -/
def Round.withSocket (r : Round) (ofpIoFds : Plane → ℤ) : Round :=
  { r with env := { r.env with socket := ofpIoFds } }

/-- One round; with a restart come the calls of the attempts it takes. -/
def Hosted.step (x : Hosted n) (l : Round × List SockCalls) : Option (Hosted n) :=
  if l.1.mail.Restarts then
    (untilOk (x.ofpd.restart ||| cpRestart) ⟨x.ofpd.ofpIoFds, x.opened⟩ l.2).bind fun f =>
      (x.ofpd.round (l.1.withSocket f.ofpIoFds)).map fun s => ⟨s, f.opened⟩
  else (x.ofpd.round l.1).map fun s => ⟨s, x.opened⟩

/-- **The agent and its descriptors.**  `opened₀` are those that `main` has been started with. -/
def hosted (opened₀ : Finset (Fin n)) : Lts (Hosted n) (Round × List SockCalls) where
  init x := ∃ ccb qid e c f acts,
    sockInit (cpRestart ||| dpRestart) ⟨fun _ => 0, opened₀⟩ c = (true, f) ∧
      e.socket = f.ofpIoFds ∧ ofpdRestart (ofpdZero ccb qid) e = some (x.ofpd, acts) ∧
      x.opened = f.opened
  step x l x' := x.step l = some x'

/-- It is the agent, in surroundings that return what the table has. -/
theorem agent_of_hosted {opened₀ : Finset (Fin n)} {x x' : Hosted n} {l : Round × List SockCalls}
    (h : (hosted opened₀).step x l x') :
    ∃ r, agent.step x.ofpd r x'.ofpd ∧ r.mail = l.1.mail := by
  have h : x.step l = some x' := h
  unfold Hosted.step at h
  split at h
  · obtain ⟨f, -, h⟩ := Option.bind_eq_some_iff.mp h
    obtain ⟨s, hs, rfl⟩ := Option.map_eq_some_iff.mp h
    exact ⟨_, hs, rfl⟩
  · obtain ⟨s, hs, rfl⟩ := Option.map_eq_some_iff.mp h
    exact ⟨_, hs, rfl⟩

/-- The control sockets of the sessions that have ended. -/
def endedFds (ts : List (Transition (Hosted n) (Round × List SockCalls))) : List ℤ :=
  ts.filterMap fun t => if t.lab.1.mail.Restarts then some (t.pre.ofpd.ofpIoFds .cp) else none

/-- How often `connect` has failed in the restarts. -/
def refusals (ts : List (Transition (Hosted n) (Round × List SockCalls))) : ℕ :=
  (ts.map fun t => if t.lab.1.mail.Restarts then t.lab.2.countP SockCalls.refused else 0).sum

/-- The descriptors that `main` has opened: those of the sessions that have ended, `k` for the one
that is up, and `d` for the raw socket. -/
structure Held (opened₀ : Finset (Fin n))
    (ts : List (Transition (Hosted n) (Round × List SockCalls))) (x : Hosted n)
    (ks : List (Fin n)) (k d : Fin n) : Prop where
  restart : x.ofpd.restart = 0
  ended : endedFds ts = ks.map fun k : Fin n => ((k : ℕ) : ℤ)
  cp : x.ofpd.ofpIoFds .cp = (k : ℕ)
  dp : x.ofpd.ofpIoFds .dp = (d : ℕ)
  nodup : (ks ++ [k, d]).Nodup
  opened : ∀ fd ∈ ks ++ [k, d], fd ∈ x.opened ∧ fd ∉ opened₀
  subset : opened₀ ⊆ x.opened
  card : x.opened.card = opened₀.card + ks.length + 2 + refusals ts

section Run

variable {opened₀ : Finset (Fin n)} {ts : List (Transition (Hosted n) (Round × List SockCalls))}
  {x x' : Hosted n} {l : Round × List SockCalls}

/-- Behind a start, in which both sockets are made. -/
theorem held_init (h : (hosted opened₀).init x) : ∃ k d, Held opened₀ [] x [] k d := by
  obtain ⟨ccb, qid, e, c, f, acts, hsock, henv, hrun, hopened⟩ := h
  have hcp : (cpRestart ||| dpRestart) &&& 1 = 1 := by decide
  have hdp : (cpRestart ||| dpRestart) &&& 2 = 2 := by decide
  have hspec := sockInitCp_spec (⟨fun _ => 0, opened₀⟩ : Fds n) c
  simp only [sockInit, if_pos hcp, if_pos hdp] at hsock
  generalize sockInitCp (⟨fun _ => 0, opened₀⟩ : Fds n) c = r at hspec hsock
  obtain ⟨b, f1⟩ := r
  cases hspec with
  | @ok k hk _ =>
    simp only [Bool.not_true, Bool.false_eq_true, if_false] at hsock
    obtain ⟨d, hd, rfl⟩ := sockInitDp_ok hsock
    obtain ⟨hdk, hd₀⟩ := not_or.mp (mt Finset.mem_insert.mpr hd)
    rw [ofpdRestart_eq] at hrun
    obtain ⟨hofpd, -⟩ := Prod.mk.inj (Option.some.inj hrun)
    have hfds : x.ofpd.ofpIoFds = Function.update (Function.update (fun _ => 0) .cp ((k : ℕ) : ℤ))
        .dp ((d : ℕ) : ℤ) := by
      rw [← hofpd]
      change (ofpSockInit (ofpdZero ccb qid) e).ofpIoFds = _
      simp only [ofpSockInit, ofpdZero, if_pos hcp, if_pos hdp, henv]
      funext pl
      cases pl <;> rfl
    refine ⟨k, d, hofpd ▸ rfl, rfl, by rw [hfds]; rfl, by rw [hfds]; rfl, ?_, ?_, ?_, ?_⟩
    · simpa using Ne.symm hdk
    · intro fd hfd
      rw [hopened]
      rcases List.mem_pair.mp hfd with rfl | rfl
      · exact ⟨Finset.mem_insert_of_mem (Finset.mem_insert_self _ _), hk⟩
      · exact ⟨Finset.mem_insert_self _ _, hd₀⟩
    · rw [hopened]
      exact (Finset.subset_insert _ _).trans (Finset.subset_insert _ _)
    · rw [hopened, Finset.card_insert_of_notMem hd, Finset.card_insert_of_notMem hk]
      rfl
  | refused => cases hsock
  | none => cases hsock
  | full => cases hsock

theorem endedFds_snoc (ts : List (Transition (Hosted n) (Round × List SockCalls)))
    (t : Transition (Hosted n) (Round × List SockCalls)) :
    endedFds (ts ++ [t]) = endedFds ts ++
      if t.lab.1.mail.Restarts then [t.pre.ofpd.ofpIoFds .cp] else [] := by
  rw [endedFds, List.filterMap_append, endedFds]
  congr 1
  by_cases h : t.lab.1.mail.Restarts
  · simp [h]
  · simp [h]

theorem refusals_snoc (ts : List (Transition (Hosted n) (Round × List SockCalls)))
    (t : Transition (Hosted n) (Round × List SockCalls)) :
    refusals (ts ++ [t]) = refusals ts +
      if t.lab.1.mail.Restarts then t.lab.2.countP SockCalls.refused else 0 := by
  simp [refusals]

/-- A round that is no restart. -/
theorem Held.step_others {ks : List (Fin n)} {k d : Fin n} (h : Held opened₀ ts x ks k d)
    (hs : (hosted opened₀).step x l x') (hres : ¬ l.1.mail.Restarts) :
    Held opened₀ (ts ++ [⟨x, l, x'⟩]) x' ks k d := by
  have hs : x.step l = some x' := hs
  rw [Hosted.step, if_neg hres] at hs
  obtain ⟨s, hround, rfl⟩ := Option.map_eq_some_iff.mp hs
  obtain ⟨hrestart, hfds⟩ := globals_of_step (show agent.step x.ofpd l.1 s from hround) hres
  refine ⟨hrestart.trans h.restart, ?_, ?_, ?_, h.nodup, h.opened, h.subset, ?_⟩
  · rw [endedFds_snoc, if_neg hres, List.append_nil]
    exact h.ended
  · rw [hfds]
    exact h.cp
  · rw [hfds]
    exact h.dp
  · rw [refusals_snoc, if_neg hres, Nat.add_zero]
    exact h.card

/-- A restart: the socket of the session that has ended stays open, and the new one is another. -/
theorem Held.step_restart {ks : List (Fin n)} {k d : Fin n} (h : Held opened₀ ts x ks k d)
    (hs : (hosted opened₀).step x l x') (hres : l.1.mail.Restarts) :
    ∃ k', Held opened₀ (ts ++ [⟨x, l, x'⟩]) x' (ks ++ [k]) k' d := by
  have hs : x.step l = some x' := hs
  rw [Hosted.step, if_pos hres, h.restart, UInt8.zero_or] at hs
  obtain ⟨f, hf, hs⟩ := Option.bind_eq_some_iff.mp hs
  obtain ⟨s, hround, rfl⟩ := Option.map_eq_some_iff.mp hs
  obtain ⟨k', hk'⟩ := untilOk_spec hf
  obtain ⟨hrestart, hfds⟩ := globals_of_restart
    (show agent.step x.ofpd (l.1.withSocket f.ofpIoFds) s from hround) hres h.restart
  have hnew : k' ∉ ks ++ [k, d] := fun hmem => hk'.notMem (h.opened k' hmem).1
  have hperm : (ks ++ [k] ++ [k', d]).Perm (k' :: (ks ++ [k, d])) := by
    have hmid : (ks ++ [k] ++ k' :: [d]).Perm (k' :: (ks ++ [k] ++ [d])) := List.perm_middle
    rwa [List.append_assoc ks [k] [d]] at hmid
  refine ⟨k', hrestart, ?_, ?_, ?_, ?_, fun fd hfd => ?_, h.subset.trans hk'.subset, ?_⟩
  · rw [endedFds_snoc, if_pos hres, h.ended, List.map_append, List.map_singleton, h.cp]
  · rw [hfds, Function.update_self]
    change f.ofpIoFds .cp = _
    rw [hk'.ofpIoFds, Function.update_self]
  · rw [hfds, Function.update_of_ne (by decide)]
    exact h.dp
  · exact hperm.nodup_iff.mpr (List.nodup_cons.mpr ⟨hnew, h.nodup⟩)
  · rcases List.mem_cons.mp (hperm.mem_iff.mp hfd) with rfl | hfd
    · exact ⟨hk'.mem, fun h₀ => hk'.notMem (h.subset h₀)⟩
    · exact ⟨hk'.subset (h.opened fd hfd).1, (h.opened fd hfd).2⟩
  · have hcard := hk'.card
    have hcard₀ := h.card
    rw [refusals_snoc, if_pos hres, List.length_append, List.length_singleton]
    change f.opened.card = _
    simp only at hcard ⊢
    omega

theorem held_of_run (h : Run (hosted opened₀) ts x) : ∃ ks k d, Held opened₀ ts x ks k d := by
  refine h.history (fun ts x => ∃ ks k d, Held opened₀ ts x ks k d) (fun _ _ => True) ?_ ?_
    fun _ _ => trivial
  · intro x hx
    obtain ⟨k, d, hk⟩ := held_init hx
    exact ⟨[], k, d, hk⟩
  · rintro ts x l x' ⟨ks, k, d, hk⟩ - hs
    by_cases hres : l.1.mail.Restarts
    · obtain ⟨k', hk'⟩ := hk.step_restart hs hres
      exact ⟨_, k', d, hk'⟩
    · exact ⟨_, k, d, hk.step_others hs hres⟩

/-- The descriptors that are open, counted. -/
theorem card_of_run (h : Run (hosted opened₀) ts x) :
    x.opened.card = opened₀.card + (endedFds ts).length + 2 + refusals ts := by
  obtain ⟨ks, k, d, hk⟩ := held_of_run h
  rw [hk.ended, List.length_map]
  exact hk.card

/-- **The descriptors of a run**: those of all sessions and the raw socket are open, no two of them
are the same, and none was open at the start; besides them and what was open at the start, there is
one for each `connect` that has failed. -/
theorem sockets_of_run (h : Run (hosted opened₀) ts x) :
    (endedFds ts ++ [x.ofpd.ofpIoFds .cp, x.ofpd.ofpIoFds .dp]).Nodup ∧
      (∀ fd ∈ endedFds ts ++ [x.ofpd.ofpIoFds .cp, x.ofpd.ofpIoFds .dp],
        ∃ k : Fin n, fd = (k : ℕ) ∧ k ∈ x.opened ∧ k ∉ opened₀) ∧
      opened₀ ⊆ x.opened ∧
      x.opened.card = opened₀.card + (endedFds ts).length + 2 + refusals ts := by
  obtain ⟨ks, k, d, hk⟩ := held_of_run h
  have hown : endedFds ts ++ [x.ofpd.ofpIoFds .cp, x.ofpd.ofpIoFds .dp]
      = (ks ++ [k, d]).map fun k : Fin n => ((k : ℕ) : ℤ) := by
    rw [hk.ended, hk.cp, hk.dp, List.map_append]
    rfl
  refine ⟨?_, fun fd hfd => ?_, hk.subset, card_of_run h⟩
  · rw [hown]
    exact hk.nodup.map fun a b hab => Fin.ext (Int.ofNat_inj.mp hab)
  · rw [hown] at hfd
    obtain ⟨k', hk', rfl⟩ := List.mem_map.mp hfd
    exact ⟨k', rfl, hk.opened k' hk'⟩

/-- **A session can follow as long as there is a descriptor left**: the loop behind a failure of the
control connection can end, with some answers of the system, if and only if the restarts and refused
connections so far leave one of the `n`. -/
theorem restart_iff (h : Run (hosted opened₀) ts x) {r : Round} (hres : r.mail.Restarts)
    (hnode : r.env.node ∉ x.ofpd.heap) :
    (∃ cs x', (hosted opened₀).step x (r, cs) x') ↔
      opened₀.card + (endedFds ts).length + 2 + refusals ts < n := by
  obtain ⟨ks, k, d, hk⟩ := held_of_run h
  rw [← card_of_run h, ← untilOk_isSome_iff ⟨x.ofpd.ofpIoFds, x.opened⟩]
  have hstep : ∀ cs x', (hosted opened₀).step x (r, cs) x' ↔
      (untilOk cpRestart ⟨x.ofpd.ofpIoFds, x.opened⟩ cs).bind (fun f =>
        (x.ofpd.round (r.withSocket f.ofpIoFds)).map fun s => ⟨s, f.opened⟩) = some x' := by
    intro cs x'
    change x.step (r, cs) = some x' ↔ _
    rw [Hosted.step, if_pos hres, hk.restart, UInt8.zero_or]
  constructor
  · rintro ⟨cs, x', hs⟩
    obtain ⟨f, hf, -⟩ := Option.bind_eq_some_iff.mp ((hstep cs x').mp hs)
    exact ⟨cs, by rw [hf]; rfl⟩
  · rintro ⟨cs, hcs⟩
    obtain ⟨f, hf⟩ := Option.isSome_iff_exists.mp hcs
    have hround : (x.ofpd.round (r.withSocket f.ofpIoFds)).isSome := restart_isSome hres hnode
    obtain ⟨s, hs⟩ := Option.isSome_iff_exists.mp hround
    exact ⟨cs, ⟨s, f.opened⟩, (hstep cs _).mpr (by rw [hf, Option.bind_some, hs]; rfl)⟩

end Run

/-- Three descriptors of six are open when `main` starts, and all calls succeed. -/
def hostedStart : Hosted 6 :=
  ⟨started, (sockInit (cpRestart ||| dpRestart) ⟨fun _ => 0, {0, 1, 2}⟩
    ⟨true, true, true, true, true, true, true⟩).2.opened⟩

theorem hosted_started : (hosted ({0, 1, 2} : Finset (Fin 6))).init hostedStart := by
  refine ⟨addr1, 7, Env.plain addr2, ⟨true, true, true, true, true, true, true⟩, _, _,
    Prod.ext (by decide) rfl, ?_, ofpdRestart_eq _ _, rfl⟩
  funext pl
  cases pl <;> decide

/-- The control connection fails, and the first attempt to make it anew succeeds. -/
def hostedNext : Option (Hosted 6) :=
  hostedStart.step (failRound, [⟨true, true, true, true, true, true, true⟩])

theorem hostedNext_isSome : hostedNext.isSome := by
  decide

/-- Two sessions, with a socket each. -/
theorem sockets_of_run_next : ∃ ts x, Run (hosted ({0, 1, 2} : Finset (Fin 6))) ts x ∧
    (endedFds ts).length = 1 ∧
      (endedFds ts ++ [x.ofpd.ofpIoFds .cp, x.ofpd.ofpIoFds .dp]).Nodup ∧ x.opened.card = 6 := by
  obtain ⟨x, hx⟩ := Option.isSome_iff_exists.mp hostedNext_isSome
  have hrun := (Run.start hosted_started).snoc hx
  have hres : failRound.mail.Restarts := by decide
  have hlen : (endedFds ([] ++ [⟨hostedStart, (failRound,
      [⟨true, true, true, true, true, true, true⟩]), x⟩])).length = 1 := by
    rw [endedFds_snoc, if_pos hres]
    rfl
  obtain ⟨hnodup, -, -, hcard⟩ := sockets_of_run hrun
  refine ⟨_, x, hrun, hlen, hnodup, ?_⟩
  rw [hcard, hlen, refusals_snoc, if_pos hres]
  rfl

/-- One session can follow, and no more. -/
theorem restart_iff_six : ∃ ts x x', Run (hosted ({0, 1, 2} : Finset (Fin 6))) ts x ∧
    (∃ cs, (hosted {0, 1, 2}).step x (failRound, cs) x') ∧
    ∀ cs x'', ¬ (hosted {0, 1, 2}).step x' (failRound, cs) x'' := by
  have hres : failRound.mail.Restarts := by decide
  have hnode : failRound.env.node ∉ started.heap := by decide
  have hrun : Run (hosted ({0, 1, 2} : Finset (Fin 6))) [] hostedStart := .start hosted_started
  obtain ⟨cs, x', hs⟩ := (restart_iff hrun hres hnode).mpr (by decide)
  have hrun' := hrun.snoc hs
  have hnode' : failRound.env.node ∉ x'.ofpd.heap := by
    obtain ⟨r, hr, hmail⟩ := agent_of_hosted hs
    rw [heap_of_restart hr (hmail ▸ hres)]
    exact hnode
  refine ⟨[], hostedStart, x', hrun, ⟨cs, hs⟩, fun cs' x'' hs' => ?_⟩
  have hlt := (restart_iff hrun' hres hnode').mp ⟨cs', x'', hs'⟩
  have hlen : (endedFds ([] ++ [⟨hostedStart, (failRound, cs), x'⟩])).length = 1 := by
    rw [endedFds_snoc, if_pos hres]
    rfl
  rw [hlen] at hlt
  exact absurd hlt (by simp)

end Ofpagent.Agent
