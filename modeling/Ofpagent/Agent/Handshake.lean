/-
# The handshake of a session

A session begins with `E_START` and a HELLO of the agent, and goes through `S_HELLO_WAIT` and
`S_FEATURE_WAIT` to `S_ESTABLISHED`.  `handshake` says when it does so in order: each of the two
transitions on the message it waits for, and nothing but HELLOs sent before both messages have
come in.

It does unless a control message of a type without a case is decoded in `S_HELLO_WAIT` while the
port's `event` is `E_RECV_HELLO` (`StaleHello`).  The decoder then leaves the event, which is
from an earlier session because a restart does not reset it, and `main` hands it to the state
machine once more.
-/
import Ofpagent.Agent.Main

namespace Ofpagent.Agent

open Ofpagent.Lib

/-! ## 1. Sessions -/

/-- The OpenFlow type of a control message that is decoded. -/
def Mail.ofType : Mail → Option UInt8
  | .drv mail =>
    if mail.len ≤ ethMtu ∧ mail.type ≠ drivDp ∧ mail.type ≠ drivCpFail then some (mail.mu 1)
    else none
  | _ => none

/-- A mail that ends the session. -/
def Mail.Restarts : Mail → Prop
  | .drv mail => mail.len ≤ ethMtu ∧ mail.type = drivCpFail
  | _ => False

instance : DecidablePred Mail.Restarts := fun m =>
  match m with
  | .drv mail => inferInstanceAs (Decidable (mail.len ≤ ethMtu ∧ mail.type = drivCpFail))
  | .tmr _ | .other => isFalse nofun

/-- The types received in the session, with one mail more. -/
def received (tys : List UInt8) (m : Mail) : List UInt8 :=
  if m.Restarts then [] else tys ++ m.ofType.toList

/-- The types of the control messages received since the last `E_START`, oldest first. -/
def session (ts : List (Transition Ofpd Round)) : List UInt8 :=
  (ts.map Transition.lab).foldl (fun tys r => received tys r.mail) []

@[simp] theorem session_snoc (ts : List (Transition Ofpd Round)) (t : Transition Ofpd Round) :
    session (ts ++ [t]) = received (session ts) t.lab.mail := by
  simp [session, List.foldl_append]

/-- Both messages of the handshake have been received, in order. -/
def HandshakeDone (tys : List UInt8) : Prop := [ofptHello, ofptFeaturesRequest].Sublist tys

/-- What the handshake allows in one step behind the steps `us`. -/
structure Ordered (us : List (Transition Ofpd Round)) (t : Transition Ofpd Round) : Prop where
  hello : t.pre.port.state = .helloWait → t.post.port.state = .featureWait →
    t.lab.mail.ofType = some ofptHello
  feature : t.pre.port.state = .featureWait → t.post.port.state = .established →
    t.lab.mail.ofType = some ofptFeaturesRequest
  xmit : ∀ h x, .xmit h x ∈ t.pre.acts t.lab → h ≠ .aSendHello →
    HandshakeDone (session (us ++ [t]))

/-- A control message without a case, decoded while the port waits for a HELLO and holds the
event of one. -/
def StaleHello (s : Ofpd) (r : Round) : Prop :=
  s.port.state = .helloWait ∧ s.port.event = eRecvHello ∧
    ∃ ty, r.mail.ofType = some ty ∧ ty ∉ handledTypes

/-! ## 2. Events and their messages -/

theorem controlEvent_hello {mu : Mem} (h : controlEvent mu = some eRecvHello) :
    mu 1 = ofptHello := by
  unfold controlEvent at h
  split_ifs at h with h1 <;> first | exact h1 | exact absurd h (by decide)

theorem controlEvent_feature {mu : Mem} (h : controlEvent mu = some eFeatureRequest) :
    mu 1 = ofptFeaturesRequest := by
  unfold controlEvent at h
  split_ifs at h with h1 h2 <;> first | exact h2 | exact absurd h (by decide)

section Decode

variable {m : Mail} {mail : OfpMbx}

theorem ofType_of_control (hm : m = .drv mail) (hlen : mail.len ≤ ethMtu)
    (hfail : mail.type ≠ drivCpFail) (hdp : mail.type ≠ drivDp) :
    m.ofType = some (mail.mu 1) := by
  rw [hm, Mail.ofType, if_pos ⟨hlen, hdp, hfail⟩]

theorem ofType_hello (hm : m = .drv mail) (hlen : mail.len ≤ ethMtu)
    (hfail : mail.type ≠ drivCpFail) (h : mail.event = some eRecvHello) :
    m.ofType = some ofptHello := by
  unfold OfpMbx.event at h
  split at h
  · exact absurd h (by decide)
  · next hdp => rw [ofType_of_control hm hlen hfail hdp, controlEvent_hello h]

theorem ofType_feature (hm : m = .drv mail) (hlen : mail.len ≤ ethMtu)
    (hfail : mail.type ≠ drivCpFail) (h : mail.event = some eFeatureRequest) :
    m.ofType = some ofptFeaturesRequest := by
  unfold OfpMbx.event at h
  split at h
  · exact absurd h (by decide)
  · next hdp => rw [ofType_of_control hm hlen hfail hdp, controlEvent_feature h]

/-- A mail that leaves the event is a control message without a case. -/
theorem ofType_none (hm : m = .drv mail) (hlen : mail.len ≤ ethMtu)
    (hfail : mail.type ≠ drivCpFail) (h : mail.event = none) :
    ∃ ty, m.ofType = some ty ∧ ty ∉ handledTypes := by
  unfold OfpMbx.event at h
  split at h
  · cases h
  · next hdp => exact ⟨_, ofType_of_control hm hlen hfail hdp, controlEvent_eq_none.mp h⟩

theorem received_of_decode (tys : List UInt8) (hm : m = .drv mail)
    (hfail : mail.type ≠ drivCpFail) : received tys m = tys ++ m.ofType.toList := by
  rw [received, if_neg]
  rw [hm]
  exact fun h => hfail h.2

end Decode

/-! ## 3. The invariant -/

/-- How far the session is, given what it has received. -/
structure Progress (tys : List UInt8) (s : Ofpd) : Prop where
  live : s.port.state = .helloWait ∨ s.port.state = .featureWait ∨ s.port.state = .established
  hello : s.port.state = .featureWait → ofptHello ∈ tys
  event : s.port.state = .featureWait → s.port.event ≠ eFeatureRequest
  done : s.port.state = .established → HandshakeDone tys

theorem progress_restarted {s s' : Ofpd} (h : Restarted s s') : Progress [] s' := by
  have hst := h.state
  refine ⟨Or.inl hst, ?_, ?_, ?_⟩ <;> simp [hst]

theorem HandshakeDone.append {tys : List UInt8} (h : HandshakeDone tys) (l : List UInt8) :
    HandshakeDone (tys ++ l) :=
  h.trans (List.sublist_append_left _ _)

/-- The last message of the handshake. -/
theorem handshakeDone_snoc {tys : List UInt8} (h : ofptHello ∈ tys) :
    HandshakeDone (tys ++ [ofptFeaturesRequest]) :=
  (List.singleton_sublist.mpr h).append (List.Sublist.refl [ofptFeaturesRequest])

/-- What a step does for the handshake. -/
structure Advanced (tys : List UInt8) (s : Ofpd) (m : Mail) (s' : Ofpd) (acts : List Act) : Prop
    extends Progress (received tys m) s' where
  onHello : s.port.state = .helloWait → s'.port.state = .featureWait → m.ofType = some ofptHello
  onFeature : s.port.state = .featureWait → s'.port.state = .established →
    m.ofType = some ofptFeaturesRequest
  onXmit : ∀ h x, .xmit h x ∈ acts → h ≠ .aSendHello → HandshakeDone (received tys m)

/-- Who transmits is a handler of the row. -/
theorem FsmCall.xmit {s s' : Ofpd} {event : UInt16} {acts : List Act}
    (h : FsmCall s event s' acts) {hd : Hdl} {x : Xmit} (hx : .xmit hd x ∈ acts) :
    hd ∈ fsmHdls s.port.state event := by
  obtain ⟨rest, rfl, hrest⟩ := h.acts
  have hmem : Act.xmit hd x ∈ rest := by simpa using hx
  obtain ⟨h', hh', hby⟩ := hrest _ hmem
  rcases hby with hby | hby
  · cases hby
  · rwa [show hd = h' from hby]

theorem FsmCall.event {s s' : Ofpd} {event : UInt16} {acts : List Act}
    (h : FsmCall s event s' acts) : s'.port.event = s.port.event := h.same.event

/-- A step that leaves the state. -/
theorem advanced_stay {tys : List UInt8} {s s' : Ofpd} {m : Mail} {acts : List Act}
    (hr : Progress (received tys m) s') (hst : s'.port.state = s.port.state)
    (hx : ∀ h x, .xmit h x ∈ acts → HandshakeDone (received tys m)) :
    Advanced tys s m s' acts := by
  refine ⟨hr, ?_, ?_, fun h x ha _ => hx h x ha⟩
  · intro h h'
    rw [hst, h] at h'
    cases h'
  · intro h h'
    rw [hst, h] at h'
    cases h'

theorem received_of_none {m : Mail} (tys : List UInt8)
    (h : ∀ mail, m = .drv mail → (ethMtu : ℤ) < mail.len) : received tys m = tys := by
  cases m with
  | drv mail =>
    have hlen : ¬ mail.len ≤ ethMtu := not_le.mpr (h mail rfl)
    simp [received, Mail.Restarts, Mail.ofType, hlen]
  | tmr prim => simp [received, Mail.Restarts, Mail.ofType]
  | other => simp [received, Mail.Restarts, Mail.ofType]

/-- The keepalive timer moves nothing, and is answered in an established session only. -/
theorem Progress.timer {tys : List UInt8} {s s' : Ofpd} {m : Mail} {acts : List Act}
    (h : Progress tys s) (hm : received tys m = tys) (hcall : FsmCall s eOfpTimeout s' acts) :
    Advanced tys s m s' acts := by
  have hst : s'.port.state = s.port.state := by
    rcases h.live with hs | hs | hs <;> rw [hcall.state, hs]
    · rw [fsmNext_helloWait, if_neg (by decide)]
    · rw [fsmNext_featureWait, if_neg (by decide)]
    · rw [fsmNext_established]
  refine advanced_stay ?_ hst fun hd x hx => ?_
  · rw [hm]
    refine ⟨hst ▸ h.live, hst ▸ h.hello, ?_, hst ▸ h.done⟩
    rw [hst, hcall.event]
    exact h.event
  · have hmem := hcall.xmit hx
    rcases h.live with hs | hs | hs
    · simp [hs, fsmHdls_helloWait] at hmem
    · rw [hs, fsmHdls_featureWait (by decide)] at hmem
      cases hmem
    · rw [hm]
      exact h.done hs

section Decoded

variable {tys : List UInt8} {s s1 s' : Ofpd} {r : Round} {mail : OfpMbx} {acts : List Act}

/-- A message while the port waits for a HELLO. -/
theorem Progress.decode_helloWait (hs : s.port.state = .helloWait) (hno : ¬ StaleHello s r)
    (hm : r.mail = .drv mail) (hlen : mail.len ≤ ethMtu) (hfail : mail.type ≠ drivCpFail)
    (hs1 : s1.port.state = .helloWait) (hev : s1.port.event = mail.event.getD s.port.event)
    (hcall : FsmCall s1 s1.port.event s' acts) : Advanced tys s r.mail s' acts := by
  have hrec := received_of_decode tys hm hfail
  have hnext := hcall.state
  have hquiet : ∀ h x, Act.xmit h x ∉ acts := by
    intro h x hx
    simpa [hs1, fsmHdls_helloWait] using hcall.xmit hx
  rw [hs1, fsmNext_helloWait] at hnext
  by_cases hhello : s1.port.event = eRecvHello
  · rw [if_pos hhello] at hnext
    have hty : r.mail.ofType = some ofptHello := by
      cases hme : mail.event with
      | none =>
        rw [hme, hhello] at hev
        exact absurd ⟨hs, hev.symm, ofType_none hm hlen hfail hme⟩ hno
      | some ev =>
        rw [hme, hhello] at hev
        exact ofType_hello hm hlen hfail (hme.trans (congrArg some hev.symm))
    refine ⟨⟨Or.inr (Or.inl hnext), ?_, ?_, ?_⟩, fun _ _ => hty, ?_,
      fun h x hx => absurd hx (hquiet h x)⟩
    · intro _
      simp [hrec, hty]
    · intro _
      rw [hcall.event, hhello]
      decide
    · simp [hnext]
    · simp [hs]
  · rw [if_neg hhello] at hnext
    refine advanced_stay ⟨Or.inl hnext, ?_, ?_, ?_⟩ (hnext.trans hs.symm)
      fun h x hx => absurd hx (hquiet h x) <;> simp [hnext]

/-- A message while the port waits for a FEATURES_REQUEST. -/
theorem Progress.decode_featureWait (h : Progress tys s) (hs : s.port.state = .featureWait)
    (hm : r.mail = .drv mail) (hlen : mail.len ≤ ethMtu) (hfail : mail.type ≠ drivCpFail)
    (hs1 : s1.port.state = .featureWait) (hev : s1.port.event = mail.event.getD s.port.event)
    (hcall : FsmCall s1 s1.port.event s' acts) : Advanced tys s r.mail s' acts := by
  have hrec := received_of_decode tys hm hfail
  have hnext := hcall.state
  rw [hs1, fsmNext_featureWait] at hnext
  by_cases hfeat : s1.port.event = eFeatureRequest
  · rw [if_pos hfeat] at hnext
    have hty : r.mail.ofType = some ofptFeaturesRequest := by
      cases hme : mail.event with
      | none =>
        rw [hme, hfeat] at hev
        exact absurd hev.symm (h.event hs)
      | some ev =>
        rw [hme, hfeat] at hev
        exact ofType_feature hm hlen hfail (hme.trans (congrArg some hev.symm))
    have hdone : HandshakeDone (received tys r.mail) := by
      rw [hrec, hty]
      exact handshakeDone_snoc (h.hello hs)
    refine ⟨⟨Or.inr (Or.inr hnext), ?_, ?_, fun _ => hdone⟩, ?_, fun _ _ => hty,
      fun _ _ _ _ => hdone⟩
    · simp [hnext]
    · simp [hnext]
    · simp [hs]
  · rw [if_neg hfeat] at hnext
    refine advanced_stay ⟨Or.inr (Or.inl hnext), fun _ => ?_, fun _ => ?_, ?_⟩
      (hnext.trans hs.symm) fun hd x hx => ?_
    · rw [hrec]
      exact List.mem_append_left _ (h.hello hs)
    · rwa [hcall.event]
    · simp [hnext]
    · have hmem := hcall.xmit hx
      rw [hs1, fsmHdls_featureWait hfeat] at hmem
      cases hmem

/-- A message in an established session. -/
theorem Progress.decode_established (h : Progress tys s) (hs : s.port.state = .established)
    (hm : r.mail = .drv mail) (hfail : mail.type ≠ drivCpFail)
    (hs1 : s1.port.state = .established) (hcall : FsmCall s1 s1.port.event s' acts) :
    Advanced tys s r.mail s' acts := by
  have hdone : HandshakeDone (received tys r.mail) := by
    rw [received_of_decode tys hm hfail]
    exact (h.done hs).append _
  have hnext : s'.port.state = .established := by rw [hcall.state, hs1, fsmNext_established]
  refine advanced_stay ⟨Or.inr (Or.inr hnext), ?_, ?_, fun _ => hdone⟩ (hnext.trans hs.symm)
    fun _ _ _ => hdone <;> simp [hnext]

end Decoded

/-- **The step.** -/
theorem Progress.step {tys : List UInt8} {s s' : Ofpd} {r : Round} {acts : List Act}
    (h : Progress tys s) (hno : ¬ StaleHello s r)
    (hsent : r.mail.Sent s.ccb) (hmove : Move s r s' acts) : Advanced tys s r.mail s' acts := by
  cases hmove with
  | none hlen =>
    have hrec := received_of_none tys hlen
    exact advanced_stay (by rwa [hrec]) rfl (by simp)
  | @timer prim s' acts hm hcall =>
    have hrec : received tys r.mail = tys := received_of_none tys (by simp [hm])
    refine h.timer hrec ?_
    rw [hm] at hsent
    rw [show prim = keepalivePrim s.ccb from hsent] at hcall
    exact hcall
  | @restart mail s' hm hlen hfail hr =>
    have hrec : received tys r.mail = [] := by
      rw [received, hm, if_pos ⟨hlen, hfail⟩]
    have hst := hr.state
    refine ⟨hrec ▸ progress_restarted hr, by simp [hst], by simp [hst], fun hd x hx hne => ?_⟩
    simp only [aSendHello, List.mem_cons, reduceCtorEq, Act.xmit.injEq, List.not_mem_nil, or_false,
      false_or] at hx
    exact absurd hx.1 hne
  | decode hm hlen hfail hsame hev hcall =>
    rcases h.live with hs | hs | hs <;> have hs1 := hsame.state.trans hs
    · exact Progress.decode_helloWait hs hno hm hlen hfail hs1 hev hcall
    · exact h.decode_featureWait hs hm hlen hfail hs1 hev hcall
    · exact h.decode_established hs hm hfail hs1 hcall

/-! ## 4. The result -/

theorem progress_start {s : Ofpd} (h : agent.init s) : Progress [] s := by
  obtain ⟨ccb, qid, e, acts, h⟩ := h
  cases (ofpdRestart_eq _ e).symm.trans h
  exact progress_restarted (ofpdReady_restarted _ e)

theorem agent_advanced {tys : List UInt8} {s s' : Ofpd} {r : Round} (h : Progress tys s)
    (hno : ¬ StaleHello s r) (hstep : agent.step s r s') :
    Advanced tys s r.mail s' (s.acts r) :=
  h.step hno (agent_move hstep).1 (agent_move hstep).2

/-- A stale HELLO moves the port on without a HELLO. -/
theorem StaleHello.moves {s s' : Ofpd} {r : Round} (h : StaleHello s r)
    (hstep : agent.step s r s') : s'.port.state = .featureWait := by
  obtain ⟨hs, hev, ty, hty, hun⟩ := h
  obtain ⟨-, hmove⟩ := agent_move hstep
  generalize s.acts r = acts at hmove
  cases hmove with
  | none hlen =>
    cases hm : r.mail with
    | drv mail =>
      have hlen : ¬ mail.len ≤ ethMtu := not_le.mpr (hlen mail hm)
      simp [hm, Mail.ofType, hlen] at hty
    | tmr prim => simp [hm, Mail.ofType] at hty
    | other => simp [hm, Mail.ofType] at hty
  | timer hm _ => simp [hm, Mail.ofType] at hty
  | restart hm hlen hfail _ => simp [hm, Mail.ofType, hfail] at hty
  | @decode mail s1 _ _ hm hlen hfail hsame hev1 hcall =>
    have hdp : mail.type ≠ drivDp := fun hdp => by simp [hm, Mail.ofType, hdp] at hty
    rw [ofType_of_control hm hlen hfail hdp, Option.some.injEq] at hty
    have hnone : mail.event = none := by
      rw [OfpMbx.event, if_neg hdp]
      exact controlEvent_eq_none.mpr (hty ▸ hun)
    rw [hcall.state, hsame.state, hs, fsmNext_helloWait, hev1, hnone, Option.getD_none, if_pos hev]

/-- **The handshake is in order in every session of a run exactly when no message of the run is
a stale HELLO**: the port leaves `S_HELLO_WAIT` on an OFPT_HELLO and `S_FEATURE_WAIT` on an
OFPT_FEATURES_REQUEST, and only HELLOs are sent before both have come in. -/
theorem handshake {ts : List (Transition Ofpd Round)} {s : Ofpd} (h : Run agent ts s) :
    (∀ us t vs, ts = us ++ t :: vs → Ordered us t) ↔ ∀ t ∈ ts, ¬ StaleHello t.pre t.lab := by
  constructor
  · intro hord t ht hstale
    obtain ⟨us, vs, rfl⟩ := List.append_of_mem ht
    obtain ⟨-, hstep⟩ := h.split us t vs rfl
    have hty := (hord us t vs rfl).hello hstale.1 (hstale.moves hstep)
    obtain ⟨-, -, ty, hty', hun⟩ := hstale
    rw [hty, Option.some.injEq] at hty'
    exact hun (hty' ▸ by decide)
  · rintro hno us t vs rfl
    obtain ⟨hrun, hstep⟩ := h.split us t vs rfl
    have hus : ∀ t' ∈ us, ¬ StaleHello t'.pre t'.lab :=
      fun t' ht' => hno t' (List.mem_append_left _ ht')
    have hpre : Progress (session us) t.pre :=
      hrun.history (fun ts s => Progress (session ts) s) (fun s r => ¬ StaleHello s r)
        (fun s hs => progress_start hs)
        (fun ts s r s' hp hr hst => by
          rw [session_snoc]
          exact (agent_advanced hp hr hst).toProgress) hus
    have hadv := agent_advanced hpre (hno t (by simp)) hstep
    refine ⟨hadv.onHello, hadv.onFeature, ?_⟩
    rw [session_snoc]
    exact hadv.onXmit

/-- A session that becomes established, in order. -/
theorem handshake_established : ∃ ts s, Run agent ts s ∧ s.port.state = .established ∧
    ∀ us t vs, ts = us ++ t :: vs → Ordered us t := by
  obtain ⟨ts, s, hr, hlab, hst⟩ := run_of_exec
    [shortRound ofptHello, shortRound ofptFeaturesRequest]
    (fun s => s.port.state = .established) (by decide +kernel)
  refine ⟨ts, s, hr, hst, (handshake hr).mpr ?_⟩
  rintro t ht ⟨-, -, ty, hty, hun⟩
  have hmem : t.lab ∈ [shortRound ofptHello, shortRound ofptFeaturesRequest] :=
    hlab ▸ List.mem_map_of_mem ht
  rcases List.mem_pair.mp hmem with h | h <;> rw [h] at hty
  · obtain rfl : ty = ofptHello := Option.some.inj (hty.symm.trans (by decide +kernel))
    exact hun (by decide)
  · obtain rfl : ty = ofptFeaturesRequest := Option.some.inj (hty.symm.trans (by decide +kernel))
    exact hun (by decide)

/-- **A stale HELLO.**  After a session that got as far as its HELLO and a failure of the
connection, an OFPT_ERROR takes the port to `S_FEATURE_WAIT`. -/
theorem handshake_stale : ∃ us t s, Run agent (us ++ [t]) s ∧ t.pre.port.state = .helloWait ∧
    s.port.state = .featureWait ∧ session (us ++ [t]) = [1] := by
  obtain ⟨us, s, hr, hlab, hst, hnext⟩ := run_of_exec [shortRound ofptHello, failRound]
    (fun s => s.port.state = .helloWait ∧
      (s.round (shortRound 1)).any (fun s' => decide (s'.port.state = .featureWait)) = true)
    (by decide +kernel)
  obtain ⟨s', hs', hst'⟩ := (Option.any_eq_true _ _).mp hnext
  refine ⟨us, ⟨s, shortRound 1, s'⟩, s', hr.snoc hs', hst, of_decide_eq_true hst', ?_⟩
  rw [session, List.map_append, hlab]
  change [shortRound ofptHello, failRound, shortRound 1].foldl (fun tys r => received tys r.mail) []
    = [1]
  decide +kernel

end Ofpagent.Agent
