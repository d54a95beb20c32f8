/-
# The mails that `main` does not survive

A round has no result where the source reads or writes through a pointer it should not: that is what
`none` stands for in this model.  `Answer.lean` and `Replies.lean` have an example each, the flow mod
for an id without a record and the fourth interface.  Here is that there is nothing else.

`round_eq_none_iff`: in every run that keeps `head` to the list, a next round that keeps it too is
undefined exactly where the mail is a flow mod that sets a field and names the id of no frame the
session still holds, whatever state the port is in, or where an established port answers a multipart
request with more than three interfaces, the request being the mail or one that a control message
without a case repeats.  A frame so long that its copy reaches `head` is left out: what becomes of it
depends on the bytes that it puts there.
-/
import Ofpagent.Agent.Provenance
import Ofpagent.Agent.Replies

namespace Ofpagent.Agent

open Ofpagent.Lib

/-! ## 1. The state machine -/

/-- The interfaces do not fit into the buffer of `A_send_multipart_reply`. -/
def TooManyPorts (e : Env) : Prop := ∃ ifas, e.ifaddrs = some ifas ∧ 3 < ifas.countP IfAddr.isPort

/-- The loop has a result as long as the descriptions fit, whatever they are. -/
theorem portDescs_isSome_iff {ifas : List IfAddr} {i : ℕ} {desc : Mem} {body : List UInt8}
    (h : 16 + body.length ≤ 256) : (portDescs ifas i desc body).isSome ↔
      16 + body.length + 64 * ifas.countP IfAddr.isPort ≤ 256 := by
  induction ifas generalizing i desc body with
  | nil => exact iff_of_true rfl h
  | cons ifa ifas ih =>
    rw [portDescs, List.countP_cons]
    by_cases hfam : ifa.saFamily = some afPacket
    · have hport : ifa.isPort = true := by simpa [IfAddr.isPort] using hfam
      rw [if_pos hfam, if_pos hport]
      split_ifs with hfull
      · exact iff_of_false (by simp) (by omega)
      · have hlen : (body ++ (fillPortDesc desc i ifa).read 0 64).length = body.length + 64 := by
          rw [List.length_append, Mem.read_length]
        simp only
        rw [ih (by rw [hlen]; omega), hlen]
        omega
    · have hport : ¬ ifa.isPort = true := by simpa [IfAddr.isPort] using hfam
      rw [if_neg hfam, if_neg hport, ih h]
      rfl

theorem aSendMultipartReply_eq_none_iff (s : Ofpd) (e : Env) :
    aSendMultipartReply s e = none ↔ TooManyPorts e := by
  unfold aSendMultipartReply TooManyPorts
  cases he : e.ifaddrs with
  | none => simp
  | some ifas =>
    have hsome : (portDescs ifas 0 (fun _ => 0) []).isSome ↔ _ := portDescs_isSome_iff (by decide)
    rw [List.length_nil] at hsome
    simp only [Option.map_eq_none_iff, Option.some.injEq, exists_eq_left']
    rw [← Option.not_isSome_iff_eq_none, hsome]
    omega

theorem runHdls_singleton (e : Env) (h : Hdl) (s : Ofpd) :
    runHdls e [h] s = none ↔ h.call s e = none := by
  rw [runHdls]
  cases hr : h.call s e with
  | none => simp
  | some r =>
    rw [Option.bind_some]
    split_ifs
    · simp
    · simp [runHdls]

/-- **`OFP_FSM` has a result** but for the one handler. -/
theorem ofpFsm_eq_none_iff (s : Ofpd) (event : UInt16) (e : Env) : ofpFsm s event e = none ↔
    s.port.state = .established ∧ event = eMultipartRequest ∧ TooManyPorts e := by
  by_cases hev : event = eMultipartRequest
  · subst hev
    unfold ofpFsm
    cases hst : s.port.state with
    | established =>
      have hrow : findRow .established eMultipartRequest
          = some ⟨.established, eMultipartRequest, .established, [.aSendMultipartReply]⟩ := rfl
      rw [hrow, Option.map_eq_none_iff, runHdls_singleton]
      change aSendMultipartReply _ e = none ↔ _
      rw [aSendMultipartReply_eq_none_iff]
      exact ⟨fun h => ⟨rfl, rfl, h⟩, fun h => h.2.2⟩
    | _ =>
      refine iff_of_false ?_ fun h => ?_
      · rw [show findRow _ eMultipartRequest = none from rfl]
        simp
      · cases h.1
  · obtain ⟨q, hq⟩ : ∃ q, ofpFsm s event e = some q := ofpFsm_eq_some hev
    rw [hq]
    exact iff_of_false (by simp) fun h => hev h.2.1

/-! ## 2. The round -/

theorem controlEvent_multipart {mu : Mem} :
    controlEvent mu = some eMultipartRequest ↔ mu 1 = ofptMultipartRequest := by
  constructor
  · intro h
    unfold controlEvent at h
    split_ifs at h with h1 h2 h3 <;> first | exact h3 | exact absurd h (by decide)
  · intro h
    simp [controlEvent, h, ofptHello, ofptFeaturesRequest, ofptMultipartRequest]

/-- The multipart request is answered now: it is the mail, or it is the one that the mail repeats. -/
def Overruns (s : Ofpd) (r : Round) : Prop :=
  s.port.state = .established ∧
    (r.mail.ofType = some ofptMultipartRequest ∨ r.mail.Repeats ∧ s.port.event = eMultipartRequest) ∧
    TooManyPorts r.env

section Round

variable {s : Ofpd} {l : List (Addr × HostLearn)}

/-- `find_node` finds what is on the list. -/
theorem ofpEncodeBackToHost_eq_none_iff (hl : Hosts s.heap s.port.head l) (mu : Mem) (e : Env) :
    ofpEncodeBackToHost s mu e = none ↔
      isSetField mu = true ∧ ∀ y ∈ l, y.2.bufferId ≠ flowBufferId mu := by
  by_cases hset : isSetField mu = true
  · rcases hl.findNode (flowBufferId mu) with ⟨hno, hf⟩ | ⟨hp, a, hf, l₁, rec, l₂, rfl, hid, -, hrec, -⟩
    · refine iff_of_true ?_ ⟨hset, hno⟩
      rw [ofpEncodeBackToHost, if_pos hset, hf]
    · obtain ⟨node, hnode, -⟩ := Option.map_eq_some_iff.mp hrec
      rw [ofpEncodeBackToHost_eq hset hf hnode]
      exact iff_of_false (by simp) fun h => h.2 (a, rec) (by simp) hid
  · rw [ofpEncodeBackToHost, if_neg hset]
    exact iff_of_false (by simp) fun h => hset h.1

/-- A decoder that has a result leaves a port on which `OFP_FSM` has one, or the multipart request. -/
theorem mainStep_control (hl : Hosts s.heap s.port.head l) {mail : OfpMbx} (e : Env)
    (hlen : mail.len ≤ ethMtu) (hdp : mail.type ≠ drivDp) (hfail : mail.type ≠ drivCpFail) :
    mainStep s (.drv mail) e = none ↔
      ((Mail.drv mail).Consumes ∧ ∀ y ∈ l, y.2.bufferId ≠ flowBufferId mail.mu) ∨
        Overruns s ⟨.drv mail, e⟩ := by
  have hty : (Mail.drv mail).ofType = some (mail.mu 1) := ofType_of_control rfl hlen hfail hdp
  have hl1 := SameBuffer.hosts
    ((SameBuffer.setSockfd s mail.sockfd).trans (.setEvent _ eFlowMod)) hl
  have hcons := consumes_iff hlen hdp hfail
  have hrep := repeats_iff hlen hdp hfail
  have hover : Overruns s ⟨.drv mail, e⟩ ↔ s.port.state = .established ∧
      (controlEvent mail.mu).getD s.port.event = eMultipartRequest ∧ TooManyPorts e := by
    rw [Overruns, hty, hrep, Option.some.injEq, ← controlEvent_multipart]
    cases hev : controlEvent mail.mu with
    | none => simp
    | some ev => simp
  rw [hover]
  have hfsm : ∀ s1, decodeControl (s.setSockfd mail.sockfd) mail.mu e = some s1 →
      (mainStep s (.drv mail) e = none ↔ s.port.state = .established ∧
        (controlEvent mail.mu).getD s.port.event = eMultipartRequest ∧ TooManyPorts e) := by
    intro s1 hs1
    obtain ⟨hctl, hev⟩ := decodeControl_spec hs1
    have hstep : mainStep s (.drv mail) e = ofpFsm s1 s1.port.event e := by
      simp only [mainStep, ofpDecodeFrame_control hlen hdp hfail, hs1, Option.map_some]
    rw [hstep, ofpFsm_eq_none_iff, hctl.state, hev]
    rfl
  cases hs1 : decodeControl (s.setSockfd mail.sockfd) mail.mu e with
  | none =>
    have hnone : mainStep s (.drv mail) e = none := by
      simp only [mainStep, ofpDecodeFrame_control hlen hdp hfail, hs1, Option.map_none]
    refine iff_of_true hnone (.inl ?_)
    by_cases hflow : mail.mu 1 = ofptFlowMod
    · rw [decodeControl_flowMod hflow, ofpEncodeBackToHost_eq_none_iff hl1] at hs1
      exact ⟨hcons.mpr (controlEvent_flowMod.mpr ⟨hflow, hs1.1⟩), hs1.2⟩
    · unfold decodeControl at hs1
      simp only [hflow, if_false] at hs1
      split_ifs at hs1
  | some s1 =>
    rw [hfsm s1 hs1, or_iff_right]
    rintro ⟨hc, hmiss⟩
    obtain ⟨hflow, hset⟩ := controlEvent_flowMod.mp (hcons.mp hc)
    have hnone : decodeControl (s.setSockfd mail.sockfd) mail.mu e = none := by
      rw [decodeControl_flowMod hflow, ofpEncodeBackToHost_eq_none_iff hl1]
      exact ⟨hset, hmiss⟩
    rw [hnone] at hs1
    cases hs1

/-- **A round on a list** that it keeps `head` to. -/
theorem mainStep_eq_none_iff (hl : Hosts s.heap s.port.head l) {r : Round} (hk : KeepsList s r)
    (hnode : r.env.node ∉ s.heap) (hsent : r.mail.Sent s.ccb) :
    mainStep s r.mail r.env = none ↔
      (r.mail.Consumes ∧ ∀ y ∈ l, y.2.bufferId ≠ flowBufferId r.mail.message) ∨ Overruns s r := by
  have hno : (∃ q, mainStep s r.mail r.env = some q) → r.mail.ofType = none →
      (mainStep s r.mail r.env = none ↔
        (r.mail.Consumes ∧ ∀ y ∈ l, y.2.bufferId ≠ flowBufferId r.mail.message) ∨ Overruns s r) := by
    rintro ⟨q, hq⟩ hty
    rw [hq]
    refine iff_of_false (by simp) ?_
    rintro (⟨hc, -⟩ | ⟨-, hc | ⟨⟨ty, hc, -⟩, -⟩, -⟩)
    · revert hc hty
      cases r.mail with
      | drv mail =>
        intro hty hc
        rw [hc.1] at hty
        cases hty
      | _ => exact fun _ hc => hc
    · rw [hty] at hc
      cases hc
    · rw [hty] at hc
      cases hc
  obtain ⟨m, e⟩ := r
  cases m with
  | other => exact hno ⟨_, rfl⟩ rfl
  | tmr prim =>
    obtain rfl : prim = keepalivePrim s.ccb := hsent
    obtain ⟨q, hq⟩ : ∃ q, ofpFsm s eOfpTimeout e = some q := ofpFsm_eq_some (by decide)
    exact hno ⟨q, (if_pos rfl).trans hq⟩ rfl
  | drv mail =>
    by_cases hlen : mail.len ≤ ethMtu
    · by_cases hdp : mail.type = drivDp
      · have hlearn : (Mail.drv mail).Learns := ⟨hlen, hdp⟩
        obtain ⟨s2, hs2, -⟩ : ∃ s2, ofpEncodePacketIn (s.setSockfd mail.sockfd) mail.mu mail.mulen e
            = some s2 ∧ _ :=
          ofpEncodePacketIn_hosts (SameBuffer.hosts (.setSockfd s mail.sockfd) hl) hnode
            (hk.fits hlearn)
        obtain ⟨q, hq⟩ : ∃ q, ofpFsm (s2.setEvent ePacketIn) ePacketIn e = some q :=
          ofpFsm_eq_some (by decide)
        refine hno ⟨q, ?_⟩ (ofType_dp hdp)
        simp only [mainStep, ofpDecodeFrame_dp hlen hdp, hs2, Option.map_some]
        exact hq
      · by_cases hfail : mail.type = drivCpFail
        · refine hno ?_ ?_
          · simp only [mainStep, ofpDecodeFrame, if_neg (not_lt.mpr hlen), if_neg hdp, if_pos hfail,
              ofpdRestart_eq, Option.map_some]
            exact ⟨_, rfl⟩
          · rw [Mail.ofType, if_neg fun h => h.2.2 hfail]
        · exact mainStep_control hl e hlen hdp hfail
    · have herr : ofpDecodeFrame s mail e = some (.error, s) := by
        rw [ofpDecodeFrame, if_pos (not_le.mp hlen)]
      refine hno ⟨(s, []), by simp only [mainStep, herr]⟩ ?_
      rw [Mail.ofType, if_neg fun h => hlen h.1]

end Round

/-! ## 3. The run -/

/-- **What `main` does not survive**, in every run and every next round that keep `head` to the list:
a flow mod for the id of no frame that is still held in the session, and an answer with too many
interfaces. -/
theorem round_eq_none_iff {ts : List (Transition Ofpd Round)} {s : Ofpd} (h : Run agent ts s)
    (hk : ∀ t ∈ ts, KeepsList t.pre t.lab) {r : Round} (hr : KeepsList s r)
    (hnode : r.env.node ∉ s.heap) (hsent : r.mail.Sent s.ccb) :
    s.round r = none ↔
      (r.mail.Consumes ∧ ∀ e ∈ ledger (slips ts), e.key ≠ flowBufferId r.mail.message) ∨
        Overruns s r := by
  obtain ⟨l, hl, hrecs⟩ := (answered_of_run h hk).hosts
  have hmiss : (∀ y ∈ l, y.2.bufferId ≠ flowBufferId r.mail.message) ↔
      ∀ e ∈ ledger (slips ts), e.key ≠ flowBufferId r.mail.message := by
    have hmap : (∀ y ∈ l, y.2.bufferId ≠ flowBufferId r.mail.message) ↔
        ∀ n ∈ l.map Prod.snd, n.bufferId ≠ flowBufferId r.mail.message := by
      rw [List.forall_mem_map]
    rw [hmap, hrecs, List.forall_mem_map]
    rfl
  have hround : s.round r = none ↔ mainStep s r.mail r.env = none := by
    rw [Ofpd.round, if_pos ⟨hnode, hsent⟩, Option.map_eq_none_iff]
  rw [hround, mainStep_eq_none_iff hl hr hnode hsent, hmiss]

/-- Behind the start: the flow mod of a controller that buffers nothing, and an ECHO_REQUEST. -/
theorem round_eq_none_iff_started :
    started.round ⟨.drv (cpMail (flowModMsg 0xffffffff)), Env.plain addr2⟩ = none ∧
      started.round (shortRound ofptEchoRequest) ≠ none := by
  constructor
  · refine (round_eq_none_iff (.start agent_started) (by simp) (by decide +kernel) (by decide)
      (by exact trivial)).mpr (.inl ⟨by decide +kernel, by simp [slips]⟩)
  · intro hnone
    rcases (round_eq_none_iff (.start agent_started) (by simp) (by decide +kernel) (by decide)
      (by exact trivial)).mp hnone with ⟨hcons, -⟩ | ⟨hst, -⟩
    · revert hcons
      decide +kernel
    · cases hst

end Ofpagent.Agent
