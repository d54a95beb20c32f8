/-
# The event of a control message

`OFP_decode_frame` hands the event of a message to `main` through `port_ccb->event`.  For a type
with a case in its `switch` the event is that of the message (`decodeControl_spec`), whatever
happened before.  A type without a case leaves the field, and `main` feeds the event of an
earlier message to the state machine once more: with the handlers of the row, if the state has
one for it.  So the event depends on the message alone exactly for the six types of
`handledTypes` (`event_of_mail`).
-/
import Ofpagent.Agent.HostList

namespace Ofpagent.Agent

open Ofpagent.Lib

/-- The same hosts, in the same order; the nodes may be anywhere. -/
def SameHosts (s t : Ofpd) : Prop :=
  ∃ l k, Hosts s.heap s.port.head l ∧ Hosts t.heap t.port.head k ∧ l.map Prod.snd = k.map Prod.snd

/-- The handler that is called, if this is what is done. -/
def Act.called : Act → Option Hdl
  | hdl h => some h
  | _ => none

/-- What a control message's event should be: the same in any two reachable states with the same
hosts, and nothing in any state for a type without a case. -/
structure EventOfMail (mail : OfpMbx) : Prop where
  twoRun : ∀ s t, Reachable s → Reachable t → SameHosts s t → ∀ e e' s' t',
    ofpDecodeFrame s mail e = some (.ok, s') → ofpDecodeFrame t mail e' = some (.ok, t') →
    s'.port.event = t'.port.event
  unhandled : mail.mu 1 ∉ handledTypes → ∀ s, Reachable s → ∀ r s', r.mail = .drv mail →
    agent.step s r s' →
    (s.acts r).filterMap Act.called = [] ∧ s'.port.state = s.port.state

section Control

variable {mail : OfpMbx}

/-- A type without a case changes the socket, and nothing else. -/
theorem ofpDecodeFrame_unhandled (s : Ofpd) (e : Env) (hlen : mail.len ≤ ethMtu)
    (hdp : mail.type ≠ drivDp) (hfail : mail.type ≠ drivCpFail) (h : mail.mu 1 ∉ handledTypes) :
    ofpDecodeFrame s mail e = some (.ok, s.setSockfd mail.sockfd) := by
  simp only [handledTypes, List.mem_cons, List.not_mem_nil, or_false, not_or] at h
  obtain ⟨h1, h2, h3, h4, h5, h6⟩ := h
  simp [ofpDecodeFrame, decodeControl, not_lt.mpr hlen, hdp, hfail, h1, h2, h3, h4, h5, h6]

theorem Decoded.event_of_handled {s s' : Ofpd} (h : Decoded s mail .ok s')
    (hdp : mail.type ≠ drivDp) (hty : mail.mu 1 ∈ handledTypes) :
    some s'.port.event = controlEvent mail.mu := by
  cases h with
  | ok _ _ _ hev =>
    rw [OfpMbx.event, if_neg hdp] at hev
    cases hc : controlEvent mail.mu with
    | none => exact absurd hty (controlEvent_eq_none.mp hc)
    | some ev => rw [hev, hc, Option.getD_some]

end Control

/-- The process behind its first HELLO. -/
theorem started_hello : ∃ t, Reachable t ∧ t.port.event = eRecvHello ∧ t.port.head = none := by
  obtain ⟨ts, t, hr, -, hev, hhead⟩ := run_of_exec [shortRound ofptHello]
    (fun t => t.port.event = eRecvHello ∧ t.port.head = none) (by decide +kernel)
  exact ⟨t, ⟨ts, hr⟩, hev, hhead⟩

/-- At the start and behind a HELLO a type without a case is decoded to different events. -/
theorem EventOfMail.handled {mail : OfpMbx} (h : EventOfMail mail) (hlen : mail.len ≤ ethMtu)
    (hdp : mail.type ≠ drivDp) (hfail : mail.type ≠ drivCpFail) : mail.mu 1 ∈ handledTypes := by
  by_contra hty
  obtain ⟨t, ht, hev, hhead⟩ := started_hello
  have hs : Reachable started := ⟨[], .start agent_started⟩
  have hsame : SameHosts started t :=
    ⟨[], [], (ofpdReady_restarted _ _).head ▸ Hosts.empty _, hhead ▸ Hosts.empty _, rfl⟩
  let e := Env.plain addr2
  have heq := h.twoRun started t hs ht hsame e e _ _
    (ofpDecodeFrame_unhandled started e hlen hdp hfail hty)
    (ofpDecodeFrame_unhandled t e hlen hdp hfail hty)
  simp only [Ofpd.setSockfd_event, hev] at heq
  exact absurd heq (by decide)

/-- **A control message has an event of its own exactly when its type has a case.** -/
theorem event_of_mail (mail : OfpMbx) (hlen : mail.len ≤ ethMtu) (hdp : mail.type ≠ drivDp)
    (hfail : mail.type ≠ drivCpFail) : EventOfMail mail ↔ mail.mu 1 ∈ handledTypes := by
  constructor
  · intro h
    exact h.handled hlen hdp hfail
  · intro hty
    refine ⟨?_, fun h => absurd hty h⟩
    intro s t _ _ _ e e' s' t' hs ht
    have hs' := (ofpDecodeFrame_decoded hs).event_of_handled hdp hty
    have ht' := (ofpDecodeFrame_decoded ht).event_of_handled hdp hty
    exact Option.some.inj (hs'.trans ht'.symm)

/-- A HELLO. -/
theorem event_of_mail_hello : EventOfMail (cpMail (shortMsg ofptHello)) :=
  (event_of_mail _ (by decide +kernel) (by decide +kernel) (by decide +kernel)).mpr
    (by decide +kernel)

/-- **An OFPT_ERROR** is decoded to `E_START` at first and to `E_RECV_HELLO` behind a HELLO, and
behind a MULTIPART_REQUEST it has the reply to that transmitted again. -/
theorem event_of_error : ¬ EventOfMail (cpMail (shortMsg 1)) ∧
    ∃ s, Reachable s ∧ (s.acts (shortRound 1)).filterMap Act.called = [.aSendMultipartReply] := by
  constructor
  · intro h
    exact absurd (h.handled (by decide +kernel) (by decide +kernel) (by decide +kernel))
      (by decide +kernel)
  · obtain ⟨ts, s, hr, -, hacts⟩ := run_of_exec
      [shortRound ofptHello, shortRound ofptFeaturesRequest, shortRound ofptMultipartRequest]
      (fun s => (s.acts (shortRound 1)).filterMap Act.called = [.aSendMultipartReply])
      (by decide +kernel)
    exact ⟨s, ⟨ts, hr⟩, hacts⟩

end Ofpagent.Agent
