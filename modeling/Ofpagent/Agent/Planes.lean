/-
# Plane separation

Three handlers send through `port_ccb->sockfd`, which every mail of either plane overwrites and a
timeout inherits; two send what is in `ofpbuf`, through the socket of their plane.  The rows of the
table keep these together with the mails they are for: a frame of the data plane, and a timeout,
find no row whose handlers use `sockfd`, and what is in `ofpbuf` is a PACKET_IN as long as the event
is `E_PACKET_IN`, and a frame for a host as long as it is `E_FLOW_MOD`.

`planes_separated` says what `drv_xmit` is given in every run of `world`.
-/
import Ofpagent.Agent.Sessions

namespace Ofpagent.Agent

open Ofpagent.Lib

/-! ## 1. What the handlers transmit -/

/-- The type of the message a handler sends to the controller. -/
def Hdl.msgType : Hdl → Option UInt8
  | aSendHello => some ofptHello
  | aSendEchoRequest => some ofptEchoRequest
  | aSendFeatureReply => some ofptFeaturesReply
  | aSendMultipartReply => some ofptMultipartReply
  | aSendPacketIn => some ofptPacketIn
  | _ => none

/-- The handlers that send through `port_ccb->sockfd` as they find it. -/
def Hdl.Inherits : Hdl → Prop
  | aSendHello | aSendFeatureReply | aSendMultipartReply => True
  | _ => False

instance : DecidablePred Hdl.Inherits
  | .aSendHello | .aSendFeatureReply | .aSendMultipartReply => isTrue trivial
  | .aSendEchoRequest | .aStartTimer | .aClearQueryCnt | .aStopQueryTmr | .aQueryTmrExpire
  | .aSendPacketIn | .aSendToHost => isFalse not_false

/-- What an act transmits, and in whose name. -/
def Act.xmitted : Act → Option (Hdl × Xmit)
  | xmit h x => some (h, x)
  | fsm _ | hdl _ | startTmr _ | stopXtmr _ _ | notResponding | killTasks | tmrInit | forkCp => none

theorem Act.eq_of_xmitted {a : Act} {h : Hdl} {x : Xmit} (ha : a.xmitted = some (h, x)) :
    a = .xmit h x := by
  cases a with
  | xmit h' x' =>
    obtain ⟨rfl, rfl⟩ := Prod.mk.inj (Option.some.inj ha)
    rfl
  | _ => cases ha

theorem drvXmit_cp {s : Ofpd} {sockfd : ℤ} (h : sockfd = s.ofpIoFds .cp) (mu : List UInt8) :
    drvXmit s mu sockfd = .send (s.ofpIoFds .cp) mu := by
  rw [drvXmit, if_pos h, h]

/-- The descriptions of the interfaces fit into `buf` behind the header. -/
theorem portDescs_length {ifas : List IfAddr} {i : ℕ} {desc : Mem} {body body' : List UInt8}
    (h : portDescs ifas i desc body = some body') (hbody : body.length ≤ 240) :
    body'.length ≤ 240 := by
  induction ifas generalizing i desc body with
  | nil =>
    cases h
    exact hbody
  | cons ifa ifas ih =>
    unfold portDescs at h
    split_ifs at h with hfam hlen
    · refine ih h ?_
      rw [List.length_append, Mem.read_length]
      omega
    · exact ih h hbody

/-- The type of the reply is behind its version. -/
theorem multipart_type {p : OfpMultipart} {body : List UInt8} (hbody : body.length ≤ 240) :
    ((p.bytes ++ body).take (UInt16.ofNat (16 + body.length)).toNat).getD 1 0
      = p.ofpHeader.type := by
  have hlen : (UInt16.ofNat (16 + body.length)).toNat = 16 + body.length := by
    rw [UInt16.toNat_ofNat']
    omega
  have hall : (p.bytes ++ body).length ≤ (UInt16.ofNat (16 + body.length)).toNat := by
    rw [hlen, List.length_append, OfpMultipart.bytes_length]
  rw [List.take_of_length_le hall]
  rfl

/-- **One handler**, unless it sends what is in `ofpbuf`. -/
theorem Hdl.call_sent {s : Ofpd} {e : Env} {h : Hdl} {r : Ret} (hr : h.call s e = some r)
    (hfd : s.port.sockfd = s.ofpIoFds .cp ∨ ¬ h.Inherits) :
    ∀ x, .xmit h x ∈ r.acts → h ≠ .aSendToHost → x = .send (s.ofpIoFds .cp) x.mu ∧
      (h ≠ .aSendPacketIn → h.msgType = some (x.mu.getD 1 0)) := by
  intro x hx hhost
  cases h with
  | aSendMultipartReply =>
    have hcp := hfd.resolve_right (fun hno => hno trivial)
    simp only [Hdl.call, Agent.aSendMultipartReply] at hr
    split at hr
    · cases hr
      cases hx
    · obtain ⟨body, hbody, rfl⟩ := Option.map_eq_some_iff.mp hr
      obtain ⟨-, rfl⟩ := Act.xmit.inj (List.mem_singleton.mp hx)
      rw [drvXmit_cp hcp]
      refine ⟨rfl, ?_⟩
      intro _
      rw [Xmit.mu, multipart_type (portDescs_length hbody (Nat.zero_le _))]
      rfl
  | aSendHello | aSendFeatureReply =>
    have hcp := hfd.resolve_right (fun hno => hno trivial)
    cases hr
    obtain ⟨-, rfl⟩ := Act.xmit.inj (List.mem_singleton.mp hx)
    rw [drvXmit_cp hcp]
    exact ⟨rfl, fun _ => rfl⟩
  | aSendEchoRequest =>
    cases hr
    obtain ⟨-, rfl⟩ := Act.xmit.inj (List.mem_singleton.mp hx)
    have hcp : (s.setSockfd (s.ofpIoFds .cp)).port.sockfd
        = (s.setSockfd (s.ofpIoFds .cp)).ofpIoFds .cp := rfl
    rw [drvXmit_cp hcp]
    exact ⟨rfl, fun _ => rfl⟩
  | aSendPacketIn =>
    cases hr
    obtain ⟨-, rfl⟩ := Act.xmit.inj (List.mem_singleton.mp hx)
    rw [drvXmit_cp rfl]
    exact ⟨rfl, fun hno => absurd rfl hno⟩
  | aSendToHost => exact absurd rfl hhost
  | aStartTimer =>
    cases hr
    simp only [Agent.aStartTimer] at hx
    split_ifs at hx <;> simp at hx
  | aClearQueryCnt | aStopQueryTmr | aQueryTmrExpire =>
    cases hr
    simp [Agent.aClearQueryCnt, Agent.aStopQueryTmr, Agent.aQueryTmrExpire] at hx

/-- A handler leaves `sockfd` alone, or sets it to the control plane's. -/
theorem Hdl.call_sockfd {s : Ofpd} {e : Env} {h : Hdl} {r : Ret} (hr : h.call s e = some r)
    (hfd : s.port.sockfd = s.ofpIoFds .cp) : r.agent.port.sockfd = s.ofpIoFds .cp := by
  cases h with
  | aSendMultipartReply =>
    simp only [Hdl.call, Agent.aSendMultipartReply] at hr
    split at hr
    · cases hr
      exact hfd
    · obtain ⟨body, -, rfl⟩ := Option.map_eq_some_iff.mp hr
      exact hfd
  | aSendEchoRequest =>
    cases hr
    rfl
  | _ =>
    cases hr
    exact hfd

/-- The encoders leave the socket, -/
theorem ofpEncodePacketIn_sockfd {s s' : Ofpd} {mu : Mem} {mulen : UInt16} {e : Env}
    (h : ofpEncodePacketIn s mu mulen e = some s') : s'.port.sockfd = s.port.sockfd := by
  obtain ⟨-, r, -, rfl⟩ := ofpEncodePacketIn_cases h
  rfl

theorem ofpEncodeBackToHost_sockfd {s s' : Ofpd} {mu : Mem} {e : Env}
    (h : ofpEncodeBackToHost s mu e = some s') : s'.port.sockfd = s.port.sockfd := by
  rcases ofpEncodeBackToHost_cases h with ⟨-, rfl⟩ | ⟨-, hp, a, node, -, -, rfl⟩
  · exact Ofpd.setEvent_sockfd s eOthers
  · rfl

theorem decodeControl_sockfd {s s' : Ofpd} {mu : Mem} {e : Env}
    (h : decodeControl s mu e = some s') : s'.port.sockfd = s.port.sockfd := by
  by_cases hflow : mu 1 = ofptFlowMod
  · rw [decodeControl_flowMod hflow] at h
    rw [ofpEncodeBackToHost_sockfd h, Ofpd.setEvent_sockfd]
  · obtain ⟨hdr, mp, rfl⟩ := decodeControl_cases hflow h
    rfl

/-- so it is the one the mail came with. -/
theorem ofpDecodeFrame_sockfd {s s' : Ofpd} {mail : OfpMbx} {e : Env}
    (h : ofpDecodeFrame s mail e = some (.ok, s')) : s'.port.sockfd = mail.sockfd := by
  cases ofpDecodeFrame_decoded h with
  | ok hlen hfail _ _ =>
    by_cases hdp : mail.type = drivDp
    · rw [ofpDecodeFrame_dp hlen hdp] at h
      obtain ⟨s2, hs2, h⟩ := Option.map_eq_some_iff.mp h
      cases h
      rw [Ofpd.setEvent_sockfd, ofpEncodePacketIn_sockfd hs2, Ofpd.setSockfd_sockfd]
    · rw [ofpDecodeFrame_control hlen hdp hfail] at h
      obtain ⟨s2, hs2, h⟩ := Option.map_eq_some_iff.mp h
      cases h
      rw [decodeControl_sockfd hs2, Ofpd.setSockfd_sockfd]

theorem runHdls_sent {e : Env} {hs : List Hdl} {s s' : Ofpd} {acts : List Act}
    (hrun : runHdls e hs s = some (s', acts))
    (hfd : s.port.sockfd = s.ofpIoFds .cp ∨ ∀ h ∈ hs, ¬ h.Inherits) :
    ∀ h x, .xmit h x ∈ acts → h ≠ .aSendToHost → x = .send (s.ofpIoFds .cp) x.mu ∧
      (h ≠ .aSendPacketIn → h.msgType = some (x.mu.getD 1 0)) := by
  induction hs generalizing s s' acts with
  | nil =>
    cases hrun
    simp
  | cons h hs ih =>
    obtain ⟨r, hr, hrun⟩ := Option.bind_eq_some_iff.mp hrun
    obtain ⟨hsame, hby⟩ := Hdl.call_spec hr
    have hfirst : ∀ h' x, .xmit h' x ∈ Act.hdl h :: r.acts → h' ≠ .aSendToHost →
        x = .send (s.ofpIoFds .cp) x.mu ∧
          (h' ≠ .aSendPacketIn → h'.msgType = some (x.mu.getD 1 0)) := by
      intro h' x hx
      have hmem : Act.xmit h' x ∈ r.acts := by simpa using hx
      obtain rfl : h' = h := hby _ hmem
      exact Hdl.call_sent hr (hfd.imp id fun hno => hno h' List.mem_cons_self) x hmem
    split at hrun
    · cases hrun
      exact hfirst
    · obtain ⟨q, hq, hrun⟩ := Option.map_eq_some_iff.mp hrun
      cases hrun
      have hrest := ih hq (hfd.imp
        (fun hcp => by rw [Hdl.call_sockfd hr hcp, hsame.ofpIoFds])
        fun hno h' hh' => hno h' (List.mem_cons_of_mem h hh'))
      intro h' x hx
      rcases List.mem_append.mp hx with hx | hx
      · exact hfirst h' x hx
      · rw [hsame.ofpIoFds] at hrest
        exact hrest h' x hx

/-- The rows of a timeout and of a frame of the data plane do without `sockfd`. -/
theorem not_inherits {state : OfpState} {event : UInt16}
    (hev : event = eOfpTimeout ∨ event = ePacketIn) : ∀ h ∈ fsmHdls state event, ¬ h.Inherits := by
  rcases hev with rfl | rfl <;> cases state <;> decide

theorem ofpFsm_sent {s s' : Ofpd} {event : UInt16} {e : Env} {acts : List Act}
    (h : ofpFsm s event e = some (s', acts))
    (hfd : s.port.sockfd = s.ofpIoFds .cp ∨ event = eOfpTimeout ∨ event = ePacketIn) :
    ∀ h x, .xmit h x ∈ acts → h ≠ .aSendToHost → x = .send (s'.ofpIoFds .cp) x.mu ∧
      (h ≠ .aSendPacketIn → h.msgType = some (x.mu.getD 1 0)) := by
  have hsame := (ofpFsm_call h).same.ofpIoFds
  unfold ofpFsm at h
  split at h
  · cases h
    simp
  · next r hrow =>
    obtain ⟨q, hq, h⟩ := Option.map_eq_some_iff.mp h
    cases h
    intro h' x hx
    have hx : Act.xmit h' x ∈ q.2 := by simpa using hx
    rw [hsame]
    refine runHdls_sent hq (hfd.imp id fun hev => ?_) h' x hx
    have hhdls : fsmHdls s.port.state event = r.hdl := by rw [fsmHdls, hrow, Option.elim_some]
    exact hhdls ▸ not_inherits hev

/-! ## 2. What is in `ofpbuf` -/

/-- What is in `ofpbuf` goes with the event. -/
structure Framed (s : Ofpd) : Prop where
  packetIn : s.port.event = ePacketIn → ∃ b, IsPacketIn s.port.frame b
  reply : s.port.event = eFlowMod → ∃ rec, ReplyTo s.port.frame rec

theorem OfpPort.frame_congr {p p' : OfpPort} (h : p'.block = p.block) : p'.frame = p.frame := by
  rw [OfpPort.frame, OfpPort.ofpbufLen, h, OfpPort.frame, OfpPort.ofpbufLen]

theorem Framed.congr {s s' : Ofpd} (h : Framed s) (hev : s'.port.event = s.port.event)
    (hblock : s'.port.block = s.port.block) : Framed s' := by
  have hframe : s'.port.frame = s.port.frame := OfpPort.frame_congr hblock
  refine ⟨?_, ?_⟩
  · intro hp
    rw [hframe]
    exact h.packetIn (hev.symm.trans hp)
  · intro hp
    rw [hframe]
    exact h.reply (hev.symm.trans hp)

/-- The id and the type of a PACKET_IN are far ahead of `head`. -/
theorem isPacketIn_setHead {p : OfpPort} {b : UInt32} (q : Ptr) (h : IsPacketIn p.frame b) :
    IsPacketIn (p.setHead q).frame b := by
  have hlen := congrArg List.length h.2
  rw [List.length_take, List.length_drop, OfpPort.frame, Mem.read_length, beBytes_length] at hlen
  have hn : 12 ≤ p.ofpbufLen.toNat := by omega
  have hframe : (p.setHead q).frame
      = (p.block.writeLe headOff 8 (ptrNat q)).read 0 p.ofpbufLen.toNat := by
    rw [OfpPort.frame, OfpPort.ofpbufLen_setHead]
    rfl
  obtain ⟨htype, hid⟩ := h
  rw [OfpPort.frame, Mem.getD_read _ _ (by omega)] at htype
  rw [OfpPort.frame, Mem.take_drop_read _ _ (by omega)] at hid
  rw [hframe]
  constructor
  · rw [Mem.getD_read _ _ (by omega), ← htype]
    exact Mem.write_apply_of_disjoint (Or.inl (by simp [headOff, ethMtu]))
  · rw [Mem.take_drop_read _ _ (by omega), ← hid]
    exact Mem.read_write_of_disjoint (by simp [headOff, ethMtu])

/-- The frame for a host ends ahead of `head`. -/
theorem replyTo_setHead {p : OfpPort} {rec : HostLearn} (q : Ptr) (h : ReplyTo p.frame rec) :
    ReplyTo (p.setHead q).frame rec := by
  obtain ⟨srcIp, dstIp, e, hmu⟩ := h
  have hlen := congrArg List.length hmu
  rw [OfpPort.frame, Mem.read_length, backToHostFrame_length] at hlen
  refine ⟨srcIp, dstIp, e, ?_⟩
  rw [← hmu, OfpPort.frame, OfpPort.ofpbufLen_setHead, OfpPort.frame, hlen]
  exact Mem.read_write_of_disjoint (by simp [headOff, ethMtu])

/-- A flow mod that is answered. -/
theorem replyTo_of_backToHost {s s' : Ofpd} {mu : Mem} {e : Env} (hset : isSetField mu = true)
    (h : ofpEncodeBackToHost s mu e = some s') : ∃ rec, ReplyTo s'.port.frame rec := by
  rcases ofpEncodeBackToHost_cases h with ⟨hno, -⟩ | ⟨-, hp, a, node, hfind, hnode, -⟩
  · exact absurd hset hno
  · exact ⟨node.record, replyTo_frame hset hfind (by rw [hnode]; rfl) h⟩

section Framed

variable {s s' : Ofpd} {e : Env}

theorem Framed.decode {mail : OfpMbx} (h : Framed s) (hlen : mail.len ≤ ethMtu)
    (hfail : mail.type ≠ drivCpFail) (hd : ofpDecodeFrame s mail e = some (.ok, s')) : Framed s' := by
  by_cases hdp : mail.type = drivDp
  · rw [ofpDecodeFrame_dp hlen hdp] at hd
    obtain ⟨s2, hs2, hd⟩ := Option.map_eq_some_iff.mp hd
    cases hd
    have hframe : (s2.setEvent ePacketIn).port.frame = s2.port.frame := OfpPort.frame_congr rfl
    refine ⟨?_, ?_⟩
    · intro _
      rw [hframe]
      exact ⟨_, isPacketIn_frame hs2⟩
    · intro hev
      exact absurd (show ePacketIn = eFlowMod from hev) (by decide)
  · rw [ofpDecodeFrame_control hlen hdp hfail] at hd
    obtain ⟨s2, hs2, hd⟩ := Option.map_eq_some_iff.mp hd
    cases hd
    have hev := (decodeControl_spec hs2).2
    cases hc : controlEvent mail.mu with
    | none =>
      have hbuf := decodeControl_sameBuffer hs2 (by simp [hc])
      rw [hc] at hev
      exact h.congr hev hbuf.block
    | some ev =>
      rw [hc, Option.getD_some] at hev
      refine ⟨?_, ?_⟩
      · intro hp
        exact absurd (hc.trans (congrArg some (hev.symm.trans hp))) (controlEvent_ne_packetIn _)
      · intro hp
        obtain ⟨hflow, hset⟩ := controlEvent_flowMod.mp
          (hc.trans (congrArg some (hev.symm.trans hp)))
        rw [decodeControl_flowMod hflow] at hs2
        exact replyTo_of_backToHost hset hs2

/-- **`ofpbuf` goes with the event**, round after round. -/
theorem Framed.round {r : Round} (h : Framed s) (hstep : agent.step s r s') : Framed s' := by
  have hdid := (agent_did hstep).2
  generalize s.acts r = acts at hdid
  cases hdid with
  | quiet => exact h
  | timer _ hrun => exact h.congr (ofpFsm_call hrun).event (ofpFsm_sameBuffer hrun).block
  | restart _ _ s1 hbuf _ hev1 =>
    have hs1 : Framed s1 := h.congr hev1 hbuf.block
    have hframe : ((ofpdReady s1 r.env).setState .helloWait).port.frame
        = (s1.port.setHead none).frame := OfpPort.frame_congr rfl
    refine ⟨?_, ?_⟩
    · intro hev
      obtain ⟨b, hb⟩ := hs1.packetIn hev
      rw [hframe]
      exact ⟨b, isPacketIn_setHead none hb⟩
    · intro hev
      obtain ⟨rec, hrec⟩ := hs1.reply hev
      rw [hframe]
      exact ⟨rec, replyTo_setHead none hrec⟩
  | decode _ hlen hfail hd hrun =>
    exact (h.decode hlen hfail hd).congr (ofpFsm_call hrun).event (ofpFsm_sameBuffer hrun).block

/-- What `drv_xmit` should be given: the controller's messages with the socket of the session, and
the frames for hosts with the raw socket. -/
structure Separated (s : Ofpd) (h : Hdl) (x : Xmit) : Prop where
  control : h ≠ .aSendToHost → x = .send (s.ofpIoFds .cp) x.mu ∧
    h.msgType = some (x.mu.getD 1 0)
  host : h = .aSendToHost → x = drvXmit s x.mu (s.ofpIoFds .dp) ∧ ∃ rec, ReplyTo x.mu rec

/-- What is in `ofpbuf` is transmitted for its event only. -/
theorem framed_xmit {r : Round} (hstep : agent.step s r s') (pl : Plane) {x : Xmit}
    (hx : .xmit pl.handler x ∈ s.acts r) :
    s'.port.event = pl.event ∧ x = drvXmit s' s'.port.frame (s'.ofpIoFds pl) := by
  refine ⟨?_, ((xmit_frame_iff hstep pl x).mp hx).2⟩
  have hdid := (agent_did hstep).2
  generalize s.acts r = acts at hdid hx
  cases hdid with
  | quiet => cases hx
  | timer _ hrun =>
    have hev := ((xmit_frame_of_fsm hrun pl x).mp hx).1.2
    cases pl <;> exact absurd hev (by decide)
  | restart => cases pl <;> simp [Plane.handler, aSendHello] at hx
  | decode _ _ _ _ hrun =>
    rw [(ofpFsm_call hrun).event]
    exact ((xmit_frame_of_fsm hrun pl x).mp hx).1.2

/-- The HELLO of a restart. -/
theorem hello_sent (s1 : Ofpd) (e : Env) {hd : Hdl} {x : Xmit}
    (hx : .xmit hd x ∈ (aSendHello ((ofpdReady s1 e).setState .helloWait)).acts) :
    hd = .aSendHello ∧ x = .send (((ofpdReady s1 e).setState .helloWait).ofpIoFds .cp) x.mu ∧
      x.mu.getD 1 0 = ofptHello := by
  obtain ⟨rfl, rfl⟩ := Act.xmit.inj (List.mem_singleton.mp hx)
  have hcp : ((ofpdReady s1 e).setState .helloWait).port.sockfd
      = ((ofpdReady s1 e).setState .helloWait).ofpIoFds .cp := rfl
  rw [drvXmit_cp hcp]
  exact ⟨rfl, rfl, rfl⟩

/-- The messages for the controller, of a mail that carries the socket of the session if it is one
of the control plane. -/
theorem control_sent {r : Round} (hstep : agent.step s r s')
    (hcp : ∀ mail, r.mail = .drv mail → mail.type ≠ drivDp → mail.type ≠ drivCpFail →
      mail.sockfd = s.ofpIoFds .cp) :
    ∀ hd x, .xmit hd x ∈ s.acts r → hd ≠ .aSendToHost →
      x = .send (s'.ofpIoFds .cp) x.mu ∧
        (hd ≠ .aSendPacketIn → hd.msgType = some (x.mu.getD 1 0)) := by
  have hdid := (agent_did hstep).2
  generalize s.acts r = acts at hdid
  cases hdid with
  | quiet => simp
  | timer _ hrun => exact ofpFsm_sent hrun (.inr (.inl rfl))
  | restart _ _ s1 =>
    intro hd x hx _
    obtain ⟨rfl, hsock, htype⟩ := hello_sent s1 r.env (by simpa using hx)
    exact ⟨hsock, fun _ => htype ▸ rfl⟩
  | @decode mail s1 _ _ hm hlen hfail hd hrun =>
    refine ofpFsm_sent hrun ?_
    cases ofpDecodeFrame_decoded hd with
    | ok _ _ hsame hev =>
      by_cases hdp : mail.type = drivDp
      · refine .inr (.inr ?_)
        rw [hev, OfpMbx.event, if_pos hdp]
        rfl
      · refine .inl ?_
        rw [ofpDecodeFrame_sockfd hd, hsame.ofpIoFds]
        exact hcp mail hm hdp hfail

/-- **One round** keeps the planes apart. -/
theorem separated_of_round {r : Round} (h : Framed s) (hstep : agent.step s r s')
    (hcp : ∀ mail, r.mail = .drv mail → mail.type ≠ drivDp → mail.type ≠ drivCpFail →
      mail.sockfd = s.ofpIoFds .cp) :
    ∀ hd x, .xmit hd x ∈ s.acts r → Separated s' hd x := by
  have hbuf := h.round hstep
  intro hd x hx
  refine ⟨?_, ?_⟩
  · intro hne
    obtain ⟨hsock, htype⟩ := control_sent hstep hcp hd x hx hne
    refine ⟨hsock, ?_⟩
    by_cases hpkt : hd = .aSendPacketIn
    · subst hpkt
      obtain ⟨hev, hmu⟩ := framed_xmit hstep .cp hx
      obtain ⟨b, hb⟩ := hbuf.packetIn hev
      rw [hmu, drvXmit_mu, hb.1]
      rfl
    · exact htype hpkt
  · rintro rfl
    obtain ⟨hev, hmu⟩ := framed_xmit hstep .dp hx
    obtain ⟨rec, hrec⟩ := hbuf.reply hev
    rw [hmu, drvXmit_mu]
    exact ⟨rfl, rec, hrec⟩

end Framed

/-! ## 3. Runs -/

/-- The descriptors are two, and that of the session is an `int`. -/
def Sockets (s : Ofpd) : Prop :=
  -2 ^ 31 ≤ s.ofpIoFds .cp ∧ s.ofpIoFds .cp < 2 ^ 31 ∧ s.ofpIoFds .cp ≠ s.ofpIoFds .dp

instance : DecidablePred Sockets := fun s =>
  inferInstanceAs (Decidable (-2 ^ 31 ≤ s.ofpIoFds .cp ∧ s.ofpIoFds .cp < 2 ^ 31 ∧ _))

/-- What belongs to the session: its reader, the messages that it has queued, and what is left to
transmit. -/
structure Parted (w : World) : Prop where
  framed : Framed w.agent
  reader : ∀ fd, w.cp = .reading fd → fd = w.agent.ofpIoFds .cp
  carried : ∀ m ∈ w.queue, ∀ mail, m.mail = .drv mail → mail.type ≠ drivDp →
    mail.type ≠ drivCpFail → mail.sockfd = intOfU32 (u32OfInt (w.agent.ofpIoFds .cp))
  todo : ∀ hd x, .xmit hd x ∈ w.todo → Separated w.agent hd x

section Parted

variable {w w' : World}

/-- Nobody but `main` touches the port and what is left to do. -/
theorem Parted.congr (h : Parted w) (hagent : w'.agent = w.agent) (htodo : w'.todo ⊆ w.todo)
    (hreader : ∀ fd, w'.cp = .reading fd → fd = w.agent.ofpIoFds .cp)
    (hqueue : ∀ m ∈ w'.queue, m ∈ w.queue ∨ ∀ mail, m.mail = .drv mail → mail.type ≠ drivDp →
      mail.type ≠ drivCpFail → mail.sockfd = intOfU32 (u32OfInt (w.agent.ofpIoFds .cp))) :
    Parted w' := by
  refine ⟨?_, ?_, ?_, ?_⟩
  · rw [hagent]
    exact h.framed
  · rw [hagent]
    exact hreader
  · intro m hm
    rw [hagent]
    exact (hqueue m hm).elim (h.carried m) id
  · intro hd x hx
    rw [hagent]
    exact h.todo hd x (htodo hx)

/-- **A mail is taken.**  When the report of the failure is, nothing of the session is left behind
it. -/
theorem Parted.ipcRcv2 (h : Parted w) (ho : InOrder w) (hfd : Sockets w.agent) {e : Env} {m : Msg}
    {queue : List Msg} {s : Ofpd} (hb : w.Between) (hq : w.queue = m :: queue)
    (hstep : agent.step w.agent ⟨m.mail, e⟩ s) :
    Parted { w with agent := s, todo := w.agent.acts ⟨m.mail, e⟩, queue := queue } := by
  have hmem : ∀ m' ∈ queue, m' ∈ w.queue := fun m' hm' => hq ▸ List.mem_cons_of_mem m hm'
  have hsent : ∀ mail, m.mail = .drv mail → mail.type ≠ drivDp → mail.type ≠ drivCpFail →
      mail.sockfd = w.agent.ofpIoFds .cp := by
    intro mail hmail hdp hfail
    rw [h.carried m (by simp [hq]) mail hmail hdp hfail]
    exact intOfU32_u32OfInt hfd.1 hfd.2.1
  have hsep := separated_of_round h.framed hstep hsent
  rcases restart_cases hstep with ⟨-, -, hfds⟩ | ⟨hres, -⟩
  · refine ⟨h.framed.round hstep, ?_, ?_, hsep⟩
    · intro fd hcp
      rw [hfds]
      exact h.reader fd hcp
    · intro m' hm'
      rw [hfds]
      exact h.carried m' (hmem m' hm')
  · have hcp : w.cp = .closed := by
      obtain ⟨-, ⟨fd, -, hno⟩ | ⟨hcp, -⟩⟩ := ho.phase.of_between hb
      · exact absurd hres (hno m (by simp [hq]))
      · exact hcp
    have hbehind := ho.behind
    rw [hq, List.pairwise_cons] at hbehind
    refine ⟨h.framed.round hstep, ?_, ?_, hsep⟩
    · intro fd hcp'
      rw [hcp] at hcp'
      cases hcp'
    · intro m' hm' mail hmail hdp
      have hno := hbehind.1 m' hm' hres
      rw [hmail] at hno
      exact absurd hdp hno

theorem Parted.act (h : Parted w) {a : Act} {todo : List Act} (htodo : w.todo = a :: todo) :
    Parted ({ w with todo := todo }.perform a) := by
  have htail : todo ⊆ w.todo := htodo ▸ List.subset_cons_self a todo
  cases a with
  | killTasks => exact h.congr rfl htail (fun fd hcp => by cases hcp) fun _ hm => .inl hm
  | forkCp =>
    refine h.congr rfl htail (fun fd hcp => ?_) fun _ hm => .inl hm
    cases hcp
    rfl
  | _ => exact h.congr rfl htail h.reader fun _ hm => .inl hm

/-- **Every step keeps what belongs to the session apart.** -/
theorem Parted.step {l : List Timer.TmrIdx} {ev : Ev} (hc : Clocked w l) (ho : InOrder w)
    (h : Parted w) (hfd : Sockets w.agent) (hs : w.step ev = some w') : Parted w' := by
  cases World.step_moved hs with
  | osTmr =>
    refine h.congr rfl (List.Subset.refl _) h.reader fun m hm => ?_
    refine (List.mem_append.mp hm).imp id fun hm mail hmail => ?_
    have htm := ((sends_cases w _).2 m hm).1
    rw [hmail] at htm
    cases htm
  | @sockdCp fd rxlen buffer stack hcp hrx =>
    refine h.congr rfl (List.Subset.refl _) (fun fd' hcp' => ?_) fun m hm => ?_
    · by_cases hfail : rxlen ≤ 0
      · simp only [if_pos hfail] at hcp'
        cases hcp'
      · simp only [if_neg hfail] at hcp'
        cases hcp'
        exact h.reader fd hcp
    · refine (List.mem_append.mp hm).imp id fun hm mail hmail hdp hfail => ?_
      obtain ⟨-, mail', hmail', hm'⟩ := (drvMsgs_cases w _).2 m hm
      obtain rfl : mail = mail' := Mail.drv.inj (hmail.symm.trans hm')
      obtain ⟨-, ⟨-, htype⟩ | ⟨-, -, hsock⟩⟩ := ofpSockdCp_mail hrx hmail'
      · exact absurd htype hfail
      · rw [hsock, h.reader fd hcp]
  | sockdDp =>
    refine h.congr rfl (List.Subset.refl _) h.reader fun m hm => ?_
    refine (List.mem_append.mp hm).imp id fun hm mail hmail hdp => ?_
    obtain ⟨-, mail', hmail', hm'⟩ := (drvMsgs_cases w _).2 m hm
    obtain rfl : mail = mail' := Mail.drv.inj (hmail.symm.trans hm')
    exact absurd (ofpSockdDp_spec hmail').2.2.1 hdp
  | ipcRcv2 hb hq hnode hrun =>
    obtain ⟨hstep, hacts⟩ := hc.round hq hnode hrun
    rw [← hacts]
    exact h.ipcRcv2 ho hfd hb hq hstep
  | act _ htodo => exact h.act htodo
  | lib =>
    refine h.congr (w.stamp_agent) ?_ ?_ fun m hm => .inl ?_
    · intro a ha
      exact w.stamp_todo ▸ ha
    · intro fd hcp
      exact h.reader fd ((w.stamp_cp).symm.trans hcp)
    · rwa [← w.stamp_queue]

theorem parted_init (h : world.init w) : Parted w := by
  obtain ⟨ccb, qid, e, shm, rfl⟩ := world_init h
  refine ⟨⟨?_, ?_⟩, ?_, by simp [World.start], ?_⟩
  · intro hev
    exact absurd (show (0 : UInt16) = ePacketIn from hev) (by decide)
  · intro hev
    exact absurd (show (0 : UInt16) = eFlowMod from hev) (by decide)
  · intro fd hcp
    cases hcp
  · intro hd x hx
    obtain ⟨rfl, hsock, htype⟩ := hello_sent _ e (by simpa [World.start] using hx)
    exact ⟨fun _ => ⟨hsock, htype ▸ rfl⟩, fun hno => by cases hno⟩

end Parted

theorem parted_of_run {ts : List (Transition World Ev)} {w : World} (h : Run world ts w)
    (hfd : ∀ t ∈ ts, Sockets t.pre.agent) : ∀ t ∈ ts, Parted t.pre := by
  have hinit : ∀ w, world.init w → Steady w ∧ Parted w := fun w hw =>
    ⟨steady_init hw, parted_init hw⟩
  have hstep : ∀ w ev w', Steady w ∧ Parted w → Sockets w.agent → world.step w ev w' →
      Steady w' ∧ Parted w' := by
    rintro w ev w' ⟨⟨⟨l, hc⟩, ho⟩, hp⟩ hgood hs
    exact ⟨Steady.step ⟨⟨l, hc⟩, ho⟩ hs, hp.step hc ho hgood hs⟩
  intro t ht
  exact (h.invariant_mem (fun w => Steady w ∧ Parted w) (fun w _ => Sockets w.agent) hinit hstep hfd
    t ht).1.2

/-- **The planes are separate**: whatever is handed to `drv_xmit`, it is a message of its handler's
type with the socket of the session that is up, or a frame for a host with the raw socket. -/
theorem planes_separated {ts : List (Transition World Ev)} {w : World} (h : Run world ts w)
    (hfd : ∀ t ∈ ts, Sockets t.pre.agent) :
    ∀ t ∈ ts, ∀ hd x todo, t.lab = .act → t.pre.todo = .xmit hd x :: todo →
      (hd ≠ .aSendToHost → x = .send (t.pre.agent.ofpIoFds .cp) x.mu ∧
        hd.msgType = some (x.mu.getD 1 0)) ∧
      (hd = .aSendToHost → x = .sendto (t.pre.agent.ofpIoFds .dp) x.mu ∧
        ∃ rec, ReplyTo x.mu rec) := by
  intro t ht hd x todo _ htodo
  have hsep := (parted_of_run h hfd t ht).todo hd x (by simp [htodo])
  refine ⟨hsep.control, ?_⟩
  intro hhost
  obtain ⟨hx, hrec⟩ := hsep.host hhost
  refine ⟨?_, hrec⟩
  rwa [drvXmit, if_neg (hfd t ht).2.2.symm] at hx

/-- The reply to the FEATURES_REQUEST, with a frame of the data plane ahead of it in the queue. -/
theorem planes_separated_featureReply : ∃ ts t w x todo, Run world (ts ++ [t]) w ∧
    t.pre.todo = .xmit .aSendFeatureReply x :: todo ∧
    x = .send (t.pre.agent.ofpIoFds .cp) x.mu ∧ x.mu.getD 1 0 = ofptFeaturesReply := by
  obtain ⟨ts, t, w, hr, hgood, hlab, hhead⟩ := world_step_of_exec
    (List.replicate 5 .act ++ [recvStep (shortMsg ofptHello),
      frameStep frame60, recvStep (shortMsg ofptFeaturesRequest)] ++
      rcvSteps 1 0 ++ rcvSteps 1 0 ++
      .ipcRcv2 (Env.plain ⟨12288, ne_of_beq_false rfl⟩) :: List.replicate 2 .act)
    .act (fun w _ => Sockets w.agent)
    (fun w _ => ((w.todo.head?.bind Act.xmitted).any fun q =>
      decide (q.1 = .aSendFeatureReply)) = true) (by decide +kernel)
  obtain ⟨⟨h, x⟩, ha, hx⟩ := (Option.any_eq_true _ _).mp hhead
  obtain ⟨a, ha, hxmit⟩ := Option.bind_eq_some_iff.mp ha
  obtain ⟨todo, htodo⟩ := List.head?_eq_some_iff.mp ha
  obtain rfl : h = .aSendFeatureReply := of_decide_eq_true hx
  obtain rfl := Act.eq_of_xmitted hxmit
  obtain ⟨hsep, -⟩ := planes_separated hr hgood t
    (List.mem_append_right ts (List.mem_singleton_self t)) _ x todo hlab htodo
  obtain ⟨hsock, htype⟩ := hsep (by decide)
  exact ⟨ts, t, w, x, todo, hr, htodo, hsock, (Option.some.inj htype).symm⟩

end Ofpagent.Agent
