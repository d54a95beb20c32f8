/-
# Buffered packets and what is transmitted for them

A record of the list of learned hosts stands for a packet that the controller has been told of:
it is added when a PACKET_IN is encoded and removed when the frame for the host is.  Encoding
happens in the decoder, and transmitting in the handlers of the row that `OFP_FSM` finds for the
event, if it finds one.

`paired_of_run` says when the two go together (`Paired`): while the port is established, a mail
that fills `ofpbuf` has it transmitted in the same round, and then the ids of the PACKET_INs
transmitted are those of the records added, each once.
-/
import Ofpagent.Agent.Handshake
import Ofpagent.Agent.HostList
import Ofpagent.Agent.PacketIn
import Ofpagent.Agent.Reply

namespace Ofpagent.Agent

open Ofpagent.Lib

/-! ## 1. The mails -/

/-- A data-plane frame that is decoded. -/
def Mail.Learns : Mail → Prop
  | .drv mail => mail.len ≤ ethMtu ∧ mail.type = drivDp
  | _ => False

/-- A flow mod that takes out a host. -/
def Mail.Consumes : Mail → Prop
  | .drv mail => (Mail.drv mail).ofType = some ofptFlowMod ∧ isSetField mail.mu = true
  | _ => False

/-- The mail fills `ofpbuf` with a frame for the controller or for a host. -/
def Mail.Fills : Plane → Mail → Prop
  | .cp, m => m.Learns
  | .dp, m => m.Consumes

/-- A control message without a case, which is handled with the event of the mail before. -/
def Mail.Repeats (m : Mail) : Prop := ∃ ty, m.ofType = some ty ∧ ty ∉ handledTypes

/-- The copy of the frame stops ahead of `head`. -/
def Mail.Fits : Mail → Prop
  | .drv mail => mail.mulen.toNat + 42 ≤ headOff
  | _ => True

/-- The flow mod is for the oldest host of the list. -/
def Mail.NamesOldest (s : Ofpd) : Mail → Prop
  | .drv mail => s.port.head.any (hasBufferId s.heap (flowBufferId mail.mu)) = true
  | _ => False

instance : DecidablePred Mail.Learns := fun m =>
  match m with
  | .drv mail => inferInstanceAs (Decidable (mail.len ≤ ethMtu ∧ mail.type = drivDp))
  | .tmr _ | .other => isFalse nofun

/-! ## 2. The two handlers of `ofpbuf` -/

/-- `A_send_packet_in` and `A_send_to_host`, and the event each is called for. -/
def Plane.handler : Plane → Hdl
  | cp => .aSendPacketIn
  | dp => .aSendToHost
def Plane.event : Plane → UInt16
  | cp => ePacketIn
  | dp => eFlowMod

theorem findRow_state {state : OfpState} {event : UInt16} {r : OfpStateTbl}
    (h : findRow state event = some r) : r.state = state := by
  have hr := List.mem_of_find?_eq_some h
  simpa using List.mem_takeWhile_imp hr

theorem handler_mem_fsmHdls {pl : Plane} {state : OfpState} {event : UInt16} :
    pl.handler ∈ fsmHdls state event ↔ state = .established ∧ event = pl.event := by
  constructor
  · intro h
    cases hrow : findRow state event with
    | none => simp [fsmHdls, hrow] at h
    | some r =>
      obtain ⟨hmem, hev⟩ := findRow_mem hrow
      have hst := findRow_state hrow
      simp only [fsmHdls, hrow, Option.elim_some] at h
      subst hev hst
      fin_cases hmem <;> cases pl <;> simp_all [Plane.handler, Plane.event]
  · rintro ⟨rfl, rfl⟩
    cases pl <;> decide

/-- The row of an established port for a frame in `ofpbuf`. -/
theorem ofpFsm_frame {s : Ofpd} (pl : Plane) (e : Env) (h : s.port.state = .established) :
    ofpFsm s pl.event e = some (s.setState .established, [.fsm pl.event, .hdl pl.handler,
      .xmit pl.handler (drvXmit s s.port.frame (s.ofpIoFds pl))]) := by
  have hrow : findRow s.port.state pl.event
      = some ⟨.established, pl.event, .established, [pl.handler]⟩ := by
    rw [h]
    cases pl <;> rfl
  rw [ofpFsm, hrow]
  cases pl <;> rfl

/-- **What `OFP_FSM` transmits of `ofpbuf`**: the frame, once, for its event in the established
state. -/
theorem xmit_frame_of_fsm {s s' : Ofpd} {event : UInt16} {e : Env} {acts : List Act}
    (h : ofpFsm s event e = some (s', acts)) (pl : Plane) (x : Xmit) :
    .xmit pl.handler x ∈ acts ↔ (s.port.state = .established ∧ event = pl.event) ∧
      x = drvXmit s' s'.port.frame (s'.ofpIoFds pl) := by
  constructor
  · intro hx
    have hrow : s.port.state = .established ∧ event = pl.event := by
      obtain ⟨rest, rfl, hrest⟩ := (ofpFsm_call h).acts
      rcases List.mem_cons.mp hx with hx | hx
      · cases hx
      · obtain ⟨h', hh', hx | hx⟩ := hrest _ hx
        · cases hx
        · obtain rfl : pl.handler = h' := hx
          exact handler_mem_fsmHdls.mp hh'
    refine ⟨hrow, ?_⟩
    obtain ⟨hst, rfl⟩ := hrow
    rw [ofpFsm_frame pl e hst] at h
    cases h
    have hxmit : x = drvXmit s s.port.frame (s.ofpIoFds pl) := by simpa using hx
    exact hxmit
  · rintro ⟨⟨hst, rfl⟩, rfl⟩
    rw [ofpFsm_frame pl e hst] at h
    cases h
    exact List.mem_cons_of_mem _ (List.mem_cons_of_mem _ (List.mem_singleton_self _))

/-- What a round leaves in `ofpbuf` and of the list, if it fills nothing. -/
structure SameBuffer (s s' : Ofpd) : Prop where
  heap : s'.heap = s.heap
  block : s'.port.block = s.port.block
  bufferId : s'.bufferId = s.bufferId

theorem SameBuffer.trans {s s1 s' : Ofpd} (h : SameBuffer s s1) (h' : SameBuffer s1 s') :
    SameBuffer s s' :=
  ⟨h'.heap.trans h.heap, h'.block.trans h.block, h'.bufferId.trans h.bufferId⟩

theorem SameBuffer.setEvent (s : Ofpd) (event : UInt16) : SameBuffer s (s.setEvent event) :=
  ⟨rfl, rfl, rfl⟩

theorem SameBuffer.setSockfd (s : Ofpd) (sockfd : ℤ) : SameBuffer s (s.setSockfd sockfd) :=
  ⟨rfl, rfl, rfl⟩

theorem SameBuffer.head {s s' : Ofpd} (h : SameBuffer s s') : s'.port.head = s.port.head := by
  rw [OfpPort.head, h.block, OfpPort.head]

theorem SameBuffer.frame {s s' : Ofpd} (h : SameBuffer s s') : s'.port.frame = s.port.frame := by
  rw [OfpPort.frame, OfpPort.ofpbufLen, h.block, OfpPort.frame, OfpPort.ofpbufLen]

theorem SameBuffer.hosts {s s' : Ofpd} {l : List (Addr × HostLearn)} (h : SameBuffer s s')
    (hl : Hosts s.heap s.port.head l) : Hosts s'.heap s'.port.head l := by
  rwa [h.heap, h.head]

theorem Hdl.call_bufferId {s : Ofpd} {e : Env} {h : Hdl} {r : Ret} (hr : h.call s e = some r) :
    r.agent.bufferId = s.bufferId := by
  cases h with
  | aSendMultipartReply =>
    simp only [Hdl.call, Agent.aSendMultipartReply] at hr
    split at hr
    · cases hr
      rfl
    · obtain ⟨body, -, rfl⟩ := Option.map_eq_some_iff.mp hr
      rfl
  | _ =>
    cases hr
    rfl

theorem runHdls_bufferId {e : Env} {hs : List Hdl} {s s' : Ofpd} {acts : List Act}
    (hrun : runHdls e hs s = some (s', acts)) : s'.bufferId = s.bufferId := by
  induction hs generalizing s s' acts with
  | nil =>
    cases hrun
    rfl
  | cons h hs ih =>
    obtain ⟨r, hr, hrun⟩ := Option.bind_eq_some_iff.mp hrun
    split at hrun
    · cases hrun
      exact Hdl.call_bufferId hr
    · obtain ⟨q, hq, hrun⟩ := Option.map_eq_some_iff.mp hrun
      cases hrun
      exact (ih hq).trans (Hdl.call_bufferId hr)

theorem ofpFsm_sameBuffer {s s' : Ofpd} {event : UInt16} {e : Env} {acts : List Act}
    (h : ofpFsm s event e = some (s', acts)) : SameBuffer s s' := by
  have hsame := (ofpFsm_call h).same
  refine ⟨hsame.heap, hsame.block, ?_⟩
  unfold ofpFsm at h
  split at h
  · cases h
    rfl
  · next r hrow =>
    obtain ⟨q, hq, h⟩ := Option.map_eq_some_iff.mp h
    cases h
    have hid : q.1.bufferId = (s.setState r.nextState).bufferId := runHdls_bufferId hq
    exact hid

/-! ## 3. The two frames -/

/-- The bytes are those of a PACKET_IN for the buffered packet `b`. -/
def IsPacketIn (mu : List UInt8) (b : UInt32) : Prop :=
  mu.getD 1 0 = ofptPacketIn ∧ (mu.drop 8).take 4 = beBytes 4 b.toNat

/-- The bytes are those of a frame that is built from the record. -/
def ReplyTo (mu : List UInt8) (rec : HostLearn) : Prop :=
  ∃ srcIp dstIp e, mu = (backToHostFrame rec srcIp dstIp e).flatten

/-- The id that is read from a PACKET_IN. -/
def packetInId (mu : List UInt8) : UInt32 :=
  UInt32.ofNat (leNat ((mu.drop 8).take 4).reverse)

theorem IsPacketIn.id_eq {mu : List UInt8} {b : UInt32} (h : IsPacketIn mu b) :
    packetInId mu = b := by
  rw [packetInId, h.2, beBytes, List.reverse_reverse, leNat_leBytes,
    Nat.mod_eq_of_lt (show b.toNat < 256 ^ 4 from b.toNat_lt), UInt32.ofNat_toNat]

/-- Where the type and the id of a PACKET_IN are. -/
theorem OfpPacketIn.fields_of_holds {m : Mem} {p : OfpPacketIn} (h : m.Holds 0 p.bytes) :
    m 1 = p.header.type ∧ m.read 8 4 = leBytes 4 p.bufferId.toNat := by
  simp only [OfpPacketIn.bytes, OfpHeader.bytes, List.append_assoc, List.cons_append,
    List.nil_append, Mem.holds_append, Mem.holds_cons, leBytes_length, Nat.zero_add,
    Nat.reduceAdd] at h
  obtain ⟨-, htype, -, -, hid, -⟩ := h
  exact ⟨htype, hid.read_eq (leBytes_length 4 _)⟩

/-- The header of the PACKET_IN is in front of what is copied behind it. -/
theorem holds_encodePacketIn (p : OfpPort) (b : UInt32) (mu : Mem) (mulen : UInt16) :
    (encodePacketIn p b mu mulen).block.Holds 0 (fillPacketIn p.ofpPacketIn b mulen).bytes := by
  set pkt := fillPacketIn p.ofpPacketIn b mulen with hpkt
  have hblock : (encodePacketIn p b mu mulen).block
      = (((p.block.write 0 (List.replicate ethMtu 0)).write 0 pkt.bytes).writeAll
          [(32, leBytes 4 (htonl 1).toNat), (42, mu.read 0 mulen.toNat)]).writeLe ofpbufLenOff 2
            (mulen.toNat + 32 + 2 + 4 + 4) := rfl
  rw [hblock]
  refine (Mem.holds_write (p.block.write 0 (List.replicate ethMtu 0)) 0 pkt.bytes).congr
    fun k _ hk => ?_
  rw [OfpPacketIn.bytes_length] at hk
  rw [Mem.writeLe, Mem.write_apply_of_disjoint (Or.inl (by simp only [ofpbufLenOff, ethMtu]; omega))]
  refine Mem.writeAll_apply_of_disjoint fun c hc => Or.inl ?_
  rcases List.mem_pair.mp hc with rfl | rfl
  · omega
  · omega

/-- **The frame of a learned host** is a PACKET_IN with the id of its record. -/
theorem isPacketIn_frame {s s' : Ofpd} {mu : Mem} {mulen : UInt16} {e : Env}
    (h : ofpEncodePacketIn s mu mulen e = some s') : IsPacketIn s'.port.frame s.bufferId := by
  have hlen := ofpEncodePacketIn_ofpbufLen h
  obtain ⟨hmax, r, -, rfl⟩ := ofpEncodePacketIn_cases h
  set p := (encodePacketIn s.port s.bufferId mu mulen).setHead r.2 with hp
  have hmu : mulen.toNat ≤ 1495 := hmax
  have hsize : p.ofpbufLen.toNat = mulen.toNat + 42 := by
    rw [hlen, UInt16.toNat_ofNat']
    omega
  have hholds : p.block.Holds 0 (fillPacketIn s.port.ofpPacketIn s.bufferId mulen).bytes := by
    refine (holds_encodePacketIn s.port s.bufferId mu mulen).congr fun k _ hk => ?_
    rw [OfpPacketIn.bytes_length] at hk
    exact Mem.write_apply_of_disjoint (Or.inl (by simp only [headOff, ethMtu]; omega))
  obtain ⟨htype, hid⟩ := OfpPacketIn.fields_of_holds hholds
  have hframe : p.frame = p.block.read 0 (mulen.toNat + 42) := by rw [OfpPort.frame, hsize]
  constructor
  · change p.frame.getD 1 0 = _
    rw [hframe, Mem.getD_read _ _ (by omega), htype]
    rfl
  · change (p.frame.drop 8).take 4 = _
    rw [hframe, Mem.take_drop_read _ _ (by omega), hid, ← leBytes_htonl]
    rfl

/-- **The frame of a consumed host** is built from its record. -/
theorem replyTo_frame {s s' : Ofpd} {mu : Mem} {e : Env} {hp : Heap} {a : Addr} {rec : HostLearn}
    (hset : isSetField mu = true)
    (hfind : findNode s.heap s.port.head (flowBufferId mu) = some (hp, some a))
    (hrec : (hp.lookup a).map HostLearn.record = some rec)
    (h : ofpEncodeBackToHost s mu e = some s') : ReplyTo s'.port.frame rec := by
  obtain ⟨node, hnode, rfl⟩ := Option.map_eq_some_iff.mp hrec
  set p := s.port.reply node (u32At mu flowMatchOff) (flowDstIp mu e) e with hp'
  have hrun : ofpEncodeBackToHost s mu e = some { s with port := p, heap := hp.erase a } :=
    ofpEncodeBackToHost_eq hset hfind hnode
  rw [hrun] at h
  cases h
  refine ⟨u32At mu flowMatchOff, flowDstIp mu e, e, ?_⟩
  have hbuf : p.ofpbufLen = 50 := OfpPort.ofpbufLen_setOfpbufLen _ _
  have hframe : p.frame = p.block.read 0 50 := by
    rw [OfpPort.frame, hbuf]
    rfl
  exact hframe.trans ((s.port.holds_reply node _ _ e).read_eq
    (backToHostFrame_length node _ _ e))

/-! ## 4. One round -/

theorem controlEvent_flowMod {mu : Mem} :
    controlEvent mu = some eFlowMod ↔ mu 1 = ofptFlowMod ∧ isSetField mu = true := by
  constructor
  · intro h
    unfold controlEvent at h
    split_ifs at h with h1 h2 h3 h4 h5 h6 <;>
      first | exact ⟨h5, h6⟩ | exact absurd h (by decide)
  · rintro ⟨h5, h6⟩
    simp [controlEvent, h5, h6, ofptFlowMod, ofptHello, ofptFeaturesRequest, ofptMultipartRequest,
      ofptEchoReply]

theorem controlEvent_ne_packetIn (mu : Mem) : controlEvent mu ≠ some ePacketIn := by
  unfold controlEvent
  split_ifs <;> decide

section Decoded

variable {mail : OfpMbx}

theorem ofType_dp (hdp : mail.type = drivDp) : (Mail.drv mail).ofType = none := by
  rw [Mail.ofType, if_neg]
  exact fun h => h.2.1 hdp

theorem learns_iff (hlen : mail.len ≤ ethMtu) : (Mail.drv mail).Learns ↔ mail.type = drivDp :=
  ⟨fun h => h.2, fun h => ⟨hlen, h⟩⟩

theorem consumes_iff (hlen : mail.len ≤ ethMtu) (hdp : mail.type ≠ drivDp)
    (hfail : mail.type ≠ drivCpFail) :
    (Mail.drv mail).Consumes ↔ controlEvent mail.mu = some eFlowMod := by
  rw [Mail.Consumes, ofType_of_control rfl hlen hfail hdp, controlEvent_flowMod, Option.some.injEq]

theorem repeats_iff (hlen : mail.len ≤ ethMtu) (hdp : mail.type ≠ drivDp)
    (hfail : mail.type ≠ drivCpFail) :
    (Mail.drv mail).Repeats ↔ controlEvent mail.mu = none := by
  rw [controlEvent_eq_none, Mail.Repeats, ofType_of_control rfl hlen hfail hdp]
  simp

/-- The event of a decoded mail is the one of a frame in `ofpbuf` if the mail fills it, or leaves
the event that is there. -/
theorem event_eq_iff (hlen : mail.len ≤ ethMtu) (hfail : mail.type ≠ drivCpFail) (pl : Plane)
    (event : UInt16) : mail.event.getD event = pl.event ↔
      (Mail.drv mail).Fills pl ∨ (Mail.drv mail).Repeats ∧ event = pl.event := by
  unfold OfpMbx.event
  split_ifs with hdp
  · have hno : ¬ (Mail.drv mail).Repeats := by
      rintro ⟨ty, hty, -⟩
      rw [ofType_dp hdp] at hty
      cases hty
    rw [Option.getD_some, or_iff_left (fun h => hno h.1)]
    cases pl with
    | cp => exact iff_of_true rfl ⟨hlen, hdp⟩
    | dp =>
      refine iff_of_false (by decide) fun h => ?_
      have hty := h.1
      rw [ofType_dp hdp] at hty
      cases hty
  · have hrep := repeats_iff hlen hdp hfail
    have hcons := consumes_iff hlen hdp hfail
    have hlearn := learns_iff hlen
    cases hev : controlEvent mail.mu with
    | none =>
      rw [Option.getD_none, or_iff_right, and_iff_right (hrep.mpr hev)]
      cases pl with
      | cp => exact fun h => hdp (hlearn.mp h)
      | dp =>
        intro h
        rw [hcons.mp h] at hev
        cases hev
    | some ev =>
      have hno : ¬ (Mail.drv mail).Repeats := by
        intro h
        rw [hrep.mp h] at hev
        cases hev
      rw [Option.getD_some, or_iff_left (fun h => hno h.1)]
      cases pl with
      | cp =>
        refine iff_of_false (fun h => ?_) fun h => hdp (hlearn.mp h)
        exact controlEvent_ne_packetIn mail.mu (hev.trans (congrArg some h))
      | dp =>
        change ev = eFlowMod ↔ (Mail.drv mail).Consumes
        rw [hcons, hev, Option.some.injEq]

end Decoded

/-- The mail is decoded, and not as the failure of the control connection. -/
def Mail.Decodes : Mail → Prop
  | .drv mail => mail.len ≤ ethMtu ∧ mail.type ≠ drivCpFail
  | _ => False

theorem decodes_of_ofType {m : Mail} {ty : UInt8} (h : m.ofType = some ty) : m.Decodes := by
  cases m with
  | drv mail =>
    rw [Mail.ofType] at h
    split_ifs at h with hc
    exact ⟨hc.1, hc.2.2⟩
  | tmr prim => cases h
  | other => cases h

theorem decodes_of_fills (pl : Plane) {m : Mail} (h : m.Fills pl) : m.Decodes := by
  cases m with
  | drv mail =>
    cases pl with
    | cp => exact ⟨h.1, by rw [h.2]; decide⟩
    | dp => exact decodes_of_ofType h.1
  | tmr prim => cases pl <;> cases h
  | other => cases pl <;> cases h

/-- What one round is: nothing, a call of `OFP_FSM` for the timer, a restart, or a mail decoded and
handed to `OFP_FSM`. -/
inductive Did (s : Ofpd) (r : Round) : Ofpd → List Act → Prop
  | quiet : ¬ r.mail.Decodes → ¬ r.mail.Restarts → Did s r s []
  | timer {s' : Ofpd} {acts : List Act} : r.mail = .tmr (keepalivePrim s.ccb) →
      ofpFsm s eOfpTimeout r.env = some (s', acts) → Did s r s' acts
  | restart : ¬ r.mail.Decodes → r.mail.Restarts → ∀ s1 : Ofpd, SameBuffer s s1 → SameCtl s s1 →
      s1.port.event = s.port.event →
      Did s r ((ofpdReady s1 r.env).setState .helloWait)
        (.killTasks :: .tmrInit :: .forkCp :: .fsm eStart :: .hdl .aSendHello ::
          (aSendHello ((ofpdReady s1 r.env).setState .helloWait)).acts)
  | decode {mail : OfpMbx} {s1 s' : Ofpd} {acts : List Act} : r.mail = .drv mail →
      mail.len ≤ ethMtu → mail.type ≠ drivCpFail → ofpDecodeFrame s mail r.env = some (.ok, s1) →
      ofpFsm s1 s1.port.event r.env = some (s', acts) → Did s r s' acts

/-- The round of a timeout. -/
theorem agent_timer {s s' : Ofpd} {prim : IpcPrim} {e : Env}
    (h : agent.step s ⟨.tmr prim, e⟩ s') :
    ofpFsm s eOfpTimeout e = some (s', s.acts ⟨.tmr prim, e⟩) := by
  obtain ⟨-, hsent, acts, hrun⟩ := Ofpd.round_cases h
  have hacts : s.acts ⟨.tmr prim, e⟩ = acts := by simp [Ofpd.acts, hrun]
  rw [hacts]
  obtain rfl : prim = keepalivePrim s.ccb := hsent
  have hev : eOfpTimeout.toUInt8.toUInt16 = eOfpTimeout := rfl
  simpa only [mainStep, keepalivePrim, if_true, hev] using hrun

theorem agent_did {s s' : Ofpd} {r : Round} (h : agent.step s r s') :
    r.env.node ∉ s.heap ∧ Did s r s' (s.acts r) := by
  obtain ⟨hnode, hsent, acts, hrun⟩ := Ofpd.round_cases h
  have hacts : s.acts r = acts := by simp [Ofpd.acts, hrun]
  rw [hacts]
  refine ⟨hnode, ?_⟩
  obtain ⟨m, e⟩ := r
  cases m with
  | other =>
    cases hrun
    exact .quiet (fun h => h) (fun h => h)
  | tmr prim =>
    have hfsm := agent_timer h
    rw [hacts] at hfsm
    exact .timer (congrArg Mail.tmr hsent) hfsm
  | drv mail =>
    simp only [mainStep] at hrun
    split at hrun
    · cases hrun
    · next s1 hd =>
      cases hrun
      cases ofpDecodeFrame_decoded hd with
      | error hlen => exact .quiet (fun h => not_lt.mpr h.1 hlen) (fun h => not_lt.mpr h.1 hlen)
    · next s1 hd =>
      cases ofpDecodeFrame_decoded hd with
      | restart hlen hfail =>
        simp only [ofpdRestart_eq, Option.map_some, Option.some.injEq, Prod.mk.injEq] at hrun
        obtain ⟨rfl, rfl⟩ := hrun
        have hdec : ¬ (Mail.drv mail).Decodes := fun h => h.2 hfail
        have hres : (Mail.drv mail).Restarts := ⟨hlen, hfail⟩
        have hbuf := SameBuffer.setSockfd s mail.sockfd
        have hctl := SameCtl.setSockfd s mail.sockfd
        refine Did.restart (r := ⟨.drv mail, e⟩) hdec hres _ (hbuf.trans ⟨rfl, rfl, rfl⟩)
          (hctl.trans ⟨rfl, rfl, rfl, rfl, rfl⟩) ?_
        exact Ofpd.setSockfd_event s mail.sockfd
    · next s1 hd =>
      cases ofpDecodeFrame_decoded hd with
      | ok hlen hfail _ _ => exact .decode rfl hlen hfail hd hrun

/-- **What a round transmits of `ofpbuf`**: what the round has put there, or what an earlier one
has left, and only while the port is established. -/
theorem xmit_frame_iff {s s' : Ofpd} {r : Round} (h : agent.step s r s') (pl : Plane) (x : Xmit) :
    .xmit pl.handler x ∈ s.acts r ↔
      (s.port.state = .established ∧
        (r.mail.Fills pl ∨ r.mail.Repeats ∧ s.port.event = pl.event)) ∧
      x = drvXmit s' s'.port.frame (s'.ofpIoFds pl) := by
  have hno : ¬ r.mail.Decodes →
      ¬ (r.mail.Fills pl ∨ r.mail.Repeats ∧ s.port.event = pl.event) := by
    rintro hdec (hfill | ⟨⟨ty, hty, -⟩, -⟩)
    · exact hdec (decodes_of_fills pl hfill)
    · exact hdec (decodes_of_ofType hty)
  have hdid := (agent_did h).2
  generalize s.acts r = acts at hdid ⊢
  cases hdid with
  | quiet hdec => exact iff_of_false (by simp) fun h => hno hdec h.1.2
  | timer hm hrun =>
    have hdec : ¬ r.mail.Decodes := by
      rw [hm]
      exact fun h => h
    refine iff_of_false (fun hx => ?_) fun h => hno hdec h.1.2
    have hev := ((xmit_frame_of_fsm hrun pl x).mp hx).1.2
    cases pl <;> exact absurd hev (by decide)
  | restart hdec =>
    refine iff_of_false (fun hx => ?_) fun h => hno hdec h.1.2
    cases pl <;> simp [Plane.handler, aSendHello] at hx
  | decode hm hlen hfail hd hrun =>
    rw [xmit_frame_of_fsm hrun pl x, hm]
    cases ofpDecodeFrame_decoded hd with
    | ok _ _ hsame hev => rw [hsame.state, hev, event_eq_iff hlen hfail pl]

/-- All that is done in a round that fills `ofpbuf`, by an established port. -/
theorem acts_of_fills {s s' : Ofpd} {r : Round} (h : agent.step s r s') (pl : Plane)
    (hfill : r.mail.Fills pl) (hst : s.port.state = .established) :
    s.acts r = [.fsm pl.event, .hdl pl.handler,
      .xmit pl.handler (drvXmit s' s'.port.frame (s'.ofpIoFds pl))] := by
  have hdec := decodes_of_fills pl hfill
  have hdid := (agent_did h).2
  generalize s.acts r = acts at hdid ⊢
  cases hdid with
  | quiet hno => exact absurd hdec hno
  | timer hm =>
    rw [hm] at hdec
    cases hdec
  | restart hno => exact absurd hdec hno
  | decode hm hlen hfail hd hrun =>
    cases ofpDecodeFrame_decoded hd with
    | ok _ _ hctl hev =>
      have hevent := (event_eq_iff hlen hfail pl s.port.event).mpr (.inl (hm ▸ hfill))
      rw [hev, hevent, ofpFsm_frame pl r.env (hctl.state.trans hst)] at hrun
      cases hrun
      rfl

/-- The event of a frame comes from a mail that fills `ofpbuf`, or was there before. -/
theorem event_of_round {s s' : Ofpd} {r : Round} (h : agent.step s r s') (pl : Plane)
    (hev : s'.port.event = pl.event) : r.mail.Fills pl ∨ s.port.event = pl.event := by
  have hdid := (agent_did h).2
  generalize s.acts r = acts at hdid
  cases hdid with
  | quiet => exact .inr hev
  | timer _ hrun => exact .inr ((ofpFsm_call hrun).same.event.symm.trans hev)
  | restart _ _ s1 _ _ hev1 => exact .inr (hev1.symm.trans hev)
  | decode hm hlen hfail hd hrun =>
    cases ofpDecodeFrame_decoded hd with
    | ok _ _ _ hev1 =>
      have hevent : _ = pl.event := hev1.symm.trans ((ofpFsm_call hrun).same.event.symm.trans hev)
      rw [hm]
      exact ((event_eq_iff hlen hfail pl _).mp hevent).imp_right And.right

/-- What a round does to the list `l`, and to the frame in `ofpbuf`. -/
inductive RoundHosts (s : Ofpd) (r : Round) (l : List (Addr × HostLearn)) (s' : Ofpd) : Prop
  | same : ¬ r.mail.Learns → ¬ r.mail.Consumes → ¬ r.mail.Restarts → SameBuffer s s' →
      RoundHosts s r l s'
  | learn {mu : Mem} : r.mail.Learns →
      Hosts s'.heap s'.port.head (l ++ [(r.env.node, hostOf mu s.bufferId)]) →
      s'.bufferId = s.bufferId + 1 → IsPacketIn s'.port.frame s.bufferId → RoundHosts s r l s'
  | consume {l₁ l₂ : List (Addr × HostLearn)} {y : Addr × HostLearn} : r.mail.Consumes →
      l = l₁ ++ y :: l₂ → Hosts s'.heap s'.port.head (l₁ ++ l₂) → s'.bufferId = s.bufferId →
      ReplyTo s'.port.frame y.2 → RoundHosts s r l s'
  | restart : r.mail.Restarts → Hosts s'.heap s'.port.head [] → s'.bufferId = s.bufferId →
      Mem.Agree headOff s.port.block s'.port.block → RoundHosts s r l s'

theorem RoundHosts.trans {s s1 s' : Ofpd} {r : Round} {l : List (Addr × HostLearn)}
    (h : RoundHosts s r l s1) (h' : SameBuffer s1 s') : RoundHosts s r l s' := by
  cases h with
  | same hl hc hr hs => exact .same hl hc hr (hs.trans h')
  | learn hl hh hb hf => exact .learn hl (h'.hosts hh) (h'.bufferId.trans hb) (h'.frame ▸ hf)
  | consume hc hl hh hb hf =>
    exact .consume hc hl (h'.hosts hh) (h'.bufferId.trans hb) (h'.frame ▸ hf)
  | restart hr hh hb hf => exact .restart hr (h'.hosts hh) (h'.bufferId.trans hb) (h'.block ▸ hf)

theorem not_restarts_of_decodes {m : Mail} (h : m.Decodes) : ¬ m.Restarts := by
  cases m with
  | drv mail => exact fun hr => h.2 hr.2
  | tmr prim => cases h
  | other => cases h

/-- A control message that consumes nothing leaves list and `ofpbuf`. -/
theorem decodeControl_sameBuffer {s s' : Ofpd} {mu : Mem} {e : Env}
    (h : decodeControl s mu e = some s') (hno : controlEvent mu ≠ some eFlowMod) :
    SameBuffer s s' := by
  by_cases hflow : mu 1 = ofptFlowMod
  · have hset : ¬ isSetField mu = true := fun hset => hno (controlEvent_flowMod.mpr ⟨hflow, hset⟩)
    rw [decodeControl_flowMod hflow, ofpEncodeBackToHost, if_neg hset] at h
    cases h
    exact ⟨rfl, rfl, rfl⟩
  · obtain ⟨hdr, mp, rfl⟩ := decodeControl_cases hflow h
    exact ⟨rfl, rfl, rfl⟩

section Hosts

variable {s s' : Ofpd} {l : List (Addr × HostLearn)} {r : Round} {e : Env}

/-- The first encoder, on a list. -/
theorem learn_hosts {mu : Mem} {mulen : UInt16} (hl : Hosts s.heap s.port.head l)
    (hnode : e.node ∉ s.heap) (hkeep : mulen.toNat + 42 ≤ headOff)
    (h : ofpEncodePacketIn s mu mulen e = some s') :
    Hosts s'.heap s'.port.head (l ++ [(e.node, hostOf mu s.bufferId)]) ∧
      s'.bufferId = s.bufferId + 1 ∧ IsPacketIn s'.port.frame s.bufferId := by
  obtain ⟨s2, hs2, hhosts, hid, -⟩ : ∃ s2, ofpEncodePacketIn s mu mulen e = some s2 ∧ _ :=
    ofpEncodePacketIn_hosts hl hnode hkeep
  obtain rfl : s2 = s' := Option.some.inj (hs2.symm.trans h)
  exact ⟨hhosts, hid, isPacketIn_frame h⟩

/-- The second encoder, on a list whose oldest host is another one. -/
theorem consume_hosts {mu : Mem} (hl : Hosts s.heap s.port.head l) (hset : isSetField mu = true)
    (hold : ¬ s.port.head.any (hasBufferId s.heap (flowBufferId mu)) = true)
    (h : ofpEncodeBackToHost s mu e = some s') :
    ∃ l₁ y l₂, l = l₁ ++ y :: l₂ ∧ Hosts s'.heap s'.port.head (l₁ ++ l₂) ∧
      s'.bufferId = s.bufferId ∧ ReplyTo s'.port.frame y.2 := by
  rcases hl.findNode (flowBufferId mu) with ⟨-, hf⟩ | ⟨hp, a, hf, l₁, rec, l₂, rfl, hid, hbefore,
    hrec, hlist, -⟩
  · simp [ofpEncodeBackToHost, hset, hf] at h
  · have hreply := replyTo_frame hset hf hrec h
    have hne : l₁ ≠ [] := by
      rintro rfl
      have hhead : s.port.head = some a := hl.seg.1
      have hrecord := hl.hasBufferId (flowBufferId mu) (x := (a, rec)) (by simp)
      simp only at hrecord hid
      rw [hid, beq_self_eq_true] at hrecord
      exact hold (by rw [hhead, Option.any_some, hrecord])
    obtain ⟨node, hnode, -⟩ := Option.map_eq_some_iff.mp hrec
    rw [ofpEncodeBackToHost_eq hset hf hnode] at h
    cases h
    refine ⟨l₁, (a, rec), l₂, rfl, ?_, rfl, hreply⟩
    rw [OfpPort.head_reply]
    exact hlist hne

/-- **The list behind a round**, as long as `head` stays with the list. -/
theorem round_hosts (h : agent.step s r s') (hl : Hosts s.heap s.port.head l)
    (hfits : r.mail.Learns → r.mail.Fits) (hold : r.mail.Consumes → ¬ r.mail.NamesOldest s) :
    RoundHosts s r l s' := by
  obtain ⟨hnode, hdid⟩ := agent_did h
  have hquiet : ¬ r.mail.Decodes → ¬ r.mail.Learns ∧ ¬ r.mail.Consumes := fun hdec =>
    ⟨fun hf => hdec (decodes_of_fills .cp hf), fun hf => hdec (decodes_of_fills .dp hf)⟩
  generalize s.acts r = acts at hdid
  cases hdid with
  | quiet hdec hres => exact .same (hquiet hdec).1 (hquiet hdec).2 hres ⟨rfl, rfl, rfl⟩
  | timer hm hrun =>
    refine .same ?_ ?_ ?_ (ofpFsm_sameBuffer hrun) <;>
      · rw [hm]
        exact fun h => h
  | restart hdec hres s1 hbuf =>
    refine .restart hres ?_ hbuf.bufferId fun i hi => ?_
    · rw [(ofpdReady_restarted s1 r.env).head]
      exact Hosts.empty _
    · rw [← hbuf.block]
      exact Mem.write_apply_of_disjoint (Or.inl hi)
  | @decode mail s1 _ _ hm hlen hfail hd hrun =>
    refine RoundHosts.trans ?_ (ofpFsm_sameBuffer hrun)
    have hres : ¬ r.mail.Restarts := not_restarts_of_decodes (by rw [hm]; exact ⟨hlen, hfail⟩)
    by_cases hdp : mail.type = drivDp
    · have hlearn : r.mail.Learns := by
        rw [hm]
        exact ⟨hlen, hdp⟩
      have hkeep : mail.mulen.toNat + 42 ≤ headOff := by
        have := hfits hlearn
        rwa [hm] at this
      rw [ofpDecodeFrame_dp hlen hdp] at hd
      obtain ⟨s2, hs2, hd⟩ := Option.map_eq_some_iff.mp hd
      cases hd
      have hfd := SameBuffer.setSockfd s mail.sockfd
      have hnode1 : r.env.node ∉ (s.setSockfd mail.sockfd).heap := by rwa [hfd.heap]
      obtain ⟨hhosts, hid, hframe⟩ := learn_hosts (hfd.hosts hl) hnode1 hkeep hs2
      rw [hfd.bufferId] at hhosts hid hframe
      have hev := SameBuffer.setEvent s2 ePacketIn
      exact .learn hlearn (hev.hosts hhosts) (hev.bufferId.trans hid) (hev.frame ▸ hframe)
    · rw [ofpDecodeFrame_control hlen hdp hfail] at hd
      obtain ⟨s2, hs2, hd⟩ := Option.map_eq_some_iff.mp hd
      cases hd
      have hlearn : ¬ r.mail.Learns := by
        rw [hm]
        exact fun h => hdp h.2
      have hcons := consumes_iff hlen hdp hfail
      rw [← hm] at hcons
      by_cases hc : r.mail.Consumes
      · obtain ⟨hflow, hset⟩ := controlEvent_flowMod.mp (hcons.mp hc)
        have holdest : ¬ s.port.head.any (hasBufferId s.heap (flowBufferId mail.mu)) = true := by
          have := hold hc
          rwa [hm] at this
        rw [decodeControl_flowMod hflow] at hs2
        have hbuf := (SameBuffer.setSockfd s mail.sockfd).trans (.setEvent _ eFlowMod)
        rw [← hbuf.head, ← hbuf.heap] at holdest
        obtain ⟨l₁, y, l₂, heq, hhosts, hid, hreply⟩ :=
          consume_hosts (hbuf.hosts hl) hset holdest hs2
        exact .consume hc heq hhosts (hid.trans hbuf.bufferId) hreply
      · have hbuf := decodeControl_sameBuffer hs2 fun hev => hc (hcons.mpr hev)
        exact .same hlearn hc hres ((SameBuffer.setSockfd s mail.sockfd).trans hbuf)

end Hosts

/-! ## 5. Records and transmissions -/

/-- The descriptor a call of `drv_xmit` is given. -/
def Xmit.sockfd : Xmit → ℤ
  | send sockfd _ | sendto sockfd _ => sockfd

theorem drvXmit_sockfd (s : Ofpd) (mu : List UInt8) (sockfd : ℤ) :
    (drvXmit s mu sockfd).sockfd = sockfd := by
  unfold drvXmit
  split <;> rfl

theorem drvXmit_mu (s : Ofpd) (mu : List UInt8) (sockfd : ℤ) : (drvXmit s mu sockfd).mu = mu := by
  unfold drvXmit
  split <;> rfl

/-- The step adds a record with the id `b` to the list. -/
def Adds (t : Transition Ofpd Round) (b : UInt32) : Prop :=
  ∃ l l' y, Hosts t.pre.heap t.pre.port.head l ∧ Hosts t.post.heap t.post.port.head l' ∧
    y ∈ l' ∧ y ∉ l ∧ y.2.bufferId = b

/-- The step removes the record `y` from the list. -/
def Removes (t : Transition Ofpd Round) (y : Addr × HostLearn) : Prop :=
  ∃ l l', Hosts t.pre.heap t.pre.port.head l ∧ Hosts t.post.heap t.post.port.head l' ∧
    y ∈ l ∧ y ∉ l'

/-- **The list and the wire agree** about a step: a record is added if and only if the PACKET_IN
with its id goes to the controller, and removed if and only if the frame built from it goes to the
host. -/
structure Agrees (t : Transition Ofpd Round) : Prop where
  added : ∀ b, Adds t b → ∃ x, .xmit .aSendPacketIn x ∈ t.pre.acts t.lab ∧
    x.sockfd = t.post.ofpIoFds .cp ∧ IsPacketIn x.mu b
  announced : ∀ x, .xmit .aSendPacketIn x ∈ t.pre.acts t.lab → ∃ b, Adds t b ∧ IsPacketIn x.mu b
  removed : ∀ y, Removes t y → ∃ x, .xmit .aSendToHost x ∈ t.pre.acts t.lab ∧
    x.sockfd = t.post.ofpIoFds .dp ∧ ReplyTo x.mu y.2
  replied : ∀ x, .xmit .aSendToHost x ∈ t.pre.acts t.lab → ∃ y, Removes t y ∧ ReplyTo x.mu y.2

/-- A round in which they do: frames are buffered, and buffered packets consumed, by an
established port, no event is handled a second time, and a restart forgets nothing. -/
structure Paired (s : Ofpd) (r : Round) : Prop where
  learns : r.mail.Learns → s.port.state = .established ∧ r.mail.Fits
  consumes : r.mail.Consumes → s.port.state = .established ∧ ¬ r.mail.NamesOldest s
  restarts : r.mail.Restarts → s.port.head = none
  repeats : r.mail.Repeats → s.port.state = .established → ∀ pl : Plane, s.port.event ≠ pl.event

/-- A list has one reading, records included. -/
theorem Hosts.unique {hp : Heap} {head : Ptr} {l l' : List (Addr × HostLearn)}
    (h : Hosts hp head l) (h' : Hosts hp head l') : l = l' := by
  have hmap : ∀ {l}, Hosts hp head l → (l.map Prod.fst).map
      (fun a => (a, (hp.lookup a).map HostLearn.record)) = l.map fun y => (y.1, some y.2) := by
    intro l hl
    rw [List.map_map]
    exact List.map_congr_left fun y hy => by rw [Function.comp_apply, hl.recs y hy]
  have hfst := Seg.unique h.seg h'.seg
  have heq := (hmap h).symm.trans ((congrArg _ hfst).trans (hmap h'))
  refine List.map_injective_iff.mpr (fun y z hyz => ?_) heq
  exact Prod.ext (Prod.mk.inj hyz).1 (Option.some.inj (Prod.mk.inj hyz).2)

section Kinds

variable {m : Mail}

theorem ofType_of_learns (h : m.Learns) : m.ofType = none := by
  cases m with
  | drv mail => exact ofType_dp h.2
  | tmr prim => cases h
  | other => cases h

theorem ofType_of_consumes (h : m.Consumes) : m.ofType = some ofptFlowMod := by
  cases m with
  | drv mail => exact h.1
  | tmr prim => cases h
  | other => cases h

theorem not_repeats_of_learns (h : m.Learns) : ¬ m.Repeats := by
  rintro ⟨ty, hty, -⟩
  rw [ofType_of_learns h] at hty
  cases hty

theorem not_repeats_of_consumes (h : m.Consumes) : ¬ m.Repeats := by
  rintro ⟨ty, hty, hno⟩
  rw [ofType_of_consumes h] at hty
  cases hty
  exact hno (by decide)

theorem not_consumes_of_learns (h : m.Learns) : ¬ m.Consumes := by
  intro hc
  have hty := ofType_of_consumes hc
  rw [ofType_of_learns h] at hty
  cases hty

theorem not_decodes_of_restarts (h : m.Restarts) : ¬ m.Decodes := fun hd =>
  not_restarts_of_decodes hd h

end Kinds

section Step

variable {s s' : Ofpd} {r : Round} {l : List (Addr × HostLearn)}

/-- No frame is transmitted in a round that neither fills `ofpbuf` nor handles an event again. -/
theorem no_frame (h : agent.step s r s') (pl : Plane) (hfill : ¬ r.mail.Fills pl)
    (hrep : r.mail.Repeats → s.port.state = .established → s.port.event ≠ pl.event) (x : Xmit) :
    .xmit pl.handler x ∉ s.acts r := by
  intro hx
  obtain ⟨⟨hst, hf | ⟨hr, hev⟩⟩, -⟩ := (xmit_frame_iff h pl x).mp hx
  · exact hfill hf
  · exact hrep hr hst hev

/-- The frame of a round that fills `ofpbuf`. -/
theorem frame_of_fills (h : agent.step s r s') (pl : Plane) (hfill : r.mail.Fills pl)
    (hst : s.port.state = .established) : ∃ x, .xmit pl.handler x ∈ s.acts r ∧
      x.sockfd = s'.ofpIoFds pl ∧ x.mu = s'.port.frame :=
  ⟨_, (xmit_frame_iff h pl _).mpr ⟨⟨hst, .inl hfill⟩, rfl⟩, drvXmit_sockfd _ _ _, drvXmit_mu _ _ _⟩

/-- A list that is unchanged: nothing is added or removed. -/
theorem adds_iff {t : Transition Ofpd Round} {l l' : List (Addr × HostLearn)}
    (hl : Hosts t.pre.heap t.pre.port.head l) (hl' : Hosts t.post.heap t.post.port.head l')
    (b : UInt32) : Adds t b ↔ ∃ y, y ∈ l' ∧ y ∉ l ∧ y.2.bufferId = b := by
  constructor
  · rintro ⟨k, k', y, hk, hk', hy⟩
    rw [hk.unique hl, hk'.unique hl'] at hy
    exact ⟨y, hy⟩
  · rintro ⟨y, hy⟩
    exact ⟨l, l', y, hl, hl', hy⟩

theorem removes_iff {t : Transition Ofpd Round} {l l' : List (Addr × HostLearn)}
    (hl : Hosts t.pre.heap t.pre.port.head l) (hl' : Hosts t.post.heap t.post.port.head l')
    (y : Addr × HostLearn) : Removes t y ↔ y ∈ l ∧ y ∉ l' := by
  constructor
  · rintro ⟨k, k', hk, hk', hy⟩
    rwa [hk.unique hl, hk'.unique hl'] at hy
  · intro hy
    exact ⟨l, l', hl, hl', hy⟩

/-- A round that leaves list and `ofpbuf`. -/
theorem agrees_iff_of_same (h : agent.step s r s') (hl : Hosts s.heap s.port.head l)
    (hlearn : ¬ r.mail.Learns) (hcons : ¬ r.mail.Consumes) (hres : ¬ r.mail.Restarts)
    (hsame : SameBuffer s s') : Agrees ⟨s, r, s'⟩ ↔ Paired s r := by
  have hl' : Hosts s'.heap s'.port.head l := by rwa [hsame.heap, hsame.head]
  have hadd : ∀ b, ¬ Adds ⟨s, r, s'⟩ b := by
    intro b hb
    obtain ⟨y, hy, hno, -⟩ := (adds_iff hl hl' b).mp hb
    exact hno hy
  have hrem : ∀ y, ¬ Removes ⟨s, r, s'⟩ y := by
    intro y hy
    have hmem := (removes_iff hl hl' y).mp hy
    exact hmem.2 hmem.1
  have hfill : ∀ pl : Plane, ¬ r.mail.Fills pl := by
    intro pl
    cases pl
    · exact hlearn
    · exact hcons
  constructor
  · intro hag
    refine ⟨fun h => absurd h hlearn, fun h => absurd h hcons, fun h => absurd h hres, ?_⟩
    intro hrep hst pl hev
    have hx := (xmit_frame_iff h pl _).mpr ⟨⟨hst, .inr ⟨hrep, hev⟩⟩, rfl⟩
    cases pl with
    | cp =>
      obtain ⟨b, hb, -⟩ := hag.announced _ hx
      exact hadd b hb
    | dp =>
      obtain ⟨y, hy, -⟩ := hag.replied _ hx
      exact hrem y hy
  · intro hp
    refine ⟨fun b hb => absurd hb (hadd b), ?_, fun y hy => absurd hy (hrem y), ?_⟩
    · intro x hx
      exact absurd hx (no_frame h .cp (hfill .cp) (fun hr hst => hp.repeats hr hst .cp) x)
    · intro x hx
      exact absurd hx (no_frame h .dp (hfill .dp) (fun hr hst => hp.repeats hr hst .dp) x)

/-- A round that buffers a frame. -/
theorem agrees_iff_of_learn {rec : HostLearn} (h : agent.step s r s')
    (hl : Hosts s.heap s.port.head l) (hlearn : r.mail.Learns) (hfits : r.mail.Fits)
    (hl' : Hosts s'.heap s'.port.head (l ++ [(r.env.node, rec)])) (hid : rec.bufferId = s.bufferId)
    (hframe : IsPacketIn s'.port.frame s.bufferId) : Agrees ⟨s, r, s'⟩ ↔ Paired s r := by
  have hcons := not_consumes_of_learns hlearn
  have hrep := not_repeats_of_learns hlearn
  have hres := not_restarts_of_decodes (decodes_of_fills .cp hlearn)
  have hnew : (r.env.node, rec) ∉ l := by
    intro hmem
    exact (agent_did h).1 (hl.mem (List.mem_map_of_mem hmem))
  have hadd : ∀ b, Adds ⟨s, r, s'⟩ b ↔ b = s.bufferId := by
    intro b
    rw [adds_iff hl hl']
    constructor
    · rintro ⟨y, hy, hno, rfl⟩
      rcases List.mem_append.mp hy with hy | hy
      · exact absurd hy hno
      · rw [List.mem_singleton.mp hy, hid]
    · rintro rfl
      exact ⟨_, List.mem_append_right _ (List.mem_singleton_self _), hnew, hid⟩
  have hrem : ∀ y, ¬ Removes ⟨s, r, s'⟩ y := by
    intro y hy
    have hmem := (removes_iff hl hl' y).mp hy
    exact hmem.2 (List.mem_append_left _ hmem.1)
  constructor
  · intro hag
    refine ⟨fun _ => ⟨?_, hfits⟩, fun h => absurd h hcons, fun h => absurd h hres,
      fun h => absurd h hrep⟩
    obtain ⟨x, hx, -⟩ := hag.added s.bufferId ((hadd _).mpr rfl)
    exact ((xmit_frame_iff h .cp x).mp hx).1.1
  · intro hp
    refine ⟨?_, ?_, fun y hy => absurd hy (hrem y), ?_⟩
    · intro b hb
      obtain ⟨x, hx, hfd, hmu⟩ := frame_of_fills h .cp hlearn (hp.learns hlearn).1
      exact ⟨x, hx, hfd, by rwa [hmu, (hadd b).mp hb]⟩
    · intro x hx
      have hmu := ((xmit_frame_iff h .cp x).mp hx).2
      exact ⟨s.bufferId, (hadd _).mpr rfl, by rwa [hmu, drvXmit_mu]⟩
    · intro x hx
      exact absurd hx (no_frame h .dp hcons (fun hr => absurd hr hrep) x)

/-- A round that consumes a host. -/
theorem agrees_iff_of_consume {l₁ l₂ : List (Addr × HostLearn)} {y : Addr × HostLearn}
    (h : agent.step s r s') (hl : Hosts s.heap s.port.head (l₁ ++ y :: l₂))
    (hcons : r.mail.Consumes) (hold : ¬ r.mail.NamesOldest s)
    (hl' : Hosts s'.heap s'.port.head (l₁ ++ l₂)) (hframe : ReplyTo s'.port.frame y.2) :
    Agrees ⟨s, r, s'⟩ ↔ Paired s r := by
  have hlearn : ¬ r.mail.Learns := fun hl => not_consumes_of_learns hl hcons
  have hrep := not_repeats_of_consumes hcons
  have hres := not_restarts_of_decodes (decodes_of_fills .dp hcons)
  have hout : y ∉ l₁ ++ l₂ := by
    have hperm : (l₁ ++ y :: l₂).Perm (y :: (l₁ ++ l₂)) := List.perm_middle
    exact (List.nodup_cons.mp (hperm.nodup_iff.mp hl.nodup.of_map)).1
  have hadd : ∀ b, ¬ Adds ⟨s, r, s'⟩ b := by
    intro b hb
    obtain ⟨z, hz, hno, -⟩ := (adds_iff hl hl' b).mp hb
    refine hno ?_
    rcases List.mem_append.mp hz with hz | hz
    · exact List.mem_append_left _ hz
    · exact List.mem_append_right _ (List.mem_cons_of_mem _ hz)
  have hrem : ∀ z, Removes ⟨s, r, s'⟩ z ↔ z = y := by
    intro z
    rw [removes_iff hl hl']
    constructor
    · rintro ⟨hz, hno⟩
      rw [List.mem_append, List.mem_cons] at hz
      rw [List.mem_append, not_or] at hno
      rcases hz with hz | hz | hz
      · exact absurd hz hno.1
      · exact hz
      · exact absurd hz hno.2
    · rintro rfl
      exact ⟨List.mem_append_right _ List.mem_cons_self, hout⟩
  constructor
  · intro hag
    refine ⟨fun h => absurd h hlearn, fun _ => ⟨?_, hold⟩, fun h => absurd h hres,
      fun h => absurd h hrep⟩
    obtain ⟨x, hx, -⟩ := hag.removed y ((hrem _).mpr rfl)
    exact ((xmit_frame_iff h .dp x).mp hx).1.1
  · intro hp
    refine ⟨fun b hb => absurd hb (hadd b), ?_, ?_, ?_⟩
    · intro x hx
      exact absurd hx (no_frame h .cp hlearn (fun hr => absurd hr hrep) x)
    · intro z hz
      obtain ⟨x, hx, hfd, hmu⟩ := frame_of_fills h .dp hcons (hp.consumes hcons).1
      exact ⟨x, hx, hfd, by rwa [hmu, (hrem z).mp hz]⟩
    · intro x hx
      have hmu := ((xmit_frame_iff h .dp x).mp hx).2
      exact ⟨y, (hrem _).mpr rfl, by rwa [hmu, drvXmit_mu]⟩

/-- A restart. -/
theorem agrees_iff_of_restart (h : agent.step s r s') (hl : Hosts s.heap s.port.head l)
    (hres : r.mail.Restarts) (hl' : Hosts s'.heap s'.port.head []) :
    Agrees ⟨s, r, s'⟩ ↔ Paired s r := by
  have hdec := not_decodes_of_restarts hres
  have hfill : ∀ pl : Plane, ¬ r.mail.Fills pl := fun pl hf => hdec (decodes_of_fills pl hf)
  have hrep : ¬ r.mail.Repeats := fun ⟨_, hty, _⟩ => hdec (decodes_of_ofType hty)
  have hno : ∀ (pl : Plane) x, .xmit pl.handler x ∉ s.acts r := fun pl x =>
    no_frame h pl (hfill pl) (fun hr => absurd hr hrep) x
  constructor
  · intro hag
    refine ⟨fun h => absurd h (hfill .cp), fun h => absurd h (hfill .dp), ?_,
      fun h => absurd h hrep⟩
    intro _
    cases l with
    | nil => exact hl.seg
    | cons y l =>
      obtain ⟨x, hx, -⟩ := hag.removed y ((removes_iff hl hl' y).mpr ⟨List.mem_cons_self, by simp⟩)
      exact absurd hx (hno .dp x)
  · intro hp
    obtain rfl : l = [] := by
      have hnil := Seg.of_null (hp.restarts hres ▸ hl.seg)
      simpa using hnil
    refine ⟨?_, fun x hx => absurd hx (hno .cp x), ?_,
      fun x hx => absurd hx (hno .dp x)⟩
    · intro b hb
      obtain ⟨y, hy, -⟩ := (adds_iff hl hl' b).mp hb
      cases hy
    · intro y hy
      have hy' := ((removes_iff hl hl' y).mp hy).1
      cases hy'

/-- **The list and the wire agree about a round exactly when it is paired**, as long as `head` stays
with the list. -/
theorem agrees_iff (h : agent.step s r s') (hl : Hosts s.heap s.port.head l)
    (hfits : r.mail.Learns → r.mail.Fits) (hold : r.mail.Consumes → ¬ r.mail.NamesOldest s) :
    Agrees ⟨s, r, s'⟩ ↔ Paired s r := by
  cases round_hosts h hl hfits hold with
  | same hlearn hcons hres hsame => exact agrees_iff_of_same h hl hlearn hcons hres hsame
  | learn hlearn hl' _ hframe => exact agrees_iff_of_learn h hl hlearn (hfits hlearn) hl' rfl hframe
  | consume hcons heq hl' _ hframe =>
    subst heq
    exact agrees_iff_of_consume h hl hcons (hold hcons) hl' hframe
  | restart hres hl' => exact agrees_iff_of_restart h hl hres hl'

end Step

/-! ## 6. Runs -/

/-- The PACKET_IN that an act transmits. -/
def Act.packetIn : Act → Option Xmit
  | xmit .aSendPacketIn x => some x
  | _ => none

/-- The ids of the PACKET_INs transmitted in a step, and in the steps of a run. -/
def announcedIds (t : Transition Ofpd Round) : List UInt32 :=
  ((t.pre.acts t.lab).filterMap Act.packetIn).map fun x => packetInId x.mu
def announced (ts : List (Transition Ofpd Round)) : List UInt32 := ts.flatMap announcedIds

/-- How many frames have been buffered. -/
def learnings (ts : List (Transition Ofpd Round)) : ℕ :=
  ts.countP fun t => decide t.lab.mail.Learns

/-- The first `n` ids. -/
def firstIds (n : ℕ) : List UInt32 := (List.range n).map fun k => UInt32.ofNat (k + 1)

theorem firstIds_succ (n : ℕ) : firstIds (n + 1) = firstIds n ++ [UInt32.ofNat (n + 1)] := by
  rw [firstIds, List.range_succ, List.map_append, List.map_singleton, ← firstIds]

/-- **The counter comes round** after `2 ^ 32` ids. -/
theorem firstIds_nodup_iff (n : ℕ) : (firstIds n).Nodup ↔ n ≤ 2 ^ 32 := by
  rw [firstIds, List.nodup_map_iff_inj_on List.nodup_range]
  constructor
  · intro hinj
    by_contra hn
    have h0 := hinj 0 (List.mem_range.mpr (by omega)) (2 ^ 32) (List.mem_range.mpr (by omega))
      (by decide)
    exact absurd h0 (by decide)
  · intro hn x hx y hy heq
    rw [List.mem_range] at hx hy
    have hnat := congrArg UInt32.toNat heq
    rw [UInt32.toNat_ofNat', UInt32.toNat_ofNat'] at hnat
    omega

theorem Act.packetIn_eq_some {a : Act} {x : Xmit} :
    a.packetIn = some x ↔ a = .xmit .aSendPacketIn x := by
  constructor
  · intro h
    cases a with
    | xmit h' y =>
      cases h' with
      | aSendPacketIn => rw [Option.some.inj h]
      | _ => cases h
    | _ => cases h
  · rintro rfl
    rfl

theorem mem_announcedIds {t : Transition Ofpd Round} {b : UInt32} :
    b ∈ announcedIds t ↔ ∃ x, .xmit .aSendPacketIn x ∈ t.pre.acts t.lab ∧ packetInId x.mu = b := by
  simp only [announcedIds, List.mem_map, List.mem_filterMap, Act.packetIn_eq_some]
  constructor
  · rintro ⟨x, ⟨a, ha, rfl⟩, hid⟩
    exact ⟨x, ha, hid⟩
  · rintro ⟨x, hx, hid⟩
    exact ⟨x, ⟨_, hx, rfl⟩, hid⟩

/-- What a step that agrees announces is what it adds. -/
theorem Agrees.mem_announcedIds {t : Transition Ofpd Round} (h : Agrees t) (b : UInt32) :
    b ∈ announcedIds t ↔ Adds t b := by
  rw [Agent.mem_announcedIds]
  constructor
  · rintro ⟨x, hx, rfl⟩
    obtain ⟨b, hb, hmu⟩ := h.announced x hx
    rwa [hmu.id_eq]
  · intro hb
    obtain ⟨x, hx, -, hmu⟩ := h.added b hb
    exact ⟨x, hx, hmu.id_eq⟩

section Run

variable {s s' : Ofpd} {r : Round} {l : List (Addr × HostLearn)}

/-- A paired round buffers a frame and announces its id, or does neither. -/
theorem announcedIds_of_round (h : agent.step s r s') (hl : Hosts s.heap s.port.head l)
    (hp : Paired s r) : (∃ l', Hosts s'.heap s'.port.head l') ∧
      (r.mail.Learns → s'.bufferId = s.bufferId + 1 ∧ announcedIds ⟨s, r, s'⟩ = [s.bufferId]) ∧
      (¬ r.mail.Learns → s'.bufferId = s.bufferId ∧ announcedIds ⟨s, r, s'⟩ = []) := by
  have hnone : ¬ r.mail.Learns → announcedIds ⟨s, r, s'⟩ = [] := by
    intro hno
    refine List.eq_nil_iff_forall_not_mem.mpr fun b hb => ?_
    obtain ⟨x, hx, -⟩ := mem_announcedIds.mp hb
    exact no_frame h .cp hno (fun hr hst => hp.repeats hr hst .cp) x hx
  cases round_hosts h hl (fun h => (hp.learns h).2) fun h => (hp.consumes h).2 with
  | same hlearn _ _ hsame =>
    refine ⟨⟨l, ?_⟩, fun h => absurd h hlearn, fun hno => ⟨hsame.bufferId, hnone hno⟩⟩
    rwa [hsame.heap, hsame.head]
  | learn hlearn hl' hid hframe =>
    refine ⟨⟨_, hl'⟩, fun _ => ⟨hid, ?_⟩, fun hno => absurd hlearn hno⟩
    have hacts : s.acts r = _ := acts_of_fills h .cp hlearn (hp.learns hlearn).1
    simp only [announcedIds, hacts, Plane.handler, List.filterMap_cons, List.filterMap_nil,
      Act.packetIn, List.map_cons, List.map_nil, drvXmit_mu, hframe.id_eq]
  | consume hcons _ hl' hid _ =>
    exact ⟨⟨_, hl'⟩, fun h => absurd hcons (not_consumes_of_learns h), fun hno => ⟨hid, hnone hno⟩⟩
  | restart hres hl' hid _ =>
    exact ⟨⟨_, hl'⟩, fun h => absurd (decodes_of_fills .cp h) (not_decodes_of_restarts hres),
      fun hno => ⟨hid, hnone hno⟩⟩

/-- What holds of a run whose rounds are paired. -/
structure RunPaired (ts : List (Transition Ofpd Round)) (s : Ofpd) : Prop where
  hosts : ∃ l, Hosts s.heap s.port.head l
  next : s.bufferId = UInt32.ofNat (learnings ts + 1)
  announced : announced ts = firstIds (learnings ts)
  agrees : ∀ t ∈ ts, Agrees t

theorem RunPaired.init (h : agent.init s) : RunPaired [] s := by
  obtain ⟨ccb, qid, e, acts, hrun⟩ := h
  rw [ofpdRestart_eq] at hrun
  obtain ⟨rfl, -⟩ := Prod.mk.inj (Option.some.inj hrun)
  refine ⟨⟨[], ?_⟩, rfl, rfl, by simp⟩
  rw [(ofpdReady_restarted _ e).head]
  exact Hosts.empty _

theorem RunPaired.step {ts : List (Transition Ofpd Round)} (hi : RunPaired ts s) (hp : Paired s r)
    (h : agent.step s r s') : RunPaired (ts ++ [⟨s, r, s'⟩]) s' := by
  obtain ⟨l, hl⟩ := hi.hosts
  obtain ⟨hhosts, hlearn, hno⟩ := announcedIds_of_round h hl hp
  have hagrees := (agrees_iff h hl (fun h => (hp.learns h).2) fun h => (hp.consumes h).2).mpr hp
  have hcount : learnings (ts ++ [⟨s, r, s'⟩]) = learnings ts + if r.mail.Learns then 1 else 0 := by
    simp [learnings, List.countP_append, List.countP_cons]
  have hsnoc : Agent.announced (ts ++ [⟨s, r, s'⟩]) = Agent.announced ts ++ announcedIds ⟨s, r, s'⟩ := by
    simp [Agent.announced]
  refine ⟨hhosts, ?_, ?_, ?_⟩
  · rw [hcount]
    split_ifs with hc
    · rw [(hlearn hc).1, hi.next, UInt32.ofNat_add (learnings ts + 1)]
      rfl
    · rw [(hno hc).1, hi.next, Nat.add_zero]
  · rw [hsnoc, hcount, hi.announced]
    split_ifs with hc
    · rw [(hlearn hc).2, hi.next, firstIds_succ]
    · rw [(hno hc).2, List.append_nil, Nat.add_zero]
  · intro t ht
    rcases List.mem_append.mp ht with ht | ht
    · exact hi.agrees t ht
    · rw [List.mem_singleton.mp ht]
      exact hagrees

/-- **Buffered packets and transmissions agree** in every run whose rounds are paired: about every
step, and over the run the PACKET_INs transmitted announce the ids of the records added, and none
twice as long as no more than `2 ^ 32` frames have been buffered.  One round more agrees exactly
when it is paired. -/
theorem paired_of_run {ts : List (Transition Ofpd Round)} (h : Run agent ts s)
    (hp : ∀ t ∈ ts, Paired t.pre t.lab) :
    (∀ t ∈ ts, Agrees t) ∧
      (∀ b, b ∈ announced ts ↔ ∃ t ∈ ts, Adds t b) ∧
      ((announced ts).Nodup ↔ learnings ts ≤ 2 ^ 32) ∧
      ∀ r s', agent.step s r s' → (r.mail.Learns → r.mail.Fits) →
        (r.mail.Consumes → ¬ r.mail.NamesOldest s) → (Agrees ⟨s, r, s'⟩ ↔ Paired s r) := by
  have hi : RunPaired ts s := h.history RunPaired Paired (fun s hs => .init hs)
    (fun ts s r s' hi hp hs => hi.step hp hs) hp
  obtain ⟨l, hl⟩ := hi.hosts
  refine ⟨hi.agrees, ?_, ?_, fun r s' hs hfits hold => agrees_iff hs hl hfits hold⟩
  · intro b
    simp only [announced, List.mem_flatMap]
    constructor
    · rintro ⟨t, ht, hb⟩
      exact ⟨t, ht, ((hi.agrees t ht).mem_announcedIds b).mp hb⟩
    · rintro ⟨t, ht, hb⟩
      exact ⟨t, ht, ((hi.agrees t ht).mem_announcedIds b).mpr hb⟩
  · rw [hi.announced]
    exact firstIds_nodup_iff _

end Run

instance (m : Mail) : Decidable m.Consumes :=
  match m with
  | .drv mail => inferInstanceAs
      (Decidable ((Mail.drv mail).ofType = some ofptFlowMod ∧ isSetField mail.mu = true))
  | .tmr _ | .other => isFalse nofun

instance (m : Mail) : Decidable m.Fits :=
  match m with
  | .drv mail => inferInstanceAs (Decidable (mail.mulen.toNat + 42 ≤ headOff))
  | .tmr _ | .other => isTrue trivial

instance (s : Ofpd) (m : Mail) : Decidable (m.NamesOldest s) :=
  match m with
  | .drv mail => inferInstanceAs
      (Decidable (s.port.head.any (hasBufferId s.heap (flowBufferId mail.mu)) = true))
  | .tmr _ | .other => isFalse nofun

instance (m : Mail) : Decidable m.Repeats :=
  decidable_of_iff (m.ofType.any (fun ty => !handledTypes.contains ty) = true) <| by
    cases h : m.ofType <;> simp [Mail.Repeats, h]

instance (s : Ofpd) : DecidablePred (Paired s) := fun r =>
  decidable_of_iff ((r.mail.Learns → s.port.state = .established ∧ r.mail.Fits) ∧
      (r.mail.Consumes → s.port.state = .established ∧ ¬ r.mail.NamesOldest s) ∧
      (r.mail.Restarts → s.port.head = none) ∧
      (r.mail.Repeats → s.port.state = .established →
        s.port.event ≠ Plane.event .cp ∧ s.port.event ≠ Plane.event .dp))
    ⟨fun h => ⟨h.1, h.2.1, h.2.2.1, fun hr hst pl => by
        cases pl
        · exact (h.2.2.2 hr hst).1
        · exact (h.2.2.2 hr hst).2⟩,
      fun h => ⟨h.learns, h.consumes, h.restarts, fun hr hst =>
        ⟨h.repeats hr hst .cp, h.repeats hr hst .dp⟩⟩⟩

/-- The round of a frame whose node is put at `a`. -/
def frameRound (a : Addr) : Round := ⟨.drv (dpMail frame60), Env.plain a⟩

/-- The handshake, two frames, and the flow mod for the second of them. -/
theorem paired_of_run_second : ∃ ts s, Run agent ts s ∧ learnings ts = 2 ∧ (announced ts).Nodup ∧
    ∀ t ∈ ts, Agrees t := by
  obtain ⟨ts, s, hr, hlab, hp, -⟩ := Run.of_exec (fun _ _ _ hs => hs) agent_started
    [shortRound ofptHello, shortRound ofptFeaturesRequest, frameRound addr1, frameRound addr2,
      ⟨.drv (cpMail (flowModMsg 2)), Env.plain ⟨12288, by decide⟩⟩]
    Paired (fun _ => True) (by decide +kernel)
  have hcount : learnings ts = 2 := by
    have hlabs : learnings ts = (ts.map Transition.lab).countP fun r => decide r.mail.Learns := by
      rw [List.countP_map]
      rfl
    rw [hlabs, hlab]
    decide +kernel
  obtain ⟨hagrees, -, hnd, -⟩ := paired_of_run hr hp
  exact ⟨ts, s, hr, hcount, hnd.mpr (by rw [hcount]; decide), hagrees⟩

/-- **A frame in `S_HELLO_WAIT`**, the first mail: the packet is buffered under the id 1, and the
controller is not told. -/
theorem not_agrees_started : Reachable started ∧ ∃ s', agent.step started (frameRound addr1) s' ∧
    ¬ Agrees ⟨started, frameRound addr1, s'⟩ := by
  refine ⟨⟨[], .start agent_started⟩, ?_⟩
  have hsome : (started.round (frameRound addr1)).isSome = true := by decide +kernel
  obtain ⟨s', hs'⟩ := Option.isSome_iff_exists.mp hsome
  refine ⟨s', hs', ?_⟩
  intro hag
  have hl : Hosts started.heap started.port.head [] := by
    rw [started, (ofpdReady_restarted _ _).head]
    exact Hosts.empty _
  have hp := (agrees_iff hs' hl (fun _ => by decide +kernel)
    fun hc => absurd hc (by decide +kernel)).mp hag
  have hlearn : (frameRound addr1).mail.Learns := by decide +kernel
  exact absurd (hp.learns hlearn).1 (by decide)

end Ofpagent.Agent
