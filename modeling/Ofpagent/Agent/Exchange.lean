/-
# A frame, its PACKET_IN, and the answer

What the agent is for: a frame of a host is announced to the controller, the controller names it in
a flow mod, and the host gets a frame back.  `Provenance.lean` says that nothing is sent to a host
otherwise; here is that the exchange comes to its end.  It goes over any number of rounds, with other
frames, other flow mods, timeouts and control messages in between, and what the controller knows of
it is what it reads in the PACKET_IN.

The id is the one thing that connects the two halves.  It is found again as long as nothing older is
under it, which is so until the counter comes round, and as long as no restart has forgotten the list
and no flow mod has taken the host before.  Then the state is still that of the announcement, since
nothing but a restart leaves it, and `answer_of_packetIn` follows from `find_of_put`.
-/
import Ofpagent.Agent.Provenance
import Ofpagent.Agent.Reply
import Ofpagent.Agent.Wire

namespace Ofpagent.Agent

open Ofpagent.Lib
open Ofpagent.Lib.OpenFlow (PacketIn parsePacketIn)

/-! ## 1. What lasts -/

section Lasting

variable {ts : List (Transition Ofpd Round)} {s s' : Ofpd} {r : Round}

/-- Nothing but a restart leaves the established state. -/
theorem established_of_step (h : agent.step s r s') (hst : s.port.state = .established)
    (hres : ¬ r.mail.Restarts) : s'.port.state = .established := by
  have hdid := (agent_did h).2
  generalize s.acts r = acts at hdid
  cases hdid with
  | quiet => exact hst
  | timer _ hrun => rw [(ofpFsm_call hrun).state, hst, fsmNext_established]
  | restart _ hno => exact absurd hno hres
  | decode hm hlen hfail hd hrun =>
    cases ofpDecodeFrame_decoded hd with
    | ok _ _ hctl _ => rw [(ofpFsm_call hrun).state, hctl.state, hst, fsmNext_established]

theorem established_of_run (h : Run agent ts s) {i : ℕ} {u : Transition Ofpd Round}
    (hu : ts[i]? = some u) (hst : u.pre.port.state = .established)
    (hres : ∀ k v, i ≤ k → ts[k]? = some v → ¬ v.lab.mail.Restarts) :
    s.port.state = .established := by
  induction h with
  | start => simp at hu
  | @snoc ts s s' l hr hs ih =>
    have hnow : ¬ l.mail.Restarts := by
      refine hres ts.length ⟨s, l, s'⟩ ?_ (by simp)
      have hi := (List.getElem?_eq_some_iff.mp hu).1
      rw [List.length_append, List.length_singleton] at hi
      exact Nat.lt_succ_iff.mp hi
    refine established_of_step hs ?_ hnow
    rcases lt_or_ge i ts.length with hlt | hge
    · rw [List.getElem?_append_left hlt] at hu
      refine ih hu fun k v hk hv => hres k v hk ?_
      rw [List.getElem?_append_left (List.getElem?_eq_some_iff.mp hv).1, hv]
    · rw [List.getElem?_append_right hge] at hu
      obtain rfl := List.mem_singleton.mp (List.mem_of_getElem? hu)
      exact hst

/-- The counter is at the number of frames, and one. -/
theorem bufferId_of_run (h : Run agent ts s) (hk : ∀ t ∈ ts, KeepsList t.pre t.lab) :
    s.bufferId = UInt32.ofNat (learnings ts + 1) := by
  refine (h.history (fun ts s => (∃ l, Hosts s.heap s.port.head l) ∧
    s.bufferId = UInt32.ofNat (learnings ts + 1)) KeepsList (fun s hs => ?_) ?_ hk).2
  · refine ⟨(Answered.init hs).hosts.imp fun l hl => hl.1, ?_⟩
    obtain ⟨ccb, qid, e, acts, hrun⟩ := hs
    rw [ofpdRestart_eq] at hrun
    obtain ⟨rfl, -⟩ := Prod.mk.inj (Option.some.inj hrun)
    rfl
  · rintro ts s r s' ⟨⟨l, hl⟩, hid⟩ hk hs
    have hlc := learnings_snoc ts ⟨s, r, s'⟩
    cases round_hosts hs hl hk.fits hk.oldest with
    | same hlearn _ _ hsame =>
      rw [if_neg hlearn] at hlc
      exact ⟨⟨l, hsame.hosts hl⟩, by rw [hsame.bufferId, hid, hlc, Nat.add_zero]⟩
    | learn hlearn hl' hnext =>
      rw [if_pos hlearn] at hlc
      refine ⟨⟨_, hl'⟩, ?_⟩
      rw [hnext, hid, hlc, UInt32.ofNat_add (learnings ts + 1)]
      rfl
    | consume hcons _ hl' hsame =>
      rw [if_neg fun hlearn => not_consumes_of_learns hlearn hcons] at hlc
      exact ⟨⟨_, hl'⟩, by rw [hsame, hid, hlc, Nat.add_zero]⟩
    | restart hres hl' hsame =>
      rw [if_neg (not_learns_of_restarts hres)] at hlc
      exact ⟨⟨_, hl'⟩, by rw [hsame, hid, hlc, Nat.add_zero]⟩

end Lasting

/-! ## 2. The host is found again -/

section Found

variable {ts : List (Transition Ofpd Round)} {s : Ofpd}

theorem learnings_take_lt {i k : ℕ} {v : Transition Ofpd Round} (hv : ts[k]? = some v)
    (hlearn : v.lab.mail.Learns) (hki : k < i) : learnings (ts.take k) < learnings (ts.take i) := by
  obtain ⟨hlt, hget⟩ := List.getElem?_eq_some_iff.mp hv
  have hnext : learnings (ts.take (k + 1)) = learnings (ts.take k) + 1 := by
    rw [List.take_add_one, hv, Option.toList_some, learnings_snoc, if_pos hlearn]
  have hsub : (ts.take (k + 1)).Sublist (ts.take i) := (List.take_prefix_take_left hki).sublist
  have hle : learnings (ts.take (k + 1)) ≤ learnings (ts.take i) := hsub.countP_le
  omega

/-- A step of a run, behind the run up to it. -/
theorem run_take (h : Run agent ts s) {j : ℕ} {t : Transition Ofpd Round} (ht : ts[j]? = some t) :
    Run agent (ts.take j) t.pre ∧ agent.step t.pre t.lab t.post := by
  obtain ⟨hlt, rfl⟩ := List.getElem?_eq_some_iff.mp ht
  refine h.split (ts.take j) ts[j] (ts.drop (j + 1)) ?_
  rw [List.getElem_cons_drop, List.take_append_drop]

/-- Until the counter comes round, nothing is held under the id that a frame is given. -/
theorem key_ne_of_held (h : Run agent ts s) (hk : ∀ t ∈ ts, KeepsList t.pre t.lab) {i : ℕ}
    {u : Transition Ofpd Round} (hu : ts[i]? = some u) (hids : learnings (ts.take i) < 2 ^ 32) :
    ∀ e ∈ ledger ((slips ts).take i), e.key ≠ u.pre.bufferId := by
  intro e he heq
  rw [slips, ← List.map_take, ← slips] at he
  have hput := (isOpen_of_mem he).put
  rw [slips, List.getElem?_map] at hput
  obtain ⟨v, hv, hslip⟩ := Option.map_eq_some_iff.mp hput
  obtain ⟨hlearn, hkey, -⟩ := learns_of_slip hslip
  have hpos := pos_lt_of_mem he
  rw [slips_length, List.length_take] at hpos
  rw [List.getElem?_take_of_lt (by omega)] at hv
  have hlt := learnings_take_lt hv hlearn (show e.pos < i by omega)
  have hcount : ∀ {k : ℕ} {t : Transition Ofpd Round}, ts[k]? = some t →
      t.pre.bufferId = UInt32.ofNat (learnings (ts.take k) + 1) := fun ht =>
    bufferId_of_run (run_take h ht).1 fun t ht => hk t (List.mem_of_mem_take ht)
  have hnat := congrArg UInt32.toNat (hkey.trans heq)
  rw [hcount hv, hcount hu, UInt32.toNat_ofNat', UInt32.toNat_ofNat'] at hnat
  omega

/-- It is in `ofpbuf` and its length. -/
theorem WellFormedReply.congr {p p' : OfpPort} {frame : Mem} {payload : List UInt8}
    (h : WellFormedReply p frame payload) (hblock : p'.block = p.block) :
    WellFormedReply p' frame payload := by
  have hlen : p'.ofpbufLen = p.ofpbufLen := by rw [OfpPort.ofpbufLen, hblock, OfpPort.ofpbufLen]
  obtain ⟨hofpbufLen, hdst, hsrc, htype, hdatagram⟩ := h
  rw [← hblock] at hdst hsrc htype hdatagram
  exact ⟨hlen.trans hofpbufLen, hdst, hsrc, htype, hdatagram⟩

/-- What is sent to the host of a record, for a flow mod of the layout. -/
theorem reply_wellFormed {mu frame : Mem} {b b' : UInt32} {matchValue setValue : List UInt8}
    {node : HostLearn} (hlayout : FlowModLayout mu b matchValue setValue)
    (hrec : node.record = hostOf frame b') (p : OfpPort) (e : Env) :
    WellFormedReply (p.reply node (u32At mu flowMatchOff) (u32At mu flowValueOff) e) frame
      (matchValue ++ setValue) := by
  obtain ⟨hdst, hsrc, htype, -⟩ :=
    p.reply_parts node (u32At mu flowMatchOff) (u32At mu flowValueOff) e
  refine ⟨OfpPort.ofpbufLen_setOfpbufLen _ _, ?_, ?_, htype, fun ip0 udp0 => ?_⟩
  · rw [hdst, show node.srcMac = macAt frame 6 from congrArg HostLearn.srcMac hrec]
    rfl
  · rw [hsrc, show node.dstMac = macAt frame 0 from congrArg HostLearn.dstMac hrec]
    rfl
  · obtain ⟨data, ip, udp, hdata, hacc, htotal, hlen, hsa, hda⟩ :=
      p.reply_accepted node (u32At mu flowMatchOff) (u32At mu flowValueOff) e ip0 udp0
    have hmatch : leBytes 4 (u32At mu flowMatchOff).toNat = matchValue :=
      leBytes_u32At hlayout.matchLength hlayout.matchValue
    have hset : leBytes 4 (u32At mu flowValueOff).toNat = setValue :=
      leBytes_u32At hlayout.setLength hlayout.setValue
    rw [hmatch, hset] at hacc
    refine ⟨data, ip, udp, hdata, hacc, htotal, hlen, ?_, ?_⟩
    · rw [hsa, show node.dstIp = u32At frame (ipSrcOff + 4) from congrArg HostLearn.dstIp hrec,
        u32Bytes_u32At]
    · rw [hda, show node.srcIp = u32At frame ipSrcOff from congrArg HostLearn.srcIp hrec,
        u32Bytes_u32At]

/-- The answer of a flow mod, by the record that is the first under the id. -/
theorem reply_of_consumes {s' : Ofpd} {r : Round} {l : List (Addr × HostLearn)}
    (h : agent.step s r s') (hl : Hosts s.heap s.port.head l) (hcons : r.mail.Consumes)
    {b : UInt32} {frame : Mem} {matchValue setValue : List UInt8}
    (hlayout : FlowModLayout r.mail.message b matchValue setValue)
    (hfirst : (l.map Prod.snd).find? (fun n => n.bufferId == b) = some (hostOf frame b)) :
    WellFormedReply s'.port frame (matchValue ++ setValue) := by
  obtain ⟨-, s0, s2, hs0, hrun, hs2⟩ := encoded_of_consumes h hcons
  have hl0 := hs0.hosts hl
  rw [List.find?_map, Option.map_eq_some_iff] at hfirst
  obtain ⟨y, hy, hrec⟩ := hfirst
  rcases hl0.findNode b with ⟨hno, -⟩ | ⟨hp, a, hf, l₁, rec, l₂, rfl, hid, hbefore, hnode, -⟩
  · have hid := List.find?_some hy
    exact absurd (beq_iff_eq.mp hid) (hno y (List.mem_of_find?_eq_some hy))
  · obtain rfl : (a, rec) = y := by
      have hhere : (l₁ ++ (a, rec) :: l₂).find? ((fun n => n.bufferId == b) ∘ Prod.snd)
          = some (a, rec) :=
        List.find?_eq_some_iff_append.mpr ⟨by simpa using hid, l₁, l₂, rfl, by simpa using hbefore⟩
      exact Option.some.inj (hhere.symm.trans hy)
    obtain ⟨node, hlookup, hnode⟩ := Option.map_eq_some_iff.mp hnode
    rw [ofpEncodeBackToHost_eq hlayout.isSetField (hlayout.flowBufferId_eq.symm ▸ hf) hlookup,
      flowDstIp_eq, if_pos hlayout.oxmField] at hrun
    cases hrun
    exact (reply_wellFormed hlayout (hnode.trans hrec) s0.port r.env).congr hs2.block

end Found

/-! ## 3. The exchange -/

/-- Between the frame of round `i` and the flow mod of round `j` the record stays: no restart, and
no flow mod for the id before. -/
structure Undisturbed (ts : List (Transition Ofpd Round)) (b : UInt32) (i j : ℕ) : Prop where
  lt : i < j
  restarts : ∀ k v, i < k → k < j → ts[k]? = some v → ¬ v.lab.mail.Restarts
  consumes : ∀ k v, i < k → k < j → ts[k]? = some v → v.lab.mail.Consumes →
    flowBufferId v.lab.mail.message ≠ b

section Exchange

variable {ts : List (Transition Ofpd Round)} {s : Ofpd} {i j : ℕ} {u t : Transition Ofpd Round}

/-- The slips in between leave the record. -/
theorem Undisturbed.slips {b : UInt32} (h : Undisturbed ts b i j) (hj : j ≤ ts.length) {k : ℕ}
    (hk : i < k) (hkj : k < j) :
    (slips ts)[k]? ≠ some .clear ∧ (Agent.slips ts)[k]? ≠ some (.take b) := by
  obtain ⟨v, hv⟩ : ∃ v, ts[k]? = some v := ⟨_, List.getElem?_eq_getElem (hkj.trans_le hj)⟩
  have hres := h.restarts k v hk hkj hv
  have hother := h.consumes k v hk hkj hv
  rw [slips_get hv]
  by_cases hlearn : v.lab.mail.Learns
  · simp [slip_of_learns hlearn]
  by_cases hcons : v.lab.mail.Consumes
  · simp [slip_of_consumes hcons, hother hcons]
  · simp [slip_of_others hlearn hcons hres]

/-- The port is as established as it was. -/
theorem Undisturbed.established {b : UInt32} (h : Undisturbed ts b i j) (hr : Run agent ts s)
    (hu : ts[i]? = some u) (hlearn : u.lab.mail.Learns) (hst : u.pre.port.state = .established)
    (ht : ts[j]? = some t) : t.pre.port.state = .established := by
  have hu' : (ts.take j)[i]? = some u := by rw [List.getElem?_take_of_lt h.lt, hu]
  refine established_of_run (run_take hr ht).1 hu' hst fun k v hk hv => ?_
  have hkj := (List.getElem?_eq_some_iff.mp hv).1
  rw [List.length_take] at hkj
  have hkj : k < j := by omega
  rw [List.getElem?_take_of_lt hkj] at hv
  rcases hk.eq_or_lt with rfl | hlt
  · obtain rfl := Option.some.inj (hv.symm.trans hu)
    exact not_restarts_of_decodes (decodes_of_fills .cp hlearn)
  · exact h.restarts k v hlt hkj hv

/-- **The record is the first under its id** when the flow mod comes. -/
theorem Undisturbed.find (h : Undisturbed ts u.pre.bufferId i j) (hr : Run agent ts s)
    (hk : ∀ t ∈ ts, KeepsList t.pre t.lab) (hu : ts[i]? = some u) (hlearn : u.lab.mail.Learns)
    (hids : learnings (ts.take i) < 2 ^ 32) (hj : j ≤ ts.length) :
    (ledger (Agent.slips (ts.take j))).find? (Entry.under u.pre.bufferId)
      = some ⟨i, u.pre.bufferId, u.lab.mail.message⟩ := by
  rw [Agent.slips, List.map_take, ← Agent.slips]
  refine find_of_put ?_ (key_ne_of_held hr hk hu hids) h.lt ?_ fun k hk hkj => h.slips hj hk hkj
  · rw [slips_get hu, slip_of_learns hlearn]
  · rw [slips_length]
    exact hj

/-- **The exchange**, in every run that keeps `head` to the list.  An established port announces the
frame with a PACKET_IN, which parses, has the frame and an id; and whatever else comes in meanwhile,
a flow mod of the layout that names the id is answered, with the well-formed answer to that frame, if
the record has been left alone until then and fewer than `2 ^ 32` frames came before it. -/
theorem answer_of_packetIn (h : Run agent ts s) (hk : ∀ t ∈ ts, KeepsList t.pre t.lab)
    (hu : ts[i]? = some u) (hlearn : u.lab.mail.Learns)
    (hfit : u.lab.mail.messageLen.toNat + 42 ≤ ethMtu)
    (hst : u.pre.port.state = .established) (hids : learnings (ts.take i) < 2 ^ 32) :
    ∃ y m, .xmit .aSendPacketIn y ∈ u.pre.acts u.lab ∧ parsePacketIn y.mu = some m ∧
      m.bufferId = u.pre.bufferId ∧
      m.data = u.lab.mail.message.read 0 u.lab.mail.messageLen.toNat ∧
      ∀ j t matchValue setValue, ts[j]? = some t → Undisturbed ts m.bufferId i j →
        t.lab.mail.Consumes →
        FlowModLayout t.lab.mail.message m.bufferId matchValue setValue →
        ∃ x, .xmit .aSendToHost x ∈ t.pre.acts t.lab ∧ x.sockfd = t.post.ofpIoFds .dp ∧
          x.mu = t.post.port.frame ∧
          WellFormedReply t.post.port u.lab.mail.message (matchValue ++ setValue) := by
  have hstep := (run_take h hu).2
  obtain ⟨s0, s2, hs0, hrun, hs2, -⟩ := encoded_of_learns hstep hlearn
  obtain ⟨y, hy, -, hmu⟩ := frame_of_fills hstep .cp hlearn hst
  have hparse := parse_of_packetIn hfit hrun
  rw [← hs2.frame, ← hmu, hs0.bufferId] at hparse
  refine ⟨y, _, hy, hparse, rfl, rfl, fun j t matchValue setValue ht hkept hcons hlayout => ?_⟩
  change Undisturbed ts u.pre.bufferId i j at hkept
  obtain ⟨hrun, hstep⟩ := run_take h ht
  have hj := (List.getElem?_eq_some_iff.mp ht).1
  obtain ⟨l, hl, hrecs⟩ :=
    (answered_of_run hrun fun t ht => hk t (List.mem_of_mem_take ht)).hosts
  have hunder : ((fun n : HostLearn => n.bufferId == u.pre.bufferId) ∘ entryHost)
      = Entry.under u.pre.bufferId := rfl
  have hfirst : (l.map Prod.snd).find? (fun n => n.bufferId == u.pre.bufferId)
      = some (hostOf u.lab.mail.message u.pre.bufferId) := by
    rw [hrecs, List.find?_map, hunder, hkept.find h hk hu hlearn hids hj.le]
    rfl
  obtain ⟨x, hx, hfd, hframe⟩ :=
    frame_of_fills hstep .dp hcons (hkept.established h hu hlearn hst ht)
  exact ⟨x, hx, hfd, hframe, reply_of_consumes hstep hl hcons hlayout hfirst⟩

end Exchange

/-- The handshake, two frames, and the flow mod for the second of them. -/
theorem answer_of_packetIn_second : ∃ ts s u t y m x, Run agent (ts ++ [u, t]) s ∧
    .xmit .aSendPacketIn y ∈ u.pre.acts u.lab ∧ parsePacketIn y.mu = some m ∧ m.bufferId = 2 ∧
    .xmit .aSendToHost x ∈ t.pre.acts t.lab ∧ x.mu = t.post.port.frame ∧
    WellFormedReply t.post.port u.lab.mail.message [10, 0, 0, 1, 10, 0, 0, 2] := by
  let last : Round := ⟨.drv (cpMail (flowModMsg 2)), Env.plain ⟨12288, by decide⟩⟩
  obtain ⟨ts, s, hr, hlab, hk, hst, hid, hkeep, hnext⟩ := Run.of_exec (fun _ _ _ hs => hs)
    agent_started [shortRound ofptHello, shortRound ofptFeaturesRequest, frameRound addr1]
    KeepsList (fun s => s.port.state = .established ∧ s.bufferId = 2 ∧
      KeepsList s (frameRound addr2) ∧ (s.round (frameRound addr2)).any
        (fun s1 => decide (KeepsList s1 last) && (s1.round last).isSome) = true) (by decide +kernel)
  obtain ⟨s1, hs1, hlast⟩ := (Option.any_eq_true _ _).mp hnext
  obtain ⟨hlast, hsome⟩ := Bool.and_eq_true_iff.mp hlast
  obtain ⟨s2, hs2⟩ := Option.isSome_iff_exists.mp hsome
  have hrun := (hr.snoc hs1).snoc hs2
  rw [List.append_assoc, List.singleton_append] at hrun
  have hlen : ts.length = 3 := by simpa using congrArg List.length hlab
  have hlearn : (frameRound addr2).mail.Learns := by decide +kernel
  have hfit : (frameRound addr2).mail.messageLen.toNat + 42 ≤ ethMtu := by decide +kernel
  have hcons : last.mail.Consumes := by decide +kernel
  have hlayout : FlowModLayout last.mail.message 2 [10, 0, 0, 1] [10, 0, 0, 2] :=
    ⟨by decide +kernel, rfl, by decide +kernel, by decide +kernel, by decide +kernel, rfl,
      by decide +kernel⟩
  obtain ⟨y, m, hy, hm, hb, -, hanswer⟩ := answer_of_packetIn hrun (by
    intro t ht
    rcases List.mem_append.mp ht with ht | ht
    · exact hk t ht
    · rcases List.mem_pair.mp ht with rfl | rfl
      · exact hkeep
      · exact of_decide_eq_true hlast)
    (show _ = some ⟨s, frameRound addr2, s1⟩ from (List.getElem?_append_right le_rfl).trans (by simp))
    hlearn hfit hst (lt_of_le_of_lt List.countP_le_length (by simp [hlen]))
  replace hb : m.bufferId = 2 := hb.trans hid
  rw [hb] at hanswer
  obtain ⟨x, hx, -, hframe, hreply⟩ := hanswer 4 ⟨s1, last, s2⟩ _ _
    (by simp [hlen]) ⟨by omega, by omega, by omega⟩ hcons hlayout
  exact ⟨ts, s2, _, _, y, m, x, hrun, hy, hm, hb, hx, hframe, hreply⟩

end Ofpagent.Agent
