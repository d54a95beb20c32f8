/-
# Where the answers come from

A frame that the agent sends to a host is built from a record, the record from a frame that came
in, and the flow mod only says which one.  What the rounds of a run do to the records is a ledger
of slips (`Transition.slip`): a data-plane frame is put under the id of its PACKET_IN, a flow mod
takes what is under the id it names, and a restart forgets all.

`answers_of_run` reads off the ledger what the agent does in every run that keeps `head` to the
list (`KeepsList`): each frame sent to a host answers one that was received earlier in the same
session, the flow mod names the id which that frame was announced with, and no two flow mods are
answered for one frame.  A control message without a case may send the last answer again, and is
the only round that does.

`nodes_of_run` says where the records are: a node is freed for a flow mod and for nothing else, so
that what a restart forgets stays allocated.
-/
import Ofpagent.Lib.Ledger
import Ofpagent.Agent.Buffers

namespace Ofpagent.Agent

open Ofpagent.Lib
open scoped List

/-! ## 1. The nodes behind a call -/

section Nodes

variable {hp hp' : Heap} {head head' : Ptr} {node a : Addr}

theorem Heap.keys_erase (h : a ∈ hp) : hp.keys ~ a :: (hp.erase a).keys := by
  rw [AList.keys_erase]
  exact @List.perm_cons_erase _ instBEqOfDecidableEq _ _ _ (AList.mem_keys.mp h)

theorem Heap.keys_insert (h : a ∉ hp) (n : HostLearn) : (hp.insert a n).keys ~ a :: hp.keys := by
  have hmem : a ∉ hp.keys := fun hm => h (AList.mem_keys.mpr hm)
  rw [AList.keys_insert, @List.erase_of_not_mem _ instBEqOfDecidableEq _ _ _ hmem]

theorem Heap.keys_setNext (hp : Heap) (a : Addr) (q : Ptr) : (hp.setNext a q).keys ~ hp.keys := by
  unfold Heap.setNext
  split
  · exact List.Perm.refl _
  · next n hn =>
    have hmem : a ∈ hp := AList.lookup_isSome.mp (by rw [hn]; rfl)
    rw [AList.keys_insert]
    exact (@List.perm_cons_erase _ instBEqOfDecidableEq _ _ _ (AList.mem_keys.mp hmem)).symm

theorem keys_insertNode (h : insertNode hp head node = some (hp', head')) :
    hp'.keys ~ hp.keys := by
  unfold insertNode at h
  split at h
  · cases h
    exact List.Perm.refl _
  · split at h
    · cases h
      exact Heap.keys_setNext _ _ _
    · cases h

theorem keys_findNode {b : UInt32} {q : Ptr} (h : findNode hp head b = some (hp', q)) :
    hp'.keys ~ hp.keys := by
  unfold findNode at h
  split at h
  · cases h
  · cases h
    exact List.Perm.refl _
  · cases h
    exact List.Perm.refl _
  · obtain ⟨nxt, -, h⟩ := Option.map_eq_some_iff.mp h
    cases h
    exact Heap.keys_setNext _ _ _

end Nodes

/-! ## 2. The rounds that run an encoder -/

/-- The message of a mail. -/
def Mail.message : Mail → Mem
  | .drv mail => mail.mu
  | .tmr _ | .other => fun _ => 0

/-- The frame behind the header of a mail. -/
def Mail.messageLen : Mail → UInt16
  | .drv mail => mail.mulen
  | .tmr _ | .other => 0

theorem not_learns_of_restarts {m : Mail} (h : m.Restarts) : ¬ m.Learns := fun hl =>
  not_decodes_of_restarts h (decodes_of_fills .cp hl)

theorem not_consumes_of_restarts {m : Mail} (h : m.Restarts) : ¬ m.Consumes := fun hc =>
  not_decodes_of_restarts h (decodes_of_fills .dp hc)

section Round

variable {s s' : Ofpd} {r : Round} {l : List (Addr × HostLearn)}

/-- The round of a data-plane frame runs the first encoder. -/
theorem encoded_of_learns (h : agent.step s r s') (hlearn : r.mail.Learns) :
    ∃ s0 s2, SameBuffer s s0 ∧
      ofpEncodePacketIn s0 r.mail.message r.mail.messageLen r.env = some s2 ∧
      SameBuffer s2 s' ∧ s'.port.event = ePacketIn := by
  have hdec := decodes_of_fills .cp hlearn
  have hdid := (agent_did h).2
  generalize s.acts r = acts at hdid
  cases hdid with
  | quiet hno => exact absurd hdec hno
  | timer hm =>
    rw [hm] at hdec
    cases hdec
  | restart hno => exact absurd hdec hno
  | @decode mail s1 _ _ hm hlen hfail hd hrun =>
    have hdp : mail.type = drivDp := by
      rw [hm] at hlearn
      exact hlearn.2
    rw [ofpDecodeFrame_dp hlen hdp] at hd
    obtain ⟨s2, hs2, hd⟩ := Option.map_eq_some_iff.mp hd
    cases hd
    rw [hm]
    exact ⟨_, s2, .setSockfd s mail.sockfd, hs2,
      (SameBuffer.setEvent s2 ePacketIn).trans (ofpFsm_sameBuffer hrun),
      (ofpFsm_call hrun).same.event⟩

/-- The round of a flow mod that takes out a host runs the second one. -/
theorem encoded_of_consumes (h : agent.step s r s') (hcons : r.mail.Consumes) :
    isSetField r.mail.message = true ∧ ∃ s0 s2, SameBuffer s s0 ∧
      ofpEncodeBackToHost s0 r.mail.message r.env = some s2 ∧ SameBuffer s2 s' := by
  have hdec := decodes_of_fills .dp hcons
  have hdid := (agent_did h).2
  generalize s.acts r = acts at hdid
  cases hdid with
  | quiet hno => exact absurd hdec hno
  | timer hm =>
    rw [hm] at hdec
    cases hdec
  | restart hno => exact absurd hdec hno
  | @decode mail s1 _ _ hm hlen hfail hd hrun =>
    rw [hm] at hcons ⊢
    have hdp : mail.type ≠ drivDp := by
      intro hdp
      rw [Mail.Consumes, ofType_dp hdp] at hcons
      cases hcons.1
    obtain ⟨hflow, hset⟩ := controlEvent_flowMod.mp ((consumes_iff hlen hdp hfail).mp hcons)
    rw [ofpDecodeFrame_control hlen hdp hfail, decodeControl_flowMod hflow] at hd
    obtain ⟨s2, hs2, hd⟩ := Option.map_eq_some_iff.mp hd
    cases hd
    exact ⟨hset, _, _, (SameBuffer.setSockfd s mail.sockfd).trans (.setEvent _ eFlowMod), hs2,
      ofpFsm_sameBuffer hrun⟩

/-- The state and the event behind a round that fills no frame for a host: an established port with
the event of a flow mod was one before. -/
theorem established_of_flowMod (h : agent.step s r s') (hcons : ¬ r.mail.Consumes)
    (hst : s'.port.state = .established) (hev : s'.port.event = eFlowMod) :
    s.port.state = .established ∧ s.port.event = eFlowMod := by
  have hevent : s.port.event = eFlowMod := (event_of_round h .dp hev).resolve_left hcons
  refine ⟨?_, hevent⟩
  have hback : ∀ st, fsmNext st eFlowMod = .established → st = .established := by
    intro st hst
    cases st <;> first | rfl | exact absurd hst (by decide)
  have htmr : ∀ st, fsmNext st eOfpTimeout = .established → st = .established := by
    intro st hst
    cases st <;> first | rfl | exact absurd hst (by decide)
  have hdid := (agent_did h).2
  generalize s.acts r = acts at hdid
  cases hdid with
  | quiet => exact hst
  | timer _ hrun => exact htmr _ ((ofpFsm_call hrun).state ▸ hst)
  | restart => cases hst
  | @decode _ s1 _ _ hm hlen hfail hd hrun =>
    cases ofpDecodeFrame_decoded hd with
    | ok _ _ hctl _ =>
      have hcall := ofpFsm_call hrun
      have hev1 : s1.port.event = eFlowMod := hcall.same.event.symm.trans hev
      have hst1 := hcall.state.symm.trans hst
      rw [hev1] at hst1
      exact hctl.state.symm.trans (hback _ hst1)

/-- A round in which `head` stays with the list: the copy of a frame stops ahead of it, and a flow
mod is not for the oldest host. -/
structure KeepsList (s : Ofpd) (r : Round) : Prop where
  fits : r.mail.Learns → r.mail.Fits
  oldest : r.mail.Consumes → ¬ r.mail.NamesOldest s

instance (s : Ofpd) : DecidablePred (KeepsList s) := fun r =>
  decidable_of_iff ((r.mail.Learns → r.mail.Fits) ∧ (r.mail.Consumes → ¬ r.mail.NamesOldest s))
    ⟨fun h => ⟨h.1, h.2⟩, fun h => ⟨h.fits, h.oldest⟩⟩

/-- What a round does to the list `l` and to the nodes. -/
inductive Stored (s : Ofpd) (r : Round) (l : List (Addr × HostLearn)) (s' : Ofpd) : Prop
  | same : ¬ r.mail.Learns → ¬ r.mail.Consumes → ¬ r.mail.Restarts → SameBuffer s s' →
      Stored s r l s'
  | learn : r.mail.Learns → r.env.node ∉ s.heap →
      Hosts s'.heap s'.port.head (l ++ [(r.env.node, hostOf r.mail.message s.bufferId)]) →
      s'.heap.keys ~ r.env.node :: s.heap.keys → s'.port.event = ePacketIn → Stored s r l s'
  | consume {l₁ l₂ : List (Addr × HostLearn)} {y : Addr × HostLearn} : r.mail.Consumes →
      l = l₁ ++ y :: l₂ → y.2.bufferId = flowBufferId r.mail.message →
      (∀ x ∈ l₁, x.2.bufferId ≠ flowBufferId r.mail.message) →
      Hosts s'.heap s'.port.head (l₁ ++ l₂) → s.heap.keys ~ y.1 :: s'.heap.keys →
      ReplyTo s'.port.frame y.2 → Stored s r l s'
  | restart : r.mail.Restarts → Hosts s'.heap s'.port.head [] → s'.heap = s.heap →
      s'.port.state = .helloWait → Stored s r l s'

/-- A frame that is buffered. -/
theorem stored_learn (h : agent.step s r s') (hl : Hosts s.heap s.port.head l)
    (hlearn : r.mail.Learns) (hfits : r.mail.Fits) : Stored s r l s' := by
  obtain ⟨s0, s2, hs0, hrun, hs2, hev⟩ := encoded_of_learns h hlearn
  have hnode := (agent_did h).1
  have hkeep : r.mail.messageLen.toNat + 42 ≤ headOff := by
    revert hlearn hfits
    cases r.mail with
    | drv mail => exact fun _ hfits => hfits
    | _ => nofun
  have hnode0 : r.env.node ∉ s0.heap := by rwa [hs0.heap]
  obtain ⟨hhosts, -, -⟩ := learn_hosts (hs0.hosts hl) hnode0 hkeep hrun
  rw [hs0.bufferId] at hhosts
  obtain ⟨-, q, hins, rfl⟩ := ofpEncodePacketIn_cases hrun
  have hkeys : q.1.keys ~ r.env.node :: s0.heap.keys :=
    (keys_insertNode hins).trans (Heap.keys_insert hnode0 _)
  refine .learn hlearn hnode (hs2.hosts hhosts) ?_ hev
  rw [hs2.heap, ← hs0.heap]
  exact hkeys

/-- A host that is taken out. -/
theorem stored_consume (h : agent.step s r s') (hl : Hosts s.heap s.port.head l)
    (hcons : r.mail.Consumes) (hold : ¬ r.mail.NamesOldest s) : Stored s r l s' := by
  obtain ⟨hset, s0, s2, hs0, hrun, hs2⟩ := encoded_of_consumes h hcons
  have hold0 : ¬ s0.port.head.any (hasBufferId s0.heap (flowBufferId r.mail.message)) = true := by
    rw [hs0.head, hs0.heap]
    revert hcons hold
    cases r.mail with
    | drv mail => exact fun _ hold => hold
    | _ => nofun
  have hl0 := hs0.hosts hl
  rcases hl0.findNode (flowBufferId r.mail.message) with ⟨-, hf⟩ | ⟨hp, a, hf, l₁, rec, l₂, rfl,
    hid, hbefore, hrec, hlist, -⟩
  · simp [ofpEncodeBackToHost, hset, hf] at hrun
  · have hreply := replyTo_frame hset hf hrec hrun
    have hne : l₁ ≠ [] := by
      rintro rfl
      have hhead : s0.port.head = some a := hl0.seg.1
      have hrecord := hl0.hasBufferId (flowBufferId r.mail.message) (x := (a, rec)) (by simp)
      rw [hid, beq_self_eq_true] at hrecord
      exact hold0 (by rw [hhead, Option.any_some, hrecord])
    obtain ⟨node, hnode, -⟩ := Option.map_eq_some_iff.mp hrec
    rw [ofpEncodeBackToHost_eq hset hf hnode] at hrun
    cases hrun
    refine .consume hcons rfl hid hbefore (hs2.hosts ?_) ?_ (hs2.frame ▸ hreply)
    · rw [OfpPort.head_reply]
      exact hlist hne
    · rw [hs2.heap, ← hs0.heap]
      exact (keys_findNode hf).symm.trans (Heap.keys_erase (AList.lookup_isSome.mp (by simp [hnode])))

/-- **What a round does to the list and to the nodes.** -/
theorem stored_of_step (h : agent.step s r s') (hl : Hosts s.heap s.port.head l)
    (hk : KeepsList s r) : Stored s r l s' := by
  by_cases hlearn : r.mail.Learns
  · exact stored_learn h hl hlearn (hk.fits hlearn)
  by_cases hcons : r.mail.Consumes
  · exact stored_consume h hl hcons (hk.oldest hcons)
  cases round_hosts h hl hk.fits hk.oldest with
  | same _ _ hres hsame => exact .same hlearn hcons hres hsame
  | learn hl' => exact absurd hl' hlearn
  | consume hc => exact absurd hc hcons
  | restart hres hl' =>
    have hdid := (agent_did h).2
    generalize s.acts r = acts at hdid
    cases hdid with
    | restart _ _ s1 hbuf => exact .restart hres hl' hbuf.heap rfl
    | quiet _ hno => exact absurd hres hno
    | timer hm =>
      rw [hm] at hres
      cases hres
    | decode hm hlen hfail =>
      rw [hm] at hres
      exact absurd hres.2 hfail

end Round

/-! ## 3. The ledger of a run -/

/-- What a step does to the records: the frame is put under the id of its PACKET_IN, and a flow mod
takes what is under the id it names. -/
def slip (t : Transition Ofpd Round) : Slip UInt32 Mem :=
  if t.lab.mail.Learns then .put t.pre.bufferId t.lab.mail.message
  else if t.lab.mail.Consumes then .take (flowBufferId t.lab.mail.message)
  else if t.lab.mail.Restarts then .clear
  else .idle

def slips (ts : List (Transition Ofpd Round)) : List (Slip UInt32 Mem) := ts.map slip

/-- The record of an entry. -/
def entryHost (e : Entry UInt32 Mem) : HostLearn := hostOf e.val e.key

section Slip

variable {t : Transition Ofpd Round}

theorem slip_of_learns (h : t.lab.mail.Learns) :
    slip t = .put t.pre.bufferId t.lab.mail.message := if_pos h

theorem slip_of_consumes (h : t.lab.mail.Consumes) :
    slip t = .take (flowBufferId t.lab.mail.message) := by
  rw [slip, if_neg fun hl => not_consumes_of_learns hl h, if_pos h]

theorem slip_of_restarts (h : t.lab.mail.Restarts) : slip t = .clear := by
  rw [slip, if_neg (not_learns_of_restarts h), if_neg (not_consumes_of_restarts h), if_pos h]

theorem slip_of_others (hl : ¬ t.lab.mail.Learns) (hc : ¬ t.lab.mail.Consumes)
    (hr : ¬ t.lab.mail.Restarts) : slip t = .idle := by
  rw [slip, if_neg hl, if_neg hc, if_neg hr]

/-- A slip that puts is that of a frame. -/
theorem learns_of_slip {b : UInt32} {mu : Mem} (h : slip t = .put b mu) :
    t.lab.mail.Learns ∧ t.pre.bufferId = b ∧ t.lab.mail.message = mu := by
  have hlearn : t.lab.mail.Learns := by
    by_contra hno
    rw [slip, if_neg hno] at h
    split_ifs at h
  rw [slip_of_learns hlearn, Slip.put.injEq] at h
  exact ⟨hlearn, h⟩

theorem slips_snoc (ts : List (Transition Ofpd Round)) (t : Transition Ofpd Round) :
    slips (ts ++ [t]) = slips ts ++ [slip t] := by
  rw [slips, List.map_append, List.map_singleton, slips]

@[simp] theorem slips_length (ts : List (Transition Ofpd Round)) :
    (slips ts).length = ts.length := by
  rw [slips, List.length_map]

theorem slips_get {ts : List (Transition Ofpd Round)} {k : ℕ} (h : ts[k]? = some t) :
    (slips ts)[k]? = some (slip t) := by
  rw [slips, List.getElem?_map, h, Option.map_some]

/-- The record that a flow mod takes out is the entry that goes back. -/
theorem find_of_hosts {es : List (Entry UInt32 Mem)} {l₁ l₂ : List (Addr × HostLearn)}
    {y : Addr × HostLearn} {b : UInt32} (h : (l₁ ++ y :: l₂).map Prod.snd = es.map entryHost)
    (hy : y.2.bufferId = b) (hbefore : ∀ x ∈ l₁, x.2.bufferId ≠ b) :
    ∃ e, es.find? (Entry.under b) = some e ∧ entryHost e = y.2 ∧
      (l₁ ++ l₂).map Prod.snd = (es.eraseP (Entry.under b)).map entryHost := by
  rw [List.map_append, List.map_cons] at h
  obtain ⟨as, es', rfl, has, hes'⟩ := List.map_eq_append_iff.mp h.symm
  obtain ⟨e, bs, rfl, he, hbs⟩ := List.map_eq_cons_iff.mp hes'
  have hunder : Entry.under b e = true := by
    rw [Entry.under_iff, ← hy, ← he]
    rfl
  have hother : ∀ a ∈ as, ¬ Entry.under b a = true := by
    intro a ha hab
    have hmem : entryHost a ∈ l₁.map Prod.snd := has ▸ List.mem_map_of_mem ha
    obtain ⟨x, hx, hxa⟩ := List.mem_map.mp hmem
    refine hbefore x hx ?_
    rw [hxa]
    exact Entry.under_iff.mp hab
  refine ⟨e, List.find?_eq_some_iff_append.mpr ⟨hunder, as, bs, rfl, by simpa using hother⟩, he, ?_⟩
  rw [List.eraseP_append_right _ hother, List.eraseP_cons_of_pos hunder, List.map_append,
    List.map_append, has, hbs]

end Slip

/-- The bytes are an answer to the entry that step `i` takes, sent no later than step `j` and in
the session of the entry. -/
structure AnswerOf (ss : List (Slip UInt32 Mem)) (j : ℕ) (mu : List UInt8) (i : ℕ)
    (e : Entry UInt32 Mem) : Prop where
  redeemed : redeemed ss i = some e
  le : i ≤ j
  reply : ReplyTo mu (entryHost e)
  session : ∀ k, e.pos < k → k ≤ j → ss[k]? ≠ some .clear

theorem AnswerOf.append {ss : List (Slip UInt32 Mem)} {i j : ℕ} {mu : List UInt8}
    {e : Entry UInt32 Mem} (h : AnswerOf ss j mu i e) (hj : j < ss.length)
    (us : List (Slip UInt32 Mem)) : AnswerOf (ss ++ us) j mu i e := by
  refine ⟨?_, h.le, h.reply, fun k hk hkj => ?_⟩
  · rw [redeemed_append (h.le.trans_lt hj)]
    exact h.redeemed
  · rw [List.getElem?_append_left (hkj.trans_lt hj)]
    exact h.session k hk hkj

/-- An answer behind the last step is still one behind a step that forgets nothing. -/
theorem AnswerOf.snoc {ss : List (Slip UInt32 Mem)} {i j : ℕ} {mu : List UInt8}
    {e : Entry UInt32 Mem} {x : Slip UInt32 Mem} (h : AnswerOf ss ss.length mu i e)
    (hx : x ≠ .clear) (hj : ss.length ≤ j) : AnswerOf (ss ++ [x]) j mu i e := by
  have hkept : ∀ k, e.pos < k → ss[k]? ≠ some .clear := by
    intro k hk
    rcases le_or_gt k ss.length with hle | hgt
    · exact h.session k hk hle
    · rw [List.getElem?_eq_none hgt.le]
      exact (Option.some_ne_none _).symm
  refine ⟨?_, h.le.trans hj, h.reply, fun k hk _ => kept_snoc hkept hx k hk⟩
  rw [redeemed_append (redeemed_eq_some h.redeemed).1]
  exact h.redeemed

/-- The list is the ledger, what is left in `ofpbuf` by a flow mod is the last answer, and every
frame sent to a host is an answer. -/
structure Answered (ts : List (Transition Ofpd Round)) (s : Ofpd) : Prop where
  hosts : ∃ l, Hosts s.heap s.port.head l ∧ l.map Prod.snd = (ledger (slips ts)).map entryHost
  last : s.port.state = .established → s.port.event = eFlowMod →
    ∃ i e, AnswerOf (slips ts) ts.length s.port.frame i e
  sent : ∀ j t x, ts[j]? = some t → .xmit .aSendToHost x ∈ t.pre.acts t.lab →
    ∃ i e, AnswerOf (slips ts) j x.mu i e ∧ (t.lab.mail.Consumes → i = j)

theorem Answered.init {s : Ofpd} (h : agent.init s) : Answered [] s := by
  obtain ⟨ccb, qid, e, acts, hrun⟩ := h
  rw [ofpdRestart_eq] at hrun
  obtain ⟨rfl, -⟩ := Prod.mk.inj (Option.some.inj hrun)
  refine ⟨⟨[], ?_, rfl⟩, nofun, by simp⟩
  rw [(ofpdReady_restarted _ e).head]
  exact Hosts.empty _

section Step

variable {ts : List (Transition Ofpd Round)} {s s' : Ofpd} {r : Round}

/-- A flow mod's round answers for the entry it takes. -/
theorem answerOf_consume {mu : List UInt8} {e : Entry UInt32 Mem} (hcons : r.mail.Consumes)
    (hfind : (ledger (slips ts)).find? (Entry.under (flowBufferId r.mail.message)) = some e)
    (hreply : ReplyTo mu (entryHost e)) :
    AnswerOf (slips (ts ++ [⟨s, r, s'⟩])) ts.length mu ts.length e := by
  have hred : redeemed (slips (ts ++ [⟨s, r, s'⟩])) ts.length = some e := by
    rw [slips_snoc, slip_of_consumes hcons, ← slips_length ts, redeemed_snoc_take, hfind]
  exact ⟨hred, le_rfl, hreply, (isOpen_of_redeemed hred).2.2.2⟩

/-- A round that sends a frame to a host again, or none. -/
theorem not_fills_sent (h : agent.step s r s') (hcons : ¬ r.mail.Consumes) {x : Xmit}
    (hx : .xmit .aSendToHost x ∈ s.acts r) :
    r.mail.Repeats ∧ s.port.state = .established ∧ s.port.event = eFlowMod ∧
      x.mu = s'.port.frame := by
  obtain ⟨⟨hst, hfill | ⟨hrep, hev⟩⟩, rfl⟩ := (xmit_frame_iff h .dp x).mp hx
  · exact absurd hfill hcons
  · exact ⟨hrep, hst, hev, drvXmit_mu _ _ _⟩

/-- The list and the last answer behind a round, and what the round has sent. -/
structure Answered.Next (ts : List (Transition Ofpd Round)) (s : Ofpd) (r : Round) (s' : Ofpd) :
    Prop where
  hosts : ∃ l, Hosts s'.heap s'.port.head l ∧
    l.map Prod.snd = (ledger (slips (ts ++ [⟨s, r, s'⟩]))).map entryHost
  last : s'.port.state = .established → s'.port.event = eFlowMod →
    ∃ i e, AnswerOf (slips (ts ++ [⟨s, r, s'⟩])) (ts.length + 1) s'.port.frame i e
  sent : ∀ x, .xmit .aSendToHost x ∈ s.acts r →
    ∃ i e, AnswerOf (slips (ts ++ [⟨s, r, s'⟩])) ts.length x.mu i e ∧
      (r.mail.Consumes → i = ts.length)

theorem Answered.next (hi : Answered ts s) (hk : KeepsList s r) (h : agent.step s r s') :
    Answered.Next ts s r s' := by
  obtain ⟨l, hl, hrecs⟩ := hi.hosts
  have hsnoc := slips_snoc ts ⟨s, r, s'⟩
  cases stored_of_step h hl hk with
  | same hlearn hcons hres hsame =>
    rw [slip_of_others hlearn hcons hres] at hsnoc
    refine ⟨⟨l, hsame.hosts hl, ?_⟩, fun hst hev => ?_, fun x hx => ?_⟩
    · rw [hsnoc, ledger_snoc]
      exact hrecs
    · obtain ⟨hst0, hev0⟩ := established_of_flowMod h hcons hst hev
      obtain ⟨i, e, ha⟩ := hi.last hst0 hev0
      rw [← slips_length ts, ← hsame.frame] at ha
      rw [hsnoc]
      exact ⟨i, e, ha.snoc (by simp) (by simp)⟩
    · obtain ⟨-, hst0, hev0, hmu⟩ := not_fills_sent h hcons hx
      obtain ⟨i, e, ha⟩ := hi.last hst0 hev0
      rw [← slips_length ts, ← hsame.frame, ← hmu] at ha
      rw [hsnoc]
      exact ⟨i, e, ha.snoc (by simp) (by simp), fun hc => absurd hc hcons⟩
  | learn hlearn _ hl' _ hev' =>
    have hcons : ¬ r.mail.Consumes := not_consumes_of_learns hlearn
    rw [slip_of_learns hlearn] at hsnoc
    refine ⟨⟨_, hl', ?_⟩, fun _ hev => ?_, fun x hx => ?_⟩
    · rw [hsnoc, ledger_snoc, enter, List.map_append, List.map_append, hrecs]
      rfl
    · rw [hev'] at hev
      exact absurd hev (by decide)
    · exact absurd (not_fills_sent h hcons hx).1 (not_repeats_of_learns hlearn)
  | @consume l₁ l₂ y hcons heq hid hbefore hl' _ hreply =>
    subst heq
    obtain ⟨e, hfind, he, herase⟩ := find_of_hosts hrecs hid hbefore
    rw [← he] at hreply
    have ha : AnswerOf (slips (ts ++ [⟨s, r, s'⟩])) ts.length s'.port.frame ts.length e :=
      answerOf_consume hcons hfind hreply
    rw [slip_of_consumes hcons] at hsnoc
    refine ⟨⟨_, hl', ?_⟩, fun _ _ => ⟨ts.length, e, ?_⟩, fun x hx => ⟨ts.length, e, ?_, fun _ => rfl⟩⟩
    · rw [hsnoc, ledger_snoc]
      exact herase
    · refine ⟨ha.redeemed, Nat.le_succ _, hreply, fun k hk hkj => ?_⟩
      rcases hkj.lt_or_eq with hlt | rfl
      · exact ha.session k hk (Nat.lt_succ_iff.mp hlt)
      · rw [List.getElem?_eq_none (by simp)]
        exact (Option.some_ne_none _).symm
    · rw [((xmit_frame_iff h .dp x).mp hx).2, drvXmit_mu]
      exact ha
  | restart hres hl' _ hst' =>
    rw [slip_of_restarts hres] at hsnoc
    refine ⟨⟨[], hl', ?_⟩, fun hst => ?_, fun x hx => ?_⟩
    · rw [hsnoc, ledger_snoc]
      rfl
    · rw [hst'] at hst
      cases hst
    · obtain ⟨⟨_, hty, -⟩, -⟩ := not_fills_sent h (not_consumes_of_restarts hres) hx
      exact absurd (decodes_of_ofType hty) (not_decodes_of_restarts hres)

theorem Answered.step (hi : Answered ts s) (hk : KeepsList s r) (h : agent.step s r s') :
    Answered (ts ++ [⟨s, r, s'⟩]) s' := by
  have hn := hi.next hk h
  refine ⟨hn.hosts, fun hst hev => ?_, fun j t x hj hx => ?_⟩
  · rw [List.length_append, List.length_singleton]
    exact hn.last hst hev
  · rcases lt_or_ge j ts.length with hlt | hge
    · rw [List.getElem?_append_left hlt] at hj
      obtain ⟨i, e, ha, hij⟩ := hi.sent j t x hj hx
      rw [slips_snoc]
      exact ⟨i, e, ha.append (by rwa [slips_length]) _, hij⟩
    · have hjlt : j < ts.length + 1 := by simpa using (List.getElem?_eq_some_iff.mp hj).1
      obtain rfl : j = ts.length := by omega
      obtain rfl : (⟨s, r, s'⟩ : Transition Ofpd Round) = t := by simpa using hj
      exact hn.sent x hx

/-- The PACKET_IN of a frame that an established port buffers. -/
theorem announced_of_learns (h : agent.step s r s') (hlearn : r.mail.Learns)
    (hst : s.port.state = .established) :
    ∃ y, .xmit .aSendPacketIn y ∈ s.acts r ∧ IsPacketIn y.mu s.bufferId := by
  obtain ⟨s0, s2, hs0, hrun, hs2, -⟩ := encoded_of_learns h hlearn
  obtain ⟨y, hy, -, hmu⟩ := frame_of_fills h .cp hlearn hst
  refine ⟨y, hy, ?_⟩
  rw [hmu, hs2.frame, ← hs0.bufferId]
  exact isPacketIn_frame hrun

/-- A round sends no two frames to a host. -/
theorem sent_unique (h : agent.step s r s') {x y : Xmit} (hx : .xmit .aSendToHost x ∈ s.acts r)
    (hy : .xmit .aSendToHost y ∈ s.acts r) : x = y :=
  ((xmit_frame_iff h .dp x).mp hx).2.trans ((xmit_frame_iff h .dp y).mp hy).2.symm

end Step

/-! ## 4. The results -/

section Run

variable {ts : List (Transition Ofpd Round)} {s : Ofpd}

theorem answered_of_run (h : Run agent ts s) (hk : ∀ t ∈ ts, KeepsList t.pre t.lab) :
    Answered ts s :=
  h.history Answered KeepsList (fun _ hs => .init hs) (fun _ _ _ _ hi hk hs => hi.step hk hs) hk

theorem step_of_mem (h : Run agent ts s) {t : Transition Ofpd Round} (ht : t ∈ ts) :
    agent.step t.pre t.lab t.post :=
  (h.invariant_mem (fun _ => True) (fun _ _ => True) (fun _ _ => trivial) (fun _ _ _ _ _ _ => trivial)
    (fun _ _ => trivial) t ht).2.1

/-- The entry whose record is in the frame that step `j` sends, by its position. -/
theorem exists_source (h : Run agent ts s) (hk : ∀ t ∈ ts, KeepsList t.pre t.lab) (j : ℕ) :
    ∃ n, ∀ t x, ts[j]? = some t → .xmit .aSendToHost x ∈ t.pre.acts t.lab →
      ∃ i e, AnswerOf (slips ts) j x.mu i e ∧ (t.lab.mail.Consumes → i = j) ∧ e.pos = n := by
  by_cases hsent : ∃ t x, ts[j]? = some t ∧ .xmit .aSendToHost x ∈ t.pre.acts t.lab
  · obtain ⟨t, x, hj, hx⟩ := hsent
    obtain ⟨i, e, ha, hij⟩ := (answered_of_run h hk).sent j t x hj hx
    refine ⟨e.pos, fun t' x' hj' hx' => ⟨i, e, ?_⟩⟩
    obtain rfl : t = t' := Option.some.inj (hj.symm.trans hj')
    obtain rfl : x = x' := sent_unique (step_of_mem h (List.mem_of_getElem? hj)) hx hx'
    exact ⟨ha, hij, rfl⟩
  · exact ⟨0, fun t x hj hx => absurd ⟨t, x, hj, hx⟩ hsent⟩

/-- **Every answer has its frame**, in every run that keeps `head` to the list.  `src j` is the
round of the frame whose host the answer of round `j` is for: it is earlier, and no restart is in
between; its PACKET_IN carried the id that the flow mod names; and no two flow mods are answered
for one frame. -/
theorem answers_of_run (h : Run agent ts s) (hk : ∀ t ∈ ts, KeepsList t.pre t.lab) :
    ∃ src : ℕ → ℕ,
      (∀ j t x, ts[j]? = some t → .xmit .aSendToHost x ∈ t.pre.acts t.lab →
        src j < j ∧
        (∀ k v, src j < k → k ≤ j → ts[k]? = some v → ¬ v.lab.mail.Restarts) ∧
        ∃ u, ts[src j]? = some u ∧ u.lab.mail.Learns ∧
          ReplyTo x.mu (hostOf u.lab.mail.message u.pre.bufferId) ∧
          (t.lab.mail.Consumes → flowBufferId t.lab.mail.message = u.pre.bufferId) ∧
          (u.pre.port.state = .established →
            ∃ y, .xmit .aSendPacketIn y ∈ u.pre.acts u.lab ∧ IsPacketIn y.mu u.pre.bufferId)) ∧
      Set.InjOn src {j | ∃ t x, ts[j]? = some t ∧ t.lab.mail.Consumes ∧
        .xmit .aSendToHost x ∈ t.pre.acts t.lab} := by
  choose src hsrc using exists_source h hk
  refine ⟨src, fun j t x hj hx => ?_, ?_⟩
  · obtain ⟨i, e, ha, hij, hpos⟩ := hsrc j t x hj hx
    obtain ⟨hlt, hput, htake, -⟩ := isOpen_of_redeemed ha.redeemed
    rw [← hpos]
    refine ⟨hlt.trans_le ha.le, fun k v hk hkj hv hres => ?_, ?_⟩
    · refine ha.session k hk hkj ?_
      rw [slips_get hv, slip_of_restarts hres]
    · rw [slips, List.getElem?_map] at hput
      obtain ⟨u, hu, hslip⟩ := Option.map_eq_some_iff.mp hput
      obtain ⟨hlearn, hkey, hval⟩ := learns_of_slip hslip
      refine ⟨u, hu, hlearn, ?_, fun hcons => ?_, fun hst => ?_⟩
      · rw [hkey, hval]
        exact ha.reply
      · obtain rfl := hij hcons
        rw [slips_get hj, slip_of_consumes hcons, Option.some.injEq, Slip.take.injEq] at htake
        rw [htake, hkey]
      · exact announced_of_learns (step_of_mem h (List.mem_of_getElem? hu)) hlearn hst
  · rintro j ⟨t, x, hj, hcons, hx⟩ j' ⟨t', x', hj', hcons', hx'⟩ heq
    obtain ⟨i, e, ha, hij, hpos⟩ := hsrc j t x hj hx
    obtain ⟨i', e', ha', hij', hpos'⟩ := hsrc j' t' x' hj' hx'
    obtain rfl := hij hcons
    obtain rfl := hij' hcons'
    exact redeemed_inj ha.redeemed ha'.redeemed (by rw [hpos, hpos', heq])

end Run

/-- The handshake, two frames, and the flow mod for the second of them, which is answered. -/
theorem answers_of_run_second : ∃ (ts : List (Transition Ofpd Round)) (s : Ofpd) (j i : ℕ)
    (t u : Transition Ofpd Round) (x : Xmit), Run agent ts s ∧ ts[j]? = some t ∧
    .xmit .aSendToHost x ∈ t.pre.acts t.lab ∧ i < j ∧ ts[i]? = some u ∧
    ReplyTo x.mu (hostOf u.lab.mail.message u.pre.bufferId) := by
  let last : Round := ⟨.drv (cpMail (flowModMsg 2)), Env.plain ⟨12288, by decide⟩⟩
  obtain ⟨ts, s, hr, -, hk, hst, hsome, hlast⟩ := Run.of_exec (fun _ _ _ hs => hs) agent_started
    [shortRound ofptHello, shortRound ofptFeaturesRequest, frameRound addr1, frameRound addr2]
    KeepsList (fun s => s.port.state = .established ∧ (s.round last).isSome = true ∧
      KeepsList s last) (by decide +kernel)
  obtain ⟨s', hs'⟩ := Option.isSome_iff_exists.mp hsome
  have hr' : Run agent (ts ++ [⟨s, last, s'⟩]) s' := hr.snoc hs'
  have hcons : last.mail.Consumes := by decide +kernel
  obtain ⟨x, hx, -⟩ := frame_of_fills (show agent.step s last s' from hs') .dp hcons hst
  have hget : (ts ++ [⟨s, last, s'⟩])[ts.length]? = some ⟨s, last, s'⟩ := by simp
  obtain ⟨src, hsrc, -⟩ := answers_of_run hr' (by
    intro t ht
    rcases List.mem_append.mp ht with ht | ht
    · exact hk t ht
    · rw [List.mem_singleton.mp ht]
      exact hlast)
  obtain ⟨hlt, -, u, hu, -, hreply, -⟩ := hsrc _ _ x hget hx
  exact ⟨_, s', _, _, _, u, x, hr', hget, hx, hlt, hu, hreply⟩

/-! ## 5. The nodes of a run -/

/-- How many flow mods have taken out a host. -/
def consumptions (ts : List (Transition Ofpd Round)) : ℕ :=
  ts.countP fun t => decide t.lab.mail.Consumes

/-- The step forgets a list with the node. -/
def Forgets (t : Transition Ofpd Round) (a : Addr) : Prop :=
  t.lab.mail.Restarts ∧ ∃ l, Hosts t.pre.heap t.pre.port.head l ∧ a ∈ l.map Prod.fst

/-- What is allocated, and what of it a restart has forgotten. -/
structure Nodes (ts : List (Transition Ofpd Round)) (s : Ofpd) : Prop where
  hosts : ∃ l, Hosts s.heap s.port.head l ∧
    ∀ t ∈ ts, ∀ a, Forgets t a → a ∈ s.heap ∧ a ∉ l.map Prod.fst
  count : s.heap.keys.length + consumptions ts = learnings ts

theorem Nodes.init {s : Ofpd} (h : agent.init s) : Nodes [] s := by
  obtain ⟨ccb, qid, e, acts, hrun⟩ := h
  rw [ofpdRestart_eq] at hrun
  obtain ⟨rfl, -⟩ := Prod.mk.inj (Option.some.inj hrun)
  refine ⟨⟨[], ?_, by simp⟩, rfl⟩
  rw [(ofpdReady_restarted _ e).head]
  exact Hosts.empty _

section Step

variable {ts : List (Transition Ofpd Round)} {s s' : Ofpd} {r : Round}

/-- What an earlier restart has forgotten, behind a round that keeps it. -/
theorem forgets_snoc {P : Addr → Prop} (hold : ∀ t ∈ ts, ∀ a, Forgets t a → P a)
    (hnew : ∀ a, Forgets ⟨s, r, s'⟩ a → P a) : ∀ t ∈ ts ++ [⟨s, r, s'⟩], ∀ a, Forgets t a → P a := by
  intro t ht a ha
  rcases List.mem_append.mp ht with ht | ht
  · exact hold t ht a ha
  · rw [List.mem_singleton.mp ht] at ha
    exact hnew a ha

theorem learnings_snoc (ts : List (Transition Ofpd Round)) (t : Transition Ofpd Round) :
    learnings (ts ++ [t]) = learnings ts + if t.lab.mail.Learns then 1 else 0 := by
  simp [learnings, List.countP_append, List.countP_cons]

theorem consumptions_snoc (ts : List (Transition Ofpd Round)) (t : Transition Ofpd Round) :
    consumptions (ts ++ [t]) = consumptions ts + if t.lab.mail.Consumes then 1 else 0 := by
  simp [consumptions, List.countP_append, List.countP_cons]

theorem Nodes.step (hi : Nodes ts s) (hk : KeepsList s r) (h : agent.step s r s') :
    Nodes (ts ++ [⟨s, r, s'⟩]) s' := by
  obtain ⟨l, hl, hgone⟩ := hi.hosts
  have hcount := hi.count
  have hlc := learnings_snoc ts ⟨s, r, s'⟩
  have hcc := consumptions_snoc ts ⟨s, r, s'⟩
  have hmem : ∀ {hp : Heap} {a}, a ∈ hp ↔ a ∈ hp.keys := AList.mem_keys
  cases stored_of_step h hl hk with
  | same hlearn hcons hres hsame =>
    rw [if_neg hlearn] at hlc
    rw [if_neg hcons] at hcc
    refine ⟨⟨l, hsame.hosts hl, forgets_snoc ?_ fun a ha => absurd ha.1 hres⟩, ?_⟩
    · rw [hsame.heap]
      exact hgone
    · rw [hsame.heap]
      omega
  | learn hlearn hnode hl' hkeys =>
    have hres := not_restarts_of_decodes (decodes_of_fills .cp hlearn)
    rw [if_pos hlearn] at hlc
    rw [if_neg (not_consumes_of_learns hlearn)] at hcc
    refine ⟨⟨_, hl', forgets_snoc (fun t ht a ha => ?_) fun a ha => absurd ha.1 hres⟩, ?_⟩
    · obtain ⟨hin, hout⟩ := hgone t ht a ha
      refine ⟨hmem.mpr (hkeys.mem_iff.mpr (List.mem_cons_of_mem _ (hmem.mp hin))), fun ha' => ?_⟩
      rw [List.map_append, List.mem_append, List.map_singleton, List.mem_singleton] at ha'
      rcases ha' with ha' | rfl
      · exact hout ha'
      · exact hnode hin
    · rw [hkeys.length_eq, List.length_cons]
      omega
  | @consume l₁ l₂ y hcons heq _ _ hl' hkeys =>
    have hres := not_restarts_of_decodes (decodes_of_fills .dp hcons)
    rw [if_neg fun hlearn => not_consumes_of_learns hlearn hcons] at hlc
    rw [if_pos hcons] at hcc
    refine ⟨⟨_, hl', forgets_snoc (fun t ht a ha => ?_) fun a ha => absurd ha.1 hres⟩, ?_⟩
    · obtain ⟨hin, hout⟩ := hgone t ht a ha
      rw [heq, List.map_append, List.map_cons, List.mem_append, List.mem_cons, not_or, not_or]
        at hout
      rw [List.map_append, List.mem_append, not_or]
      have hkept := hkeys.mem_iff.mp (hmem.mp hin)
      exact ⟨hmem.mpr (List.mem_of_ne_of_mem hout.2.1 hkept), hout.1, hout.2.2⟩
    · have hlen := hkeys.length_eq
      rw [List.length_cons] at hlen
      omega
  | restart hres hl' hheap =>
    rw [if_neg (not_learns_of_restarts hres)] at hlc
    rw [if_neg (not_consumes_of_restarts hres)] at hcc
    refine ⟨⟨[], hl', forgets_snoc (fun t ht a ha => ?_) fun a ha => ?_⟩, ?_⟩
    · rw [hheap]
      exact ⟨(hgone t ht a ha).1, List.not_mem_nil⟩
    · obtain ⟨-, k, hk', hak⟩ := ha
      rw [hheap]
      exact ⟨hk'.mem hak, List.not_mem_nil⟩
    · rw [hheap]
      omega

end Step

/-- **A node is freed for a flow mod and for nothing else**, in every run that keeps `head` to the
list: as many are allocated as frames have been buffered and not consumed, over all sessions, and
the nodes of a list that a restart has forgotten stay allocated without being in any later one. -/
theorem nodes_of_run {ts : List (Transition Ofpd Round)} {s : Ofpd} (h : Run agent ts s)
    (hk : ∀ t ∈ ts, KeepsList t.pre t.lab) :
    s.heap.keys.length + consumptions ts = learnings ts ∧
      ∀ t ∈ ts, ∀ a, Forgets t a →
        a ∈ s.heap ∧ ∀ l, Hosts s.heap s.port.head l → a ∉ l.map Prod.fst := by
  have hi : Nodes ts s := h.history Nodes KeepsList (fun _ hs => .init hs)
    (fun _ _ _ _ hi hk hs => hi.step hk hs) hk
  obtain ⟨l, hl, hgone⟩ := hi.hosts
  refine ⟨hi.count, fun t ht a ha => ⟨(hgone t ht a ha).1, fun k hk' => ?_⟩⟩
  rw [hk'.unique hl]
  exact (hgone t ht a ha).2

/-- A frame, and the failure of the control connection: the list is empty, and its node is still
allocated. -/
theorem nodes_of_run_restart : ∃ ts s, Run agent ts s ∧ s.port.head = none ∧
    s.heap.keys.length = 1 := by
  obtain ⟨ts, s, hr, hlab, hk, hhead⟩ := Run.of_exec (fun _ _ _ hs => hs) agent_started
    [shortRound ofptHello, shortRound ofptFeaturesRequest, frameRound addr1, failRound]
    KeepsList (fun s => s.port.head = none) (by decide +kernel)
  have hlabs : ∀ p : Round → Bool, ts.countP (fun t => p t.lab)
      = (ts.map Transition.lab).countP p := fun p => by
    rw [List.countP_map]
    rfl
  have hcount := (nodes_of_run hr hk).1
  have hcons : consumptions ts = 0 := by
    rw [consumptions, hlabs fun r => decide r.mail.Consumes, hlab]
    decide +kernel
  have hlearn : learnings ts = 1 := by
    rw [learnings, hlabs fun r => decide r.mail.Learns, hlab]
    decide +kernel
  exact ⟨ts, s, hr, hhead, by omega⟩

end Ofpagent.Agent
