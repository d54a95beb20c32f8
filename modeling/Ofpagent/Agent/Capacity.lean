/-
# The capacity that is announced

The features reply promises `n_buffers` buffers, and a PACKET_IN names one of them or says with
`OFP_NO_BUFFER` that there is none.  The agent has no buffers to run out of: it allocates a node
for every frame and counts `buffer_id` up, whatever the length of the list and whatever the
counter has come to.

`capacity_of_run` says in which runs the promise holds all the same (`HasRoom`): a frame is
buffered only while fewer than `n_buffers` packets are, and not under the id `OFP_NO_BUFFER`.
-/
import Ofpagent.Agent.Buffers

namespace Ofpagent.Agent

open Ofpagent.Lib

/-! ## 1. The promise -/

/-- `n_buffers` of the features reply, and `OFP_NO_BUFFER`. -/
def nBuffers : ℕ := 256
def ofpNoBuffer : UInt32 := 0xffffffff

/-- Where `A_send_feature_reply` announces it. -/
theorem featureBytes_nBuffers (length : UInt16) (e : Env) :
    ((featureBytes length e).drop 16).take 4 = beBytes 4 nBuffers := by
  have hn : leBytes 4 (htonl 256).toNat = beBytes 4 nBuffers := leBytes_htonl 256
  have hfront : ((OfpHeader.mk 4 ofptFeaturesReply (htons length) 0).bytes ++
      leBytes 8 (bitswap64 (datapathId e.saData)).toNat).length = 16 := by simp
  rw [featureBytes, hn]
  simp only [List.append_assoc]
  rw [← List.append_assoc, List.drop_left' hfront, List.take_left' (beBytes_length 4 _)]

/-- The list keeps to it: no more records than buffers, and no two under one id. -/
def WithinCapacity (s : Ofpd) : Prop :=
  ∃ l, Hosts s.heap s.port.head l ∧ l.length ≤ nBuffers ∧ (l.map fun y => y.2.bufferId).Nodup

/-- No PACKET_IN that the step transmits says that the packet is not buffered. -/
def NamesBuffer (t : Transition Ofpd Round) : Prop :=
  ∀ x, .xmit .aSendPacketIn x ∈ t.pre.acts t.lab → ¬ IsPacketIn x.mu ofpNoBuffer

/-- There is a buffer and an id for a frame, and `head` stays with the list. -/
structure HasRoom (s : Ofpd) (r : Round) : Prop where
  fits : r.mail.Learns → r.mail.Fits
  length : r.mail.Learns → ∀ l, Hosts s.heap s.port.head l → l.length < nBuffers
  bufferId : r.mail.Learns → s.bufferId ≠ ofpNoBuffer
  oldest : r.mail.Consumes → ¬ r.mail.NamesOldest s

/-! ## 2. The invariant -/

/-- The ids in the list have been counted, and what `ofpbuf` holds for the controller has one of
them. -/
structure Counted (s : Ofpd) : Prop where
  hosts : ∃ l, Hosts s.heap s.port.head l ∧ l.length ≤ nBuffers ∧
    (l.map fun y => y.2.bufferId).Nodup ∧ ∀ y ∈ l, y.2.bufferId.toNat < s.bufferId.toNat
  buffered : s.port.event = ePacketIn → s.port.block.read 8 4 ≠ beBytes 4 ofpNoBuffer.toNat

/-- A PACKET_IN in `ofpbuf` has its id there. -/
theorem IsPacketIn.read_block {p : OfpPort} {b : UInt32} (h : IsPacketIn p.frame b) :
    p.block.read 8 4 = beBytes 4 b.toNat := by
  have hid := h.2
  have hlen : 12 ≤ p.ofpbufLen.toNat := by
    have := congrArg List.length hid
    simp only [OfpPort.frame, List.length_take, List.length_drop, Mem.read_length,
      beBytes_length] at this
    omega
  rw [OfpPort.frame, Mem.take_drop_read _ _ hlen] at hid
  simpa using hid

theorem Counted.init {s : Ofpd} (h : agent.init s) : Counted s := by
  obtain ⟨l, hl⟩ := (RunPaired.init h).hosts
  obtain ⟨ccb, qid, e, acts, hrun⟩ := h
  rw [ofpdRestart_eq] at hrun
  obtain ⟨rfl, -⟩ := Prod.mk.inj (Option.some.inj hrun)
  have hnil : l = [] := by
    have hseg := hl.seg
    rw [(ofpdReady_restarted _ e).head] at hseg
    simpa using Seg.of_null hseg
  subst hnil
  refine ⟨⟨[], hl, by decide, by simp, by simp⟩, fun hev => ?_⟩
  have hstart : eStart = ePacketIn := hev
  exact absurd hstart (by decide)

section Step

variable {s s' : Ofpd} {r : Round}

/-- A mail that fills `ofpbuf` leaves its event. -/
theorem event_of_fills (h : agent.step s r s') (pl : Plane) (hfill : r.mail.Fills pl) :
    s'.port.event = pl.event := by
  have hdec := decodes_of_fills pl hfill
  have hdid := (agent_did h).2
  generalize s.acts r = acts at hdid
  cases hdid with
  | quiet hno => exact absurd hdec hno
  | timer hm =>
    rw [hm] at hdec
    cases hdec
  | restart hno => exact absurd hdec hno
  | decode hm hlen hfail hd hrun =>
    cases ofpDecodeFrame_decoded hd with
    | ok _ _ _ hev =>
      rw [(ofpFsm_call hrun).same.event]
      exact hev.trans ((event_eq_iff hlen hfail pl _).mpr (.inl (hm ▸ hfill)))

/-- A PACKET_IN that goes out again names its buffer as before. -/
theorem Counted.namesBuffer (hi : Counted s) (h : agent.step s r s') (hlearn : ¬ r.mail.Learns)
    (hframe : r.mail.Repeats → s.port.event = ePacketIn → s'.port.frame = s.port.frame) :
    NamesBuffer ⟨s, r, s'⟩ := by
  intro x hx hpkt
  obtain ⟨⟨-, hf | ⟨hrep, hev⟩⟩, rfl⟩ := (xmit_frame_iff h .cp x).mp hx
  · exact hlearn hf
  · rw [drvXmit_mu, hframe hrep hev] at hpkt
    exact hi.buffered hev hpkt.read_block

/-- Short of `OFP_NO_BUFFER` the counter does not wrap. -/
theorem bufferId_succ {b : UInt32} (h : b ≠ ofpNoBuffer) : (b + 1).toNat = b.toNat + 1 := by
  have hlt : b.toNat ≠ 2 ^ 32 - 1 := fun heq => h (UInt32.toNat_inj.mp heq)
  have := b.toNat_lt
  rw [UInt32.toNat_add]
  exact Nat.mod_eq_of_lt (by simp only [UInt32.reduceToNat]; omega)

/-- A host that joins the list has a new id. -/
theorem counted_append {l : List (Addr × HostLearn)} {y : Addr × HostLearn} {b : UInt32}
    (hb : b ≠ ofpNoBuffer) (hy : y.2.bufferId = b) (hnd : (l.map fun z => z.2.bufferId).Nodup)
    (hids : ∀ z ∈ l, z.2.bufferId.toNat < b.toNat) :
    ((l ++ [y]).map fun z => z.2.bufferId).Nodup ∧
      ∀ z ∈ l ++ [y], z.2.bufferId.toNat < (b + 1).toNat := by
  rw [bufferId_succ hb]
  constructor
  · rw [List.map_append, List.map_singleton, hy]
    refine List.nodup_append.mpr ⟨hnd, List.nodup_singleton _, ?_⟩
    intro c hc d hd heq
    obtain ⟨z, hz, rfl⟩ := List.mem_map.mp hc
    have hlt := hids z hz
    rw [heq, List.mem_singleton.mp hd] at hlt
    exact absurd hlt (lt_irrefl _)
  · intro z hz
    rcases List.mem_append.mp hz with hz | hz
    · have := hids z hz
      omega
    · rw [List.mem_singleton.mp hz, hy]
      exact Nat.lt_succ_self _

/-- **The step.** -/
theorem Counted.step (hi : Counted s) (hroom : HasRoom s r) (h : agent.step s r s') :
    Counted s' ∧ NamesBuffer ⟨s, r, s'⟩ := by
  obtain ⟨l, hl, hlen, hnd, hids⟩ := hi.hosts
  cases round_hosts h hl hroom.fits hroom.oldest with
  | same hlearn _ _ hsame =>
    refine ⟨⟨⟨l, ?_, hlen, hnd, ?_⟩, ?_⟩, hi.namesBuffer h hlearn fun _ _ => hsame.frame⟩
    · rwa [hsame.heap, hsame.head]
    · rwa [hsame.bufferId]
    · intro hev
      rw [hsame.block]
      exact hi.buffered ((event_of_round h .cp hev).resolve_left hlearn)
  | @learn mu hlearn hl' hid hframe =>
    have hne := hroom.bufferId hlearn
    obtain ⟨hnd', hids'⟩ := counted_append hne (y := (r.env.node, hostOf mu s.bufferId)) rfl hnd hids
    refine ⟨⟨⟨_, hl', ?_, hnd', ?_⟩, ?_⟩, ?_⟩
    · have := hroom.length hlearn l hl
      simp only [List.length_append, List.length_singleton]
      omega
    · rw [hid]
      exact hids'
    · intro _ hread
      -- the id of the frame is the one counted before
      have hb := hframe.read_block.symm.trans hread
      have hpkt : IsPacketIn s'.port.frame ofpNoBuffer := ⟨hframe.1, hframe.2.trans hb⟩
      exact hne (hframe.id_eq.symm.trans hpkt.id_eq)
    · intro x hx hpkt
      have hmu := ((xmit_frame_iff h .cp x).mp hx).2
      rw [hmu, drvXmit_mu] at hpkt
      exact hne (hframe.id_eq.symm.trans hpkt.id_eq)
  | @consume l₁ l₂ y hcons heq hl' hid _ =>
    have hsub : (l₁ ++ l₂).Sublist l := by
      rw [heq]
      exact List.Sublist.append_left (List.sublist_cons_self y l₂) l₁
    have hlearn : ¬ r.mail.Learns := fun hl => not_consumes_of_learns hl hcons
    refine ⟨⟨⟨_, hl', hsub.length_le.trans hlen, hnd.sublist (hsub.map _), ?_⟩, ?_⟩,
      hi.namesBuffer h hlearn fun hrep => absurd hrep (not_repeats_of_consumes hcons)⟩
    · intro z hz
      rw [hid]
      exact hids z (hsub.subset hz)
    · intro hev
      rw [event_of_fills h .dp hcons] at hev
      exact absurd hev (by decide)
  | restart hres hl' hid hagree =>
    have hdec := not_decodes_of_restarts hres
    have hlearn : ¬ r.mail.Learns := fun hf => hdec (decodes_of_fills .cp hf)
    refine ⟨⟨⟨[], hl', by decide, by simp, by simp⟩, fun hev => ?_⟩,
      hi.namesBuffer h hlearn fun ⟨_, hty, _⟩ => absurd (decodes_of_ofType hty) hdec⟩
    rw [hagree.read_eq (by decide)]
    exact hi.buffered ((event_of_round h .cp hev).resolve_left hlearn)

end Step

/-! ## 3. The result -/

/-- **The capacity that is announced** is kept to in every run whose rounds have room: in the list
behind it, and by every PACKET_IN transmitted.  A frame that is buffered without room breaks the
promise: the list is too long, or the PACKET_IN says that there is no buffer. -/
theorem capacity_of_run {ts : List (Transition Ofpd Round)} {s : Ofpd} (h : Run agent ts s)
    (hroom : ∀ t ∈ ts, HasRoom t.pre t.lab) :
    WithinCapacity s ∧ (∀ t ∈ ts, NamesBuffer t) ∧
      ∀ r s', agent.step s r s' → r.mail.Learns → r.mail.Fits → ¬ HasRoom s r →
        ¬ WithinCapacity s' ∨ IsPacketIn s'.port.frame ofpNoBuffer := by
  have hi : Counted s ∧ ∀ t ∈ ts, NamesBuffer t := h.history
    (fun ts s => Counted s ∧ ∀ t ∈ ts, NamesBuffer t) HasRoom
    (fun s hs => ⟨.init hs, by simp⟩)
    (fun ts s r s' hi hr hs => by
      obtain ⟨hc, hn⟩ := hi.1.step hr hs
      refine ⟨hc, ?_⟩
      intro t ht
      rcases List.mem_append.mp ht with ht | ht
      · exact hi.2 t ht
      · rw [List.mem_singleton.mp ht]
        exact hn)
    hroom
  obtain ⟨l, hl, hlen, hnd, -⟩ := hi.1.hosts
  refine ⟨⟨l, hl, hlen, hnd⟩, hi.2, ?_⟩
  intro r s' hs hlearn hfits hno
  have hcons := not_consumes_of_learns hlearn
  cases round_hosts hs hl (fun _ => hfits) (fun hc => absurd hc hcons) with
  | same hl' => exact absurd hlearn hl'
  | consume hc => exact absurd hc hcons
  | restart hres => exact absurd (decodes_of_fills .cp hlearn) (not_decodes_of_restarts hres)
  | learn _ hl' _ hframe =>
    rcases eq_or_ne s.bufferId ofpNoBuffer with hb | hb
    · right
      rwa [hb] at hframe
    · left
      rintro ⟨k, hk, hklen, -⟩
      refine hno ⟨fun _ => hfits, fun _ j hj => ?_, fun _ => hb, fun hc => absurd hc hcons⟩
      rw [hk.unique hl', List.length_append, List.length_singleton] at hklen
      rw [hj.unique hl]
      omega

/-- A list has room when the heap has. -/
theorem length_lt_of_keys {s : Ofpd} (h : s.heap.keys.length < nBuffers)
    {l : List (Addr × HostLearn)} (hl : Hosts s.heap s.port.head l) : l.length < nBuffers := by
  have hsub : l.map Prod.fst ⊆ s.heap.keys := fun a ha => AList.mem_keys.mp (hl.mem ha)
  have hle := (hl.nodup.subperm hsub).length_le
  rw [List.length_map] at hle
  exact hle.trans_lt h

/-- The handshake and two frames. -/
theorem capacity_of_run_second : ∃ ts s, Run agent ts s ∧ s.bufferId = 3 ∧ WithinCapacity s ∧
    ∀ t ∈ ts, NamesBuffer t := by
  obtain ⟨ts, s, hr, -, hroom, hid⟩ := Run.of_exec (fun _ _ _ hs => hs) agent_started
    [shortRound ofptHello, shortRound ofptFeaturesRequest, frameRound addr1, frameRound addr2]
    (fun s r => r.mail.Fits ∧ s.heap.keys.length < nBuffers ∧ s.bufferId ≠ ofpNoBuffer ∧
      ¬ r.mail.Consumes)
    (fun s => s.bufferId = 3) (by decide +kernel)
  obtain ⟨hcap, hnames, -⟩ := capacity_of_run hr fun t ht => by
    obtain ⟨hfits, hkeys, hne, hcons⟩ := hroom t ht
    exact ⟨fun _ => hfits, fun _ _ hl => length_lt_of_keys hkeys hl, fun _ => hne,
      fun hc => absurd hc hcons⟩
  exact ⟨ts, s, hr, hid, hcap, hnames⟩

/-! ## 4. Frames and no flow mods -/

/-- Distinct addresses, for as many frames as there are. -/
def nthAddr (k : ℕ) : Addr := (ptrOfNat (k + 1)).getD addr1

theorem nthAddr_toNat {k : ℕ} (h : k + 1 < 2 ^ 64) : (nthAddr k).1.toNat = k + 1 := by
  have hnat : (UInt64.ofNat (k + 1)).toNat = k + 1 := UInt64.toNat_ofNat_of_lt' h
  have hne : UInt64.ofNat (k + 1) ≠ 0 := by
    intro heq
    rw [heq] at hnat
    exact absurd hnat (by simp)
  rw [nthAddr, ptrOfNat, dif_pos hne, Option.getD_some]
  exact hnat

/-- Nothing but the new node comes to the heap. -/
theorem mem_heap_of_packetIn {s s' : Ofpd} {mu : Mem} {mulen : UInt16} {e : Env} {a : Addr}
    (h : ofpEncodePacketIn s mu mulen e = some s') (ha : a ∈ s'.heap) : a = e.node ∨ a ∈ s.heap := by
  obtain ⟨-, r, hr, rfl⟩ := ofpEncodePacketIn_cases h
  have hrec := congrArg Option.isSome (record_insertNode hr a)
  rw [Option.isSome_map, Option.isSome_map, AList.lookup_isSome.mpr ha] at hrec
  exact AList.mem_insert _ |>.mp (AList.lookup_isSome.mp hrec.symm)

/-- One frame more. -/
theorem exists_learn {s : Ofpd} {l : List (Addr × HostLearn)} (hl : Hosts s.heap s.port.head l)
    {node : Addr} (hnode : node ∉ s.heap) : ∃ s', agent.step s (frameRound node) s' ∧
      (∃ y, Hosts s'.heap s'.port.head (l ++ [y])) ∧ ∀ a ∈ s'.heap, a = node ∨ a ∈ s.heap := by
  obtain ⟨mail, hmail, hlen, hdp, hkeep⟩ : ∃ mail, dpMail frame60 = mail ∧
      mail.len ≤ ethMtu ∧ mail.type = drivDp ∧ mail.mulen.toNat + 42 ≤ headOff :=
    ⟨_, rfl, by decide, by decide, by decide +kernel⟩
  rw [frameRound, hmail]
  obtain ⟨s1, hs1, hl1, -⟩ := @ofpEncodePacketIn_hosts (s.setSockfd mail.sockfd) l mail.mu
    (Env.plain node) hl hnode mail.mulen hkeep
  obtain ⟨q, hq⟩ : ∃ q, ofpFsm (s1.setEvent ePacketIn) ePacketIn (Env.plain node) = some q :=
    ofpFsm_eq_some (by decide)
  have hrun : mainStep s (.drv mail) (Env.plain node) = some q := by
    rw [mainStep, ofpDecodeFrame_dp hlen hdp, hs1]
    exact hq
  have hstep : s.round ⟨.drv mail, Env.plain node⟩ = some q.1 := by
    rw [Ofpd.round, if_pos ⟨hnode, trivial⟩]
    exact congrArg (Option.map Prod.fst) hrun
  have hbuf : SameBuffer (s1.setEvent ePacketIn) q.1 := ofpFsm_sameBuffer hq
  refine ⟨q.1, hstep, ⟨(node, hostOf mail.mu s.bufferId), ?_⟩, ?_⟩
  · rw [hbuf.heap, hbuf.head]
    exact hl1
  · intro a ha
    rw [hbuf.heap] at ha
    exact mem_heap_of_packetIn hs1 ha

/-- The list grows with every frame, for as long as there is memory. -/
theorem run_of_frames {n : ℕ} (hn : n < 2 ^ 64) : ∃ ts s l, Run agent ts s ∧
    Hosts s.heap s.port.head l ∧ l.length = n ∧ ∀ a ∈ s.heap, a.1.toNat ≤ n := by
  induction n with
  | zero =>
    have hheap : started.heap = ∅ := rfl
    refine ⟨[], started, [], .start agent_started, ?_, rfl, ?_⟩
    · rw [started, (ofpdReady_restarted _ _).head]
      exact Hosts.empty _
    · intro a ha
      rw [hheap] at ha
      exact absurd ha (AList.notMem_empty a)
  | succ n ih =>
    obtain ⟨ts, s, l, hr, hl, hlen, hheap⟩ := ih (by omega)
    have hnode : nthAddr n ∉ s.heap := by
      intro hmem
      have := hheap _ hmem
      rw [nthAddr_toNat hn] at this
      omega
    obtain ⟨s', hs, ⟨y, hl'⟩, hheap'⟩ := exists_learn hl hnode
    refine ⟨_, s', l ++ [y], hr.snoc hs, hl', by simp [hlen], fun a ha => ?_⟩
    rcases hheap' a ha with rfl | ha
    · exact (nthAddr_toNat hn).le
    · exact (hheap a ha).trans (Nat.le_succ n)

/-- **The 257th frame** has a record, too. -/
theorem not_withinCapacity : ∃ ts s, Run agent ts s ∧ ¬ WithinCapacity s := by
  obtain ⟨ts, s, l, hr, hl, hlen, -⟩ := run_of_frames (n := nBuffers + 1) (by decide)
  refine ⟨ts, s, hr, ?_⟩
  rintro ⟨k, hk, hklen, -⟩
  rw [hk.unique hl, hlen] at hklen
  exact absurd hklen (by decide)

end Ofpagent.Agent
