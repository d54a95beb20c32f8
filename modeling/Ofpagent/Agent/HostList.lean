/-
# The list of learned hosts

A data-plane frame adds a node at the end of the list (`OFP_encode_packet_in`), and a flow mod
takes one out wherever it stands and frees it (`OFP_encode_back_to_host`).  What the list is for
is a table of the hosts learned and not yet consumed, in the order they were learned
(`HostTable`); `hostList` runs the two side by side on any sequence of learnings and
consumptions, `malloc` returning any address that is not allocated.

The list is the table in every run that never consumes the oldest host of the table, and learns
no frame so long that its copy reaches `head` (`KeepsHead`).  `find_node` unlinks a node from the
one before it, and the first has none before it: `head` then keeps its address, and the node is
freed.
-/
import Ofpagent.Agent.Main

namespace Ofpagent.Agent

open Ofpagent.Lib

/-! ## 1. The list in memory -/

/-- The fuel of the loops is more than a list needs. -/
theorem Heap.length_lt_fuel {hp : Heap} {head : Ptr} {as : List Addr}
    (h : Seg hp.link head as none) : as.length < hp.fuel := by
  have hsub : as ⊆ hp.keys := fun a ha => AList.mem_keys.mp (Heap.mem_of_link (Seg.live h a ha))
  have := ((Seg.nodup h).subperm hsub).length_le
  simp only [Heap.fuel]
  omega

/-- `insert_node` on a list that is not empty links its last node. -/
theorem insertNode_eq {hp : Heap} {head : Ptr} {as : List Addr} {b : Addr}
    (h : Seg hp.link head (as ++ [b]) none) (node : Addr) :
    insertNode hp head node = some (hp.setNext b (some node), head) := by
  obtain ⟨prev, hscan⟩ : ∃ prev, scan hp.link (fun cur => hp.link cur == some none) hp.fuel
      none head = some (prev, some b) := scan_last (by simp) h (Heap.length_lt_fuel h)
  cases head with
  | none => exact absurd (Seg.of_null h) (by simp)
  | some c => simp [insertNode, hscan]

/-- `insert_node` changes no record. -/
theorem record_insertNode {hp hp' : Heap} {head head' : Ptr} {node : Addr}
    (h : insertNode hp head node = some (hp', head')) (a : Addr) :
    (hp'.lookup a).map HostLearn.record = (hp.lookup a).map HostLearn.record := by
  unfold insertNode at h
  split at h
  · cases h
    rfl
  · split at h
    · cases h
      exact Heap.record_setNext _ _ _ _
    · cases h

/-- **`insert_node` comes to an end** exactly on a list. -/
theorem insertNode_isSome_iff {hp : Heap} {head : Ptr} {node : Addr} :
    (insertNode hp head node).isSome ↔ ∃ as, Seg hp.link head as none := by
  constructor
  · intro h
    unfold insertNode at h
    split at h
    · exact ⟨[], rfl⟩
    · split at h
      · next hscan =>
        exact Seg.of_scan hscan (by simpa using scan_test hscan)
      · cases h
  · rintro ⟨as, h⟩
    rcases List.eq_nil_or_concat as with rfl | ⟨l, b, rfl⟩
    · rw [Seg.nil_iff.mp h]
      rfl
    · rw [List.concat_eq_append] at h
      rw [insertNode_eq h node]
      rfl

/-- What `find_node` finds has the id, and its record is what it was. -/
theorem findNode_found {hp hp' : Heap} {head : Ptr} {b : UInt32} {a : Addr}
    (h : findNode hp head b = some (hp', some a)) :
    hasBufferId hp b a = true ∧
      (hp'.lookup a).map HostLearn.record = (hp.lookup a).map HostLearn.record := by
  unfold findNode at h
  split at h
  · cases h
  · cases h
  · next hscan =>
    cases h
    exact ⟨scan_test hscan, rfl⟩
  · next hscan =>
    obtain ⟨nxt, -, h⟩ := Option.map_eq_some_iff.mp h
    cases h
    exact ⟨scan_test hscan, Heap.record_setNext _ _ _ _⟩

theorem lookup_findNode {hp hp' : Heap} {head : Ptr} {b : UInt32} {a : Addr}
    (h : findNode hp head b = some (hp', some a)) : ∃ node, hp'.lookup a = some node := by
  obtain ⟨hid, hrec⟩ := findNode_found h
  obtain ⟨node, hnode, -⟩ : ∃ node, hp.lookup a = some node ∧ _ := (Option.any_eq_true _ _).mp hid
  rw [hnode] at hrec
  obtain ⟨node', hnode', -⟩ := Option.map_eq_some_iff.mp hrec
  exact ⟨node', hnode'⟩

/-- The list from `head` on is `l`: its nodes with their records. -/
structure Hosts (hp : Heap) (head : Ptr) (l : List (Addr × HostLearn)) : Prop where
  seg : Seg hp.link head (l.map Prod.fst) none
  recs : ∀ x ∈ l, (hp.lookup x.1).map HostLearn.record = some x.2

namespace Hosts

variable {hp : Heap} {head : Ptr} {l : List (Addr × HostLearn)}

theorem empty (hp : Heap) : Hosts hp none [] := ⟨rfl, by simp⟩

theorem nodup (h : Hosts hp head l) : (l.map Prod.fst).Nodup := Seg.nodup h.seg

/-- Every node of the list is allocated. -/
theorem mem (h : Hosts hp head l) {a : Addr} (ha : a ∈ l.map Prod.fst) : a ∈ hp :=
  Heap.mem_of_link (Seg.live h.seg a ha)

theorem lookup (h : Hosts hp head l) {x : Addr × HostLearn} (hx : x ∈ l) :
    ∃ n, hp.lookup x.1 = some n ∧ n.record = x.2 :=
  Option.map_eq_some_iff.mp (h.recs x hx)

/-- A list does not see a node it does not visit. -/
theorem congr {hp' : Heap} (h : Hosts hp head l)
    (heq : ∀ a ∈ l.map Prod.fst, hp'.lookup a = hp.lookup a) : Hosts hp' head l := by
  refine ⟨h.seg.congr fun a ha => ?_, fun x hx => ?_⟩
  · rw [Heap.link, heq a ha, Heap.link]
  · rw [heq x.1 (List.mem_map_of_mem hx)]
    exact h.recs x hx

theorem insert_of_notMem (h : Hosts hp head l) {node : Addr} (hn : node ∉ hp) (r : HostLearn) :
    Hosts (hp.insert node r) head l :=
  h.congr fun a ha => AList.lookup_insert_ne fun e => hn (by rw [← e]; exact h.mem ha)

end Hosts

/-! ## 2. The two operations on it -/

section Insert

variable {hp : Heap} {head : Ptr} {l : List (Addr × HostLearn)} {node : Addr} {r : HostLearn}

/-- A node that is behind the last one is in the list, and with its record. -/
theorem Hosts.snoc {hp' : Heap} {head' : Ptr} (h : Hosts hp head l) (hnode : hp.lookup node = some r)
    (hr : r.next = none) (hseg : Seg hp'.link head' (l.map Prod.fst ++ [node]) none)
    (hsame : ∀ a, (hp'.lookup a).map HostLearn.record = (hp.lookup a).map HostLearn.record) :
    Hosts hp' head' (l ++ [(node, r)]) := by
  refine ⟨by simpa using hseg, fun x hx => ?_⟩
  rw [hsame]
  rcases List.mem_append.mp hx with hx | hx
  · exact h.recs x hx
  · rw [List.mem_singleton.mp hx]
    simp [hnode, HostLearn.record, ← hr]

/-- **`insert_node`** puts the node at the end. -/
theorem Hosts.insertNode (h : Hosts hp head l) (hnode : hp.lookup node = some r)
    (hr : r.next = none) (hfresh : node ∉ l.map Prod.fst) :
    ∃ hp' head', insertNode hp head node = some (hp', head') ∧
      Hosts hp' head' (l ++ [(node, r)]) := by
  have hlink : hp.link node = some none := by simp [Heap.link, hnode, hr]
  have hnd : (l.map Prod.fst ++ [node]).Nodup :=
    List.nodup_append.mpr ⟨h.nodup, List.nodup_singleton node, fun a ha b hb e =>
      hfresh (List.mem_singleton.mp hb ▸ e ▸ ha)⟩
  have hnew : Seg hp.link (some node) [node] none := ⟨rfl, none, hlink, rfl⟩
  have hrelink := Seg.relink h.seg hnew hnd
  cases head with
  | none =>
    have hnil := Seg.of_null h.seg
    rw [hnil] at hrelink
    exact ⟨hp, some node, rfl, h.snoc hnode hr (by rw [hnil]; exact hrelink) fun _ => rfl⟩
  | some c =>
    rcases List.eq_nil_or_concat (l.map Prod.fst) with hnil | ⟨l₀, b, hl₀⟩
    · have hseg := h.seg
      rw [hnil] at hseg
      cases hseg
    · rw [List.concat_eq_append] at hl₀
      obtain ⟨n, hn⟩ := Option.isSome_iff_exists.mp
        (AList.lookup_isSome.mpr (h.mem (a := b) (by simp [hl₀])))
      refine ⟨hp.setNext b (some node), some c, insertNode_eq (hl₀ ▸ h.seg) node, ?_⟩
      refine h.snoc hnode hr ?_ fun a => Heap.record_setNext hp b a _
      rw [Heap.link_setNext hn]
      simpa [hl₀, relink] using hrelink

end Insert

/-- A consumption: where the record stood, and the list without it. -/
structure Consumed (hp : Heap) (head : Ptr) (l : List (Addr × HostLearn)) (b : UInt32)
    (hp' : Heap) (a : Addr) : Prop where
  found : findNode hp head b = some (hp', some a)
  split : ∃ l₁ r l₂, l = l₁ ++ (a, r) :: l₂ ∧ r.bufferId = b ∧ (∀ x ∈ l₁, x.2.bufferId ≠ b) ∧
    (hp'.lookup a).map HostLearn.record = some r ∧
    (l₁ ≠ [] → Hosts (hp'.erase a) head (l₁ ++ l₂)) ∧ (l₁ = [] → head = some a)

section Find

variable {hp : Heap} {head : Ptr} {l : List (Addr × HostLearn)}

theorem Hosts.hasBufferId (h : Hosts hp head l) (b : UInt32) {x : Addr × HostLearn} (hx : x ∈ l) :
    hasBufferId hp b x.1 = (x.2.bufferId == b) := by
  obtain ⟨n, hn, hrec⟩ := h.lookup hx
  rw [← hrec]
  simp [Agent.hasBufferId, hn, HostLearn.record]

/-- Taking a node out behind another one, and freeing it. -/
theorem Hosts.unlink {l₁ l₂ : List (Addr × HostLearn)} {p x : Addr × HostLearn}
    (h : Hosts hp head (l₁ ++ p :: x :: l₂)) {q : Ptr} (hq : hp.link x.1 = some q) :
    Hosts ((hp.setNext p.1 q).erase x.1) head (l₁ ++ p :: l₂) := by
  have hseg := h.seg
  rw [List.map_append, List.map_cons, List.map_cons] at hseg
  obtain ⟨r, h₁, hr, s, hs, hx, q', hq', h₂⟩ := Seg.append_iff.mp hseg
  obtain rfl : q' = q := Option.some.inj (hq'.symm.trans hq)
  have hprev : Seg hp.link head (l₁.map Prod.fst ++ [p.1]) s :=
    Seg.append_iff.mpr ⟨r, h₁, hr, s, hs, rfl⟩
  have hnd := h.nodup
  rw [List.map_append, List.map_cons, List.map_cons] at hnd
  have hxout : x.1 ∉ l₁.map Prod.fst ++ p.1 :: l₂.map Prod.fst := by
    have hperm : (l₁.map Prod.fst ++ [p.1] ++ x.1 :: l₂.map Prod.fst).Perm
        (x.1 :: (l₁.map Prod.fst ++ [p.1] ++ l₂.map Prod.fst)) := List.perm_middle
    simp only [List.append_assoc, List.singleton_append] at hperm
    exact (List.nodup_cons.mp (hperm.nodup_iff.mp hnd)).1
  have hne : ∀ a ∈ l₁.map Prod.fst ++ p.1 :: l₂.map Prod.fst, a ≠ x.1 := by
    rintro a ha rfl
    exact hxout ha
  have hnd' : (l₁.map Prod.fst ++ [p.1] ++ l₂.map Prod.fst).Nodup := by
    refine hnd.sublist ?_
    simp
  have hrelink := Seg.relink hprev h₂ hnd'
  obtain ⟨n, hn, -⟩ := h.lookup (x := p) (by simp)
  refine ⟨?_, ?_⟩
  · rw [Heap.link_erase, Heap.link_setNext hn]
    have hseg' : Seg (Function.update hp.link p.1 (some q')) head
        (l₁.map Prod.fst ++ p.1 :: l₂.map Prod.fst) none := by
      simpa [relink] using hrelink
    rw [List.map_append, List.map_cons]
    exact hseg'.congr fun a ha => Function.update_of_ne (hne a ha) _ _
  · intro y hy
    have hy1 : y.1 ∈ l₁.map Prod.fst ++ p.1 :: l₂.map Prod.fst := by
      rw [← List.map_cons, ← List.map_append]
      exact List.mem_map_of_mem hy
    rw [AList.lookup_erase_ne (hne y.1 hy1), Heap.record_setNext]
    refine h.recs y ?_
    simp only [List.mem_append, List.mem_cons] at hy ⊢
    tauto

/-- **`find_node`** finds the first record with the id, or says that there is none. -/
theorem Hosts.findNode (h : Hosts hp head l) (b : UInt32) :
    ((∀ x ∈ l, x.2.bufferId ≠ b) ∧ findNode hp head b = some (hp, none)) ∨
      ∃ hp' a, Consumed hp head l b hp' a := by
  rcases scan_split (Agent.hasBufferId hp b) h.seg (Heap.length_lt_fuel h.seg) with
    ⟨hno, prev, hscan⟩ | ⟨m₁, a, m₂, hl, hno, ha, hscan⟩
  · refine Or.inl ⟨fun x hx => ?_, by simp [Agent.findNode, hscan]⟩
    have hx' := hno x.1 (List.mem_map_of_mem hx)
    rwa [h.hasBufferId b hx, beq_eq_false_iff_ne] at hx'
  · right
    obtain ⟨l₁, k, rfl, rfl, hk⟩ := List.map_eq_append_iff.mp hl
    obtain ⟨x, l₂, rfl, rfl, rfl⟩ := List.map_eq_cons_iff.mp hk
    have hid : x.2.bufferId = b := by
      rwa [h.hasBufferId b (by simp), beq_iff_eq] at ha
    have hbefore : ∀ y ∈ l₁, y.2.bufferId ≠ b := by
      intro y hy
      have hy' := hno y.1 (List.mem_map_of_mem hy)
      rwa [h.hasBufferId b (by simp [hy]), beq_eq_false_iff_ne] at hy'
    rcases List.eq_nil_or_concat l₁ with rfl | ⟨l₀, p, rfl⟩
    · refine ⟨hp, x.1, by simp [Agent.findNode, hscan], [], x.2, l₂, rfl, hid, by simp,
        h.recs x (by simp), by simp, fun _ => ?_⟩
      exact h.seg.1
    · rw [List.concat_eq_append] at *
      obtain ⟨n, hn, -⟩ := h.lookup (x := x) (by simp)
      have hq : hp.link x.1 = some n.next := by simp [Heap.link, hn]
      refine ⟨hp.setNext p.1 n.next, x.1, by simp [Agent.findNode, hscan, hq], l₀ ++ [p], x.2, l₂,
        rfl, hid, hbefore, ?_, fun _ => ?_, by simp⟩
      · rw [Heap.record_setNext]
        exact h.recs x (by simp)
      · have hl : l₀ ++ [p] ++ x :: l₂ = l₀ ++ p :: x :: l₂ := by simp
        rw [hl] at h
        simpa using h.unlink hq

end Find

/-! ## 3. The two encoders -/

section Encode

variable {s : Ofpd} {l : List (Addr × HostLearn)} {mu : Mem} {e : Env}

/-- **Learning.** -/
theorem ofpEncodePacketIn_hosts (h : Hosts s.heap s.port.head l) (hnode : e.node ∉ s.heap)
    {mulen : UInt16} (hkeep : mulen.toNat + 42 ≤ headOff) :
    ∃ s', ofpEncodePacketIn s mu mulen e = some s' ∧
      Hosts s'.heap s'.port.head (l ++ [(e.node, hostOf mu s.bufferId)]) ∧
      s'.bufferId = s.bufferId + 1 ∧ s'.port.ofpPacketIn.bufferId = htonl s.bufferId := by
  have hmax : ¬ muMax < mulen.toNat := by
    simp only [muMax, headOff, ethMtu] at *
    omega
  have hl := h.insert_of_notMem hnode (hostOf mu s.bufferId)
  rw [← head_encodePacketIn s.port s.bufferId mu hkeep] at hl
  obtain ⟨hp', head', hins, hl'⟩ := hl.insertNode (AList.lookup_insert _) rfl
    fun hm => hnode (h.mem hm)
  refine ⟨{ s with
    port := (encodePacketIn s.port s.bufferId mu mulen).setHead head', heap := hp'
    bufferId := s.bufferId + 1 }, ?_, ?_, rfl, rfl⟩
  · simp only [ofpEncodePacketIn, if_neg hmax, hins, Option.map_some]
  · simpa using hl'

/-- What the consumption of a host leaves: the list without it, if there is a node ahead of
it, and else a `head` that leads nowhere. -/
structure Freed (s s' : Ofpd) (b : UInt32) (l : List (Addr × HostLearn)) : Prop where
  split : ∃ l₁ a r l₂, l = l₁ ++ (a, r) :: l₂ ∧ r.bufferId = b ∧ (∀ x ∈ l₁, x.2.bufferId ≠ b) ∧
    (l₁ ≠ [] → Hosts s'.heap s'.port.head (l₁ ++ l₂)) ∧
    (l₁ = [] → s'.port.head = some a ∧ a ∉ s'.heap)
  bufferId : s'.bufferId = s.bufferId

/-- **Consuming.** -/
theorem ofpEncodeBackToHost_hosts (h : Hosts s.heap s.port.head l) (hset : isSetField mu = true)
    (hb : ∃ x ∈ l, x.2.bufferId = flowBufferId mu) :
    ∃ s', ofpEncodeBackToHost s mu e = some s' ∧ Freed s s' (flowBufferId mu) l := by
  rcases h.findNode (flowBufferId mu) with ⟨hno, -⟩ | ⟨hp', a, hf, l₁, r, l₂, hl, hid, hbefore,
    hrec, hlist, hhead⟩
  · obtain ⟨x, hx, hxid⟩ := hb
    exact absurd hxid (hno x hx)
  · obtain ⟨node, hnode, -⟩ := Option.map_eq_some_iff.mp hrec
    have hkeep := s.port.head_reply node (u32At mu flowMatchOff) (flowDstIp mu e) e
    refine ⟨_, ofpEncodeBackToHost_eq hset hf hnode,
      ⟨l₁, a, r, l₂, hl, hid, hbefore, fun hne => ?_, fun hnil => ⟨?_, ?_⟩⟩, rfl⟩
    · exact hkeep.symm ▸ hlist hne
    · exact hkeep.trans (hhead hnil)
    · exact fun hm => (AList.mem_erase.mp hm).1 rfl

end Encode

/-! ## 4. The table and its runs -/

/-- **What the list is for**: the hosts learned and not yet consumed, oldest first, and how many
have been learned so far. -/
structure HostTable where
  recs : List HostLearn
  learned : ℕ

namespace HostTable

/-- The frame's host, under the next id. -/
def learn (t : HostTable) (mu : Mem) : HostTable :=
  ⟨t.recs ++ [hostOf mu (UInt32.ofNat (t.learned + 1))], t.learned + 1⟩

def consume (t : HostTable) (b : UInt32) : HostTable :=
  ⟨t.recs.filter fun r => r.bufferId != b, t.learned⟩

end HostTable

/-- A call of `OFP_encode_packet_in`, or one of `OFP_encode_back_to_host` that looks for a host. -/
inductive HostOp
  | learn (mu : Mem) (mulen : UInt16)
  | consume (mu : Mem)

/-- The process, with the table of the calls so far. -/
structure HostSys where
  ofpd : Ofpd
  table : HostTable

/-- One call.  A consumption is of a host in the table. -/
def HostSys.step (x : HostSys) (r : HostOp × Env) : Option HostSys :=
  match r.1 with
  | .learn mu mulen =>
    if r.2.node ∉ x.ofpd.heap then
      (ofpEncodePacketIn x.ofpd mu mulen r.2).map fun s => ⟨s, x.table.learn mu⟩
    else none
  | .consume mu =>
    if isSetField mu ∧ flowBufferId mu ∈ x.table.recs.map HostLearn.bufferId then
      (ofpEncodeBackToHost x.ofpd mu r.2).map fun s => ⟨s, x.table.consume (flowBufferId mu)⟩
    else none

/-- **The list of learned hosts**, under any sequence of learnings and consumptions. -/
def hostList : Lts HostSys (HostOp × Env) where
  init x := x.ofpd.heap = ∅ ∧ x.ofpd.port.head = none ∧ x.ofpd.bufferId = 1 ∧ x.table = ⟨[], 0⟩
  step x r x' := x.step r = some x'

/-- A call that leaves `head` to the list: the copy of the frame stops ahead of it, and the host
consumed is not the oldest. -/
def KeepsHead (x : HostSys) (r : HostOp × Env) : Prop :=
  match r.1 with
  | .learn _ mulen => mulen.toNat + 42 ≤ headOff
  | .consume mu => (x.table.recs.head?.map HostLearn.bufferId) ≠ some (flowBufferId mu)

/-- The list is the table, and ids are handed out in order. -/
structure Rep (x : HostSys) : Prop where
  hosts : ∃ l, Hosts x.ofpd.heap x.ofpd.port.head l ∧ l.map Prod.snd = x.table.recs
  next : x.ofpd.bufferId = UInt32.ofNat (x.table.learned + 1)
  ids : ∀ r ∈ x.table.recs, r.bufferId.toNat ≤ x.table.learned
  nodup : (x.table.recs.map HostLearn.bufferId).Nodup

theorem rep_init {x : HostSys} (h : hostList.init x) : Rep x := by
  obtain ⟨-, hhead, hid, htable⟩ := h
  refine ⟨⟨[], hhead ▸ Hosts.empty _, ?_⟩, ?_, ?_, ?_⟩ <;> simp [htable, hid]

theorem Rep.learn {x x' : HostSys} {mu : Mem} {mulen : UInt16} {e : Env} (h : Rep x)
    (hlearned : x.table.learned + 1 < 2 ^ 31) (hkeep : mulen.toNat + 42 ≤ headOff)
    (hs : x.step (.learn mu mulen, e) = some x') :
    Rep x' ∧ x'.ofpd.port.ofpPacketIn.bufferId = htonl (UInt32.ofNat (x.table.learned + 1)) := by
  simp only [HostSys.step] at hs
  split_ifs at hs with hnode
  obtain ⟨l, hl, hrecs⟩ := h.hosts
  obtain ⟨s', hrun, hl', hid, hann⟩ :=
    @ofpEncodePacketIn_hosts x.ofpd l mu e hl hnode mulen hkeep
  rw [hrun] at hs
  cases hs
  have hnext : (UInt32.ofNat (x.table.learned + 1)).toNat = x.table.learned + 1 :=
    UInt32.toNat_ofNat_of_lt' (by simp only [UInt32.size]; omega)
  refine ⟨⟨⟨_, hl', by simp [hrecs, h.next, HostTable.learn]⟩, ?_, ?_, ?_⟩, hann.trans (by rw [h.next])⟩
  · rw [hid, h.next]
    simp [HostTable.learn, UInt32.ofNat_add]
  · intro r hr
    rcases List.mem_append.mp hr with hr | hr
    · exact (h.ids r hr).trans (Nat.le_succ _)
    · rw [List.mem_singleton.mp hr]
      exact hnext.le
  · simp only [HostTable.learn, List.map_append, List.map_cons, List.map_nil]
    refine List.nodup_append.mpr ⟨h.nodup, List.nodup_singleton _, fun b hb c hc e => ?_⟩
    obtain ⟨r, hr, rfl⟩ := List.mem_map.mp hb
    have hle := h.ids r hr
    rw [e, List.mem_singleton.mp hc] at hle
    simp only [hostOf] at hle
    omega

/-- The table without a host is the list without its node. -/
theorem filter_bufferId {r₁ r₂ : List HostLearn} {r : HostLearn}
    (hnd : ((r₁ ++ r :: r₂).map HostLearn.bufferId).Nodup) :
    (r₁ ++ r :: r₂).filter (fun y => y.bufferId != r.bufferId) = r₁ ++ r₂ := by
  rw [List.map_append, List.map_cons] at hnd
  obtain ⟨-, h₂, h₁⟩ := List.nodup_append.mp hnd
  have hr₁ : r₁.filter (fun y => y.bufferId != r.bufferId) = r₁ :=
    List.filter_eq_self.mpr fun y hy =>
      bne_iff_ne.mpr (h₁ _ (List.mem_map_of_mem hy) _ List.mem_cons_self)
  have hr₂ : r₂.filter (fun y => y.bufferId != r.bufferId) = r₂ :=
    List.filter_eq_self.mpr fun y hy => bne_iff_ne.mpr fun e =>
      (List.nodup_cons.mp h₂).1 (e ▸ List.mem_map_of_mem hy)
  simp [hr₁, hr₂]

/-- No list starts at a freed node. -/
theorem not_hosts_of_freed {hp : Heap} {a : Addr} (ha : a ∉ hp) (l : List (Addr × HostLearn)) :
    ¬ Hosts hp (some a) l := by
  intro h
  cases l with
  | nil => cases h.seg
  | cons x l =>
    obtain ⟨hx, -⟩ := h.seg
    exact ha (h.mem (by simp [Option.some.inj hx]))

/-- A consumption keeps the list unless it is of the oldest host, and then there is no list any
more. -/
theorem Rep.consume {x x' : HostSys} {mu : Mem} {e : Env} (h : Rep x)
    (hs : x.step (.consume mu, e) = some x') :
    (KeepsHead x (.consume mu, e) → Rep x') ∧
      (¬ KeepsHead x (.consume mu, e) → ∀ l, ¬ Hosts x'.ofpd.heap x'.ofpd.port.head l) := by
  simp only [HostSys.step] at hs
  split_ifs at hs with hc
  obtain ⟨hset, hmem⟩ := hc
  obtain ⟨l, hl, hrecs⟩ := h.hosts
  have hin : ∃ y ∈ l, y.2.bufferId = flowBufferId mu := by
    rw [← hrecs, List.map_map] at hmem
    exact List.mem_map.mp hmem
  obtain ⟨s', hrun, ⟨l₁, a, r, l₂, rfl, hid, hbefore, hlist, hhead⟩, hbid⟩ :=
    ofpEncodeBackToHost_hosts (e := e) hl hset hin
  rw [hrun] at hs
  cases hs
  rw [List.map_append, List.map_cons] at hrecs
  have hnd := h.nodup
  rw [← hrecs] at hnd
  have htable : (x.table.consume (flowBufferId mu)).recs = l₁.map Prod.snd ++ l₂.map Prod.snd := by
    rw [HostTable.consume, ← hrecs, ← hid]
    exact filter_bufferId hnd
  constructor
  · intro hkeep
    have hne : l₁ ≠ [] := by
      rintro rfl
      exact hkeep (by simp [← hrecs, hid])
    refine ⟨⟨_, hlist hne, by rw [htable, List.map_append]⟩, hbid.trans h.next, fun y hy => ?_, ?_⟩
    · exact h.ids y (List.mem_filter.mp hy).1
    · exact h.nodup.sublist (List.filter_sublist.map _)
  · intro hkeep
    have hnil : l₁ = [] := by
      cases l₁ with
      | nil => rfl
      | cons y l₁ =>
        have hold : y.2.bufferId = flowBufferId mu := by
          simpa [KeepsHead, ← hrecs] using hkeep
        exact absurd hold (hbefore y (by simp))
    obtain ⟨hh, hfreed⟩ := hhead hnil
    rw [hh]
    exact not_hosts_of_freed hfreed

/-! ## 5. The result -/

/-- The PACKET_IN of a learning announces the id its host is in the table with. -/
def Announced (t : Transition HostSys (HostOp × Env)) : Prop :=
  ∀ mu mulen e, t.lab = (.learn mu mulen, e) →
    t.post.ofpd.port.ofpPacketIn.bufferId = htonl (UInt32.ofNat (t.pre.table.learned + 1)) ∧
      t.post.table.recs
        = t.pre.table.recs ++ [hostOf mu (UInt32.ofNat (t.pre.table.learned + 1))]

/-- **The step.** -/
theorem Rep.step {x x' : HostSys} {r : HostOp × Env} (h : x.table.learned < 2 ^ 31 → Rep x)
    (hkeep : KeepsHead x r) (hs : x.step r = some x') (hlearned : x'.table.learned < 2 ^ 31) :
    x.table.learned < 2 ^ 31 ∧ Rep x' ∧ Announced ⟨x, r, x'⟩ := by
  obtain ⟨op, e⟩ := r
  cases op with
  | learn mu mulen =>
    have htable : x'.table = x.table.learn mu := by
      simp only [HostSys.step] at hs
      split_ifs at hs
      obtain ⟨s, -, rfl⟩ := Option.map_eq_some_iff.mp hs
      rfl
    have hlt : x.table.learned + 1 < 2 ^ 31 := by rwa [htable] at hlearned
    obtain ⟨hrep, hann⟩ := (h (by omega)).learn hlt hkeep hs
    refine ⟨by omega, hrep, fun mu' mulen' e' he => ?_⟩
    cases he
    exact ⟨hann, by rw [htable]; rfl⟩
  | consume mu =>
    have htable : x'.table = x.table.consume (flowBufferId mu) := by
      simp only [HostSys.step] at hs
      split_ifs at hs
      obtain ⟨s, -, rfl⟩ := Option.map_eq_some_iff.mp hs
      rfl
    have hlt : x.table.learned < 2 ^ 31 := by rwa [htable] at hlearned
    exact ⟨hlt, ((h hlt).consume hs).1 hkeep, fun _ _ _ he => by cases he⟩

/-- `find_node` yields each host of the list by its id. -/
theorem Hosts.findNode_mem {hp : Heap} {head : Ptr} {l : List (Addr × HostLearn)}
    (h : Hosts hp head l) (hnd : (l.map fun y => y.2.bufferId).Nodup) {y : Addr × HostLearn}
    (hy : y ∈ l) : ∃ hp', Agent.findNode hp head y.2.bufferId = some (hp', some y.1) := by
  rcases h.findNode y.2.bufferId with ⟨hno, -⟩ | ⟨hp', a, hf, l₁, r, l₂, hl, hid, -⟩
  · exact absurd rfl (hno y hy)
  · obtain rfl : (a, r) = y :=
      List.inj_on_of_nodup_map hnd (by simp [hl]) hy hid
    exact ⟨hp', hf⟩

/-- **The list is the table**, in every run that keeps `head` to the list and learns fewer than
`2 ^ 31` hosts: walking from `head` visits exactly the hosts learned and not yet consumed, in
the order they were learned, every node of it allocated and none twice; `insert_node` and
`find_node` terminate, and `find_node` yields the host with the id its frame was announced
with.  A consumption of the oldest host leaves no list. -/
theorem hosts_of_run {ts : List (Transition HostSys (HostOp × Env))} {x : HostSys}
    (h : Run hostList ts x) (hkeep : ∀ t ∈ ts, KeepsHead t.pre t.lab)
    (hlearned : x.table.learned < 2 ^ 31) :
    (∃ l, Hosts x.ofpd.heap x.ofpd.port.head l ∧ l.map Prod.snd = x.table.recs ∧
      (l.map Prod.fst).Nodup ∧ (∀ a ∈ l.map Prod.fst, a ∈ x.ofpd.heap) ∧
      (∀ node r, node ∉ x.ofpd.heap → r.next = none →
        (insertNode (x.ofpd.heap.insert node r) x.ofpd.port.head node).isSome) ∧
      (∀ b, (findNode x.ofpd.heap x.ofpd.port.head b).isSome) ∧
      ∀ y ∈ l, ∃ hp', findNode x.ofpd.heap x.ofpd.port.head y.2.bufferId = some (hp', some y.1)) ∧
    (∀ t ∈ ts, Announced t) ∧
    ∀ mu e x', hostList.step x (.consume mu, e) x' → ¬ KeepsHead x (.consume mu, e) →
      ∀ l, ¬ Hosts x'.ofpd.heap x'.ofpd.port.head l := by
  obtain ⟨hrep, hann⟩ := h.history
    (fun ts x => x.table.learned < 2 ^ 31 → Rep x ∧ ∀ t ∈ ts, Announced t) KeepsHead
    (fun x hx _ => ⟨rep_init hx, by simp⟩)
    (fun ts x r x' ih hk hs hlt => by
      obtain ⟨hlt', hrep, hann⟩ := Rep.step (fun hl => (ih hl).1) hk hs hlt
      refine ⟨hrep, ?_⟩
      intro t ht
      rcases List.mem_append.mp ht with ht | ht
      · exact (ih hlt').2 t ht
      · rwa [List.mem_singleton.mp ht])
    hkeep hlearned
  obtain ⟨l, hl, hrecs⟩ := hrep.hosts
  have hids : (l.map fun y => y.2.bufferId).Nodup := by
    have hnd := hrep.nodup
    rw [← hrecs, List.map_map] at hnd
    exact hnd
  refine ⟨⟨l, hl, hrecs, hl.nodup, fun a => hl.mem, ?_, ?_,
    fun y => hl.findNode_mem hids⟩, hann, fun mu e x' hs => (hrep.consume hs).2⟩
  · intro node r hnode hr
    obtain ⟨hp', head', hins, -⟩ := (hl.insert_of_notMem hnode r).insertNode
      (AList.lookup_insert _) hr fun hm => hnode (hl.mem hm)
    simp [hins]
  · intro b
    rcases hl.findNode b with ⟨-, hf⟩ | ⟨hp', a, hf, -⟩ <;> simp [hf]

instance (x : HostSys) : DecidablePred (KeepsHead x) := fun r => by
  unfold KeepsHead
  split <;> infer_instance

theorem hostList_started : hostList.init ⟨started, ⟨[], 0⟩⟩ :=
  ⟨rfl, (ofpdReady_restarted _ _).head, rfl, rfl⟩

/-- The call for a frame whose node is put at `a`, and the one for a flow mod. -/
def learnFrame (a : Addr) : HostOp × Env := (.learn (dpMail frame60).mu 60, Env.plain a)
def consumeId (b : UInt32) : HostOp × Env :=
  (.consume (Mem.write (fun _ => 0) 0 (flowModMsg b)), Env.plain addr2)

/-- Two frames, the second of which is consumed. -/
theorem hosts_of_run_second : ∃ ts x, Run hostList ts x ∧ x.table.learned = 2 ∧
    ∃ l, Hosts x.ofpd.heap x.ofpd.port.head l ∧ l.map Prod.snd = [hostOf (dpMail frame60).mu 1] := by
  obtain ⟨ts, x, hr, -, hkeep, hn, hrecs⟩ := Run.of_exec (fun _ _ _ hs => hs) hostList_started
    [learnFrame addr1, learnFrame addr2, consumeId 2] KeepsHead
    (fun x => x.table.learned = 2 ∧ x.table.recs = [hostOf (dpMail frame60).mu 1]) (by decide +kernel)
  obtain ⟨⟨l, hl, hl', -⟩, -⟩ := hosts_of_run hr hkeep (by rw [hn]; decide)
  exact ⟨ts, x, hr, hn, l, hl, hl'.trans hrecs⟩

/-- **The only host is consumed**: the table is empty, and `head` leads to a freed node. -/
theorem consume_dangles : ∃ ts x, Run hostList ts x ∧ x.table.recs = [] ∧ x.table.learned = 1 ∧
    ∃ a, x.ofpd.port.head = some a ∧ a ∉ x.ofpd.heap ∧
      ∀ l, ¬ Hosts x.ofpd.heap x.ofpd.port.head l := by
  obtain ⟨ts, x, hr, -, -, hrecs, hn, hhead⟩ := Run.of_exec (fun _ _ _ hs => hs) hostList_started
    [learnFrame addr1, consumeId 1] (fun _ _ => True)
    (fun x => x.table.recs = [] ∧ x.table.learned = 1 ∧
      x.ofpd.port.head.any (fun a => decide (a ∉ x.ofpd.heap)) = true) (by decide +kernel)
  obtain ⟨a, ha, hfreed⟩ := (Option.any_eq_true _ _).mp hhead
  refine ⟨ts, x, hr, hrecs, hn, a, ha, of_decide_eq_true hfreed, ?_⟩
  rw [ha]
  exact not_hosts_of_freed (of_decide_eq_true hfreed)

end Ofpagent.Agent
