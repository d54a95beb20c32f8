/-
# Flow mods of every shape

`OFP_encode_back_to_host` takes the bytes at offset 72 of a flow mod for its first action.  They
are that when the match takes 16 bytes and the first instruction is an apply-actions with an
action in it; with any other match, or another instruction in front, they are what happens to
stand there, and behind a short message what the mail before has left.  So a flow mod is
classified by its real first action exactly when these bytes agree with it (`Recognized`), and in
the layout the source has in mind when the action, if it is a SET_FIELD, is one of the IPv4
destination and the id names a record.
-/
import Ofpagent.Lib.OpenFlow
import Ofpagent.Agent.Answer

namespace Ofpagent.Agent

open Ofpagent.Lib
open Ofpagent.Lib.OpenFlow

/-! ## 1. Ids that name a record -/

/-- `find_node` finds a record exactly when there is one. -/
theorem names_iff {hp : Heap} {head : Ptr} {b : UInt32} :
    Names hp head b ↔ ∃ hp' a, findNode hp head b = some (hp', some a) := by
  constructor
  · rintro ⟨l, a, q, hseg, ht⟩
    obtain ⟨k, hk, hnd⟩ := Seg.exists_nodup hseg
    have hsub : k ++ [a] ⊆ hp.keys := fun c hc =>
      AList.mem_keys.mp (Heap.mem_of_link (Seg.live hk c hc))
    have hlen : k.length < hp.fuel := by
      have := (hnd.subperm hsub).length_le
      rw [List.length_append] at this
      simp only [Heap.fuel]
      omega
    obtain ⟨prev, c, hscan⟩ : ∃ prev c,
        scan hp.link (hasBufferId hp b) hp.fuel none head = some (prev, some c) :=
      scan_found hk ht hlen
    obtain ⟨-, r, -, hr, -⟩ := Seg.to_scan hscan
    unfold findNode
    rw [hscan]
    cases prev with
    | none => exact ⟨hp, c, rfl⟩
    | some p => exact ⟨hp.setNext p r, c, by simp [hr]⟩
  · rintro ⟨hp', a, h⟩
    exact names_of_findNode h

/-! ## 2. Classification -/

/-- **A flow mod is classified by its real first action**, whatever the stack held: the event is
`E_FLOW_MOD` exactly when that is a SET_FIELD, and then the second address of the payload is the
one it sets; else the event is `E_OTHERS`. -/
def Classified (f : FlowMod) (s : Ofpd) (mu : Mem) : Prop :=
  ∀ e, ∃ s', ofpEncodeBackToHost (s.setEvent eFlowMod) mu e = some s' ∧
    (s'.port.event = eFlowMod ↔ f.firstOxm.isSome) ∧
    (f.firstOxm = none → s'.port.event = eOthers) ∧
    ∀ o, f.firstOxm = some o → o.ipv4Dst = some (s'.port.frame.drop 46)

/-- The bytes at the offsets of the source agree with the first action, and the id names a
record. -/
def Recognized (f : FlowMod) (s : Ofpd) (mu : Mem) : Prop :=
  (mu 72 = 0 ∧ mu 73 = 25 ↔ f.firstOxm.isSome) ∧
    ∀ o, f.firstOxm = some o → Names s.heap s.port.head f.bufferId ∧ (mu 78).toNat / 2 = 12 ∧
      o.ipv4Dst = some (mu.read 80 4)

section Encoder

variable {f : FlowMod} {s : Ofpd} {mu : Mem}

/-- The id is where the source looks for it. -/
theorem flowBufferId_of_flowMod (h : mu.Holds 0 f.bytes) : flowBufferId mu = f.bufferId := by
  have hports := (FlowMod.parts h).1
  simp only [FlowMod.ports, List.append_assoc, Mem.holds_append] at hports
  exact flowBufferId_of_holds hports.1

/-- A frame is put together, and ends in `dst_ip`. -/
theorem backToHost_of_names (hset : isSetField mu = true)
    (hid : Names s.heap s.port.head (flowBufferId mu)) (e : Env) :
    ∃ s', ofpEncodeBackToHost (s.setEvent eFlowMod) mu e = some s' ∧ s'.port.event = eFlowMod ∧
      s'.port.frame.drop 46 = leBytes 4 (flowDstIp mu e).toNat := by
  obtain ⟨hp, a, hfind⟩ := names_iff.mp hid
  obtain ⟨node, hnode⟩ := lookup_findNode hfind
  refine ⟨_, ofpEncodeBackToHost_eq (s := s.setEvent eFlowMod) hset hfind hnode, rfl, ?_⟩
  rw [OfpPort.frame_reply, backToHostFrame_drop]

/-- The value of the action is `dst_ip` when the field is the IPv4 destination. -/
theorem flowDstIp_bytes (hfield : (mu 78).toNat / 2 = 12) (e : Env) :
    leBytes 4 (flowDstIp mu e).toNat = mu.read 80 4 := by
  rw [flowDstIp_eq, if_pos hfield]
  have hholds : mu.Holds flowValueOff (mu.read 80 4) := by
    rw [Mem.Holds, Mem.read_length]
    rfl
  exact leBytes_u32At (Mem.read_length mu 80 4) hholds

theorem Recognized.classified (h : mu.Holds 0 f.bytes) (hr : Recognized f s mu) :
    Classified f s mu := by
  intro e
  cases ho : f.firstOxm with
  | none =>
    have hset : ¬ isSetField mu = true := by
      rw [isSetField_iff, hr.1, ho]
      simp
    refine ⟨_, by rw [ofpEncodeBackToHost, if_neg hset], ?_, fun _ => rfl, by simp⟩
    rw [Ofpd.setEvent_event]
    decide
  | some o =>
    obtain ⟨hid, hfield, hval⟩ := hr.2 o ho
    have hset : isSetField mu = true := by
      rw [isSetField_iff, hr.1, ho]
      rfl
    rw [← flowBufferId_of_flowMod h] at hid
    obtain ⟨s', hs', hev, hdrop⟩ := backToHost_of_names hset hid e
    refine ⟨s', hs', by simp [hev], by simp, ?_⟩
    rintro o' ⟨⟩
    rw [hval, hdrop, flowDstIp_bytes hfield]

theorem Classified.recognized (h : mu.Holds 0 f.bytes) (hc : Classified f s mu) :
    Recognized f s mu := by
  by_cases hset : isSetField mu = true
  · have hid : Names s.heap s.port.head (flowBufferId mu) := by
      by_contra hmiss
      obtain ⟨s', hs', -⟩ := hc (Env.plain addr1)
      rw [backToHost_of_miss (s := s.setEvent eFlowMod) hset hmiss] at hs'
      cases hs'
    -- what any contents of the stack give
    have hall : ∀ e, f.firstOxm.isSome ∧
        ∀ o, f.firstOxm = some o → o.ipv4Dst = some (leBytes 4 (flowDstIp mu e).toNat) := by
      intro e
      obtain ⟨s', hs', hev, -, hval⟩ := hc e
      obtain ⟨s'', hs'', hev', hdrop⟩ := backToHost_of_names hset hid e
      obtain rfl : s'' = s' := Option.some.inj (hs''.symm.trans hs')
      rw [hdrop] at hval
      exact ⟨hev.mp hev', hval⟩
    constructor
    · exact iff_of_true (isSetField_iff.mp hset) (hall (Env.plain addr1)).1
    · intro o ho
      have hfield : (mu 78).toNat / 2 = 12 := by
        by_contra hne
        have h0 := (hall (Env.plain addr1)).2 o ho
        have h1 := (hall { Env.plain addr1 with dstIp := 1 }).2 o ho
        rw [h0, flowDstIp_eq, flowDstIp_eq, if_neg hne, if_neg hne] at h1
        exact absurd (Option.some.inj h1) (by decide)
      rw [← flowBufferId_of_flowMod h, ← flowDstIp_bytes hfield (Env.plain addr1)]
      exact ⟨hid, hfield, (hall (Env.plain addr1)).2 o ho⟩
  · obtain ⟨s', hs', hev, -⟩ := hc (Env.plain addr1)
    rw [ofpEncodeBackToHost, if_neg hset] at hs'
    cases hs'
    have hnone : ¬ f.firstOxm.isSome := by
      rw [← hev, Ofpd.setEvent_event]
      decide
    constructor
    · rw [← isSetField_iff]
      exact iff_of_false hset hnone
    · intro o ho
      exact absurd (by rw [ho]; rfl) hnone

/-! ## 3. The layout the source has in mind -/

/-- The action stands at offset 72. -/
theorem holds_firstAction {a : Action} {as : List Action} {is : List Instruction}
    (h : mu.Holds 0 f.bytes) (hm : pad8 f.match.length = 16)
    (hi : f.instructions = .actions .apply (a :: as) :: is) :
    f.firstAction = some a ∧ mu.Holds 72 a.bytes := by
  constructor
  · rw [FlowMod.firstAction, hi]
    rfl
  · have hinstr := (FlowMod.parts h).2.2
    rw [hm, hi, List.flatMap_cons, Mem.holds_append, Instruction.bytes] at hinstr
    have hbody := (holds_item hinstr.1).2
    rw [List.flatMap_cons, Mem.holds_append, Mem.holds_append] at hbody
    exact hbody.2.1

/-- A SET_FIELD, in bytes. -/
theorem holds_setField {o : Oxm} (h : mu.Holds 72 (Action.setField o).bytes) :
    mu 72 = 0 ∧ mu 73 = 25 ∧ (mu 78).toNat = 2 * o.field.toNat + o.hasmask.toNat ∧
      mu.Holds 80 o.payload := by
  obtain ⟨htype, hoxm⟩ := holds_item h
  have h25 : beBytes 2 (25 : UInt16).toNat = [0, 25] := rfl
  rw [h25, Mem.holds_cons, Mem.holds_cons] at htype
  simp only [Oxm.bytes, Mem.holds_append, Mem.holds_cons, List.length_append, beBytes_length,
    List.length_cons, List.length_nil, Nat.reduceAdd] at hoxm
  obtain ⟨⟨-, hfield, -⟩, hpayload⟩ := hoxm
  refine ⟨htype.1, htype.2.1, ?_, hpayload⟩
  have hbit : o.hasmask.toNat < 2 := by cases o.hasmask <;> decide
  have hlt := o.field.isLt
  rw [hfield]
  refine UInt8.toNat_ofNat_of_lt' ?_
  change _ < 256
  omega

/-- An action of another type, in bytes. -/
theorem not_setField_of_holds {type : UInt16} {body : List UInt8} {hne : type ≠ 25}
    (h : mu.Holds 72 (Action.other type body hne).bytes) : ¬ (mu 72 = 0 ∧ mu 73 = 25) := by
  rintro ⟨h0, h1⟩
  obtain ⟨c0, c1, hc⟩ : ∃ c0 c1, beBytes 2 type.toNat = [c0, c1] :=
    List.length_eq_two.mp (beBytes_length 2 _)
  have htype := (holds_item h).1
  rw [hc, Mem.holds_cons, Mem.holds_cons] at htype
  obtain rfl : c0 = 0 := htype.1.symm.trans h0
  obtain rfl : c1 = 25 := htype.2.1.symm.trans h1
  have heq := ofNat_beNat_u16 type
  rw [hc] at heq
  exact hne heq.symm

/-- In this layout the bytes agree with the first action, except where it sets another field than
the IPv4 destination or the id names no record. -/
theorem recognized_iff {a : Action} {as : List Action} {is : List Instruction}
    (h : mu.Holds 0 f.bytes) (hm : pad8 f.match.length = 16)
    (hi : f.instructions = .actions .apply (a :: as) :: is) :
    Recognized f s mu ↔
      ∀ o, a.oxm = some o → Names s.heap s.port.head f.bufferId ∧ o.ipv4Dst.isSome := by
  obtain ⟨hfirst, hbytes⟩ := holds_firstAction h hm hi
  have hoxm : f.firstOxm = a.oxm := by rw [FlowMod.firstOxm, hfirst, Option.bind_some]
  rw [Recognized, hoxm]
  cases a with
  | other type body hne =>
    have hno := not_setField_of_holds hbytes
    simp [Action.oxm, hno]
  | setField o =>
    obtain ⟨h72, h73, h78, h80⟩ := holds_setField hbytes
    constructor
    · rintro ⟨-, hall⟩ o' ho
      obtain ⟨hid, -, hval⟩ := hall o' ho
      exact ⟨hid, by rw [hval]; rfl⟩
    · intro hall
      refine ⟨iff_of_true ⟨h72, h73⟩ rfl, ?_⟩
      rintro o' ⟨⟩
      obtain ⟨hid, hsome⟩ := hall o rfl
      obtain ⟨v, hv⟩ := Option.isSome_iff_exists.mp hsome
      obtain ⟨hfield, hmask, rfl, hlen⟩ := Oxm.of_ipv4Dst hv
      refine ⟨hid, ?_, ?_⟩
      · rw [h78, hfield, hmask]
        rfl
      · rw [hv, h80.read_eq hlen]

end Encoder

/-- **Which flow mods are classified by their first action**: those whose bytes agree with it; and
where the match takes 16 bytes and an apply-actions is in front, those whose first action is no
SET_FIELD, or sets the IPv4 destination of a packet that has a record. -/
theorem flowMod_classified {f : FlowMod} {mu : Mem} (h : mu.Holds 0 f.bytes) (s : Ofpd) :
    (Classified f s mu ↔ Recognized f s mu) ∧
      ∀ a as is, pad8 f.match.length = 16 → f.instructions = .actions .apply (a :: as) :: is →
        (Classified f s mu ↔
          ∀ o, a.oxm = some o → Names s.heap s.port.head f.bufferId ∧ o.ipv4Dst.isSome) := by
  have hiff : Classified f s mu ↔ Recognized f s mu :=
    ⟨fun hc => hc.recognized h, fun hr => hr.classified h⟩
  refine ⟨hiff, ?_⟩
  intro a as is hm hi
  rw [hiff, recognized_iff h hm hi]

/-- The flow mod for the packet of id 1 that has its IPv4 destination set to 10.0.0.2. -/
def setDstFlowMod (m : Match) (hm : m.length ≤ 64) : FlowMod where
  xid := 1
  cookie := 0
  cookieMask := 0
  tableId := 0
  command := 0
  idleTimeout := 0
  hardTimeout := 0
  priority := 1
  bufferId := 1
  outPort := 0xffffffff
  outGroup := 0xffffffff
  flags := 0
  «match» := m
  instructions := [.actions .apply [.setField (.dstTo 0x0a000002)]]
  size_lt := by
    have hpad : pad8 m.length ≤ 71 := by
      unfold pad8
      omega
    have hinstr : ([Instruction.actions .apply [.setField (.dstTo 0x0a000002)]].flatMap
        Instruction.bytes).length = 24 := by decide
    rw [Match.bytes_length, hinstr]
    omega

/-- One OXM of four bytes in the match. -/
theorem flowMod_classified_port : Classified (setDstFlowMod (.single (.inPort 1)) (by decide))
    learnedOne
    (Mem.write (fun _ => 0) 0 (setDstFlowMod (.single (.inPort 1)) (by decide)).bytes) := by
  have hmu : (Mem.write (fun _ => 0) 0 (setDstFlowMod (.single (.inPort 1)) (by decide)).bytes).Holds
      0 (setDstFlowMod (.single (.inPort 1)) (by decide)).bytes := Mem.holds_write _ _ _
  refine ((flowMod_classified hmu _).2 _ _ _ (by decide) rfl).mpr ?_
  rintro o ⟨⟩
  refine ⟨names_iff.mpr ⟨learnedOne.heap, addr2, ?_⟩, rfl⟩
  rw [learnedOne, OfpPort.head_setHead]
  rfl

/-- The match of IPv4 packets to 10.0.0.1. -/
def matchDst : Match := ⟨[⟨0x8000, 5, false, [8, 0], by decide⟩, .dstTo 0x0a000001], by decide⟩

/-- **A match of two OXMs** takes 24 bytes: at offset 72 is the instruction, and the flow mod is
one of the others. -/
theorem misclassified_dst : ∃ mu, mu.Holds 0 (setDstFlowMod matchDst (by decide)).bytes ∧
    ¬ Classified (setDstFlowMod matchDst (by decide)) learnedOne mu := by
  refine ⟨Mem.write (fun _ => 0) 0 (setDstFlowMod matchDst (by decide)).bytes,
    Mem.holds_write _ _ _, ?_⟩
  intro hc
  have hbytes := (hc.recognized (Mem.holds_write _ _ _)).1.mpr rfl
  exact absurd hbytes (by decide +kernel)

end Ofpagent.Agent
