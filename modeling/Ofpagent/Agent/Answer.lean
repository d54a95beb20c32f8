/-
# Flow mods without a record, and stack contents in the answer

`OFP_encode_back_to_host` uses the result of `find_node` without a look at it.  An id that names
no record is NULL there, and what follows is undefined (`backToHost_of_miss`): there is no flow
mod with a SET_FIELD for which the miss is handled.

With a record the frame is put together from locals.  The headers are assigned on every path as
far as they are read: `opt_pad` and the checksums may hold anything (`backToHostFrame_congr`).
`dst_ip` is assigned for one field of the action only, and with any other the last four bytes of
the frame are what the stack held (`answer_determined`).
-/
import Ofpagent.Agent.Extent

namespace Ofpagent.Agent

open Ofpagent.Lib

/-! ## 1. An id without a record -/

/-- A record that is reached from `head` has the id. -/
def Names (hp : Heap) (head : Ptr) (b : UInt32) : Prop :=
  ∃ l a q, Seg hp.link head (l ++ [a]) q ∧ hasBufferId hp b a = true

/-- What `find_node` finds is a record of the list. -/
theorem names_of_findNode {hp hp' : Heap} {head : Ptr} {b : UInt32} {a : Addr}
    (h : findNode hp head b = some (hp', some a)) : Names hp head b := by
  unfold findNode at h
  split at h
  · cases h
  · cases h
  · next cur hscan =>
    obtain ⟨l, q, hl, -, ht⟩ := Seg.to_scan hscan
    exact ⟨l, cur, q, hl, ht⟩
  · next prev cur hscan =>
    obtain ⟨l, q, hl, -, ht⟩ := Seg.to_scan hscan
    exact ⟨l, cur, q, hl, ht⟩

/-- **The result is read through all the same.** -/
theorem backToHost_of_miss {s : Ofpd} {mu : Mem} {e : Env} (hset : isSetField mu = true)
    (hmiss : ¬ Names s.heap s.port.head (flowBufferId mu)) : ofpEncodeBackToHost s mu e = none := by
  rw [ofpEncodeBackToHost, if_pos hset]
  split
  · next hp a hfind => exact absurd (names_of_findNode hfind) hmiss
  · rfl

/-- `ip_hdr_init` assigns everything that is encoded. -/
theorem encodeIpPkt_init_congr (ipHdr ipHdr' : Util.IpPkt) (srcIp dstIp : UInt32) :
    (Util.encodeIpPkt (ipHdrInit ipHdr' srcIp dstIp)).2 =
      (Util.encodeIpPkt (ipHdrInit ipHdr srcIp dstIp)).2 := by
  have heq : ipHdrInit ipHdr' srcIp dstIp =
      { ipHdrInit ipHdr srcIp dstIp with
        headChksum := ipHdr'.headChksum, optPad := ipHdr'.optPad } := rfl
  rw [heq]
  exact Util.encodeIpPkt_congr rfl _ _

theorem addrWords_congr {ip ip' : Util.IpPkt} (hsa : ip'.cSA = ip.cSA) (hda : ip'.cDA = ip.cDA) :
    ip'.addrWords = ip.addrWords := by
  rw [Util.IpPkt.addrWords, Util.IpPkt.addrWords, hsa, hda]

theorem encodeIpPkt_addrWords (ip : Util.IpPkt) :
    (Util.encodeIpPkt ip).1.addrWords = ip.addrWords :=
  addrWords_congr rfl rfl

/-- The UDP header is that of the two addresses and the payload. -/
theorem encodeUdpPkt_init_congr {ip ip' : Util.IpPkt} (udpHdr udpHdr' : Util.UdpPkt) (mem : Mem)
    (h : ip'.addrWords = ip.addrWords) :
    (Util.encodeUdpPkt ip' (udpHdrInit udpHdr') mem).2.1 =
      (Util.encodeUdpPkt ip (udpHdrInit udpHdr) mem).2.1 := by
  simp only [Util.encodeUdpPkt, Util.chksumUdp, h]
  rfl

/-- **The frame is the record's, the match value's and `dst_ip`'s**: nothing else of the locals
comes into it. -/
theorem backToHostFrame_congr (node : HostLearn) (srcIp dstIp : UInt32) (e e' : Env) :
    backToHostFrame node srcIp dstIp e' = backToHostFrame node srcIp dstIp e := by
  have hip := encodeIpPkt_init_congr e.ipHdr e'.ipHdr node.srcIp node.dstIp
  have hwords : (Util.encodeIpPkt (ipHdrInit e'.ipHdr node.srcIp node.dstIp)).1.addrWords =
      (Util.encodeIpPkt (ipHdrInit e.ipHdr node.srcIp node.dstIp)).1.addrWords := by
    rw [encodeIpPkt_addrWords, encodeIpPkt_addrWords]
    exact addrWords_congr rfl rfl
  have hudp := encodeUdpPkt_init_congr e.udpHdr e'.udpHdr
    (Mem.write (fun _ => 0) 0 (leBytes 4 srcIp.toNat ++ leBytes 4 dstIp.toNat)) hwords
  simp only [backToHostFrame, backToHostDatagram, hip, hudp]

/-- What `drv_xmit` is given of the answer, where there is one. -/
def answerFrame (s : Ofpd) (mu : Mem) (e : Env) : Option (List UInt8) :=
  (ofpEncodeBackToHost s mu e).map fun s' => s'.port.frame

theorem answerFrame_eq {s : Ofpd} {mu : Mem} {hp : Heap} {a : Addr} {node : HostLearn}
    (hset : isSetField mu = true)
    (hfind : findNode s.heap s.port.head (flowBufferId mu) = some (hp, some a))
    (hnode : hp.lookup a = some node) (e : Env) :
    answerFrame s mu e =
      some (backToHostFrame node (u32At mu flowMatchOff) (flowDstIp mu e) e).flatten := by
  rw [answerFrame, ofpEncodeBackToHost_eq hset hfind hnode, Option.map_some, OfpPort.frame_reply]

/-- **The answer is determined by the message and the record exactly when the action sets the
IPv4 destination.** -/
theorem answer_determined {s : Ofpd} {mu : Mem} {hp : Heap} {a : Addr} (hset : isSetField mu = true)
    (hfind : findNode s.heap s.port.head (flowBufferId mu) = some (hp, some a)) :
    (∀ e e', answerFrame s mu e = answerFrame s mu e') ↔ (mu 78).toNat / 2 = 12 := by
  obtain ⟨node, hnode⟩ := lookup_findNode hfind
  constructor
  · intro h
    by_contra hfield
    have hframe := h (Env.plain addr1) { Env.plain addr1 with dstIp := 1 }
    rw [answerFrame_eq hset hfind hnode, answerFrame_eq hset hfind hnode, flowDstIp_eq,
      flowDstIp_eq, if_neg hfield, if_neg hfield] at hframe
    -- the frames differ in their last four bytes
    have hdrop := congrArg (List.drop 46) (Option.some.inj hframe)
    rw [backToHostFrame_drop, backToHostFrame_drop] at hdrop
    exact absurd hdrop (by decide)
  · intro hfield e e'
    rw [answerFrame_eq hset hfind hnode, answerFrame_eq hset hfind hnode, flowDstIp_eq,
      flowDstIp_eq, if_pos hfield, if_pos hfield, backToHostFrame_congr node _ _ e' e]

/-- The flow mod of the expected layout, with two contents of `dst_ip`. -/
theorem answer_determined_first :
    answerFrame learnedOne (Mem.write (fun _ => 0) 0 (flowModMsg 1)) (Env.plain addr1) =
      answerFrame learnedOne (Mem.write (fun _ => 0) 0 (flowModMsg 1))
        { Env.plain addr1 with dstIp := 1 } := by
  have hfind : findNode learnedOne.heap learnedOne.port.head
      (flowBufferId (Mem.write (fun _ => 0) 0 (flowModMsg 1)))
      = some (learnedOne.heap, some addr2) := by
    rw [learnedOne, OfpPort.head_setHead]
    rfl
  exact (answer_determined (by decide) hfind).mpr (by decide) _ _

/-- **A SET_FIELD of the Ethernet destination**: two contents of the stack, two frames. -/
theorem answer_of_stack : ∃ s mu, isSetField mu = true ∧
    (∃ hp a, findNode s.heap s.port.head (flowBufferId mu) = some (hp, some a)) ∧
    ∃ e e', answerFrame s mu e ≠ answerFrame s mu e' := by
  set mu := Mem.write (Mem.write (fun _ => 0) 0 (flowModMsg 1)) 78 [6] with hmu
  have hset : isSetField mu = true := by
    rw [hmu]
    decide
  have hfind : findNode learnedOne.heap learnedOne.port.head
      (flowBufferId mu) = some (learnedOne.heap, some addr2) := by
    rw [learnedOne, OfpPort.head_setHead, hmu]
    rfl
  refine ⟨learnedOne, mu, hset, ⟨_, _, hfind⟩, Env.plain addr1,
    { Env.plain addr1 with dstIp := 1 }, ?_⟩
  rw [answerFrame_eq hset hfind rfl, answerFrame_eq hset hfind rfl]
  intro h
  have hdrop := congrArg (List.drop 46) (Option.some.inj h)
  rw [backToHostFrame_drop, backToHostFrame_drop, hmu] at hdrop
  exact absurd hdrop (by decide)

end Ofpagent.Agent
