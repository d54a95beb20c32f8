/-
# The packet filter of the raw socket

`OFP_SOCK_INIT` attaches `BPF_code` to the socket the frames come from.  It passes the frames of UDP
port 6655 on 192.168.10.138 (`accepts_bpfCode`), with the port found behind the options of the frame's
own header, and all it passes are long enough for `OFP_encode_packet_in` to learn from
(`ForAgent.length_le`).  The answers go to port 8000 and are not passed (`ReplyTo.not_forAgent`).
-/
import Ofpagent.Lib.Bpf
import Ofpagent.Agent.Extent
import Ofpagent.Agent.Planes

namespace Ofpagent.Agent

open Ofpagent.Lib Ofpagent.Lib.Bpf

/-! ## 1. The program -/

/-- `BPF_code`. -/
def bpfCode : List SockFilter :=
  [⟨0x28, 0, 0, 0x0000000c⟩,
   ⟨0x15, 0, 10, 0x00000800⟩,
   ⟨0x20, 0, 0, 0x0000001e⟩,
   ⟨0x15, 0, 8, 0xc0a80a8a⟩,
   ⟨0x30, 0, 0, 0x00000017⟩,
   ⟨0x15, 0, 6, 0x00000011⟩,
   ⟨0x28, 0, 0, 0x00000014⟩,
   ⟨0x45, 4, 0, 0x00001fff⟩,
   ⟨0xb1, 0, 0, 0x0000000e⟩,
   ⟨0x48, 0, 0, 0x00000010⟩,
   ⟨0x15, 0, 1, 0x000019ff⟩,
   ⟨0x6, 0, 0, 0x00040000⟩,
   ⟨0x6, 0, 0, 0x00000000⟩]

/-- It gives every frame a verdict. -/
theorem bpfCode_verdict (f : List UInt8) : (run f bpfCode 0 0).isSome :=
  Checked.run_isSome (by decide) (by decide) f 0 0

/-- A frame for the agent, by what stands where: the EtherType, the destination, the protocol, no
fragment offset, and the destination port behind `IHL` words. -/
structure ForAgent (f : List UInt8) : Prop where
  etherType : beBytes 2 0x0800 <+: f.drop 12
  dstIp : [192, 168, 10, 138] <+: f.drop 30
  proto : [Util.protoTypeUdp] <+: f.drop 23
  fragOff : ∃ hi lo, [hi, lo] <+: f.drop 20 ∧ (hi.toNat * 256 + lo.toNat) % 8192 = 0
  dstPort : ∃ verIhl, [verIhl] <+: f.drop 14 ∧
    beBytes 2 6655 <+: f.drop (16 + 4 * (verIhl.toNat % 16))

/-! ## 2. What it accepts -/

theorem load_one {f : List UInt8} {off : ℕ} {v : UInt32} : load f 1 off = some v ↔
    ∃ b : UInt8, [b] <+: f.drop off ∧ v = UInt32.ofNat b.toNat := by
  have hval : ∀ b : UInt8, beNat [b] = b.toNat := fun b => by simp [beNat, leNat]
  rw [load_eq_some (by decide)]
  constructor
  · rintro ⟨l, hl, hpre, rfl⟩
    obtain ⟨b, rfl⟩ := List.length_eq_one_iff.mp hl
    exact ⟨b, hpre, by rw [hval]⟩
  · rintro ⟨b, hpre, rfl⟩
    exact ⟨[b], rfl, hpre, by rw [hval]⟩

theorem load_two {f : List UInt8} {off : ℕ} {v : UInt32} : load f 2 off = some v ↔
    ∃ hi lo : UInt8, [hi, lo] <+: f.drop off ∧ v = UInt32.ofNat (hi.toNat * 256 + lo.toNat) := by
  have hval : ∀ hi lo : UInt8, beNat [hi, lo] = hi.toNat * 256 + lo.toNat := by
    intro hi lo
    simp only [beNat, List.reverse_cons, List.reverse_nil, List.nil_append, List.cons_append, leNat]
    ring
  rw [load_eq_some (by decide)]
  constructor
  · rintro ⟨l, hl, hpre, rfl⟩
    obtain ⟨hi, lo, rfl⟩ := List.length_eq_two.mp hl
    exact ⟨hi, lo, hpre, by rw [hval]⟩
  · rintro ⟨hi, lo, hpre, rfl⟩
    exact ⟨[hi, lo], rfl, hpre, by rw [hval]⟩

/-- The bit test is for the lower 13 bits. -/
theorem fragOff_iff {f : List UInt8} : (∃ v, load f 2 20 = some v ∧ v &&& 0x1fff = 0) ↔
    ∃ hi lo : UInt8, [hi, lo] <+: f.drop 20 ∧ (hi.toNat * 256 + lo.toNat) % 8192 = 0 := by
  have hbits : ∀ hi lo : UInt8, UInt32.ofNat (hi.toNat * 256 + lo.toNat) &&& 0x1fff = 0 ↔
      (hi.toNat * 256 + lo.toNat) % 8192 = 0 := by
    intro hi lo
    have hhi := hi.toNat_lt
    have hlo := lo.toNat_lt
    have hand : (hi.toNat * 256 + lo.toNat) &&& 8191 = (hi.toNat * 256 + lo.toNat) % 8192 :=
      Nat.and_two_pow_sub_one_eq_mod _ 13
    rw [← UInt32.toNat_inj, UInt32.toNat_and, UInt32.toNat_ofNat',
      Nat.mod_eq_of_lt (by omega : hi.toNat * 256 + lo.toNat < 2 ^ 32)]
    exact hand ▸ Iff.rfl
  constructor
  · rintro ⟨v, hv, hzero⟩
    obtain ⟨hi, lo, hpre, rfl⟩ := load_two.mp hv
    exact ⟨hi, lo, hpre, (hbits hi lo).mp hzero⟩
  · rintro ⟨hi, lo, hpre, hzero⟩
    exact ⟨_, load_two.mpr ⟨hi, lo, hpre, rfl⟩, (hbits hi lo).mpr hzero⟩

/-- The index is four times `IHL`. -/
theorem dstPort_iff {f : List UInt8} :
    (∃ v, load f 1 14 = some v ∧ load f 2 (4 * (v &&& 0xf) + 16).toNat = some 0x19ff) ↔
      ∃ verIhl : UInt8, [verIhl] <+: f.drop 14 ∧
        beBytes 2 6655 <+: f.drop (16 + 4 * (verIhl.toNat % 16)) := by
  have hoff : ∀ b : UInt8, (4 * (UInt32.ofNat b.toNat &&& 0xf) + 16).toNat =
      16 + 4 * (b.toNat % 16) := by
    intro b
    have hb := b.toNat_lt
    have hand : b.toNat &&& 15 = b.toNat % 16 := Nat.and_two_pow_sub_one_eq_mod _ 4
    rw [UInt32.toNat_add, UInt32.toNat_mul, UInt32.toNat_and, UInt32.toNat_ofNat',
      Nat.mod_eq_of_lt (by omega : b.toNat < 2 ^ 32)]
    change (4 * (b.toNat &&& 15) % 2 ^ 32 + 16) % 2 ^ 32 = _
    rw [hand]
    omega
  have hport : (0x19ff : UInt32) = UInt32.ofNat 6655 := rfl
  constructor
  · rintro ⟨v, hv, hload⟩
    obtain ⟨b, hpre, rfl⟩ := load_one.mp hv
    rw [hoff, hport, load_eq_iff (by decide) (by decide) (by decide)] at hload
    exact ⟨b, hpre, hload⟩
  · rintro ⟨b, hpre, hload⟩
    refine ⟨_, load_one.mpr ⟨b, hpre, rfl⟩, ?_⟩
    rwa [hoff, hport, load_eq_iff (by decide) (by decide) (by decide)]

/-- **The filter accepts the frames for the agent.** -/
theorem accepts_bpfCode (f : List UInt8) : Accepts bpfCode f ↔ ForAgent f := by
  have hreject : ∀ x a, ¬ AcceptsFrom f [⟨0x6, 0, 0, 0x00000000⟩] a x := by
    intro x a
    rw [accepts_ret rfl]
    decide
  have hkeep : ∀ x a, AcceptsFrom f [⟨0x6, 0, 0, 0x00040000⟩, ⟨0x6, 0, 0, 0x00000000⟩] a x := by
    intro x a
    rw [accepts_ret rfl]
    decide
  have hport : ∀ a, AcceptsFrom f
      [⟨0xb1, 0, 0, 0x0000000e⟩, ⟨0x48, 0, 0, 0x00000010⟩, ⟨0x15, 0, 1, 0x000019ff⟩,
        ⟨0x6, 0, 0, 0x00040000⟩, ⟨0x6, 0, 0, 0x00000000⟩] a 0 ↔
      ∃ v, load f 1 14 = some v ∧ load f 2 (4 * (v &&& 0xf) + 16).toNat = some 0x19ff := by
    intro a
    rw [accepts_ldxMsh rfl]
    refine exists_congr fun v => and_congr_right fun _ => ?_
    rw [accepts_ldInd_jeq rfl rfl rfl (hreject _)]
    exact and_iff_left (hkeep _ _)
  have hether : load f 2 12 = some 0x800 ↔ beBytes 2 0x0800 <+: f.drop 12 :=
    load_eq_iff (by decide) (by decide) (by decide)
  have hdst : load f 4 30 = some 0xc0a80a8a ↔ [192, 168, 10, 138] <+: f.drop 30 :=
    load_eq_iff (by decide) (by decide) (by decide)
  have hproto : load f 1 23 = some 0x11 ↔ [Util.protoTypeUdp] <+: f.drop 23 :=
    load_eq_iff (by decide) (by decide) (by decide)
  have hloads : Accepts bpfCode f ↔ load f 2 12 = some 0x800 ∧ load f 4 30 = some 0xc0a80a8a ∧
      load f 1 23 = some 0x11 ∧ (∃ v, load f 2 20 = some v ∧ v &&& 0x1fff = 0) ∧
      ∃ v, load f 1 14 = some v ∧ load f 2 (4 * (v &&& 0xf) + 16).toNat = some 0x19ff := by
    rw [Accepts, bpfCode, accepts_ldAbs_jeq rfl rfl rfl (hreject _),
      accepts_ldAbs_jeq rfl rfl rfl (hreject _), accepts_ldAbs_jeq rfl rfl rfl (hreject _),
      accepts_ldAbs rfl, ← exists_and_right]
    refine and_congr_right fun _ => and_congr_right fun _ => and_congr_right fun _ =>
      exists_congr fun v => ?_
    rw [accepts_jset_next rfl rfl (hreject _ _), hport, and_assoc]
    rfl
  rw [hloads, hether, hdst, hproto, fragOff_iff, dstPort_iff]
  constructor
  · rintro ⟨h1, h2, h3, h4, h5⟩
    exact ⟨h1, h2, h3, h4, h5⟩
  · rintro ⟨h1, h2, h3, h4, h5⟩
    exact ⟨h1, h2, h3, h4, h5⟩

/-- The bytes of `hostFrame` up to the ports: all but the total length and the checksum are fixed. -/
theorem hostFrame_eq (data : List UInt8) : ∃ (l₀ l₁ c₀ c₁ : UInt8) (rest : List UInt8),
    hostFrame data = [2, 0, 0, 0, 0, 138, 2, 0, 0, 0, 0, 1, 8, 0, 0x45, 0, l₀, l₁, 0, 0, 0, 0, 64, 17,
      c₀, c₁, 192, 168, 10, 1, 192, 168, 10, 138] ++ beBytes 2 8000 ++ beBytes 2 6655 ++ rest := by
  obtain ⟨ip, hip⟩ : ∃ ip, hostIp data.length = ip := ⟨_, rfl⟩
  obtain ⟨l₀, l₁, hlen⟩ := List.length_eq_two.mp (Util.encodeU16_length ip.totalLen)
  obtain ⟨c₀, c₁, hchk⟩ := List.length_eq_two.mp (Util.encodeU16_length (Util.chksumIpHdr ip))
  refine ⟨l₀, l₁, c₀, c₁, beBytes 2 (8 + data.length) ++ [0, 0] ++ data, ?_⟩
  have hbytes : (Util.encodeIpPkt ip).2 = [0x45, 0] ++ [l₀, l₁] ++ [0, 0] ++ [0, 0] ++ [64, 17] ++
      [c₀, c₁] ++ [192, 168, 10, 1] ++ [192, 168, 10, 138] ++ [] := by
    have hzero : Util.encodeU16 0 = [0, 0] := by decide
    have hopt : ip.optBytes = [] := Util.IpPkt.optBytes_eq_nil (by rw [← hip]; rfl)
    simp only [Util.encodeIpPkt, hlen, hchk, hopt]
    rw [← hip]
    have hverIhl : (hostIp data.length).verIhl = 0x45 := by
      rw [Util.IpPkt.verIhl, show (hostIp data.length).ver = 4 from rfl,
        show (hostIp data.length).ihl = 5 from rfl]
      decide
    have hflagFrag : (hostIp data.length).flagFrag = 0 := by
      rw [Util.IpPkt.flagFrag, show (hostIp data.length).flag = 0 from rfl,
        show (hostIp data.length).fragOff = 0 from rfl]
      decide
    rw [hverIhl, hflagFrag, show (hostIp data.length).id = 0 from rfl, hzero]
    rfl
  rw [hostFrame, hip, hbytes]
  simp only [List.append_assoc, List.cons_append, List.nil_append]
  rfl

/-- `hostFrame` is one, whatever it carries. -/
theorem hostFrame_forAgent (data : List UInt8) : ForAgent (hostFrame data) := by
  obtain ⟨l₀, l₁, c₀, c₁, rest, heq⟩ := hostFrame_eq data
  rw [heq]
  exact ⟨⟨_, rfl⟩, ⟨_, rfl⟩, ⟨_, rfl⟩, ⟨0, 0, ⟨_, rfl⟩, rfl⟩, 0x45, ⟨_, rfl⟩, ⟨_, rfl⟩⟩

/-! ## 3. What it accepts can be learnt from, and is no answer -/

/-- The addresses end ahead of byte 34. -/
theorem ForAgent.length_le {f : List UInt8} (h : ForAgent f) : 34 ≤ f.length := by
  have hlen := h.dstIp.length_le
  rw [List.length_drop] at hlen
  simp only [List.length_cons, List.length_nil] at hlen
  omega

/-- So the record of a frame is made of the frame. -/
theorem ForAgent.hostOf_eq {f : List UInt8} (h : ForAgent f) {mu mu' : Mem} (hmu : mu.Holds 0 f)
    (hmu' : mu'.Holds 0 f) (b : UInt32) : hostOf mu' b = hostOf mu b := by
  refine hostOf_congr (n := f.length) (fun i hi => ?_) h.length_le b
  have hread : mu'.read 0 f.length = mu.read 0 f.length := hmu'.trans hmu.symm
  have hbyte := congrArg (fun l : List UInt8 => l.getD i 0) hread
  simpa [Mem.read, hi] using hbyte

/-- Behind the Ethernet header of an answer are the version and five words, and behind these the two
ports. -/
theorem backToHostFrame_ports (rec : HostLearn) (srcIp dstIp : UInt32) (e : Env) :
    (∃ l, (backToHostFrame rec srcIp dstIp e).flatten.drop 14 = 0x45 :: l) ∧
      ∃ l, (backToHostFrame rec srcIp dstIp e).flatten.drop 36 = beBytes 2 8000 ++ l := by
  have hip : (Util.encodeIpPkt (ipHdrInit e.ipHdr rec.srcIp rec.dstIp)).2.length = 20 :=
    encodeIpPkt_init_length _ _ _
  have h14 : (backToHostFrame rec srcIp dstIp e).flatten.drop 14 =
      (backToHostDatagram rec srcIp dstIp e).flatten := by
    rw [backToHostFrame, List.flatten_cons, List.flatten_cons, List.flatten_cons,
      ← List.append_assoc, ← List.append_assoc]
    exact List.drop_left' (by simp)
  have h36 : (backToHostFrame rec srcIp dstIp e).flatten.drop 36 =
      (((backToHostFrame rec srcIp dstIp e).flatten.drop 14).drop 20).drop 2 := by
    rw [List.drop_drop, List.drop_drop]
  rw [h36, h14, backToHostDatagram, List.flatten_cons, List.drop_left' hip]
  exact ⟨⟨_, rfl⟩, ⟨_, rfl⟩⟩

/-- **An answer is not accepted**: it is for port 8000. -/
theorem ReplyTo.not_forAgent {f : List UInt8} {rec : HostLearn} (h : ReplyTo f rec) :
    ¬ ForAgent f := by
  obtain ⟨srcIp, dstIp, e, rfl⟩ := h
  rintro ⟨-, -, -, -, verIhl, hbyte, hport⟩
  obtain ⟨⟨l, hl⟩, l', hl'⟩ := backToHostFrame_ports rec srcIp dstIp e
  rw [hl, List.cons_prefix_cons] at hbyte
  rw [hbyte.1] at hport
  have hoff : 16 + 4 * ((0x45 : UInt8).toNat % 16) = 36 := by decide
  rw [hoff, hl'] at hport
  have heq : beBytes 2 6655 = beBytes 2 8000 :=
    (List.prefix_of_prefix_length_le hport (List.prefix_append _ l') (by simp)).eq_of_length (by simp)
  exact absurd heq (by decide)

/-- **`BPF_code`** passes the frames for the agent and no others; all of them can be learnt from, and
no answer is one. -/
theorem bpfCode_correct (f : List UInt8) :
    (Accepts bpfCode f ↔ ForAgent f) ∧
      (Accepts bpfCode f → 34 ≤ f.length ∧ ∀ mu mu' : Mem, mu.Holds 0 f → mu'.Holds 0 f →
        ∀ b, hostOf mu' b = hostOf mu b) ∧
      (∀ rec, ReplyTo f rec → ¬ Accepts bpfCode f) := by
  have hiff := accepts_bpfCode f
  refine ⟨hiff, ?_, ?_⟩
  · intro h
    have hfor := hiff.mp h
    exact ⟨hfor.length_le, fun mu mu' hmu hmu' b => hfor.hostOf_eq hmu hmu' b⟩
  · intro rec hreply h
    exact hreply.not_forAgent (hiff.mp h)

/-- No frame that a run has for a host comes back through the filter. -/
theorem answers_filtered {ts : List (Transition World Ev)} {w : World} (h : Run world ts w)
    (hfd : ∀ t ∈ ts, Sockets t.pre.agent) : ∀ t ∈ ts, ∀ x todo,
      t.pre.todo = .xmit .aSendToHost x :: todo → ¬ Accepts bpfCode x.mu := by
  intro t ht x todo htodo hacc
  obtain ⟨-, rec, hreply⟩ :=
    ((parted_of_run h hfd t ht).todo .aSendToHost x (by simp [htodo])).host rfl
  exact hreply.not_forAgent ((accepts_bpfCode x.mu).mp hacc)

end Ofpagent.Agent
