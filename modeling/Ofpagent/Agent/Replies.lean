/-
# The two replies

The agent answers two requests with structures of its own.  `A_send_feature_reply` fills one from
nothing: it adds up the datapath id from bytes of type `char`, counts the header twice in the
length, and leaves `xid` zero.  `A_send_multipart_reply` takes the header from the request and
appends a description of 64 bytes for each interface, into a buffer of 256 bytes and without a
look at its end.
-/
import Ofpagent.Lib.OpenFlow
import Ofpagent.Agent.Planes

namespace Ofpagent.Agent

open Ofpagent.Lib
open Ofpagent.Lib.OpenFlow (natAt)

/-! ## 1. The datapath id -/

/-- The value of a `char`. -/
def charValue (b : UInt8) : ℤ := if b < 128 then b.toNat else b.toNat - 256

theorem toNat_charU64 (b : UInt8) : ∃ k : ℤ, ((charU64 b).toNat : ℤ) = charValue b + 2 ^ 64 * k := by
  have hb := b.toNat_lt
  have hhigh : (0xffffffffffffff00 : UInt64).toNat = 2 ^ 64 - 256 := rfl
  unfold charU64 charValue
  split_ifs with h
  · exact ⟨0, by rw [UInt8.toNat_toUInt64]; ring⟩
  · refine ⟨1, ?_⟩
    have h128 : 128 ≤ b.toNat := by simpa [UInt8.lt_iff_toNat_lt] using h
    rw [UInt64.toNat_add, UInt8.toNat_toUInt64, hhigh]
    omega

/-- The conversion and the shift of one `char`. -/
theorem toNat_charU64_shift (b : UInt8) {i : ℕ} (hi : i < 6) :
    ∃ k : ℤ, ((charU64 b <<< UInt64.ofNat (i * 8)).toNat : ℤ) =
      charValue b * 256 ^ i + 2 ^ 64 * k := by
  obtain ⟨k, hk⟩ := toNat_charU64 b
  have hshift : (UInt64.ofNat (i * 8)).toNat % 64 = 8 * i := by
    rw [UInt64.toNat_ofNat']
    omega
  have hpow : (2 : ℤ) ^ (8 * i) = 256 ^ i := by rw [pow_mul]; norm_num
  rw [UInt64.toNat_shiftLeft, hshift, Nat.shiftLeft_eq, Int.natCast_mod, Int.emod_def, Nat.cast_mul,
    Nat.cast_pow, Nat.cast_pow, hk, Nat.cast_ofNat, hpow]
  refine ⟨k * 256 ^ i - (charValue b + 2 ^ 64 * k) * 256 ^ i / 2 ^ 64, ?_⟩
  ring

/-- The sum the loop adds up, without the wrap. -/
def signedId (saData : Mem) : ℤ := ∑ i : Fin 6, charValue (saData i) * 256 ^ i.1

theorem toNat_sum_charU64 (saData : Mem) {l : List ℕ} (hl : ∀ i ∈ l, i < 6) :
    ∃ k : ℤ, ((l.map fun i => charU64 (saData i) <<< UInt64.ofNat (i * 8)).sum.toNat : ℤ) =
      (l.map fun i => charValue (saData i) * 256 ^ i).sum + 2 ^ 64 * k := by
  induction l with
  | nil => exact ⟨0, rfl⟩
  | cons i l ih =>
    obtain ⟨k, hk⟩ := ih fun j hj => hl j (List.mem_cons_of_mem i hj)
    obtain ⟨k', hk'⟩ := toNat_charU64_shift (saData i) (hl i List.mem_cons_self)
    rw [List.map_cons, List.map_cons, List.sum_cons, List.sum_cons, UInt64.toNat_add,
      Int.natCast_mod, Int.emod_def, Nat.cast_add, hk, hk', Nat.cast_pow, Nat.cast_ofNat]
    refine ⟨k + k' - (charValue (saData i) * 256 ^ i + 2 ^ 64 * k' +
      ((l.map fun i => charValue (saData i) * 256 ^ i).sum + 2 ^ 64 * k)) / 2 ^ 64, ?_⟩
    ring

/-- **The datapath id is the sum of the signed bytes**, modulo 2^64. -/
theorem datapathId_eq (saData : Mem) :
    ∃ k : ℤ, ((datapathId saData).toNat : ℤ) = signedId saData + 2 ^ 64 * k := by
  obtain ⟨k, hk⟩ := toNat_sum_charU64 saData (l := [5, 4, 3, 2, 1, 0]) (by decide)
  refine ⟨k, ?_⟩
  rw [datapathId, hk, signedId, Fin.sum_univ_six]
  simp
  ring

/-- The upper 16 bits are zero, and the lower 48 are the bytes of the address, each at a place of
its own. -/
def Places (saData : Mem) (n : ℕ) (σ : Equiv.Perm (Fin 6)) : Prop :=
  n / 2 ^ 48 = 0 ∧ n % 2 ^ 48 = ∑ i : Fin 6, (saData i).toNat * 256 ^ (σ i).1

/-- A `char` is negative from 128 on. -/
theorem charValue_eq (b : UInt8) : ∃ n : ℕ, n ≤ 1 ∧ (n = 0 ↔ b < 128) ∧
    charValue b = b.toNat - 256 * n := by
  unfold charValue
  split_ifs with h
  · exact ⟨0, by simp, by simp [h], by simp⟩
  · exact ⟨1, by simp, by simp [h], by simp⟩

theorem charValue_range (b : UInt8) : -128 ≤ charValue b ∧ charValue b < 128 := by
  have hb := b.toNat_lt
  unfold charValue
  split_ifs with h
  · have hlt : b.toNat < 128 := by simpa [UInt8.lt_iff_toNat_lt] using h
    omega
  · have hle : 128 ≤ b.toNat := by simpa [UInt8.lt_iff_toNat_lt] using h
    omega

theorem signedId_range (saData : Mem) : -256 ^ 6 ≤ signedId saData ∧ signedId saData ≤ 256 ^ 6 := by
  have h0 := charValue_range (saData 0)
  have h1 := charValue_range (saData 1)
  have h2 := charValue_range (saData 2)
  have h3 := charValue_range (saData 3)
  have h4 := charValue_range (saData 4)
  have h5 := charValue_range (saData 5)
  rw [signedId, Fin.sum_univ_six]
  norm_num
  omega

/-- 256 is 1 modulo 255. -/
theorem pow_256 (j : ℕ) : ∃ q : ℕ, 256 ^ j = 255 * q + 1 := by
  induction j with
  | zero => exact ⟨0, rfl⟩
  | succ j ih =>
    obtain ⟨q, hq⟩ := ih
    exact ⟨256 * q + 1, by rw [pow_succ, hq]; ring⟩

/-- **A negative `char` shows**: its sign reaches the upper bits, or is missing in the sum of all
bytes modulo 255. -/
theorem small_of_places {saData : Mem} {σ : Equiv.Perm (Fin 6)}
    (h : Places saData (datapathId saData).toNat σ) : ∀ i : Fin 6, saData i < 128 := by
  obtain ⟨k, hk⟩ := datapathId_eq saData
  choose n hle hsmall hchar using fun i : Fin 6 => charValue_eq (saData i)
  choose q hq using fun i : Fin 6 => pow_256 (σ i).1
  have hsum : signedId saData + 2 ^ 64 * k =
      (∑ i : Fin 6, (saData i).toNat * 256 ^ (σ i).1 : ℕ) := by
    have hplace := h.2
    rw [Nat.mod_eq_of_lt ((Nat.div_eq_zero_iff_lt (by decide)).mp h.1)] at hplace
    rw [← hk, hplace]
  -- both sums, modulo 255
  have hplaces : ∑ i : Fin 6, (saData i).toNat * 256 ^ (σ i).1 =
      255 * ∑ i : Fin 6, (saData i).toNat * q i + ∑ i : Fin 6, (saData i).toNat := by
    rw [Finset.mul_sum, ← Finset.sum_add_distrib]
    refine Finset.sum_congr rfl fun i _ => ?_
    rw [hq]
    ring
  have hsigned : ∃ x : ℤ, signedId saData =
      255 * x + (∑ i : Fin 6, (saData i).toNat : ℕ) - (∑ i : Fin 6, n i : ℕ) := by
    refine ⟨∑ i : Fin 6, (((saData i).toNat - 256 * n i) * ((256 ^ i.1 - 1) / 255) - n i : ℤ), ?_⟩
    simp only [signedId, hchar, Fin.sum_univ_six]
    push_cast
    norm_num
    ring
  have hmax : ∑ i : Fin 6, (saData i).toNat * 256 ^ (σ i).1 ≤ 6 * (255 * 256 ^ 5) := by
    refine (Finset.sum_le_card_nsmul _ _ (255 * 256 ^ 5) fun i _ => ?_).trans (by simp)
    have hbyte : (saData i).toNat ≤ 255 := Nat.le_of_lt_succ (saData i).toNat_lt
    exact Nat.mul_le_mul hbyte (Nat.pow_le_pow_right (by decide) (Nat.le_of_lt_succ (σ i).2))
  have hcount : ∑ i : Fin 6, n i ≤ 6 :=
    (Finset.sum_le_card_nsmul _ _ 1 fun i _ => hle i).trans (by simp)
  have hzero : ∑ i : Fin 6, n i = 0 := by
    obtain ⟨x, hx⟩ := hsigned
    have hrange := signedId_range saData
    rw [hplaces] at hsum hmax
    omega
  intro i
  exact (hsmall i).mp (Finset.sum_eq_zero_iff.mp hzero i (Finset.mem_univ i))

/-- The six bytes of a number of 48 bits. -/
theorem sum_bytes_lt (saData : Mem) : ∑ i : Fin 6, (saData i).toNat * 256 ^ i.1 < 2 ^ 48 := by
  have h0 := (saData 0).toNat_lt
  have h1 := (saData 1).toNat_lt
  have h2 := (saData 2).toNat_lt
  have h3 := (saData 3).toNat_lt
  have h4 := (saData 4).toNat_lt
  have h5 := (saData 5).toNat_lt
  rw [Fin.sum_univ_six]
  norm_num
  omega

theorem places_of_small {saData : Mem} (h : ∀ i : Fin 6, saData i < 128) :
    Places saData (datapathId saData).toNat 1 := by
  obtain ⟨k, hk⟩ := datapathId_eq saData
  have hlt := (datapathId saData).toNat_lt
  have hsum := sum_bytes_lt saData
  have hsigned : signedId saData = (∑ i : Fin 6, (saData i).toNat * 256 ^ i.1 : ℕ) := by
    have hchar : ∀ i : Fin 6, charValue (saData i) = (saData i).toNat := fun i => if_pos (h i)
    simp only [signedId, hchar]
    push_cast
    rfl
  have hn : (datapathId saData).toNat = ∑ i : Fin 6, (saData i).toNat * 256 ^ i.1 := by omega
  constructor
  · rw [hn]
    exact Nat.div_eq_of_lt hsum
  · rw [hn, Nat.mod_eq_of_lt hsum]
    rfl

/-- What a controller reads in the reply is `datapath_id`. -/
theorem natAt_featureBytes (length : UInt16) (e : Env) (l : List UInt8) :
    natAt (featureBytes length e ++ l) 8 8 = (datapathId e.saData).toNat := by
  have hlt : (datapathId e.saData).toNat < 256 ^ 8 := (datapathId e.saData).toNat_lt
  simp only [featureBytes, leBytes_bitswap64, List.append_assoc]
  rw [natAt, List.drop_left' (OfpHeader.bytes_length _), List.take_left' (beBytes_length 8 _),
    beNat_beBytes, Nat.mod_eq_of_lt hlt]

/-- **The datapath id is made of the address exactly when no byte of it is 128 or more**, and then
byte `i` stands at place `i`. -/
theorem datapathId_sent (s : Ofpd) (e : Env) :
    ∃ x, (aSendFeatureReply s e).acts = [.xmit .aSendFeatureReply x] ∧
      ((∃ σ, Places e.saData (natAt x.mu 8 8) σ) ↔ ∀ i : Fin 6, e.saData i < 128) ∧
      ((∀ i : Fin 6, e.saData i < 128) → Places e.saData (natAt x.mu 8 8) 1) := by
  refine ⟨_, rfl, ?_⟩
  rw [drvXmit_mu, natAt_featureBytes]
  refine ⟨⟨?_, ?_⟩, places_of_small⟩
  · rintro ⟨σ, hσ⟩
    exact small_of_places hσ
  · intro h
    exact ⟨1, places_of_small h⟩

/-- The process with an interface of this hardware address. -/
def Env.withAddress (saData : List UInt8) : Env :=
  { Env.plain addr2 with saData := fun i => saData.getD i 0 }

/-- **The address 02:42:ac:11:00:02**, whose third byte is negative as a `char`. -/
theorem datapathId_extended : ∃ x, (aSendFeatureReply started
      (.withAddress [0x02, 0x42, 0xac, 0x11, 0x00, 0x02])).acts = [.xmit .aSendFeatureReply x] ∧
    natAt x.mu 8 8 = 0x020010ac4202 ∧ ¬ ∃ σ, Places
      (Env.withAddress [0x02, 0x42, 0xac, 0x11, 0x00, 0x02]).saData (natAt x.mu 8 8) σ := by
  refine ⟨_, rfl, ?_⟩
  rw [drvXmit_mu, natAt_featureBytes]
  refine ⟨by decide +kernel, ?_⟩
  rintro ⟨σ, hσ⟩
  exact absurd (small_of_places hσ 2) (by decide)

/-! ## 2. The port descriptions -/

/-- An entry of the list that is described. -/
def IfAddr.isPort (ifa : IfAddr) : Bool := ifa.saFamily == some afPacket

/-- The description of an interface: its index in the list, its hardware address, and its name
with the NUL. -/
structure Describes (d : List UInt8) (i : ℕ) (ifa : IfAddr) : Prop where
  length : d.length = 64
  portNo : d.take 4 = beBytes 4 (UInt32.ofNat i).toNat
  hwAddr : (d.drop 8).take 6 = ifa.saData.read 0 6
  name : (d.drop 16).take (ifa.ifaName.length + 1) = ifa.ifaName ++ [0]

/-- The entries that are described, with their indices from `i` on. -/
def portsFrom (i : ℕ) (ifas : List IfAddr) : List (ℕ × IfAddr) :=
  (ifas.zipIdx i).filterMap fun p => if p.1.isPort then some (p.2, p.1) else none

theorem portsFrom_cons (i : ℕ) (ifa : IfAddr) (ifas : List IfAddr) :
    portsFrom i (ifa :: ifas) =
      (if ifa.isPort then [(i, ifa)] else []) ++ portsFrom (i + 1) ifas := by
  rw [portsFrom, List.zipIdx_cons, List.filterMap_cons, portsFrom]
  cases ifa.isPort <;> rfl

/-- What is left of an earlier description is behind the NUL, or in fields nobody assigns. -/
theorem describes_fillPortDesc (desc : Mem) (i : ℕ) {ifa : IfAddr}
    (hname : ifa.ifaName.length < 16) : Describes ((fillPortDesc desc i ifa).read 0 64) i ifa := by
  have hlen : (ifa.ifaName ++ [0]).length = ifa.ifaName.length + 1 := by simp
  have hread : ∀ a b, a + b ≤ 64 → (((fillPortDesc desc i ifa).read 0 64).drop a).take b =
      (fillPortDesc desc i ifa).read a b := by
    intro a b h
    rw [Mem.take_drop_read _ _ h, Nat.zero_add]
  constructor
  · exact Mem.read_length _ 0 64
  · have hholds : (fillPortDesc desc i ifa).Holds 0 (leBytes 4 (htonl (UInt32.ofNat i)).toNat) :=
      ((Mem.holds_write desc 0 _).write (.inl (by simp))).write (.inl (by simp))
    have h := hread 0 4 (by decide)
    rw [List.drop_zero] at h
    rw [h, hholds.read_eq (leBytes_length 4 _), leBytes_htonl]
  · have hholds : (fillPortDesc desc i ifa).Holds 8 (ifa.saData.read 0 6) := Mem.holds_write _ _ _
    rw [hread 8 6 (by decide), hholds.read_eq (Mem.read_length _ 0 6)]
  · have hholds : (fillPortDesc desc i ifa).Holds 16 (ifa.ifaName ++ [0]) :=
      (Mem.holds_write _ 16 _).write (.inr (by simp))
    rw [hread 16 _ (by omega), hholds.read_eq hlen]

/-- **With room for all of them** the loop copies one description for each entry, in order. -/
theorem portDescs_eq {ifas : List IfAddr} {i : ℕ} {body : List UInt8} (desc : Mem)
    (hnames : ∀ ifa ∈ ifas, ifa.isPort → ifa.ifaName.length < 16)
    (hroom : 16 + body.length + 64 * (portsFrom i ifas).length ≤ 256) :
    ∃ ds, portDescs ifas i desc body = some (body ++ ds.flatten) ∧
      List.Forall₂ (fun d p => Describes d p.1 p.2) ds (portsFrom i ifas) := by
  induction ifas generalizing i desc body with
  | nil => exact ⟨[], by simp [portDescs], .nil⟩
  | cons ifa ifas ih =>
    have hrest : ∀ ifa ∈ ifas, ifa.isPort → ifa.ifaName.length < 16 := fun ifa' h =>
      hnames ifa' (List.mem_cons_of_mem ifa h)
    rw [portsFrom_cons] at hroom ⊢
    by_cases hport : ifa.isPort
    · have hfam : ifa.saFamily = some afPacket := by simpa [IfAddr.isPort] using hport
      simp only [hport, if_true, List.singleton_append, List.length_cons] at hroom ⊢
      set d := (fillPortDesc desc i ifa).read 0 64 with hd
      have hd64 : d.length = 64 := Mem.read_length _ 0 64
      have hfits : ¬ 256 < 16 + body.length + 64 := by omega
      obtain ⟨ds, hds, hall⟩ : ∃ ds, portDescs ifas (i + 1) (fillPortDesc desc i ifa) (body ++ d) =
          some (body ++ d ++ ds.flatten) ∧
          List.Forall₂ (fun d p => Describes d p.1 p.2) ds (portsFrom (i + 1) ifas) := by
        refine ih (fillPortDesc desc i ifa) hrest ?_
        rw [List.length_append, hd64]
        omega
      have hfirst := describes_fillPortDesc desc i (hnames ifa List.mem_cons_self hport)
      refine ⟨d :: ds, ?_, .cons hfirst hall⟩
      rw [portDescs, if_pos hfam, if_neg hfits, List.flatten_cons, ← List.append_assoc]
      exact hds
    · have hfam : ¬ ifa.saFamily = some afPacket := by simpa [IfAddr.isPort] using hport
      simp only [hport, Bool.false_eq_true, if_false, List.nil_append] at hroom ⊢
      rw [portDescs, if_neg hfam]
      exact ih desc hrest hroom

/-- The body grows by 64 bytes for each entry. -/
theorem portDescs_size {ifas : List IfAddr} {i : ℕ} {desc : Mem} {body body' : List UInt8}
    (h : portDescs ifas i desc body = some body') :
    body'.length = body.length + 64 * (portsFrom i ifas).length := by
  induction ifas generalizing i desc body with
  | nil =>
    cases h
    rfl
  | cons ifa ifas ih =>
    rw [portsFrom_cons]
    unfold portDescs at h
    by_cases hfam : ifa.saFamily = some afPacket
    · have hport : ifa.isPort = true := by simpa [IfAddr.isPort] using hfam
      rw [if_pos hfam] at h
      split at h
      · cases h
      · have hrest := ih h
        rw [List.length_append, Mem.read_length] at hrest
        simp only [hport, if_true, List.singleton_append, List.length_cons]
        omega
    · have hport : ifa.isPort = false := by simpa [IfAddr.isPort] using hfam
      rw [if_neg hfam] at h
      simp only [hport, Bool.false_eq_true, if_false, List.nil_append]
      exact ih h

theorem portsFrom_length (i : ℕ) (ifas : List IfAddr) :
    (portsFrom i ifas).length = ifas.countP IfAddr.isPort := by
  induction ifas generalizing i with
  | nil => rfl
  | cons ifa ifas ih =>
    rw [portsFrom_cons, List.length_append, ih, List.countP_cons]
    cases ifa.isPort
    · simp
    · simp
      omega

/-- The reply with this body, of at most three descriptions. -/
theorem aSendMultipartReply_eq (s : Ofpd) {e : Env} {ifas : List IfAddr} {body : List UInt8}
    (hifas : e.ifaddrs = some ifas) (hbody : portDescs ifas 0 (fun _ => 0) [] = some body) :
    ∃ r p x, aSendMultipartReply s e = some r ∧ r.acts = [.xmit .aSendMultipartReply x] ∧
      p = { s.port.ofpMultipart with
        ofpHeader.type := ofptMultipartReply
        ofpHeader.length := htons (UInt16.ofNat (16 + body.length)) } ∧
      x.mu = p.bytes ++ body := by
  have hlen := portDescs_length hbody (Nat.zero_le _)
  have hnat : (UInt16.ofNat (16 + body.length)).toNat = 16 + body.length := by
    rw [UInt16.toNat_ofNat']
    omega
  refine ⟨_, _, _, by rw [aSendMultipartReply, hifas]; simp only [hbody, Option.map_some]; rfl, rfl,
    rfl, ?_⟩
  rw [drvXmit_mu, hnat]
  refine List.take_of_length_le ?_
  rw [List.length_append, OfpMultipart.bytes_length]

/-- **The interfaces are listed**: the call returns, and behind the header it sends one
description for each entry of the family, in order. -/
def PortsListed (s : Ofpd) (e : Env) (ifas : List IfAddr) : Prop :=
  ∃ r x ds, aSendMultipartReply s e = some r ∧ r.acts = [.xmit .aSendMultipartReply x] ∧
    x.mu.drop 16 = ds.flatten ∧
    List.Forall₂ (fun d p => Describes d p.1 p.2) ds (portsFrom 0 ifas)

/-- **Three interfaces fit.** -/
theorem ports_listed (s : Ofpd) {e : Env} {ifas : List IfAddr} (hifas : e.ifaddrs = some ifas)
    (hnames : ∀ ifa ∈ ifas, ifa.isPort → ifa.ifaName.length < 16) :
    PortsListed s e ifas ↔ ifas.countP IfAddr.isPort ≤ 3 := by
  have hcount := portsFrom_length 0 ifas
  constructor
  · rintro ⟨r, x, ds, hr, -, -, -⟩
    rw [aSendMultipartReply, hifas] at hr
    obtain ⟨body, hbody, -⟩ := Option.map_eq_some_iff.mp hr
    -- what is copied is inside `buf`
    have hroom := portDescs_length hbody (Nat.zero_le _)
    have hsize := portDescs_size hbody
    rw [List.length_nil, hcount] at hsize
    omega
  · intro h
    obtain ⟨ds, hbody, hall⟩ : ∃ ds, portDescs ifas 0 (fun _ => 0) [] = some ([] ++ ds.flatten) ∧
        List.Forall₂ (fun d p => Describes d p.1 p.2) ds (portsFrom 0 ifas) := by
      refine portDescs_eq (fun _ => 0) hnames ?_
      rw [List.length_nil, hcount]
      omega
    obtain ⟨r, p, x, hr, hacts, -, hx⟩ := aSendMultipartReply_eq s hifas hbody
    refine ⟨r, x, ds, hr, hacts, ?_, hall⟩
    rw [hx, List.drop_left' p.bytes_length, List.nil_append]

/-- A host with these interfaces, each with an address of the family. -/
def Env.withPorts (names : List (List UInt8)) : Env :=
  { Env.plain addr2 with
    ifaddrs := some (names.map fun name => ⟨some afPacket, name, fun _ => 0⟩) }

/-- The loopback interface and `eth0`. -/
theorem ports_listed_two : PortsListed started (.withPorts [[108, 111], [101, 116, 104, 48]])
    ([[108, 111], [101, 116, 104, 48]].map fun name => ⟨some afPacket, name, fun _ => 0⟩) :=
  (ports_listed started rfl (by decide)).mpr (by decide)

/-- **Four interfaces**: the fourth description ends 16 bytes behind `buf`. -/
theorem ports_overrun : ∃ e ifas, e.ifaddrs = some ifas ∧ ifas.length = 4 ∧
    (∀ ifa ∈ ifas, ifa.isPort → ifa.ifaName.length < 16) ∧
    aSendMultipartReply started e = none ∧ ¬ PortsListed started e ifas := by
  have hnone : aSendMultipartReply started (.withPorts [[97], [98], [99], [100]]) = none := by
    decide +kernel
  refine ⟨.withPorts [[97], [98], [99], [100]], _, rfl, rfl, by decide, hnone, ?_⟩
  rintro ⟨r, x, ds, hr, -⟩
  rw [hnone] at hr
  cases hr

/-! ## 3. Framing -/

/-- The structure that answers a request, and its size: `ofp_switch_features`, or `ofp_multipart`
and the descriptions. -/
def replyStruct (mu : Mem) (e : Env) : Option (List UInt8) :=
  if mu 1 = ofptFeaturesRequest then some (featureBytes 40 e)
  else
    e.ifaddrs.bind fun ifas => (portDescs ifas 0 (fun _ => 0) []).map fun body =>
      OfpMultipart.bytes
        { OfpMultipart.ofMem mu 0 with
          ofpHeader.type := ofptMultipartReply
          ofpHeader.length := htons (UInt16.ofNat (16 + body.length)) } ++ body
def replySize (mu : Mem) (e : Env) : ℕ :=
  if mu 1 = ofptFeaturesRequest then 32 else 16 + 64 * (e.ifaddrs.getD []).countP IfAddr.isPort

/-- **A reply is framed**: it has the `xid` of the request; its length is what is sent, which is the
size of the structure; and what is sent is the structure. -/
structure ReplyFramed (mu : Mem) (e : Env) (reply : List UInt8) : Prop where
  xid : (reply.drop 4).take 4 = mu.read 4 4
  sent : natAt reply 2 2 = reply.length
  size : reply.length = replySize mu e
  own : replyStruct mu e = some reply

theorem Hdl.call_ofpMultipart {s : Ofpd} {e : Env} {h : Hdl} {r : Ret} (hr : h.call s e = some r) :
    r.agent.port.ofpMultipart = s.port.ofpMultipart := by
  cases h with
  | aSendMultipartReply =>
    simp only [Hdl.call, Agent.aSendMultipartReply] at hr
    split at hr
    · cases hr
      rfl
    · obtain ⟨body, -, rfl⟩ := Option.map_eq_some_iff.mp hr
      rfl
  | _ =>
    cases hr
    rfl

/-- What a handler transmits it transmits in a call of its own. -/
theorem runHdls_xmit {e : Env} {hs : List Hdl} {s s' : Ofpd} {acts : List Act} {hd : Hdl} {x : Xmit}
    (hrun : runHdls e hs s = some (s', acts)) (hx : .xmit hd x ∈ acts) :
    ∃ s1 r, hd.call s1 e = some r ∧ .xmit hd x ∈ r.acts ∧
      s1.port.ofpMultipart = s.port.ofpMultipart := by
  induction hs generalizing s s' acts with
  | nil =>
    cases hrun
    cases hx
  | cons h hs ih =>
    obtain ⟨r, hr, hrun⟩ := Option.bind_eq_some_iff.mp hrun
    have hfirst : .xmit hd x ∈ r.acts → ∃ s1 r, hd.call s1 e = some r ∧ .xmit hd x ∈ r.acts ∧
        s1.port.ofpMultipart = s.port.ofpMultipart := by
      intro hmem
      obtain rfl : hd = h := (Hdl.call_spec hr).2 _ hmem
      exact ⟨s, r, hr, hmem, rfl⟩
    split at hrun
    · cases hrun
      exact hfirst (by simpa using hx)
    · obtain ⟨q, hq, hrun⟩ := Option.map_eq_some_iff.mp hrun
      cases hrun
      rcases List.mem_append.mp hx with hx | hx
      · exact hfirst (by simpa using hx)
      · obtain ⟨s1, r1, hr1, hmem, hsame⟩ := ih hq hx
        exact ⟨s1, r1, hr1, hmem, hsame.trans (Hdl.call_ofpMultipart hr)⟩

theorem ofpFsm_xmit {e : Env} {event : UInt16} {s s' : Ofpd} {acts : List Act} {hd : Hdl} {x : Xmit}
    (hrun : ofpFsm s event e = some (s', acts)) (hx : .xmit hd x ∈ acts) :
    ∃ s1 r, hd.call s1 e = some r ∧ .xmit hd x ∈ r.acts ∧
      s1.port.ofpMultipart = s.port.ofpMultipart := by
  unfold ofpFsm at hrun
  split at hrun
  · cases hrun
    simp at hx
  · next r hrow =>
    obtain ⟨q, hq, hrun⟩ := Option.map_eq_some_iff.mp hrun
    cases hrun
    obtain ⟨s1, r1, hr1, hmem, hsame⟩ := runHdls_xmit hq (by simpa using hx)
    exact ⟨s1, r1, hr1, hmem, hsame⟩

/-- Each reply belongs to the row of its request. -/
theorem event_of_reply {state : OfpState} {event : UInt16} :
    (.aSendFeatureReply ∈ fsmHdls state event → event = eFeatureRequest) ∧
      (.aSendMultipartReply ∈ fsmHdls state event → event = eMultipartRequest) := by
  unfold fsmHdls
  cases hrow : findRow state event with
  | none => simp
  | some r =>
    obtain ⟨hmem, rfl⟩ := findRow_mem hrow
    rw [Option.elim_some]
    fin_cases hmem <;> simp

/-- The header is counted twice. -/
theorem not_framed_feature {mu : Mem} {e : Env} {s : Ofpd} {x : Xmit}
    (hreq : mu 1 = ofptFeaturesRequest) (hx : .xmit .aSendFeatureReply x ∈ (aSendFeatureReply s e).acts) :
    ¬ ReplyFramed mu e x.mu := by
  intro h
  have hsize := h.size
  obtain ⟨-, rfl⟩ := Act.xmit.inj (List.mem_singleton.mp hx)
  rw [drvXmit_mu, replySize, if_pos hreq, List.length_append, Mem.read_length] at hsize
  simp [featureBytes] at hsize

/-- Where `xid` and the length of a multipart message are. -/
theorem OfpMultipart.fields (p : OfpMultipart) (body : List UInt8) :
    ((p.bytes ++ body).drop 4).take 4 = leBytes 4 p.ofpHeader.xid.toNat ∧
      ((p.bytes ++ body).drop 2).take 2 = leBytes 2 p.ofpHeader.length.toNat := ⟨rfl, rfl⟩

/-- The header is the one of the request, and the length that of the structure. -/
theorem framed_multipart {mu : Mem} {e : Env} {s : Ofpd} {r : Ret} {x : Xmit}
    (hreq : mu 1 = ofptMultipartRequest) (hs : s.port.ofpMultipart = .ofMem mu 0)
    (hr : aSendMultipartReply s e = some r) (hx : .xmit .aSendMultipartReply x ∈ r.acts) :
    ReplyFramed mu e x.mu := by
  have hne : ¬ mu 1 = ofptFeaturesRequest := by
    rw [hreq]
    decide
  cases hifas : e.ifaddrs with
  | none =>
    rw [aSendMultipartReply, hifas] at hr
    cases hr
    cases hx
  | some ifas =>
    have hr' := hr
    rw [aSendMultipartReply, hifas] at hr'
    obtain ⟨body, hbody, -⟩ := Option.map_eq_some_iff.mp hr'
    obtain ⟨r', p, x', heq, hacts, hp, hmu⟩ := aSendMultipartReply_eq s hifas hbody
    obtain rfl : r' = r := Option.some.inj (heq.symm.trans hr)
    rw [hacts] at hx
    obtain ⟨-, rfl⟩ := Act.xmit.inj (List.mem_singleton.mp hx)
    rw [hs] at hp
    have hsize := portDescs_size hbody
    have hlen := portDescs_length hbody (Nat.zero_le _)
    rw [List.length_nil, Nat.zero_add, portsFrom_length] at hsize
    have hreply : (p.bytes ++ body).length = 16 + body.length := by
      rw [List.length_append, OfpMultipart.bytes_length]
    rw [hmu]
    obtain ⟨hxid, hlength⟩ := OfpMultipart.fields p body
    constructor
    · rw [hxid, hp]
      exact leBytes_u32At (Mem.read_length mu 4 4) (by rw [Mem.Holds, Mem.read_length])
    · have hlt : (UInt16.ofNat (16 + body.length)).toNat = 16 + body.length := by
        rw [UInt16.toNat_ofNat']
        omega
      rw [natAt, hlength, hp, leBytes_htons, beNat_beBytes, hlt, ← hp, hreply]
      omega
    · rw [hreply, hsize, replySize, if_neg hne, hifas]
      rfl
    · rw [replyStruct, if_neg hne, hifas, Option.bind_some, hbody, Option.map_some, hp]

section Round

variable {s s' : Ofpd} {mail : OfpMbx} {e : Env} {acts : List Act} {hd : Hdl} {x : Xmit}

/-- The round of a FEATURES_REQUEST. -/
theorem unframed_of_round (hlen : mail.len ≤ ethMtu) (hdp : mail.type ≠ drivDp)
    (hfail : mail.type ≠ drivCpFail) (hreq : mail.mu 1 = ofptFeaturesRequest)
    (h : mainStep s (.drv mail) e = some (s', acts)) (hx : .xmit hd x ∈ acts)
    (hreply : hd = .aSendFeatureReply ∨ hd = .aSendMultipartReply) :
    ¬ ReplyFramed mail.mu e x.mu := by
  set s1 : Ofpd := { (s.setSockfd mail.sockfd).setEvent eFeatureRequest with
    port.ofpHeader := .ofMem mail.mu 0 } with hs1
  have hdec : decodeControl (s.setSockfd mail.sockfd) mail.mu e = some s1 := by
    simp [decodeControl, hreq, ofptFeaturesRequest, ofptHello, hs1]
  rw [mainStep, ofpDecodeFrame_control hlen hdp hfail, hdec] at h
  have hrun : ofpFsm s1 eFeatureRequest e = some (s', acts) := h
  have hmem := (ofpFsm_call hrun).xmit hx
  obtain ⟨s2, r, hr, hxr, -⟩ := ofpFsm_xmit hrun hx
  rcases hreply with rfl | rfl
  · cases hr
    exact not_framed_feature hreq hxr
  · exact absurd (event_of_reply.2 hmem) (by decide)

/-- The round of a MULTIPART_REQUEST. -/
theorem framed_of_round (hlen : mail.len ≤ ethMtu) (hdp : mail.type ≠ drivDp)
    (hfail : mail.type ≠ drivCpFail) (hreq : mail.mu 1 = ofptMultipartRequest)
    (h : mainStep s (.drv mail) e = some (s', acts)) (hx : .xmit hd x ∈ acts)
    (hreply : hd = .aSendFeatureReply ∨ hd = .aSendMultipartReply) :
    ReplyFramed mail.mu e x.mu := by
  set s1 : Ofpd := { (s.setSockfd mail.sockfd).setEvent eMultipartRequest with
    port.ofpMultipart := .ofMem mail.mu 0 } with hs1
  have hdec : decodeControl (s.setSockfd mail.sockfd) mail.mu e = some s1 := by
    simp [decodeControl, hreq, ofptFeaturesRequest, ofptHello, ofptMultipartRequest, hs1]
  rw [mainStep, ofpDecodeFrame_control hlen hdp hfail, hdec] at h
  have hrun : ofpFsm s1 eMultipartRequest e = some (s', acts) := h
  have hmem := (ofpFsm_call hrun).xmit hx
  obtain ⟨s2, r, hr, hxr, hsame⟩ := ofpFsm_xmit hrun hx
  rcases hreply with rfl | rfl
  · exact absurd (event_of_reply.1 hmem) (by decide)
  · exact framed_multipart hreq hsame hr hxr

/-- **The reply to a MULTIPART_REQUEST is framed, and that to a FEATURES_REQUEST is not.** -/
theorem reply_framed (hlen : mail.len ≤ ethMtu) (hdp : mail.type ≠ drivDp)
    (hfail : mail.type ≠ drivCpFail)
    (hreq : mail.mu 1 = ofptFeaturesRequest ∨ mail.mu 1 = ofptMultipartRequest)
    (h : mainStep s (.drv mail) e = some (s', acts)) (hx : .xmit hd x ∈ acts)
    (hreply : hd = .aSendFeatureReply ∨ hd = .aSendMultipartReply) :
    ReplyFramed mail.mu e x.mu ↔ mail.mu 1 = ofptMultipartRequest := by
  rcases hreq with hreq | hreq
  · refine iff_of_false (unframed_of_round hlen hdp hfail hreq h hx hreply) ?_
    rw [hreq]
    decide
  · exact iff_of_true (framed_of_round hlen hdp hfail hreq h hx hreply) hreq

end Round

/-- Who transmits in a round, in order. -/
def Ofpd.senders (s : Ofpd) (r : Round) : List Hdl :=
  ((s.acts r).filterMap Act.xmitted).map Prod.fst

/-- Someone does, in a round that goes through. -/
theorem xmit_of_senders {s : Ofpd} {r : Round} {hd : Hdl} (h : hd ∈ s.senders r) :
    ∃ s' acts x, mainStep s r.mail r.env = some (s', acts) ∧ .xmit hd x ∈ acts := by
  obtain ⟨p, hp, rfl⟩ := List.mem_map.mp h
  obtain ⟨a, ha, hap⟩ := List.mem_filterMap.mp hp
  have hxmit := Act.eq_of_xmitted hap
  subst hxmit
  unfold Ofpd.acts at ha
  cases hrun : mainStep s r.mail r.env with
  | none =>
    rw [hrun] at ha
    cases ha
  | some q =>
    rw [hrun] at ha
    exact ⟨q.1, q.2, p.2, rfl, ha⟩

/-- A request for the port descriptions, of `xid` 9, on a host with two interfaces. -/
def portDescRound : Round :=
  ⟨.drv (cpMail [4, ofptMultipartRequest, 0, 16, 0, 0, 0, 9, 0, 13, 0, 0, 0, 0, 0, 0]),
    .withPorts [[108, 111], [101, 116, 104, 48]]⟩

theorem reply_framed_ports : ∃ s s' acts x, Reachable s ∧
    mainStep s portDescRound.mail portDescRound.env = some (s', acts) ∧
    .xmit .aSendMultipartReply x ∈ acts ∧
    ReplyFramed (cpMail [4, ofptMultipartRequest, 0, 16, 0, 0, 0, 9, 0, 13, 0, 0, 0, 0, 0, 0]).mu
      portDescRound.env x.mu := by
  obtain ⟨ts, s, hr, -, hsend⟩ := run_of_exec
    [shortRound ofptHello, shortRound ofptFeaturesRequest]
    (fun s => .aSendMultipartReply ∈ s.senders portDescRound) (by decide +kernel)
  obtain ⟨s', acts, x, hrun, hx⟩ := xmit_of_senders hsend
  refine ⟨s, s', acts, x, ⟨ts, hr⟩, hrun, hx, ?_⟩
  exact (reply_framed (by decide +kernel) (by decide +kernel) (by decide +kernel) (.inr rfl) hrun hx
    (.inr rfl)).mpr rfl

/-- **A FEATURES_REQUEST of `xid` 1** is answered with 40 bytes of `xid` 0. -/
theorem feature_reply_unframed : ∃ s s' acts x, Reachable s ∧
    mainStep s (shortRound ofptFeaturesRequest).mail (shortRound ofptFeaturesRequest).env =
      some (s', acts) ∧
    .xmit .aSendFeatureReply x ∈ acts ∧
    ¬ ReplyFramed (cpMail (shortMsg ofptFeaturesRequest)).mu (shortRound ofptFeaturesRequest).env
      x.mu := by
  obtain ⟨ts, s, hr, -, hsend⟩ := run_of_exec [shortRound ofptHello]
    (fun s => .aSendFeatureReply ∈ s.senders (shortRound ofptFeaturesRequest)) (by decide +kernel)
  obtain ⟨s', acts, x, hrun, hx⟩ := xmit_of_senders hsend
  refine ⟨s, s', acts, x, ⟨ts, hr⟩, hrun, hx, ?_⟩
  exact unframed_of_round (by decide +kernel) (by decide +kernel) (by decide +kernel) rfl hrun hx
    (.inl rfl)

end Ofpagent.Agent
