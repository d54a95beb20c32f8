/-
# What the timer's sections do to the list

`Linked shm l` says that the list of the shared memory is `l`.  This module has one
specification lemma for each section of `Timer.State`, on a memory with a list:

* `Removed`: what an unlinking does, whoever does it.  Some blocks leave the list and become
  idle, and nothing else about a timer changes; the deadlines of the others stay as they are
  as long as all deadlines are below `2 ^ 32` (`Fits`), and then no addition wraps;
* `Inserted`: what `insertTmr` does.  Its subtractions are guarded, so it needs no bound;
* `Popped`: one round of the tick.

The lists are those of `Lib.Chain`, the deadlines those of `Lib.DeltaQueue`.
-/
import Ofpagent.Timer.State

namespace Ofpagent.Timer

open Ofpagent.Lib

/-! ## 1. The list and its deadlines -/

/-- The list of the shared memory is `l`. -/
def Linked (shm : TmrCbs) (l : List TmrIdx) : Prop := Seg shm.link shm.tmrHdr l none

/-- What a timer is, besides its time. -/
structure Tmr where
  que : IpcId
  ccb : Ptr
  event : UInt8
  name : TmrName
  deriving DecidableEq

/-- The timer a block holds. -/
def tmrOf (c : TmrCb) : Tmr := ⟨c.que, c.ccb, c.event, c.tmrName⟩

/-- The key a timer is started, replaced and stopped by. -/
def Tmr.key (t : Tmr) : Ptr × UInt16 := (t.ccb, t.event.toUInt16)

/-- The list as a delta queue of blocks. -/
def entries (shm : TmrCbs) (l : List TmrIdx) : List (TmrIdx × ℕ) :=
  l.map fun i => (i, (shm.tcb i).timeleft.toNat)

/-- The remaining time of every block of the list. -/
def remaining (shm : TmrCbs) (l : List TmrIdx) : List (TmrIdx × ℕ) :=
  DeltaQueue.deadlines 0 (entries shm l)

/-- Every remaining time is a `U32`. -/
def Fits (shm : TmrCbs) (l : List TmrIdx) : Prop := ∀ x ∈ remaining shm l, x.2 < 2 ^ 32

/-- A change that leaves every block's timer what it is. -/
def SameTmr (shm shm' : TmrCbs) : Prop := ∀ i, tmrOf (shm'.tcb i) = tmrOf (shm.tcb i)

theorem SameTmr.refl (shm : TmrCbs) : SameTmr shm shm := fun _ => rfl

theorem SameTmr.trans {a b c : TmrCbs} (h : SameTmr a b) (h' : SameTmr b c) : SameTmr a c :=
  fun i => (h' i).trans (h i)

theorem SameTmr.isXtmr {shm shm' : TmrCbs} (h : SameTmr shm shm') (ccb : Ptr) (event : UInt16) :
    isXtmr shm' ccb event = isXtmr shm ccb event := by
  funext i
  have hi := h i
  simp only [tmrOf, Tmr.mk.injEq] at hi
  simp [Timer.isXtmr, hi.2.1, hi.2.2.1]

theorem SameTmr.ccb {shm shm' : TmrCbs} (h : SameTmr shm shm') (i : TmrIdx) :
    (shm'.tcb i).ccb = (shm.tcb i).ccb := by
  have hi := h i
  simp only [tmrOf, Tmr.mk.injEq] at hi
  exact hi.2.1

theorem SameTmr.que {shm shm' : TmrCbs} (h : SameTmr shm shm') (i : TmrIdx) :
    (shm'.tcb i).que = (shm.tcb i).que := by
  have hi := h i
  simp only [tmrOf, Tmr.mk.injEq] at hi
  exact hi.1

theorem SameTmr.primOf {shm shm' : TmrCbs} (h : SameTmr shm shm') (i : TmrIdx) :
    primOf (shm'.tcb i) = primOf (shm.tcb i) := by
  have hi := h i
  simp only [tmrOf, Tmr.mk.injEq] at hi
  simp [Timer.primOf, hi.2.1, hi.2.2.1]

@[simp] theorem entries_nil (shm : TmrCbs) : entries shm [] = [] := rfl

@[simp] theorem entries_cons (shm : TmrCbs) (i : TmrIdx) (l : List TmrIdx) :
    entries shm (i :: l) = (i, (shm.tcb i).timeleft.toNat) :: entries shm l := rfl

@[simp] theorem entries_append (shm : TmrCbs) (l₁ l₂ : List TmrIdx) :
    entries shm (l₁ ++ l₂) = entries shm l₁ ++ entries shm l₂ := List.map_append ..

@[simp] theorem entries_map_fst (shm : TmrCbs) (l : List TmrIdx) :
    (entries shm l).map Prod.fst = l := by
  simp [entries, Function.comp_def]

@[simp] theorem remaining_map_fst (shm : TmrCbs) (l : List TmrIdx) :
    (remaining shm l).map Prod.fst = l := by
  rw [remaining, DeltaQueue.deadlines_map_fst, entries_map_fst]

/-- `entries` reads the times of the blocks in the list and no others. -/
theorem entries_congr {shm shm' : TmrCbs} {l : List TmrIdx}
    (h : ∀ i ∈ l, (shm'.tcb i).timeleft = (shm.tcb i).timeleft) :
    entries shm' l = entries shm l :=
  List.map_congr_left fun i hi => by rw [h i hi]

theorem Linked.nodup {shm : TmrCbs} {l : List TmrIdx} (h : Linked shm l) : l.Nodup :=
  Seg.nodup h

/-- The fuel of the loops is more than any list needs. -/
theorem Linked.length_lt {shm : TmrCbs} {l : List TmrIdx} (h : Linked shm l) :
    l.length < fuel := by
  have := h.nodup.length_le_card
  simp only [Fintype.card_fin] at this
  simp only [fuel]
  omega

theorem Linked.unique {shm : TmrCbs} {l l' : List TmrIdx} (h : Linked shm l)
    (h' : Linked shm l') : l = l' :=
  Seg.unique h h'

theorem Linked.head {shm : TmrCbs} {l : List TmrIdx} (h : Linked shm l) :
    shm.tmrHdr = l.head? :=
  Seg.head?_eq h

/-- Two memories with the same links have the same list. -/
theorem Linked.of_same {shm shm' : TmrCbs} {l : List TmrIdx} (h : Linked shm l)
    (hn : ∀ i ∈ l, (shm'.tcb i).next = (shm.tcb i).next) (hh : shm'.tmrHdr = shm.tmrHdr) :
    Linked shm' l := by
  unfold Linked
  rw [hh]
  exact Seg.congr h fun i hi => by simp [TmrCbs.link, hn i hi]

/-! ## 2. Single writes -/

@[simp] theorem modify_tcb (shm : TmrCbs) (i j : TmrIdx) (f : TmrCb → TmrCb) :
    (shm.modify i f).tcb j = if j = i then f (shm.tcb j) else shm.tcb j := rfl

@[simp] theorem modify_hdr (shm : TmrCbs) (i : TmrIdx) (f : TmrCb → TmrCb) :
    (shm.modify i f).tmrHdr = shm.tmrHdr := rfl

@[simp] theorem modify_wrapped (shm : TmrCbs) (i : TmrIdx) (f : TmrCb → TmrCb) :
    (shm.modify i f).wrapped = shm.wrapped := rfl

/-- The block `j` after `unlinkTmr`, field by field. -/
theorem unlinkTmr_tcb (shm : TmrCbs) (prev : Option TmrIdx) (cur j : TmrIdx) :
    (unlinkTmr shm prev cur).tcb j =
      { shm.tcb j with
        next := if prev = some j then (shm.tcb cur).next else (shm.tcb j).next
        timeleft := if (shm.tcb cur).next = some j
          then (shm.tcb j).timeleft + (shm.tcb cur).timeleft else (shm.tcb j).timeleft
        idle := (shm.tcb j).idle || decide (j = cur) } := by
  cases prev <;> cases hn : (shm.tcb cur).next <;>
    simp only [unlinkTmr, ostmrFreeTmrCb, TmrCbs.setNext, TmrCbs.addTimeleft, hn, modify_tcb,
      Option.some.injEq, reduceCtorEq, if_false] <;>
    ext <;> grind

theorem unlinkTmr_wrapped (shm : TmrCbs) (prev : Option TmrIdx) (cur : TmrIdx) :
    (unlinkTmr shm prev cur).wrapped = (shm.wrapped || match (shm.tcb cur).next with
      | some n => decide
          (2 ^ 32 ≤ (shm.tcb n).timeleft.toNat + (shm.tcb cur).timeleft.toNat)
      | none => false) := by
  cases prev <;> cases hn : (shm.tcb cur).next <;>
    simp only [unlinkTmr, ostmrFreeTmrCb, TmrCbs.setNext, TmrCbs.addTimeleft, hn, modify_tcb,
      modify_wrapped, Bool.or_false]
  all_goals grind

/-- `unlinkTmr` relinks as `Lib.relink` does. -/
theorem unlinkTmr_relink (shm : TmrCbs) (prev : Option TmrIdx) (cur : TmrIdx) :
    (unlinkTmr shm prev cur).link = (relink shm.link shm.tmrHdr prev (shm.tcb cur).next).1 ∧
      (unlinkTmr shm prev cur).tmrHdr
        = (relink shm.link shm.tmrHdr prev (shm.tcb cur).next).2 := by
  constructor
  · funext j
    rw [TmrCbs.link, unlinkTmr_tcb]
    cases prev with
    | none => simp [relink, TmrCbs.link]
    | some p =>
      by_cases h : j = p
      · subst h; simp [relink]
      · have h' : ¬ p = j := fun e => h e.symm
        simp [relink, TmrCbs.link, h, h']
  · cases prev <;> cases hn : (shm.tcb cur).next <;>
      simp [unlinkTmr, ostmrFreeTmrCb, TmrCbs.setNext, TmrCbs.addTimeleft, hn, relink]

/-! ## 3. Removal -/

/-- Some blocks leave the list `l`, which becomes `l'`, and are free again; nothing else about
which timers there are changes. -/
structure Freed (shm shm' : TmrCbs) (l l' : List TmrIdx) : Prop where
  linked : Linked shm' l'
  sub : l'.Sublist l
  same : SameTmr shm shm'
  idle : ∀ i, (shm'.tcb i).idle = ((shm.tcb i).idle || decide (i ∈ l ∧ i ∉ l'))
  frame : ∀ i, i ∉ l → shm'.tcb i = shm.tcb i

/-- Blocks are freed and the other deadlines stay as they are. -/
structure Removed (shm shm' : TmrCbs) (l l' : List TmrIdx) : Prop extends
    Freed shm shm' l l' where
  exact : Fits shm l → shm'.wrapped = shm.wrapped ∧
    remaining shm' l' = (remaining shm l).filter fun x => decide (x.1 ∈ l')

theorem Removed.refl {shm : TmrCbs} {l : List TmrIdx} (h : Linked shm l) :
    Removed shm shm l l where
  linked := h
  sub := List.Sublist.refl l
  same := SameTmr.refl shm
  idle i := by by_cases hi : i ∈ l <;> simp [hi]
  frame _ _ := rfl
  exact _ := by
    refine ⟨rfl, (List.filter_eq_self.mpr fun x hx => ?_).symm⟩
    have := List.mem_map_of_mem (f := Prod.fst) hx
    rw [remaining_map_fst] at this
    simpa using this

theorem Removed.fits {shm shm' : TmrCbs} {l l' : List TmrIdx} (h : Removed shm shm' l l')
    (hf : Fits shm l) : Fits shm' l' := by
  intro x hx
  rw [(h.exact hf).2] at hx
  exact hf x (List.mem_of_mem_filter hx)

theorem Removed.trans {shm shm' shm'' : TmrCbs} {l l' l'' : List TmrIdx}
    (h : Removed shm shm' l l') (h' : Removed shm' shm'' l' l'') : Removed shm shm'' l l'' where
  linked := h'.linked
  sub := h'.sub.trans h.sub
  same := h.same.trans h'.same
  idle i := by
    rw [h'.idle, h.idle]
    have h1 := h.sub.subset (a := i)
    have h2 := h'.sub.subset (a := i)
    by_cases hl : i ∈ l <;> by_cases hl' : i ∈ l' <;> by_cases hl'' : i ∈ l'' <;> simp_all
  frame i hi := (h'.frame i fun hi' => hi (h.sub.subset hi')).trans (h.frame i hi)
  exact hf := by
    obtain ⟨hw, hr⟩ := h.exact hf
    obtain ⟨hw', hr'⟩ := h'.exact (h.fits hf)
    refine ⟨hw'.trans hw, ?_⟩
    rw [hr', hr, List.filter_filter]
    refine List.filter_congr fun x _ => ?_
    have h2 := h'.sub.subset (a := x.1)
    by_cases hx : x.1 ∈ l'' <;> simp [hx]
    exact h2 hx

/-- A duplicate-free list of deadlines, filtered down to all but one of its entries. -/
theorem filter_remaining {D₁ D₂ : List (TmrIdx × ℕ)} {a : TmrIdx} {t : ℕ} {l₁ l₂ : List TmrIdx}
    (h₁ : D₁.map Prod.fst = l₁) (h₂ : D₂.map Prod.fst = l₂) (ha : a ∉ l₁ ++ l₂) :
    (D₁ ++ (a, t) :: D₂).filter (fun x => decide (x.1 ∈ l₁ ++ l₂)) = D₁ ++ D₂ := by
  subst h₁ h₂
  have hD₁ : D₁.filter (fun x => decide (x.1 ∈ D₁.map Prod.fst ++ D₂.map Prod.fst)) = D₁ := by
    refine List.filter_eq_self.mpr fun x hx => ?_
    simpa using Or.inl ⟨x.2, hx⟩
  have hD₂ : D₂.filter (fun x => decide (x.1 ∈ D₁.map Prod.fst ++ D₂.map Prod.fst)) = D₂ := by
    refine List.filter_eq_self.mpr fun x hx => ?_
    simpa using Or.inr ⟨x.2, hx⟩
  rw [List.filter_append, hD₁, List.filter_cons, hD₂, if_neg (by simpa using ha)]

/-- Blocks behind a removed one: the first of them takes over its time, unless that would
wrap. -/
theorem entries_unlinkTmr {shm : TmrCbs} {l₁ l₂ : List TmrIdx} {a : TmrIdx}
    (hnd : (l₁ ++ a :: l₂).Nodup) (hnext : (shm.tcb a).next = l₂.head?)
    (hlt : ∀ n, l₂.head? = some n →
      (shm.tcb n).timeleft.toNat + (shm.tcb a).timeleft.toNat < 2 ^ 32)
    (prev : Option TmrIdx) :
    entries (unlinkTmr shm prev a) (l₁ ++ l₂)
      = entries shm l₁ ++ DeltaQueue.bump (shm.tcb a).timeleft.toNat (entries shm l₂) := by
  have keep : ∀ i, l₂.head? ≠ some i →
      ((unlinkTmr shm prev a).tcb i).timeleft = (shm.tcb i).timeleft := by
    intro i hi
    rw [unlinkTmr_tcb]
    simp [hnext, hi]
  rw [entries_append]
  obtain ⟨-, hnd2, hdis⟩ := List.nodup_append.mp hnd
  congr 1
  · refine entries_congr fun i hi => keep i fun h => ?_
    exact hdis i hi i (List.mem_cons_of_mem _ (List.mem_of_head? h)) rfl
  · cases l₂ with
    | nil => rfl
    | cons n l =>
      have hn : n ∉ l := (List.nodup_cons.mp (List.nodup_cons.mp hnd2).2).1
      have hlt' := hlt n rfl
      rw [entries_cons, entries_cons, DeltaQueue.bump,
        entries_congr fun i hi => keep i fun h => hn (by simp at h; exact h ▸ hi)]
      have htime : ((unlinkTmr shm prev a).tcb n).timeleft
          = (shm.tcb n).timeleft + (shm.tcb a).timeleft := by
        rw [unlinkTmr_tcb]
        simp [hnext]
      rw [htime, UInt32.toNat_add, Nat.mod_eq_of_lt hlt']

/-- Where every deadline fits, a block can take over the time of the one ahead of it. -/
theorem add_lt_of_fits {shm : TmrCbs} {l₁ l₂ : List TmrIdx} {a : TmrIdx}
    (hf : Fits shm (l₁ ++ a :: l₂)) {n : TmrIdx} (hn : l₂.head? = some n) :
    (shm.tcb n).timeleft.toNat + (shm.tcb a).timeleft.toNat < 2 ^ 32 := by
  cases l₂ with
  | nil => simp at hn
  | cons m l =>
    obtain rfl : m = n := by simpa using hn
    obtain ⟨u, hu, hle⟩ := DeltaQueue.add_le_deadline a m (shm.tcb a).timeleft.toNat
      (shm.tcb m).timeleft.toNat (entries shm l) 0 (entries shm l₁)
    have hlt := hf (m, u) (by simpa [remaining] using hu)
    exact Nat.lt_of_le_of_lt hle hlt

/-- **The removal of one block.** -/
theorem removed_unlinkTmr {shm : TmrCbs} {l₁ l₂ : List TmrIdx} {a : TmrIdx}
    (h : Linked shm (l₁ ++ a :: l₂)) :
    Removed shm (unlinkTmr shm l₁.getLast? a) (l₁ ++ a :: l₂) (l₁ ++ l₂) := by
  have hnd := h.nodup
  obtain ⟨r, hseg, -, q, hq, hrest⟩ := Seg.append_iff.mp h
  have hnextq : (shm.tcb a).next = q := by simpa [TmrCbs.link] using hq
  subst hnextq
  have hnext : (shm.tcb a).next = l₂.head? := hrest.head?_eq
  have ha : a ∉ l₁ ++ l₂ := List.nodup_middle.mp hnd |> List.nodup_cons.mp |>.1
  have hnd' : (l₁ ++ l₂).Nodup := (List.nodup_middle.mp hnd |> List.nodup_cons.mp).2
  refine ⟨⟨?_, by simp, fun i => ?_, fun i => ?_, fun i hi => ?_⟩, fun hf => ?_⟩
  · unfold Linked
    rw [(unlinkTmr_relink shm _ a).1, (unlinkTmr_relink shm _ a).2]
    exact hseg.relink hrest hnd'
  · rw [unlinkTmr_tcb]; rfl
  · rw [unlinkTmr_tcb]
    by_cases hi : i = a
    · subst hi; simp_all
    · simp [hi]; tauto
  · rw [List.mem_append, List.mem_cons, not_or, not_or] at hi
    have hprev : l₁.getLast? ≠ some i := fun e => hi.1 (List.mem_of_getLast? e)
    have hcur : l₂.head? ≠ some i := fun e => hi.2.2 (List.mem_of_head? e)
    rw [unlinkTmr_tcb]
    simp [hprev, hnext, hcur, hi.2.1]
  · obtain ⟨D₁, t, D₂, h1, h2, h3, h4⟩ := DeltaQueue.deadlines_remove a
      (shm.tcb a).timeleft.toNat (entries shm l₂) 0 (entries shm l₁)
    rw [entries_map_fst] at h3 h4
    have hent := entries_unlinkTmr hnd hnext (fun n hn => add_lt_of_fits hf hn) l₁.getLast?
    refine ⟨?_, ?_⟩
    · rw [unlinkTmr_wrapped, hnext]
      cases hl : l₂.head? with
      | none => simp
      | some n =>
        have hlt := add_lt_of_fits hf hl
        simp
        omega
    · rw [remaining, hent, h2, remaining, entries_append, entries_cons, h1]
      exact (filter_remaining h3 h4 ha).symm

/-! ## 4. The two stops -/

/-- What the loop of `OSTMR_StopXtmr` and of `OSTMR_IsTmrExist` finds: the first block passing
the test, with the one before it. -/
theorem scan_linked {shm : TmrCbs} {l : List TmrIdx} (h : Linked shm l) (test : TmrIdx → Bool) :
    ((∀ i ∈ l, test i = false) ∧
        ∃ prev, scan shm.link test fuel none shm.tmrHdr = some (prev, none)) ∨
      ∃ l₁ a l₂, l = l₁ ++ a :: l₂ ∧ (∀ i ∈ l₁, test i = false) ∧ test a = true ∧
        scan shm.link test fuel none shm.tmrHdr = some (l₁.getLast?, some a) :=
  scan_split test h h.length_lt

/-- **`OSTMR_StopXtmr`** removes the first block with the key, if there is one. -/
theorem ostmrStopXtmr_spec {shm : TmrCbs} {l : List TmrIdx} (h : Linked shm l) (ccb : Ptr)
    (event : UInt16) :
    ∃ shm', ostmrStopXtmr shm ccb event = some shm' ∧
      Removed shm shm' l (l.eraseP (isXtmr shm ccb event)) := by
  rcases scan_linked h (isXtmr shm ccb event) with ⟨hno, prev, hs⟩ | ⟨l₁, a, l₂, hl, hno, ha, hs⟩
  · refine ⟨shm, by simp [ostmrStopXtmr, hs], ?_⟩
    rw [List.eraseP_of_forall_not fun i hi => by simp [hno i hi]]
    exact Removed.refl h
  · refine ⟨unlinkTmr shm l₁.getLast? a, by simp [ostmrStopXtmr, hs], ?_⟩
    subst hl
    rw [List.eraseP_append_right _ fun i hi => by simp [hno i hi], List.eraseP_cons_of_pos ha]
    exact removed_unlinkTmr h

/-- Where a test can hold once, erasing its first success is filtering. -/
theorem eraseP_eq_filter {α κ : Type*} [BEq κ] [LawfulBEq κ] (key : α → κ) (k : κ) {l : List α}
    (h : (l.map key).Nodup) : l.eraseP (fun a => key a == k) = l.filter fun a => key a != k := by
  induction l with
  | nil => rfl
  | cons a l ih =>
    obtain ⟨ha, hl⟩ := List.nodup_cons.mp h
    by_cases hk : key a == k
    · have hk' : key a = k := eq_of_beq hk
      have hrest : l.filter (fun a => key a != k) = l := by
        refine List.filter_eq_self.mpr fun b hb => ?_
        have : key b ≠ k := fun e => ha (hk'.trans e.symm ▸ List.mem_map_of_mem hb)
        simpa using this
      rw [List.eraseP_cons_of_pos (by exact hk), List.filter_cons_of_neg (by simp [hk']), hrest]
    · rw [List.eraseP_cons_of_neg (by exact hk), List.filter_cons_of_pos (by simpa using hk),
        ih hl]

theorem isXtmr_eq (shm : TmrCbs) (ccb : Ptr) (event : UInt16) :
    isXtmr shm ccb event = fun i => (tmrOf (shm.tcb i)).key == (ccb, event) := by
  funext i
  rw [isXtmr, Bool.eq_iff_iff]
  simp [Tmr.key, tmrOf, eq_comm (a := event)]

/-- The loop of `OSTMR_StopTmrs`, behind the blocks `done` it has already kept. -/
theorem stopTmrsLoop_spec (ccb : Ptr) (rest : List TmrIdx) (n : ℕ) (shm : TmrCbs)
    (done : List TmrIdx) (h : Linked shm (done ++ rest)) (hn : rest.length < n) :
    ∃ shm', stopTmrsLoop ccb n shm done.getLast? rest.head? = some shm' ∧
      Removed shm shm' (done ++ rest)
        (done ++ rest.filter fun i => decide ((shm.tcb i).ccb ≠ ccb)) := by
  induction rest generalizing n shm done with
  | nil =>
    obtain ⟨m, rfl⟩ : ∃ m, n = m + 1 := ⟨n - 1, by simp at hn; omega⟩
    exact ⟨shm, rfl, by simpa using Removed.refl h⟩
  | cons a rest ih =>
    obtain ⟨m, rfl⟩ : ∃ m, n = m + 1 := ⟨n - 1, by simp at hn; omega⟩
    have hm : rest.length < m := by simp at hn; omega
    have hnext : (shm.tcb a).next = rest.head? := by
      obtain ⟨r, -, -, q, hq, hrest⟩ := Seg.append_iff.mp h
      have hnextq : (shm.tcb a).next = q := by simpa [TmrCbs.link] using hq
      rw [hnextq, hrest.head?_eq]
    by_cases hc : (shm.tcb a).ccb ≠ ccb
    · -- the block is kept and joins `done`
      have h' : Linked shm ((done ++ [a]) ++ rest) := by simpa using h
      obtain ⟨shm', hloop, hrem⟩ := ih m shm (done ++ [a]) h' hm
      refine ⟨shm', ?_, by simpa [List.filter_cons, hc] using hrem⟩
      simpa [stopTmrsLoop, hc, hnext] using hloop
    · -- the block goes; `prev` stays where it is
      have hrem := removed_unlinkTmr h
      obtain ⟨shm', hloop, hrem'⟩ :=
        ih m (unlinkTmr shm done.getLast? a) done hrem.linked hm
      refine ⟨shm', ?_, ?_⟩
      · simpa [stopTmrsLoop, hc, hnext] using hloop
      · have hfilter : (rest.filter fun i =>
            decide (((unlinkTmr shm done.getLast? a).tcb i).ccb ≠ ccb))
            = rest.filter fun i => decide ((shm.tcb i).ccb ≠ ccb) :=
          List.filter_congr fun i _ => by rw [hrem.same.ccb i]
        rw [hfilter] at hrem'
        simpa [List.filter_cons, hc] using hrem.trans hrem'

/-- **`OSTMR_StopTmrs`** removes every block of the `ccb`. -/
theorem ostmrStopTmrs_spec {shm : TmrCbs} {l : List TmrIdx} (h : Linked shm l) (ccb : Ptr) :
    ∃ shm', ostmrStopTmrs shm ccb = some shm' ∧
      Removed shm shm' l (l.filter fun i => decide ((shm.tcb i).ccb ≠ ccb)) := by
  have hloop := stopTmrsLoop_spec ccb l fuel shm [] (by simpa using h) h.length_lt
  simpa [ostmrStopTmrs, h.head] using hloop

/-- **`OSTMR_IsTmrExist`** says whether some block of the list passes its test. -/
theorem ostmrIsTmrExist_spec {shm : TmrCbs} {l : List TmrIdx} (h : Linked shm l) (ccb : Ptr)
    (event : UInt16) :
    ostmrIsTmrExist shm ccb event = some (l.any (isTmr shm ccb event)) := by
  rcases scan_linked h (isTmr shm ccb event) with ⟨hno, prev, hs⟩ | ⟨l₁, a, l₂, rfl, hno, ha, hs⟩
  · have : l.any (isTmr shm ccb event) = false := by simpa using hno
    simp [ostmrIsTmrExist, hs, this]
  · simp [ostmrIsTmrExist, hs, ha]

/-! ## 5. Allocation and insertion -/

/-- **`OSTMR_MallocTmrCb`** takes a block that was idle, or finds that there is none. -/
theorem ostmrMallocTmrCb_cases (shm : TmrCbs) :
    (ostmrMallocTmrCb shm = (shm, none) ∧ ∀ i, (shm.tcb i).idle = false) ∨
      ∃ i, ostmrMallocTmrCb shm = (shm.modify i fun c => { c with idle := false }, some i) ∧
        (shm.tcb i).idle = true := by
  unfold ostmrMallocTmrCb
  cases hf : (List.finRange maxTmrCbNum).find? fun i => (shm.tcb i).idle with
  | none =>
    refine Or.inl ⟨rfl, fun i => ?_⟩
    have := List.find?_eq_none.mp hf i (List.mem_finRange i)
    simpa using this
  | some i => exact Or.inr ⟨i, rfl, by simpa using List.find?_some hf⟩

/-- The new block, with the time the search has left it. -/
def setTimeleft (shm : TmrCbs) (i : TmrIdx) (t : UInt32) : TmrCbs :=
  shm.modify i fun c => { c with timeleft := t }

/-- A guarded subtraction does not wrap. -/
theorem subTimeleft_of_le {shm : TmrCbs} {i : TmrIdx} {t : UInt32}
    (h : t.toNat ≤ (shm.tcb i).timeleft.toNat) :
    shm.subTimeleft i t = setTimeleft shm i ((shm.tcb i).timeleft - t) := by
  have hw : (shm.wrapped || decide ((shm.tcb i).timeleft.toNat < t.toNat)) = shm.wrapped := by
    simp [Nat.not_lt.mpr h]
  simp only [TmrCbs.subTimeleft, setTimeleft, TmrCbs.modify, hw]
  congr 1
  funext j
  by_cases hj : j = i
  · subst hj; simp
  · simp [hj]

@[simp] theorem setTimeleft_setTimeleft (shm : TmrCbs) (i : TmrIdx) (t u : UInt32) :
    setTimeleft (setTimeleft shm i t) i u = setTimeleft shm i u := by
  simp only [setTimeleft, TmrCbs.modify]
  congr 1
  funext j
  by_cases hj : j = i <;> simp [hj]

theorem setTimeleft_self (shm : TmrCbs) (i : TmrIdx) :
    setTimeleft shm i (shm.tcb i).timeleft = shm := by
  simp only [setTimeleft, TmrCbs.modify]
  congr 1
  funext j
  by_cases hj : j = i <;> simp [hj]

theorem setTimeleft_timeleft (shm : TmrCbs) (i : TmrIdx) (t : UInt32) :
    ((setTimeleft shm i t).tcb i).timeleft = t := by
  simp [setTimeleft]

theorem setTimeleft_of_ne (shm : TmrCbs) {i j : TmrIdx} (t : UInt32) (h : j ≠ i) :
    (setTimeleft shm i t).tcb j = shm.tcb j := by
  simp [setTimeleft, h]

theorem entries_setTimeleft (shm : TmrCbs) {i : TmrIdx} (t : UInt32) {l : List TmrIdx}
    (h : i ∉ l) : entries (setTimeleft shm i t) l = entries shm l := by
  refine entries_congr fun j hj => ?_
  have hne : j ≠ i := fun e => h (e ▸ hj)
  rw [setTimeleft_of_ne shm t hne]

/-- The search of `OSTMR_StartTmr`: it stops before the first block due later, and has taken
the time of the ones it walked past off the new block.  What it leaves to be done is the
insertion into the delta queue. -/
theorem startLoop_spec {tcb : TmrIdx} (rest : List TmrIdx) (n : ℕ) (shm : TmrCbs)
    (prev cur : Option TmrIdx) (h : Seg shm.link cur rest none) (hni : tcb ∉ rest)
    (hn : rest.length < n) :
    ∃ r₁ r₂ t, rest = r₁ ++ r₂ ∧
      startLoop tcb n shm prev cur
        = some (setTimeleft shm tcb t, r₁.getLast?.or prev, r₂.head?) ∧
      (∀ c, r₂.head? = some c → t.toNat ≤ (shm.tcb c).timeleft.toNat) ∧
      DeltaQueue.insert tcb (shm.tcb tcb).timeleft.toNat (entries shm rest)
        = entries shm r₁ ++ (tcb, t.toNat) :: DeltaQueue.charge t.toNat (entries shm r₂) := by
  induction rest generalizing n shm prev cur with
  | nil =>
    obtain ⟨m, rfl⟩ : ∃ m, n = m + 1 := ⟨n - 1, by simp at hn; omega⟩
    rw [Seg.nil_iff] at h
    subst h
    exact ⟨[], [], (shm.tcb tcb).timeleft, rfl, by simp [startLoop, setTimeleft_self], by simp,
      rfl⟩
  | cons a rest ih =>
    obtain ⟨hcur, q, hq, h⟩ := h
    obtain ⟨m, rfl⟩ : ∃ m, n = m + 1 := ⟨n - 1, by simp at hn; omega⟩
    have hm : rest.length < m := by simp at hn; omega
    have hne : a ≠ tcb := fun e => hni (e ▸ List.mem_cons_self)
    have hni' : tcb ∉ rest := fun e => hni (List.mem_cons_of_mem _ e)
    have hnextq : (shm.tcb a).next = q := by simpa [TmrCbs.link] using hq
    subst hcur hnextq
    by_cases hlt : (shm.tcb tcb).timeleft < (shm.tcb a).timeleft
    · have hlt' : (shm.tcb tcb).timeleft.toNat < (shm.tcb a).timeleft.toNat :=
        UInt32.lt_iff_toNat_lt.mp hlt
      refine ⟨[], a :: rest, (shm.tcb tcb).timeleft, rfl, ?_, ?_, ?_⟩
      · simp [startLoop, hlt, setTimeleft_self]
      · rintro c hc
        obtain rfl : a = c := by simpa using hc
        exact Nat.le_of_lt hlt'
      · simp [DeltaQueue.insert, hlt', DeltaQueue.charge]
    · have hle : (shm.tcb a).timeleft.toNat ≤ (shm.tcb tcb).timeleft.toNat :=
        Nat.not_lt.mp fun h => hlt (UInt32.lt_iff_toNat_lt.mpr h)
      set shm1 := setTimeleft shm tcb ((shm.tcb tcb).timeleft - (shm.tcb a).timeleft) with hshm1
      have hother : ∀ i, i ≠ tcb → shm1.tcb i = shm.tcb i := fun i hi => setTimeleft_of_ne shm _ hi
      have hseg : Seg shm1.link (shm.tcb a).next rest none := by
        refine Seg.congr h fun i hi => ?_
        simp [TmrCbs.link, hother i fun e => hni' (e ▸ hi)]
      have hents : ∀ r : List TmrIdx, tcb ∉ r → entries shm1 r = entries shm r := fun r hr =>
        entries_setTimeleft shm _ hr
      obtain ⟨r₁, r₂, t, hr, hloop, hhead, hins⟩ :=
        ih m shm1 (some a) (shm.tcb a).next hseg hni' hm
      have hni₁ : tcb ∉ r₁ := fun e => hni' (hr ▸ List.mem_append_left _ e)
      have hni₂ : tcb ∉ r₂ := fun e => hni' (hr ▸ List.mem_append_right _ e)
      refine ⟨a :: r₁, r₂, t, by rw [hr]; rfl, ?_, ?_, ?_⟩
      · have hlast : (a :: r₁).getLast?.or prev = r₁.getLast?.or (some a) := by
          cases r₁ with
          | nil => simp
          | cons b r => simp [List.getLast?_cons]
        rw [startLoop, if_neg hlt, subTimeleft_of_le hle, hloop, hlast, hshm1,
          setTimeleft_setTimeleft]
      · intro c hc
        have := hhead c hc
        rwa [hother c fun e => hni₂ (e ▸ List.mem_of_head? hc)] at this
      · have htime : (shm1.tcb tcb).timeleft.toNat
            = (shm.tcb tcb).timeleft.toNat - (shm.tcb a).timeleft.toNat := by
          rw [hshm1, setTimeleft_timeleft]
          exact UInt32.toNat_sub_of_le _ _ (UInt32.le_iff_toNat_le.mpr hle)
        rw [hents rest hni', hents r₁ hni₁, hents r₂ hni₂, htime] at hins
        simp [DeltaQueue.insert, Nat.not_lt.mpr hle, hins]

/-- A block joins the list `l`, which becomes `l₁ ++ tcb :: l₂`, and no block is allocated or
freed. -/
structure Inserted (shm shm' : TmrCbs) (tcb : TmrIdx) (l l₁ l₂ : List TmrIdx) : Prop where
  split : l = l₁ ++ l₂
  linked : Linked shm' (l₁ ++ tcb :: l₂)
  same : SameTmr shm shm'
  idle : ∀ i, (shm'.tcb i).idle = (shm.tcb i).idle
  frame : ∀ i, i ≠ tcb → i ∉ l → shm'.tcb i = shm.tcb i
  wrapped : shm'.wrapped = shm.wrapped
  exact : entries shm' (l₁ ++ tcb :: l₂)
    = DeltaQueue.insert tcb (shm.tcb tcb).timeleft.toNat (entries shm l)

/-- The block `j` after `linkTmr`, field by field. -/
theorem linkTmr_tcb (shm : TmrCbs) (prev : Option TmrIdx) (tcb : TmrIdx) (cur : Option TmrIdx)
    (j : TmrIdx) :
    (linkTmr shm prev tcb cur).tcb j =
      { shm.tcb j with
        next := if prev = some j then some tcb else if j = tcb then cur else (shm.tcb j).next
        timeleft := if cur = some j
          then (shm.tcb j).timeleft - (shm.tcb tcb).timeleft else (shm.tcb j).timeleft } := by
  cases prev <;> cases cur <;>
    simp only [linkTmr, TmrCbs.setNext, TmrCbs.subTimeleft, modify_tcb, Option.some.injEq,
      reduceCtorEq, if_false]
  all_goals ext <;> grind

/-- `linkTmr` writes the link of the new block and then relinks. -/
theorem linkTmr_relink (shm : TmrCbs) (prev : Option TmrIdx) (tcb : TmrIdx)
    (cur : Option TmrIdx) :
    (linkTmr shm prev tcb cur).link
        = (relink (Function.update shm.link tcb (some cur)) shm.tmrHdr prev (some tcb)).1 ∧
      (linkTmr shm prev tcb cur).tmrHdr
        = (relink (Function.update shm.link tcb (some cur)) shm.tmrHdr prev (some tcb)).2 := by
  constructor
  · funext j
    rw [TmrCbs.link, linkTmr_tcb]
    cases prev with
    | none => by_cases hj : j = tcb <;> simp [relink, Function.update, TmrCbs.link, hj]
    | some p =>
      by_cases hp : j = p <;> by_cases hj : j = tcb <;>
        simp [relink, Function.update, TmrCbs.link, hp, hj, eq_comm (a := p)]
      all_goals grind
  · cases prev <;> cases cur <;>
      simp [linkTmr, TmrCbs.setNext, TmrCbs.subTimeleft, relink]

theorem linkTmr_wrapped {shm : TmrCbs} {prev : Option TmrIdx} {tcb : TmrIdx}
    {cur : Option TmrIdx} (htcb : cur ≠ some tcb)
    (h : ∀ c, cur = some c → (shm.tcb tcb).timeleft.toNat ≤ (shm.tcb c).timeleft.toNat) :
    (linkTmr shm prev tcb cur).wrapped = shm.wrapped := by
  cases prev <;> cases cur with
  | none => rfl
  | some c =>
    have := h c rfl
    simp only [linkTmr, TmrCbs.setNext, TmrCbs.subTimeleft, modify_tcb, modify_wrapped]
    grind

/-- The list is cut behind `l₁`, and the new block is put there. -/
theorem linked_linkTmr {shm : TmrCbs} {l₁ l₂ : List TmrIdx} {tcb : TmrIdx}
    (h : Linked shm (l₁ ++ l₂)) (hni : tcb ∉ l₁ ++ l₂) :
    Linked (linkTmr shm l₁.getLast? tcb l₂.head?) (l₁ ++ tcb :: l₂) := by
  unfold Linked
  rw [(linkTmr_relink shm _ tcb _).1, (linkTmr_relink shm _ tcb _).2]
  have hlinked : Seg (Function.update shm.link tcb (some l₂.head?)) shm.tmrHdr (l₁ ++ l₂) none :=
    Seg.congr h fun i hi => Function.update_of_ne (fun e : i = tcb => hni (e ▸ hi)) _ _
  obtain ⟨r, hseg₁, hseg₂⟩ := Seg.append_iff.mp hlinked
  have hr := hseg₂.head?_eq
  subst hr
  refine hseg₁.relink ⟨rfl, l₂.head?, by simp, hseg₂⟩ ?_
  rw [List.nodup_middle]
  exact List.nodup_cons.mpr ⟨hni, h.nodup⟩

/-- The block behind the new one is charged with its time. -/
theorem entries_linkTmr {shm : TmrCbs} {l₁ l₂ : List TmrIdx} {tcb : TmrIdx}
    (hnd : (l₁ ++ l₂).Nodup) (hni : tcb ∉ l₁ ++ l₂)
    (hle : ∀ c, l₂.head? = some c →
      (shm.tcb tcb).timeleft.toNat ≤ (shm.tcb c).timeleft.toNat) :
    entries (linkTmr shm l₁.getLast? tcb l₂.head?) (l₁ ++ tcb :: l₂)
      = entries shm l₁ ++ (tcb, (shm.tcb tcb).timeleft.toNat) ::
          DeltaQueue.charge (shm.tcb tcb).timeleft.toNat (entries shm l₂) := by
  have hcur : l₂.head? ≠ some tcb := fun e =>
    hni (List.mem_append_right _ (List.mem_of_head? e))
  have keep : ∀ i, l₂.head? ≠ some i →
      ((linkTmr shm l₁.getLast? tcb l₂.head?).tcb i).timeleft = (shm.tcb i).timeleft := by
    intro i hi
    rw [linkTmr_tcb]
    simp [hi]
  obtain ⟨-, hnd₂, hdis⟩ := List.nodup_append.mp hnd
  rw [entries_append, entries_cons, keep tcb hcur,
    entries_congr fun i hi => keep i fun e => hdis i hi i (List.mem_of_head? e) rfl]
  congr 2
  cases l₂ with
  | nil => rfl
  | cons c r =>
    have hcr : c ∉ r := (List.nodup_cons.mp hnd₂).1
    have htime : ((linkTmr shm l₁.getLast? tcb (some c)).tcb c).timeleft.toNat
        = (shm.tcb c).timeleft.toNat - (shm.tcb tcb).timeleft.toNat := by
      rw [linkTmr_tcb]
      simp only [if_true]
      exact UInt32.toNat_sub_of_le _ _ (UInt32.le_iff_toNat_le.mpr (hle c rfl))
    have hrest : entries (linkTmr shm l₁.getLast? tcb (some c)) r = entries shm r := by
      refine entries_congr fun i hi => keep i fun e => ?_
      obtain rfl : c = i := by simpa using e
      exact hcr hi
    rw [entries_cons, entries_cons, DeltaQueue.charge, List.head?_cons, htime, hrest]

/-- **`insertTmr`**: the new block joins the list where its time puts it, and the caller is
told to wake the timer task exactly when the list was empty. -/
theorem insertTmr_spec {shm : TmrCbs} {l : List TmrIdx} (h : Linked shm l) {tcb : TmrIdx}
    (hni : tcb ∉ l) (hnext : (shm.tcb tcb).next = none) :
    ∃ shm' l₁ l₂, insertTmr shm tcb = some (shm', shm.tmrHdr.isNone) ∧
      Inserted shm shm' tcb l l₁ l₂ := by
  cases hh : shm.tmrHdr with
  | none =>
    have hl : l = [] := by
      have := h.head
      rw [hh] at this
      simpa using this.symm
    subst hl
    refine ⟨{ shm with tmrHdr := some tcb }, [], [], by simp [insertTmr, hh], rfl, ?_,
      SameTmr.refl shm, fun _ => rfl, fun _ _ _ => rfl, rfl, rfl⟩
    exact ⟨rfl, none, by simp [TmrCbs.link, hnext], rfl⟩
  | some hd =>
    obtain ⟨l₁, l₂, t, hl, hloop, hle, hins⟩ :=
      startLoop_spec l fuel shm none shm.tmrHdr h hni h.length_lt
    subst hl
    have hni₁ : tcb ∉ l₁ := fun e => hni (List.mem_append_left _ e)
    have hni₂ : tcb ∉ l₂ := fun e => hni (List.mem_append_right _ e)
    have hcur : l₂.head? ≠ some tcb := fun e => hni₂ (List.mem_of_head? e)
    have hents₁ := entries_setTimeleft shm t hni₁
    have hents₂ := entries_setTimeleft shm t hni₂
    have htcb := setTimeleft_timeleft shm tcb t
    have hother : ∀ i, i ≠ tcb → (setTimeleft shm tcb t).tcb i = shm.tcb i := fun i hi =>
      setTimeleft_of_ne shm t hi
    have hself : (setTimeleft shm tcb t).tcb tcb = { shm.tcb tcb with timeleft := t } := by
      simp [setTimeleft]
    generalize hshm1 : setTimeleft shm tcb t = shm1 at *
    have hle1 : ∀ c, l₂.head? = some c →
        (shm1.tcb tcb).timeleft.toNat ≤ (shm1.tcb c).timeleft.toNat := by
      intro c hc
      rw [htcb, hother c fun e => hcur (e ▸ hc)]
      exact hle c hc
    have hlinked1 : Linked shm1 (l₁ ++ l₂) := by
      refine h.of_same (fun i hi => ?_) ?_
      · rw [hother i fun e => hni (e ▸ hi)]
      · rw [← hshm1]
        rfl
    refine ⟨linkTmr shm1 l₁.getLast? tcb l₂.head?, l₁, l₂, ?_, rfl, linked_linkTmr hlinked1 hni,
      ?_, ?_, ?_, ?_, ?_⟩
    · rw [hh] at hloop
      simp [insertTmr, hh, hloop]
    · intro i
      rw [linkTmr_tcb]
      by_cases hi : i = tcb
      · subst hi
        simp [tmrOf, hself]
      · simp [tmrOf, hother i hi]
    · intro i
      rw [linkTmr_tcb]
      by_cases hi : i = tcb
      · subst hi
        simp [hself]
      · simp [hother i hi]
    · intro i hi hl
      rw [List.mem_append, not_or] at hl
      have hprev : l₁.getLast? ≠ some i := fun e => hl.1 (List.mem_of_getLast? e)
      have hhead : l₂.head? ≠ some i := fun e => hl.2 (List.mem_of_head? e)
      rw [linkTmr_tcb]
      simp [hprev, hhead, hi, hother i hi]
    · rw [linkTmr_wrapped hcur hle1, ← hshm1]
      rfl
    · rw [entries_linkTmr h.nodup hni hle1, htcb, hents₁, hents₂, hins]

/-- The timer `OSTMR_StartTmr` is asked for. -/
def StartArgs.tmr (a : StartArgs) : Tmr := ⟨a.que, some a.ccb, a.event.toUInt8, a.name⟩

/-- An event that fits its field is the event of the key. -/
theorem StartArgs.key_tmr (a : StartArgs) (hev : a.event ≤ 255) :
    a.tmr.key = (some a.ccb, a.event) := by
  have hround : a.event.toUInt8.toUInt16 = a.event := by
    apply UInt16.toNat_inj.mp
    have : a.event.toNat ≤ 255 := UInt16.le_iff_toNat_le.mp hev
    simp
    omega
  simp [Tmr.key, StartArgs.tmr, hround]

/-- What `fillTmr` writes is what a later reader of the block sees. -/
theorem fillTmr_spec (shm : TmrCbs) (a : StartArgs) (tcb : TmrIdx) :
    (fillTmr shm a tcb).tmrHdr = shm.tmrHdr ∧ (fillTmr shm a tcb).wrapped = shm.wrapped ∧
      (∀ i, i ≠ tcb → (fillTmr shm a tcb).tcb i = shm.tcb i) ∧
      tmrOf ((fillTmr shm a tcb).tcb tcb) = a.tmr ∧
      ((fillTmr shm a tcb).tcb tcb).timeleft = a.delay ∧
      ((fillTmr shm a tcb).tcb tcb).next = none ∧
      ((fillTmr shm a tcb).tcb tcb).idle = (shm.tcb tcb).idle := by
  refine ⟨rfl, rfl, fun i hi => ?_, ?_, ?_, ?_, ?_⟩
  · simp [fillTmr, hi]
  all_goals simp [fillTmr, tmrOf, StartArgs.tmr]

/-! ## 6. The tick -/

/-- The head of the list leaves it, is freed, and has its primitive sent. -/
structure Popped (shm shm' : TmrCbs) (a : TmrIdx) (l : List TmrIdx) : Prop where
  linked : Linked shm' l
  tcb : ∀ i, shm'.tcb i = { shm.tcb i with idle := (shm.tcb i).idle || decide (i = a) }
  wrapped : shm'.wrapped = shm.wrapped

theorem Popped.same {shm shm' : TmrCbs} {a : TmrIdx} {l : List TmrIdx}
    (h : Popped shm shm' a l) : SameTmr shm shm' := fun i => by rw [h.tcb]; rfl

theorem Popped.freed {shm shm' : TmrCbs} {a : TmrIdx} {l : List TmrIdx}
    (h : Popped shm shm' a l) (ha : a ∉ l) : Freed shm shm' (a :: l) l where
  linked := h.linked
  sub := List.sublist_cons_self a l
  same := h.same
  idle i := by
    rw [h.tcb]
    by_cases hi : i = a
    · subst hi; simp [ha]
    · simp [hi]
  frame i hi := by
    have hne : i ≠ a := fun e => hi (e ▸ List.mem_cons_self)
    rw [h.tcb]
    simp [hne]

theorem Popped.entries_eq {shm shm' : TmrCbs} {a : TmrIdx} {l : List TmrIdx}
    (h : Popped shm shm' a l) (r : List TmrIdx) : entries shm' r = entries shm r :=
  entries_congr fun i _ => by rw [h.tcb]

/-- **One round of the tick's loop.**  It is left when the list is empty or its head is due
later than `delta`; otherwise the head is popped, and its time taken off `delta`. -/
theorem tickPop_cases {shm : TmrCbs} {l : List TmrIdx} (h : Linked shm l) {δ : ℤ}
    (h0 : 0 ≤ δ) (h1 : δ ≤ sec) :
    (tickPop shm δ = none ∧ ∀ a, l.head? = some a → δ.toNat < (shm.tcb a).timeleft.toNat) ∨
      ∃ a l' shm', l = a :: l' ∧ (shm.tcb a).timeleft.toNat ≤ δ.toNat ∧
        tickPop shm δ = some (shm', δ - (shm.tcb a).timeleft.toNat, (shm.tcb a).que,
          primOf (shm.tcb a)) ∧ Popped shm shm' a l' := by
  have hδ : (u32OfInt δ).toNat = δ.toNat := u32OfInt_toNat h0 (by simp only [sec] at h1; omega)
  cases l with
  | nil =>
    have hh : shm.tmrHdr = none := h.head
    exact Or.inl ⟨by simp [tickPop, hh], by simp⟩
  | cons a l' =>
    have hh : shm.tmrHdr = some a := h.head
    by_cases hlt : (shm.tcb a).timeleft > u32OfInt δ
    · refine Or.inl ⟨by simp [tickPop, hh, hlt], ?_⟩
      rintro b hb
      obtain rfl : a = b := by simpa using hb
      rw [← hδ]
      exact UInt32.lt_iff_toNat_lt.mp hlt
    · have hle : (shm.tcb a).timeleft.toNat ≤ (u32OfInt δ).toNat :=
        Nat.not_lt.mp fun h => hlt (UInt32.lt_iff_toNat_lt.mpr h)
      have hsub : (u32OfInt δ - (shm.tcb a).timeleft).toNat
          = δ.toNat - (shm.tcb a).timeleft.toNat := by
        rw [UInt32.toNat_sub_of_le _ _ (UInt32.le_iff_toNat_le.mpr hle), hδ]
      have hleft : intOfU32 (u32OfInt δ - (shm.tcb a).timeleft)
          = δ - (shm.tcb a).timeleft.toNat := by
        rw [intOfU32_of_lt (by rw [hsub]; simp only [sec] at h1; omega), hsub]
        omega
      have hpos : ¬ δ - ((shm.tcb a).timeleft.toNat : ℤ) < 0 := by omega
      refine Or.inr ⟨a, l', ostmrFreeTmrCb { shm with tmrHdr := (shm.tcb a).next } a, rfl,
        by omega, ?_, ?_⟩
      · simp [tickPop, hh, hlt, hleft, hpos]
      · obtain ⟨-, q, hq, hrest⟩ := h
        have hnextq : (shm.tcb a).next = q := by simpa [TmrCbs.link] using hq
        refine ⟨?_, ?_, rfl⟩
        · unfold Linked
          rw [show (ostmrFreeTmrCb { shm with tmrHdr := (shm.tcb a).next } a).tmrHdr = q
            from hnextq]
          refine Seg.congr hrest fun i _ => ?_
          by_cases hi : i = a <;> simp [TmrCbs.link, ostmrFreeTmrCb, hi]
        · intro i
          by_cases hi : i = a <;> simp [ostmrFreeTmrCb, hi]

/-- **The last section of the tick.**  It writes the time of the head and nothing else, and
does not wrap when that is at least `delta`. -/
theorem tickFinal_spec {shm : TmrCbs} {l : List TmrIdx} (h : Linked shm l) {δ : ℤ}
    (h0 : 0 ≤ δ) (h1 : δ ≤ sec) :
    Freed shm (tickFinal shm δ) l l ∧
      ((∀ a, l.head? = some a → δ.toNat ≤ (shm.tcb a).timeleft.toNat) →
        (tickFinal shm δ).wrapped = shm.wrapped ∧
          entries (tickFinal shm δ) l = DeltaQueue.charge δ.toNat (entries shm l)) := by
  have hδ : (u32OfInt δ).toNat = δ.toNat := u32OfInt_toNat h0 (by simp only [sec] at h1; omega)
  cases l with
  | nil =>
    have hh : shm.tmrHdr = none := h.head
    have hsame : tickFinal shm δ = shm := by simp [tickFinal, hh]
    rw [hsame]
    exact ⟨(Removed.refl h).toFreed, fun _ => ⟨rfl, rfl⟩⟩
  | cons a l' =>
    have hh : shm.tmrHdr = some a := h.head
    simp only [tickFinal, hh]
    refine ⟨⟨h.of_same (fun i _ => ?_) rfl, List.Sublist.refl _, fun i => ?_, fun i => ?_,
      fun i hi => ?_⟩, fun hle => ?_⟩
    · by_cases hi : i = a <;> simp [TmrCbs.subTimeleft, hi]
    · by_cases hi : i = a <;> simp [TmrCbs.subTimeleft, hi, tmrOf]
    · rw [decide_eq_false fun e => e.2 e.1, Bool.or_false]
      by_cases hi : i = a <;> simp [TmrCbs.subTimeleft, hi]
    · have hne : i ≠ a := fun e => hi (e ▸ List.mem_cons_self)
      simp [TmrCbs.subTimeleft, hne]
    · have hle' : (u32OfInt δ).toNat ≤ (shm.tcb a).timeleft.toNat := by
        rw [hδ]; exact hle a rfl
      have ha : a ∉ l' := (List.nodup_cons.mp h.nodup).1
      rw [subTimeleft_of_le hle']
      refine ⟨rfl, ?_⟩
      rw [entries_cons, entries_cons, DeltaQueue.charge]
      have h1 : ((setTimeleft shm a ((shm.tcb a).timeleft - u32OfInt δ)).tcb a).timeleft.toNat
          = (shm.tcb a).timeleft.toNat - δ.toNat := by
        simp only [setTimeleft, modify_tcb, if_true]
        rw [UInt32.toNat_sub_of_le _ _ (UInt32.le_iff_toNat_le.mpr hle'), hδ]
      rw [h1, entries_congr fun i hi => ?_]
      have hi' : i ≠ a := fun e => ha (e ▸ hi)
      simp [setTimeleft, hi']

/-- **The tick's loop.**  It pops what `DeltaQueue.expire` fires, in order, and leaves a list
whose head is due later than what is left of `delta`. -/
theorem tickLoop_spec (l : List TmrIdx) (n : ℕ) (shm : TmrCbs) (δ : ℤ) (h : Linked shm l)
    (h0 : 0 ≤ δ) (h1 : δ ≤ sec) (hn : l.length < n) :
    ∃ shm' δ' f l', l = f ++ l' ∧ 0 ≤ δ' ∧ δ' ≤ δ ∧
      tickLoop n shm δ
        = some (shm', δ', f.map fun i => ((shm.tcb i).que, primOf (shm.tcb i))) ∧
      DeltaQueue.expire δ.toNat (entries shm l) = (f, δ'.toNat, entries shm l') ∧
      (∀ a, l'.head? = some a → δ'.toNat < (shm.tcb a).timeleft.toNat) ∧
      Linked shm' l' ∧ SameTmr shm shm' ∧
      (∀ i, (shm'.tcb i).timeleft = (shm.tcb i).timeleft) ∧
      (∀ i, (shm'.tcb i).idle = ((shm.tcb i).idle || decide (i ∈ f))) ∧
      shm'.wrapped = shm.wrapped := by
  induction n generalizing l shm δ with
  | zero => omega
  | succ m ih =>
    rcases tickPop_cases h h0 h1 with ⟨hpop, hlt⟩ | ⟨a, r, shm1, rfl, hle, hpop, hp⟩
    · refine ⟨shm, δ, [], l, rfl, h0, le_rfl, by simp [tickLoop, hpop], ?_, hlt, h,
        SameTmr.refl shm, fun _ => rfl, by simp, rfl⟩
      cases l with
      | nil => rfl
      | cons a r => simp [DeltaQueue.expire, hlt a rfl]
    · have htime1 : ∀ i, (shm1.tcb i).timeleft = (shm.tcb i).timeleft := fun i => by rw [hp.tcb]
      obtain ⟨shm', δ', f, l', hr, h0', hle', hloop, hexp, hhead, hlinked, hsame, htime, hidle,
        hwrap⟩ := ih r shm1 (δ - (shm.tcb a).timeleft.toNat) hp.linked
          (by omega) (by omega) (by simp at hn; omega)
      have hout : (f.map fun i => ((shm1.tcb i).que, primOf (shm1.tcb i)))
          = f.map fun i => ((shm.tcb i).que, primOf (shm.tcb i)) :=
        List.map_congr_left fun i _ => by rw [hp.same.que i, hp.same.primOf i]
      have hsub : (δ - ((shm.tcb a).timeleft.toNat : ℤ)).toNat
          = δ.toNat - (shm.tcb a).timeleft.toNat := by omega
      rw [hsub, hp.entries_eq, hp.entries_eq] at hexp
      refine ⟨shm', δ', a :: f, l', by rw [hr]; rfl, h0', by omega, ?_, ?_, ?_, hlinked,
        hp.same.trans hsame, fun i => (htime i).trans (htime1 i), fun i => ?_,
        hwrap.trans hp.wrapped⟩
      · simp [tickLoop, hpop, hloop, hout]
      · simp [DeltaQueue.expire, Nat.not_lt.mpr hle, hexp]
      · intro b hb
        rw [← htime1 b]
        exact hhead b hb
      · rw [hidle, hp.tcb]
        by_cases hi : i = a <;> simp [hi]

end Ofpagent.Timer
