/-
# The key of a timer

An application knows its timer by the `ccb` and the event it was started with: a second start
replaces it, `OSTMR_StopXtmr` removes it, `OSTMR_IsTmrExist` finds it, and the primitive sent
when it fires names them.  The event is a `U16` everywhere but in the control block, whose
field is a `U8`, and `OSTMR_StopXtmr` and `OSTMR_IsTmrExist` compare the field with the `U16`
they are given.  So a timer started with an event above 255 cannot be found, stopped or
replaced, and fires with another event: `event_256_twice`.

`started_once` says that up to 255 all five agree, in every run in which a key is started by
one process only and no signal interrupts the timer task in a `p`: a start that finds a free
control block inserts its timer, a key never has more than one block, and while its timer is in
the list it is found, can be stopped, and fires with its own event.
-/
import Ofpagent.Timer.Discipline

namespace Ofpagent.Timer

open Ofpagent.Lib
open scoped List

variable {ι : Type*}

/-! ## 1. The keys in the list -/

/-- The key a timer is started with. -/
def StartArgs.key (a : StartArgs) : Ptr × UInt16 := (some a.ccb, a.event)

/-- The keys of the timers in the list. -/
def keys (shm : TmrCbs) (l : List TmrIdx) : List (Ptr × UInt16) :=
  l.map fun i => (tmrOf (shm.tcb i)).key

theorem SameTmr.keys {shm shm' : TmrCbs} (h : SameTmr shm shm') (l : List TmrIdx) :
    keys shm' l = keys shm l :=
  List.map_congr_left fun i _ => by rw [h i]

theorem Freed.keys {shm shm' : TmrCbs} {l l' : List TmrIdx} (h : Freed shm shm' l l') :
    (keys shm' l').Sublist (keys shm l) := by
  rw [h.same.keys]
  exact h.sub.map _

/-- With unique keys, `OSTMR_StopXtmr` removes the timer with the key, and there is none left. -/
theorem Removed.key_notMem {shm shm' : TmrCbs} {l : List TmrIdx} (hnd : (keys shm l).Nodup)
    {ccb : Ptr} {event : UInt16}
    (h : Removed shm shm' l (l.eraseP (isXtmr shm ccb event))) :
    (ccb, event) ∉ keys shm' (l.eraseP (isXtmr shm ccb event)) := by
  rw [h.same.keys, isXtmr_eq, eraseP_eq_filter (fun i => (tmrOf (shm.tcb i)).key) _ hnd]
  simp [Timer.keys]

/-- What a body does to the keys: it takes some out, or puts the one of the new timer in. -/
theorem BodyEffect.keys {shm shm' : TmrCbs} {l l' : List TmrIdx} {sec : AppSec} {k : AppCont}
    (h : BodyEffect shm l sec shm' k l')
    (hins : ∀ a tcb, sec = .startInsert a tcb → Filled shm a tcb) :
    ((∀ a tcb, sec ≠ .startInsert a tcb) ∧ (keys shm' l').Sublist (keys shm l)) ∨
      ∃ a tcb, sec = .startInsert a tcb ∧ keys shm' l' ~ a.tmr.key :: keys shm l := by
  cases h with
  | startStop hr => exact Or.inl ⟨by simp, hr.keys⟩
  | full _ => exact Or.inl ⟨by simp, List.Sublist.refl _⟩
  | @malloc a tcb _ =>
    have hsame : SameTmr shm (shm.modify tcb fun c => { c with idle := false }) := by
      intro i
      by_cases hi : i = tcb <;> simp [hi, tmrOf]
    exact Or.inl ⟨by simp, by rw [hsame.keys]⟩
  | @insert a tcb _ l₁ l₂ hi =>
    refine Or.inr ⟨a, tcb, rfl, ?_⟩
    have htmr := (hins a tcb rfl).1
    rw [hi.same.keys, hi.split, Timer.keys, Timer.keys, ← htmr]
    exact (List.perm_middle.map fun i => (tmrOf (shm.tcb i)).key)
  | stopXtmr hr => exact Or.inl ⟨by simp, hr.keys⟩
  | stopTmrs hr => exact Or.inl ⟨by simp, hr.keys⟩
  | isTmrExist => exact Or.inl ⟨by simp, List.Sublist.refl _⟩

/-! ## 2. Starts under way -/

/-- The start a section belongs to, behind its stop. -/
def AppSec.stopped : AppSec → Option StartArgs
  | startMalloc a => some a
  | startInsert a _ => some a
  | _ => none

def AppCont.stopped : AppCont → Option StartArgs
  | malloc a => some a
  | fill a _ => some a
  | _ => none

/-- The start that has stopped the timer with its key, and not inserted its own yet. -/
def AppPc.stopped : AppPc → Option StartArgs
  | wait sec => sec.stopped
  | inside sec => sec.stopped
  | out k => k.stopped
  | fill a _ => some a
  | _ => none

/-- The start an application is in. -/
def AppPc.starting : AppPc → Option StartArgs
  | wait (.startStop a) => some a
  | inside (.startStop a) => some a
  | pc => pc.stopped

@[simp] theorem AppCont.resume_stopped (k : AppCont) : k.resume.stopped = k.stopped := by
  cases k <;> rfl

@[simp] theorem AppCont.resume_starting (k : AppCont) : k.resume.starting = k.stopped := by
  cases k <;> rfl

@[simp] theorem Call.sec_stopped (c : Call) : c.sec.stopped = none := by
  cases c <;> rfl

theorem AppPc.starting_of_stopped {pc : AppPc} {a : StartArgs} (h : pc.stopped = some a) :
    pc.starting = some a := by
  cases pc with
  | wait sec => cases sec <;> simp_all [stopped, starting, AppSec.stopped]
  | inside sec => cases sec <;> simp_all [stopped, starting, AppSec.stopped]
  | idle => simp [stopped] at h
  | kill => simp [stopped] at h
  | _ => exact h

variable [DecidableEq ι]

/-- The calls the keys are meant for: an event that fits its field, started by the process the
key belongs to. -/
def CallOk (own : Ptr × UInt16 → ι) (s : Sys ι) : Lab ι → Prop
  | .app i (.startTmr a) => s.app i = .idle → a.event ≤ 255 ∧ own a.key = i
  | _ => True

/-! ## 3. The invariant -/

/-- A key has one timer, and none while a start is replacing it. -/
structure Keyed (own : Ptr × UInt16 → ι) (s : Sys ι) (l : List TmrIdx) : Prop
    extends Good s l where
  nodup : (keys s.shm l).Nodup
  calls : ∀ i a, (s.app i).starting = some a → a.event ≤ 255 ∧ own a.key = i
  clear : ∀ i a, (s.app i).stopped = some a → a.key ∉ keys s.shm l

variable {own : Ptr × UInt16 → ι}

theorem Keyed.tmr {s s' : Sys ι} {l : List TmrIdx} {d : ℤ} (h : Keyed own s l)
    (hm : TmrMove s d s') : ∃ l', Keyed own s' l' := by
  obtain ⟨l', hgood⟩ := h.toGood.tmr hm
  have fewer : s'.app = s.app → (keys s'.shm l').Sublist (keys s.shm l) → ∃ l', Keyed own s' l' :=
    fun happ hsub => ⟨l', hgood, h.nodup.sublist hsub, happ ▸ h.calls,
      fun i a hi hmem => h.clear i a (happ ▸ hi) (hsub.subset hmem)⟩
  have quiet : s'.shm = s.shm → s'.app = s.app → ∃ l', Keyed own s' l' := fun hshm happ =>
    fewer happ (by rw [hgood.linked.unique (hshm ▸ h.linked), hshm])
  cases hm with
  | pop hpc hpop =>
    obtain ⟨a, r, -, -, -, -, -, -, hf⟩ := h.popped hpc hpop
    refine fewer rfl ?_
    rw [hgood.linked.unique hf.linked]
    exact hf.keys
  | final hpc =>
    have hf := h.freed_final hpc
    refine fewer rfl ?_
    rw [hgood.linked.unique hf.linked]
    exact hf.keys
  | _ => exact quiet rfl rfl

section Appl

variable {s s' : Sys ι} {l l' : List TmrIdx} {i : ι} {pc : AppPc}

/-- An application stays in its start, or leaves it, and no key is added. -/
theorem Keyed.of_sublist (h : Keyed own s l) (hgood : Good s' l')
    (happ : s'.app = Function.update s.app i pc)
    (hsub : (keys s'.shm l').Sublist (keys s.shm l))
    (hcalls : ∀ a, pc.starting = some a → a.event ≤ 255 ∧ own a.key = i)
    (hclear : ∀ a, pc.stopped = some a → a.key ∉ keys s'.shm l') : Keyed own s' l' := by
  refine ⟨hgood, h.nodup.sublist hsub, ?_, ?_⟩
  · intro j a hj
    rw [happ] at hj
    by_cases hji : j = i
    · rw [hji, Function.update_self] at hj
      exact hji ▸ hcalls a hj
    · rw [Function.update_of_ne hji] at hj
      exact h.calls j a hj
  · intro j a hj
    rw [happ] at hj
    by_cases hji : j = i
    · rw [hji, Function.update_self] at hj
      exact hclear a hj
    · rw [Function.update_of_ne hji] at hj
      exact fun hmem => h.clear j a hj (hsub.subset hmem)

/-- An application puts its key in: the key is not in the list, and no other start is replacing
it. -/
theorem Keyed.of_cons (h : Keyed own s l) (hgood : Good s' l')
    (happ : s'.app = Function.update s.app i pc) (hdone : pc.starting = none) {a : StartArgs}
    (hstop : (s.app i).stopped = some a) (hperm : keys s'.shm l' ~ a.key :: keys s.shm l) :
    Keyed own s' l' := by
  obtain ⟨-, hown⟩ := h.calls i a (AppPc.starting_of_stopped hstop)
  refine ⟨hgood, ?_, ?_, ?_⟩
  · exact hperm.nodup_iff.mpr (List.nodup_cons.mpr ⟨h.clear i a hstop, h.nodup⟩)
  · intro j b hj
    rw [happ] at hj
    by_cases hji : j = i
    · rw [hji, Function.update_self, hdone] at hj
      cases hj
    · rw [Function.update_of_ne hji] at hj
      exact h.calls j b hj
  · intro j b hj
    rw [happ] at hj
    by_cases hji : j = i
    · rw [hji, Function.update_self] at hj
      have hstart := AppPc.starting_of_stopped hj
      rw [hdone] at hstart
      cases hstart
    · rw [Function.update_of_ne hji] at hj
      refine fun hmem => (not_or.mpr ?_) (List.mem_cons.mp (hperm.mem_iff.mp hmem))
      refine ⟨fun hkey => hji ?_, h.clear j b hj⟩
      rw [← (h.calls j b (AppPc.starting_of_stopped hj)).2, hkey]
      exact hown

omit [DecidableEq ι] in
/-- A body that adds no key leaves the application in its start, with the key of the start out of
the list once it has been stopped. -/
theorem Keyed.body_quiet {sec : AppSec} {shm : TmrCbs} {k : AppCont} (h : Keyed own s l)
    (hpc : s.app i = .inside sec) (he : BodyEffect s.shm l sec shm k l')
    (hnot : ∀ a tcb, sec ≠ .startInsert a tcb) (hsub : (keys shm l').Sublist (keys s.shm l)) :
    (∀ a, (AppPc.out k).starting = some a → (s.app i).starting = some a) ∧
      ∀ a, (AppPc.out k).stopped = some a → a.key ∉ keys shm l' := by
  cases he with
  | startStop hr =>
    refine ⟨fun a ha => ?_, fun a ha => ?_⟩
    · rw [hpc]
      exact ha
    · cases ha
      exact hr.key_notMem h.nodup
  | malloc =>
    refine ⟨fun a ha => ?_, fun a ha hmem => ?_⟩
    · rw [hpc]
      exact ha
    · exact h.clear i a (by rw [hpc]; exact ha) (hsub.subset hmem)
  | insert => exact absurd rfl (hnot _ _)
  | full | stopXtmr | stopTmrs | isTmrExist =>
    constructor
    · intro a ha
      cases ha
    · intro a ha
      cases ha

theorem Keyed.appl {c : Call} (h : Keyed own s l) (hok : CallOk own s (.app i c))
    (hm : AppMove s i c s') : ∃ l', Keyed own s' l' := by
  obtain ⟨l', hgood⟩ := h.toGood.appl hm
  refine ⟨l', ?_⟩
  have same : s'.shm = s.shm → keys s'.shm l' = keys s.shm l := by
    intro hshm
    rw [hgood.linked.unique (hshm ▸ h.linked), hshm]
  have sub : keys s'.shm l' = keys s.shm l → (keys s'.shm l').Sublist (keys s.shm l) :=
    fun hkeys => by rw [hkeys]
  cases hm with
  | call hpc =>
    refine h.of_sublist hgood rfl (sub (same rfl)) (fun a ha => ?_) fun a ha => by
      simp [AppPc.stopped] at ha
    cases c with
    | startTmr b =>
      obtain rfl : b = a := by simpa [Call.sec, AppPc.starting] using ha
      exact hok hpc
    | _ => simp [Call.sec, AppPc.starting, AppPc.stopped, AppSec.stopped] at ha
  | @p sec k hpc _ =>
    refine h.of_sublist hgood rfl (sub (same rfl)) (fun a ha => h.calls i a ?_) fun a ha => ?_
    · rw [hpc]
      cases sec <;> exact ha
    · rw [same rfl]
      exact h.clear i a (by rw [hpc]; exact ha)
  | @v k hpc =>
    refine h.of_sublist hgood rfl (sub (same rfl)) (fun a ha => h.calls i a ?_) fun a ha => ?_
    · rw [AppCont.resume_starting] at ha
      rw [hpc]
      exact ha
    · rw [AppCont.resume_stopped] at ha
      rw [same rfl]
      exact h.clear i a (by rw [hpc]; exact ha)
  | kill hpc =>
    exact h.of_sublist hgood rfl (sub (same rfl)) (fun a ha => by cases ha) fun a ha => by cases ha
  | @fill b tcb hpc =>
    have hni : tcb ∉ l := (h.owned i tcb (by rw [hpc]; rfl)).1
    have hother := (fillTmr_spec s.shm b tcb).2.2.1
    have hl : l' = l := hgood.linked.unique (h.toPool.fill hpc).linked
    have hkeys : keys (fillTmr s.shm b tcb) l = keys s.shm l :=
      List.map_congr_left fun j hj => by rw [hother j fun e => hni (e ▸ hj)]
    subst hl
    refine h.of_sublist hgood rfl (sub hkeys) (fun a ha => h.calls i a ?_) fun a ha => ?_
    · rw [hpc]; exact ha
    · exact fun hmem => h.clear i a (by rw [hpc]; exact ha) (hkeys ▸ hmem)
  | @body sec shm k hpc hr =>
    obtain ⟨l₁, he⟩ := h.toPool.body_effect hpc hr
    have hl : l' = l₁ := hgood.linked.unique (h.toPool.body hpc he).linked
    subst hl
    rcases he.keys fun a tcb hsec => h.filled i a tcb (Or.inr (hsec ▸ hpc)) with
      ⟨hnot, hsub⟩ | ⟨a, tcb, rfl, hperm⟩
    · obtain ⟨hstarting, hclear⟩ := h.body_quiet hpc he hnot hsub
      exact h.of_sublist hgood rfl hsub (fun a ha => h.calls i a (hstarting a ha)) hclear
    · have hstop : (s.app i).stopped = some a := by rw [hpc]; rfl
      have hdone : (AppPc.out k).starting = none := by
        cases he
        split <;> rfl
      rw [a.key_tmr (h.calls i a (AppPc.starting_of_stopped hstop)).1] at hperm
      exact h.of_cons hgood rfl hdone hstop hperm

end Appl

theorem Keyed.step {s s' : Sys ι} {l : List TmrIdx} {lab : Lab ι} (h : Keyed own s l)
    (hne : lab ≠ .eintr) (hok : CallOk own s lab) (hs : s.step lab = some s') :
    ∃ l', Keyed own s' l' := by
  cases lab with
  | tmr d => exact h.tmr (Sys.osTmr_move hs)
  | app i c => exact h.appl hok (Sys.appl_move hs)
  | deliver =>
    obtain ⟨-, ⟨-, rfl⟩ | ⟨-, rfl⟩⟩ := Sys.deliver_cases hs
    · exact ⟨l, ⟨h.toPool, trivial⟩, h.nodup, h.calls, h.clear⟩
    · exact ⟨l, ⟨h.toPool, h.delta⟩, h.nodup, h.calls, h.clear⟩
  | eintr => exact absurd rfl hne

omit [DecidableEq ι] in
theorem keyed_start (shm : TmrCbs) : Keyed own (Sys.start shm) [] where
  toGood := good_start shm
  nodup := List.nodup_nil
  calls := by simp [Sys.start, AppPc.starting, AppPc.stopped]
  clear := by simp [Sys.start, AppPc.stopped]

/-! ## 4. Where the timers come from -/

/-- The step that inserts the block `tcb` for the start `a`. -/
def Inserts (t : Transition (Sys ι) (Lab ι)) (a : StartArgs) (tcb : TmrIdx) : Prop :=
  ∃ i c, t.lab = .app i c ∧ t.pre.app i = .inside (.startInsert a tcb)

/-- Every block of the list was there before, or is inserted. -/
theorem BodyEffect.members {shm shm' : TmrCbs} {l l' : List TmrIdx} {sec : AppSec} {k : AppCont}
    (h : BodyEffect shm l sec shm' k l')
    (hins : ∀ a tcb, sec = .startInsert a tcb → Filled shm a tcb) :
    ∀ tcb ∈ l', (tcb ∈ l ∧ tmrOf (shm'.tcb tcb) = tmrOf (shm.tcb tcb)) ∨
      ∃ a, sec = .startInsert a tcb ∧ tmrOf (shm'.tcb tcb) = a.tmr := by
  intro t ht
  cases h with
  | startStop hr => exact Or.inl ⟨hr.sub.subset ht, hr.same t⟩
  | full _ => exact Or.inl ⟨ht, rfl⟩
  | @malloc a tcb _ =>
    refine Or.inl ⟨ht, ?_⟩
    by_cases hi : t = tcb <;> simp [hi, tmrOf]
  | @insert a tcb _ l₁ l₂ hi =>
    rcases List.mem_append.mp ht with ht | ht
    · exact Or.inl ⟨hi.split ▸ List.mem_append_left _ ht, hi.same t⟩
    · rcases List.mem_cons.mp ht with rfl | ht
      · exact Or.inr ⟨a, rfl, (hi.same t).trans (hins a t rfl).1⟩
      · exact Or.inl ⟨hi.split ▸ List.mem_append_right _ ht, hi.same t⟩
  | stopXtmr hr => exact Or.inl ⟨hr.sub.subset ht, hr.same t⟩
  | stopTmrs hr => exact Or.inl ⟨hr.sub.subset ht, hr.same t⟩
  | isTmrExist => exact Or.inl ⟨ht, rfl⟩

theorem Good.members {s s' : Sys ι} {l l' : List TmrIdx} {lab : Lab ι} (h : Good s l)
    (hs : s.step lab = some s') (h' : Good s' l') :
    ∀ tcb ∈ l', (tcb ∈ l ∧ tmrOf (s'.shm.tcb tcb) = tmrOf (s.shm.tcb tcb)) ∨
      ∃ a, Inserts ⟨s, lab, s'⟩ a tcb ∧ tmrOf (s'.shm.tcb tcb) = a.tmr := by
  have quiet : s'.shm = s.shm → ∀ tcb ∈ l',
      (tcb ∈ l ∧ tmrOf (s'.shm.tcb tcb) = tmrOf (s.shm.tcb tcb)) ∨
        ∃ a, Inserts ⟨s, lab, s'⟩ a tcb ∧ tmrOf (s'.shm.tcb tcb) = a.tmr := by
    intro hshm tcb ht
    rw [h'.linked.unique (hshm ▸ h.linked)] at ht
    exact Or.inl ⟨ht, by rw [hshm]⟩
  have freed : ∀ r, Freed s.shm s'.shm l r → ∀ tcb ∈ l',
      (tcb ∈ l ∧ tmrOf (s'.shm.tcb tcb) = tmrOf (s.shm.tcb tcb)) ∨
        ∃ a, Inserts ⟨s, lab, s'⟩ a tcb ∧ tmrOf (s'.shm.tcb tcb) = a.tmr := by
    intro r hf tcb ht
    rw [h'.linked.unique hf.linked] at ht
    exact Or.inl ⟨hf.sub.subset ht, hf.same tcb⟩
  cases lab with
  | tmr d =>
    cases Sys.osTmr_move hs with
    | pop hpc hpop =>
      obtain ⟨a, r, -, -, -, -, -, -, hf⟩ := h.popped hpc hpop
      exact freed r hf
    | final hpc => exact freed l (h.freed_final hpc)
    | _ => exact quiet rfl
  | app i c =>
    cases Sys.appl_move hs with
    | @body sec shm k hpc hr =>
      obtain ⟨l₁, he⟩ := h.toPool.body_effect hpc hr
      rw [h'.linked.unique (h.toPool.body hpc he).linked]
      intro tcb ht
      refine (he.members (fun a tcb hsec => h.filled i a tcb (Or.inr (hsec ▸ hpc))) tcb ht).imp id ?_
      exact fun ⟨a, hsec, htmr⟩ => ⟨a, ⟨i, c, rfl, hsec ▸ hpc⟩, htmr⟩
    | @fill a tcb hpc =>
      have hni : tcb ∉ l := (h.owned i tcb (by rw [hpc]; rfl)).1
      have hother := (fillTmr_spec s.shm a tcb).2.2.1
      rw [h'.linked.unique (h.toPool.fill hpc).linked]
      exact fun t ht => Or.inl ⟨ht, congrArg tmrOf (hother t fun e => hni (e ▸ ht))⟩
    | _ => exact quiet rfl
  | deliver =>
    obtain ⟨-, ⟨-, rfl⟩ | ⟨-, rfl⟩⟩ := Sys.deliver_cases hs <;> exact quiet rfl
  | eintr =>
    obtain ⟨sec, -, rfl⟩ := Sys.eintr_cases hs
    exact quiet rfl

/-- Every timer in the list, and every primitive sent, is that of a start. -/
structure History (ts : List (Transition (Sys ι) (Lab ι))) (s : Sys ι) (l : List TmrIdx) :
    Prop where
  listed : ∀ tcb ∈ l, ∃ t ∈ ts, ∃ a, Inserts t a tcb ∧ tmrOf (s.shm.tcb tcb) = a.tmr
  sent : ∀ δ que prim, s.tmr = .out (.send δ que prim) ∨ s.tmr = .send δ que prim →
    ∃ t ∈ ts, ∃ a tcb, Inserts t a tcb ∧ que = a.que ∧
      prim = ⟨ipcEvTypeTmr, a.event.toUInt8, some a.ccb⟩

theorem History.step {ts : List (Transition (Sys ι) (Lab ι))} {s s' : Sys ι} {lab : Lab ι}
    {l l' : List TmrIdx} (hpre : History ts s l) (hl : Good s l) (hs : s.step lab = some s')
    (hl' : Good s' l') : History (ts ++ [⟨s, lab, s'⟩]) s' l' := by
  -- what a start of the run says of a timer, it says of it later
  have more : ∀ {P : Transition (Sys ι) (Lab ι) → Prop}, (∃ t ∈ ts, P t) →
      ∃ t ∈ ts ++ [⟨s, lab, s'⟩], P t := fun h =>
    h.imp fun _ => And.imp_left (List.mem_append_left _)
  refine ⟨?_, fun δ que prim hpc => ?_⟩
  · intro tcb ht
    rcases hl.members hs hl' tcb ht with ⟨ht, hsame⟩ | ⟨a, hins, htmr⟩
    · rw [hsame]
      exact more (hpre.listed tcb ht)
    · exact ⟨⟨s, lab, s'⟩, by simp, a, hins, htmr⟩
  · refine more ?_
    cases lab with
    | tmr d =>
      cases Sys.osTmr_move hs with
      | @pop delta shm left que' prim' hpc' hpop =>
        obtain ⟨a, r, rfl, -, -, hque, hprim, -, -⟩ := hl.popped hpc' hpop
        obtain ⟨-, rfl, rfl⟩ : _ = δ ∧ _ = que ∧ _ = prim := by simpa using hpc
        obtain ⟨t, ht, b, hins, htmr⟩ := hpre.listed a List.mem_cons_self
        simp only [tmrOf, StartArgs.tmr, Tmr.mk.injEq] at htmr
        refine ⟨t, ht, b, a, hins, hque.trans htmr.1, ?_⟩
        rw [hprim, primOf, htmr.2.1, htmr.2.2.1]
      | @v k hpc' =>
        refine hpre.sent δ que prim (Or.inl ?_)
        rw [hpc']
        cases k <;> simp_all [TmrCont.resume]
      | isEmpty _ =>
        simp only at hpc
        split at hpc <;> simp at hpc
      | _ => simp at hpc
    | app i c =>
      refine hpre.sent δ que prim ?_
      cases Sys.appl_move hs <;> exact hpc
    | deliver =>
      obtain ⟨-, ⟨-, rfl⟩ | ⟨-, rfl⟩⟩ := Sys.deliver_cases hs
      · simp at hpc
      · exact hpre.sent δ que prim hpc
    | eintr =>
      obtain ⟨sec, -, rfl⟩ := Sys.eintr_cases hs
      simp at hpc

/-- The application `i` inserts the block `tcb` for its start `a`. -/
def InsertsBy (i : ι) (t : Transition (Sys ι) (Lab ι)) (a : StartArgs) (tcb : TmrIdx) : Prop :=
  (∃ c, t.lab = .app i c) ∧ t.pre.app i = .inside (.startInsert a tcb)

/-- `OSTMR_MallocTmrCb` finds no block for the start `a` of the application `i`: none is idle. -/
def Refused (i : ι) (t : Transition (Sys ι) (Lab ι)) (a : StartArgs) : Prop :=
  (∃ c, t.lab = .app i c) ∧ t.pre.app i = .inside (.startMalloc a) ∧
    ∀ tcb, (t.pre.shm.tcb tcb).idle = false

/-- What has become of a start since: it is under way, was refused a block, or is in. -/
def Outcome (i : ι) (a : StartArgs) (vs : List (Transition (Sys ι) (Lab ι))) (s : Sys ι) : Prop :=
  (s.app i).starting = some a ∨ (∃ u ∈ vs, Refused i u a) ∨ ∃ u ∈ vs, ∃ tcb, InsertsBy i u a tcb

instance (pc : AppPc) : Decidable (pc = .idle) :=
  match pc with
  | .idle => isTrue rfl
  | .kill | .wait _ | .inside _ | .out _ | .fill .. => isFalse nofun

instance (s : Sys ι) : DecidablePred (CallOk own s) := fun l =>
  match l with
  | .app i (.startTmr a) =>
    inferInstanceAs (Decidable (s.app i = .idle → a.event ≤ 255 ∧ own a.key = i))
  | .app _ (.stopXtmr ..) | .app _ (.stopTmrs _) | .app _ (.isTmrExist ..) => isTrue trivial
  | .tmr _ | .deliver | .eintr => isTrue trivial

end Ofpagent.Timer
