/-
# The timer's lock and its pool, under every interleaving

Two invariants of `Timer.Tasks`, kept by every step but `Lab.eintr`:

* the semaphore guards the sections (`guards_step`), so they exclude each other, nobody waits
  for the semaphore while owing it, and the timer task owes nothing in `pause` and in the send;
* `Pool`: every control block is idle and not linked, or linked once, or in the hands of the
  one `OSTMR_StartTmr` that has allocated it and not inserted it yet.

`disciplined` puts them together for every run without that step, and `eintr_two_inside` is a
run with it in which two processes are inside at once.
-/
import Ofpagent.Timer.Tasks

namespace Ofpagent.Timer

open Ofpagent.Lib

variable {ι : Type*}

/-! ## 1. Who is inside, who waits, who may block -/

def TmrPc.Inside : TmrPc → Prop
  | inside _ => True
  | out _ => True
  | _ => False

def AppPc.Inside : AppPc → Prop
  | inside _ => True
  | out _ => True
  | _ => False

namespace Sys

/-- Between a `p` and its `v`. -/
def Inside (s : Sys ι) : Proc ι → Prop
  | .tmr => s.tmr.Inside
  | .app i => (s.app i).Inside

/-- In a `p`. -/
def Waiting (s : Sys ι) : Proc ι → Prop
  | .tmr => ∃ sec, s.tmr = .wait sec
  | .app i => ∃ sec, s.app i = .wait sec

/-- Where a process may block other than in a `p`: the timer task in `pause`, in `usleep` and
in the send to a queue; an application wherever it is between its calls. -/
def MayBlock (s : Sys ι) : Proc ι → Prop
  | .tmr => s.tmr = .pause ∨ s.tmr = .paused ∨ s.tmr = .usleep ∨
      ∃ delta que prim, s.tmr = .send delta que prim
  | .app i => s.app i = .idle

theorem Waiting.not_inside {s : Sys ι} {q : Proc ι} (h : s.Waiting q) : ¬ s.Inside q := by
  cases q <;> obtain ⟨sec, h⟩ := h <;> simp [Inside, h, TmrPc.Inside, AppPc.Inside]

theorem MayBlock.not_inside {s : Sys ι} {q : Proc ι} (h : s.MayBlock q) : ¬ s.Inside q := by
  cases q with
  | tmr => rcases h with h | h | h | ⟨_, _, _, h⟩ <;> simp [Inside, h, TmrPc.Inside]
  | app i => simp [Inside, show s.app i = .idle from h, AppPc.Inside]

end Sys

@[simp] theorem TmrCont.resume_not_inside (k : TmrCont) : ¬ k.resume.Inside := by
  cases k <;> simp [TmrCont.resume, TmrPc.Inside]

@[simp] theorem AppCont.resume_not_inside (k : AppCont) : ¬ k.resume.Inside := by
  cases k <;> simp [AppCont.resume, AppPc.Inside]

/-! ## 2. The semaphore guards the sections -/

variable [DecidableEq ι]

theorem guards_tmr {s s' : Sys ι} {d : ℤ} (h : s.sem.Guards s.Inside) (hm : TmrMove s d s') :
    s'.sem.Guards s'.Inside := by
  cases hm with
  | p hpc hk => exact h.p hk fun r => by cases r <;> simp [Sys.Inside, TmrPc.Inside, hpc]
  | v hpc =>
    refine h.v (q := .tmr) (by simp [Sys.Inside, TmrPc.Inside, hpc]) fun r => ?_
    cases r <;> simp [Sys.Inside]
  | isEmpty hpc => exact h.congr fun r => by cases r <;> simp [Sys.Inside, TmrPc.Inside, hpc]
  | retake hpc => exact h.congr fun r => by cases r <;> simp [Sys.Inside, TmrPc.Inside, hpc]
  | left hpc _ => exact h.congr fun r => by cases r <;> simp [Sys.Inside, TmrPc.Inside, hpc]
  | pop hpc _ => exact h.congr fun r => by cases r <;> simp [Sys.Inside, TmrPc.Inside, hpc]
  | final hpc => exact h.congr fun r => by cases r <;> simp [Sys.Inside, TmrPc.Inside, hpc]
  | pause hpc => exact h.congr fun r => by cases r <;> simp [Sys.Inside, TmrPc.Inside, hpc]
  | usleep hpc => exact h.congr fun r => by cases r <;> simp [Sys.Inside, TmrPc.Inside, hpc]
  | send hpc => exact h.congr fun r => by cases r <;> simp [Sys.Inside, TmrPc.Inside, hpc]

theorem inside_setApp (s : Sys ι) (i : ι) (pc : AppPc) (r : Proc ι) :
    (s.setApp i pc).Inside r ↔ (r = .app i ∧ pc.Inside) ∨ (r ≠ .app i ∧ s.Inside r) := by
  cases r with
  | tmr => simp [Sys.Inside, Sys.setApp]
  | app j => by_cases hj : j = i <;> simp [Sys.Inside, Sys.setApp, Function.update, hj]

theorem guards_app {s s' : Sys ι} {i : ι} {c : Call} (h : s.sem.Guards s.Inside)
    (hm : AppMove s i c s') : s'.sem.Guards s'.Inside := by
  have same : ∀ (t : Sys ι) (pc : AppPc), t.sem = s.sem → t.tmr = s.tmr → t.app = s.app →
      (pc.Inside ↔ (s.app i).Inside) → (t.setApp i pc).sem.Guards (t.setApp i pc).Inside := by
    intro t pc hsem htmr happ hpc
    have ht : ∀ r, t.Inside r ↔ s.Inside r := fun r => by cases r <;> simp [Sys.Inside, htmr, happ]
    refine (hsem ▸ h.congr fun r => ?_ : t.sem.Guards (t.setApp i pc).Inside)
    rw [inside_setApp, ht]
    by_cases hr : r = .app i
    · subst hr; simp [hpc, Sys.Inside]
    · simp [hr]
  cases hm with
  | call hpc => exact same s _ rfl rfl rfl (by simp [AppPc.Inside, hpc])
  | body hpc _ => exact same _ _ rfl rfl rfl (by simp [AppPc.Inside, hpc])
  | fill hpc => exact same _ _ rfl rfl rfl (by simp [AppPc.Inside, hpc])
  | kill hpc => exact same _ _ rfl rfl rfl (by simp [AppPc.Inside, hpc])
  | p hpc hk =>
    refine h.p hk fun r => ?_
    rw [inside_setApp]
    by_cases hr : r = .app i
    · simp [hr, AppPc.Inside]
    · cases r <;> simp [hr, Sys.Inside]
  | v hpc =>
    refine h.v (q := .app i) (by simp [Sys.Inside, AppPc.Inside, hpc]) fun r => ?_
    rw [inside_setApp]
    cases r <;> simp [Sys.Inside, and_comm]

/-- **The lock.**  Every step but the interrupted `p` keeps it. -/
theorem guards_step {s s' : Sys ι} {l : Lab ι} (h : s.sem.Guards s.Inside)
    (hs : s.step l = some s') (hl : l ≠ .eintr) : s'.sem.Guards s'.Inside := by
  cases l with
  | tmr d => exact guards_tmr h (Sys.osTmr_move hs)
  | app i c => exact guards_app h (Sys.appl_move hs)
  | deliver =>
    obtain ⟨-, ⟨hpc, rfl⟩ | ⟨-, rfl⟩⟩ := Sys.deliver_cases hs
    · exact h.congr fun r => by cases r <;> simp [Sys.Inside, TmrPc.Inside, hpc]
    · exact h
  | eintr => exact absurd rfl hl

/-! ## 3. The pool -/

/-- The block a section works on without finding it in the list. -/
def AppSec.owns : AppSec → Option TmrIdx
  | startInsert _ tcb => some tcb
  | _ => none

def AppCont.owns : AppCont → Option TmrIdx
  | fill _ tcb => some tcb
  | _ => none

/-- The block an `OSTMR_StartTmr` has allocated and not inserted yet. -/
def AppPc.owns : AppPc → Option TmrIdx
  | wait sec => sec.owns
  | inside sec => sec.owns
  | out k => k.owns
  | fill _ tcb => some tcb
  | _ => none

@[simp] theorem AppCont.resume_owns (k : AppCont) : k.resume.owns = k.owns := by
  cases k <;> rfl

@[simp] theorem Call.sec_owns (c : Call) : c.sec.owns = none := by
  cases c <;> rfl

/-- At the section that inserts the block, which has been filled. -/
def AppPc.AtInsert (pc : AppPc) (a : StartArgs) (tcb : TmrIdx) : Prop :=
  pc = .wait (.startInsert a tcb) ∨ pc = .inside (.startInsert a tcb)

theorem AppPc.AtInsert.owns {pc : AppPc} {a : StartArgs} {tcb : TmrIdx}
    (h : pc.AtInsert a tcb) : pc.owns = some tcb := by
  rcases h with rfl | rfl <;> rfl

/-- The block holds what the start was asked for. -/
def Filled (shm : TmrCbs) (a : StartArgs) (tcb : TmrIdx) : Prop :=
  tmrOf (shm.tcb tcb) = a.tmr ∧ (shm.tcb tcb).timeleft = a.delay ∧ (shm.tcb tcb).next = none

/-- Where the control blocks are: the list is `l`, and the applications are at `app`. -/
structure Pool (shm : TmrCbs) (app : ι → AppPc) (l : List TmrIdx) : Prop where
  linked : Linked shm l
  live : ∀ tcb ∈ l, (shm.tcb tcb).idle = false
  owned : ∀ i tcb, (app i).owns = some tcb → tcb ∉ l ∧ (shm.tcb tcb).idle = false
  owner : ∀ i j tcb, (app i).owns = some tcb → (app j).owns = some tcb → i = j
  used : ∀ tcb, (shm.tcb tcb).idle = false → tcb ∈ l ∨ ∃ i, (app i).owns = some tcb
  filled : ∀ i a tcb, (app i).AtInsert a tcb → Filled shm a tcb

namespace Pool

variable {shm shm' : TmrCbs} {app : ι → AppPc} {l l' : List TmrIdx} {i : ι}

/-- An application moves on and keeps what it owns. -/
theorem setPc (h : Pool shm app l) {pc : AppPc} (ho : pc.owns = (app i).owns)
    (hi : ∀ a tcb, pc.AtInsert a tcb → (app i).AtInsert a tcb) :
    Pool shm (Function.update app i pc) l := by
  have howns : ∀ j, (Function.update app i pc j).owns = (app j).owns := by
    intro j
    by_cases hj : j = i
    · subst hj; simp [ho]
    · simp [hj]
  refine ⟨h.linked, h.live, ?_, ?_, ?_, ?_⟩
  · intro j tcb
    rw [howns]; exact h.owned j tcb
  · intro j j' tcb
    rw [howns, howns]; exact h.owner j j' tcb
  · intro tcb
    simp only [howns]; exact h.used tcb
  · intro j a tcb hj
    by_cases hji : j = i
    · subst hji
      rw [Function.update_self] at hj
      exact h.filled j a tcb (hi a tcb hj)
    · rw [Function.update_of_ne hji] at hj
      exact h.filled j a tcb hj

omit [DecidableEq ι] in
/-- Blocks leave the list. -/
theorem freed (h : Pool shm app l) (hf : Freed shm shm' l l') : Pool shm' app l' := by
  have hkeep : ∀ j tcb, (app j).owns = some tcb → shm'.tcb tcb = shm.tcb tcb := fun j tcb hj =>
    hf.frame tcb (h.owned j tcb hj).1
  refine ⟨hf.linked, ?_, ?_, h.owner, ?_, ?_⟩
  · intro tcb ht
    rw [hf.idle, h.live tcb (hf.sub.subset ht)]
    simp [ht]
  · intro j tcb hj
    obtain ⟨hn, hi⟩ := h.owned j tcb hj
    exact ⟨fun e => hn (hf.sub.subset e), by rw [hkeep j tcb hj]; exact hi⟩
  · intro tcb ht
    rw [hf.idle, Bool.or_eq_false_iff, decide_eq_false_iff_not, not_and, not_not] at ht
    exact (h.used tcb ht.1).imp ht.2 id
  · intro j a tcb hj
    have := h.filled j a tcb hj
    rwa [Filled, hkeep j tcb hj.owns]

/-- The block an application is about to be handed. -/
theorem malloc (h : Pool shm app l) {tcb : TmrIdx} (hidle : (shm.tcb tcb).idle = true)
    (hno : (app i).owns = none) (a : StartArgs) :
    Pool (shm.modify tcb fun c => { c with idle := false })
      (Function.update app i (.out (.fill a tcb))) l := by
  have hni : tcb ∉ l := fun e => by simp [h.live tcb e] at hidle
  have hnobody : ∀ j, (app j).owns ≠ some tcb := by
    intro j e
    simp [(h.owned j tcb e).2] at hidle
  have hlinked : Linked (shm.modify tcb fun c => { c with idle := false }) l :=
    h.linked.of_same (fun j _ => by by_cases hj : j = tcb <;> simp [hj]) rfl
  refine ⟨hlinked, ?_, ?_, ?_, ?_, ?_⟩
  · intro j hj
    have hne : j ≠ tcb := fun e => hni (e ▸ hj)
    simpa [hne] using h.live j hj
  · intro j t hj
    by_cases hji : j = i
    · obtain rfl : tcb = t := by simpa [hji, AppPc.owns, AppCont.owns] using hj
      exact ⟨hni, by simp⟩
    · rw [Function.update_of_ne hji] at hj
      obtain ⟨h1, h2⟩ := h.owned j t hj
      exact ⟨h1, by by_cases ht : t = tcb <;> simp [ht, h2]⟩
  · intro j j' t hj hj'
    by_cases hji : j = i <;> by_cases hji' : j' = i
    · rw [hji, hji']
    · obtain rfl : tcb = t := by simpa [hji, AppPc.owns, AppCont.owns] using hj
      rw [Function.update_of_ne hji'] at hj'
      exact absurd hj' (hnobody j')
    · obtain rfl : tcb = t := by simpa [hji', AppPc.owns, AppCont.owns] using hj'
      rw [Function.update_of_ne hji] at hj
      exact absurd hj (hnobody j)
    · rw [Function.update_of_ne hji] at hj
      rw [Function.update_of_ne hji'] at hj'
      exact h.owner j j' t hj hj'
  · intro t ht
    by_cases htt : t = tcb
    · exact Or.inr ⟨i, by simp [AppPc.owns, AppCont.owns, htt]⟩
    · rw [modify_tcb, if_neg htt] at ht
      refine (h.used t ht).imp id fun ⟨j, hj⟩ => ⟨j, ?_⟩
      have hji : j ≠ i := fun e => by simp [e, hno] at hj
      rwa [Function.update_of_ne hji]
  · intro j b t hj
    have hji : j ≠ i := fun e => by simp [e, AppPc.AtInsert] at hj
    rw [Function.update_of_ne hji] at hj
    have hne : t ≠ tcb := fun e => hnobody j (e ▸ hj.owns)
    simpa [Filled, hne] using h.filled j b t hj

/-- The owner fills its block. -/
theorem fill (h : Pool shm app l) {a : StartArgs} {tcb : TmrIdx} (hpc : app i = .fill a tcb) :
    Pool (fillTmr shm a tcb) (Function.update app i (.wait (.startInsert a tcb))) l := by
  have hown : (app i).owns = some tcb := by rw [hpc]; rfl
  obtain ⟨hni, hidle⟩ := h.owned i tcb hown
  obtain ⟨hhdr, -, hother, htmr, htime, hnext, hfree⟩ := fillTmr_spec shm a tcb
  have hothers : ∀ j t, j ≠ i → (app j).owns = some t → t ≠ tcb := fun j t hji hj e =>
    hji (h.owner j i tcb (e ▸ hj) hown)
  have hidles : ∀ t, ((fillTmr shm a tcb).tcb t).idle = (shm.tcb t).idle := by
    intro t
    by_cases ht : t = tcb
    · rw [ht, hfree]
    · rw [hother t ht]
  have howns : ∀ j, (Function.update app i (AppPc.wait (.startInsert a tcb)) j).owns
      = (app j).owns := by
    intro j
    by_cases hj : j = i
    · subst hj; simp [hpc, AppPc.owns, AppSec.owns]
    · simp [hj]
  refine ⟨?_, ?_, ?_, ?_, ?_, ?_⟩
  · exact h.linked.of_same (fun t ht => by rw [hother t fun e => hni (e ▸ ht)]) hhdr
  · intro t ht
    rw [hidles]; exact h.live t ht
  · intro j t
    rw [howns, hidles]; exact h.owned j t
  · intro j j' t
    rw [howns, howns]; exact h.owner j j' t
  · intro t ht
    simp only [howns]
    exact h.used t (hidles t ▸ ht)
  · intro j b t hj
    by_cases hji : j = i
    · rw [hji, Function.update_self] at hj
      obtain ⟨rfl, rfl⟩ : a = b ∧ tcb = t := by simpa [AppPc.AtInsert] using hj
      exact ⟨htmr, htime, hnext⟩
    · rw [Function.update_of_ne hji] at hj
      rw [Filled, hother t (hothers j t hji hj.owns)]
      exact h.filled j b t hj

/-- The owner's block joins the list. -/
theorem insert (h : Pool shm app l) {tcb : TmrIdx} {l₁ l₂ : List TmrIdx} {pc : AppPc}
    (hown : (app i).owns = some tcb) (hi : Inserted shm shm' tcb l l₁ l₂) (ho : pc.owns = none)
    (hno : ∀ a t, ¬ pc.AtInsert a t) :
    Pool shm' (Function.update app i pc) (l₁ ++ tcb :: l₂) := by
  have hmem : ∀ t, t ∈ l₁ ++ tcb :: l₂ ↔ t = tcb ∨ t ∈ l := by
    intro t
    rw [hi.split]; simp only [List.mem_append, List.mem_cons]; tauto
  have hothers : ∀ j t, j ≠ i → (app j).owns = some t → t ≠ tcb := fun j t hji hj e =>
    hji (h.owner j i tcb (e ▸ hj) hown)
  have hback : ∀ j t, (Function.update app i pc j).owns = some t →
      j ≠ i ∧ (app j).owns = some t := by
    intro j t hj
    have hji : j ≠ i := fun e => by simp [e, ho] at hj
    exact ⟨hji, by rwa [Function.update_of_ne hji] at hj⟩
  refine ⟨hi.linked, ?_, ?_, ?_, ?_, ?_⟩
  · intro t ht
    rw [hi.idle]
    rcases (hmem t).mp ht with rfl | ht
    · exact (h.owned i t hown).2
    · exact h.live t ht
  · intro j t hj
    obtain ⟨hji, hj⟩ := hback j t hj
    obtain ⟨h1, h2⟩ := h.owned j t hj
    rw [hmem, hi.idle]
    exact ⟨fun e => e.elim (hothers j t hji hj) h1, h2⟩
  · intro j j' t hj hj'
    exact h.owner j j' t (hback j t hj).2 (hback j' t hj').2
  · intro t ht
    rw [hi.idle] at ht
    rw [hmem]
    rcases h.used t ht with hl | ⟨j, hj⟩
    · exact Or.inl (Or.inr hl)
    · by_cases hji : j = i
      · have hsame : some t = some tcb := by rw [← hj, hji, hown]
        exact Or.inl (Or.inl (Option.some.inj hsame))
      · exact Or.inr ⟨j, by rwa [Function.update_of_ne hji]⟩
  · intro j b t hj
    have hji : j ≠ i := fun e => hno b t (by rwa [e, Function.update_self] at hj)
    rw [Function.update_of_ne hji] at hj
    rw [Filled, hi.frame t (hothers j t hji hj.owns) (h.owned j t hj.owns).1]
    exact h.filled j b t hj

end Pool

/-! ## 4. What the sections do to the pool -/

/-- The times `os_tmr` works with are between 0 and a second. -/
def TmrSec.DeltaOk : TmrSec → Prop
  | pop delta => 0 ≤ delta ∧ delta ≤ sec
  | final delta => 0 ≤ delta ∧ delta ≤ sec
  | _ => True

def TmrCont.DeltaOk : TmrCont → Prop
  | send delta _ _ => 0 ≤ delta ∧ delta ≤ sec
  | final delta => 0 ≤ delta ∧ delta ≤ sec
  | _ => True

def TmrPc.DeltaOk : TmrPc → Prop
  | wait s => s.DeltaOk
  | inside s => s.DeltaOk
  | out k => k.DeltaOk
  | send delta _ _ => 0 ≤ delta ∧ delta ≤ sec
  | _ => True

/-- What holds of the memory and the program points in every state. -/
structure Good (s : Sys ι) (l : List TmrIdx) : Prop extends Pool s.shm s.app l where
  delta : s.tmr.DeltaOk

/-- What a body does to the list, and what its application owns behind it. -/
inductive BodyEffect (shm : TmrCbs) (l : List TmrIdx) :
    AppSec → TmrCbs → AppCont → List TmrIdx → Prop
  | startStop {a shm'} : Removed shm shm' l (l.eraseP (isXtmr shm (some a.ccb) a.event)) →
      BodyEffect shm l (.startStop a) shm' (.malloc a)
        (l.eraseP (isXtmr shm (some a.ccb) a.event))
  | full {a} : (∀ tcb, (shm.tcb tcb).idle = false) → BodyEffect shm l (.startMalloc a) shm .ret l
  | malloc {a tcb} : (shm.tcb tcb).idle = true →
      BodyEffect shm l (.startMalloc a) (shm.modify tcb fun c => { c with idle := false })
        (.fill a tcb) l
  | insert {a tcb shm' l₁ l₂} : Inserted shm shm' tcb l l₁ l₂ →
      BodyEffect shm l (.startInsert a tcb) shm' (if shm.tmrHdr.isNone then .kill else .ret)
        (l₁ ++ tcb :: l₂)
  | stopXtmr {ccb event shm'} : Removed shm shm' l (l.eraseP (isXtmr shm ccb event)) →
      BodyEffect shm l (.stopXtmr ccb event) shm' .ret (l.eraseP (isXtmr shm ccb event))
  | stopTmrs {ccb shm'} : Removed shm shm' l (l.filter fun i => decide ((shm.tcb i).ccb ≠ ccb)) →
      BodyEffect shm l (.stopTmrs ccb) shm' .ret
        (l.filter fun i => decide ((shm.tcb i).ccb ≠ ccb))
  | isTmrExist {ccb event} : BodyEffect shm l (.isTmrExist ccb event) shm .ret l

/-- Every body is defined on a linked memory, and has one of these effects. -/
theorem body_effect {shm : TmrCbs} {l : List TmrIdx} (h : Linked shm l) (sec : AppSec)
    (hins : ∀ a tcb, sec = .startInsert a tcb → tcb ∉ l ∧ (shm.tcb tcb).next = none) :
    ∃ shm' k l', sec.run shm = some (shm', k) ∧ BodyEffect shm l sec shm' k l' := by
  cases sec with
  | startStop a =>
    obtain ⟨shm', hs, hr⟩ := ostmrStopXtmr_spec h (some a.ccb) a.event
    exact ⟨shm', _, _, by simp [AppSec.run, hs], .startStop hr⟩
  | startMalloc a =>
    rcases ostmrMallocTmrCb_cases shm with ⟨hm, hfull⟩ | ⟨tcb, hm, hidle⟩
    · exact ⟨shm, _, _, by simp [AppSec.run, hm, AppCont.afterMalloc], .full hfull⟩
    · exact ⟨_, _, _, by simp [AppSec.run, hm, AppCont.afterMalloc], .malloc hidle⟩
  | startInsert a tcb =>
    obtain ⟨hni, hnext⟩ := hins a tcb rfl
    obtain ⟨shm', l₁, l₂, hs, hi⟩ := insertTmr_spec h hni hnext
    exact ⟨shm', _, _, by simp [AppSec.run, hs], .insert hi⟩
  | stopXtmr ccb event =>
    obtain ⟨shm', hs, hr⟩ := ostmrStopXtmr_spec h ccb event
    exact ⟨shm', _, _, by simp [AppSec.run, hs], .stopXtmr hr⟩
  | stopTmrs ccb =>
    obtain ⟨shm', hs, hr⟩ := ostmrStopTmrs_spec h ccb
    exact ⟨shm', _, _, by simp [AppSec.run, hs], .stopTmrs hr⟩
  | isTmrExist ccb event =>
    exact ⟨shm, _, _, by simp [AppSec.run, ostmrIsTmrExist_spec h], .isTmrExist⟩

omit [DecidableEq ι] in
/-- The effect of the body an application is inside of. -/
theorem Pool.body_effect {shm shm' : TmrCbs} {app : ι → AppPc} {l : List TmrIdx} {i : ι}
    {sec : AppSec} {k : AppCont} (h : Pool shm app l) (hpc : app i = .inside sec)
    (hr : sec.run shm = some (shm', k)) : ∃ l', BodyEffect shm l sec shm' k l' := by
  obtain ⟨shm₂, k₂, l', hr₂, he⟩ := Timer.body_effect h.linked sec fun a tcb hsec => by
    have hat : (app i).AtInsert a tcb := Or.inr (hsec ▸ hpc)
    exact ⟨(h.owned i tcb hat.owns).1, (h.filled i a tcb hat).2.2⟩
  obtain ⟨rfl, rfl⟩ : shm₂ = shm' ∧ k₂ = k := by simpa using hr₂.symm.trans hr
  exact ⟨l', he⟩

theorem Pool.body {shm shm' : TmrCbs} {app : ι → AppPc} {l l' : List TmrIdx} {i : ι}
    {sec : AppSec} {k : AppCont} (h : Pool shm app l) (hpc : app i = .inside sec)
    (he : BodyEffect shm l sec shm' k l') : Pool shm' (Function.update app i (.out k)) l' := by
  have hown : (app i).owns = sec.owns := by rw [hpc]; rfl
  cases he with
  | startStop hr => exact (h.freed hr.toFreed).setPc (by rw [hown]; rfl) (by simp [AppPc.AtInsert])
  | full _ => exact h.setPc (by rw [hown]; rfl) (by simp [AppPc.AtInsert])
  | malloc hidle => exact h.malloc hidle (by rw [hown]; rfl) _
  | insert hi =>
    refine h.insert (by rw [hown]; rfl) hi ?_ (by simp [AppPc.AtInsert])
    split <;> rfl
  | stopXtmr hr => exact (h.freed hr.toFreed).setPc (by rw [hown]; rfl) (by simp [AppPc.AtInsert])
  | stopTmrs hr => exact (h.freed hr.toFreed).setPc (by rw [hown]; rfl) (by simp [AppPc.AtInsert])
  | isTmrExist => exact h.setPc (by rw [hown]; rfl) (by simp [AppPc.AtInsert])

/-! ## 5. Every step keeps the pool -/

theorem TmrCont.resume_deltaOk (k : TmrCont) : k.resume.DeltaOk ↔ k.DeltaOk := by
  cases k <;> simp [TmrCont.resume, TmrPc.DeltaOk, TmrCont.DeltaOk, TmrSec.DeltaOk]

omit [DecidableEq ι] in
theorem Good.delta_pop {s : Sys ι} {l : List TmrIdx} {δ : ℤ} (h : Good s l)
    (hpc : s.tmr = .inside (.pop δ)) : 0 ≤ δ ∧ δ ≤ sec := by
  simpa [hpc, TmrPc.DeltaOk, TmrSec.DeltaOk] using h.delta

omit [DecidableEq ι] in
theorem Good.delta_final {s : Sys ι} {l : List TmrIdx} {δ : ℤ} (h : Good s l)
    (hpc : s.tmr = .inside (.final δ)) : 0 ≤ δ ∧ δ ≤ sec := by
  simpa [hpc, TmrPc.DeltaOk, TmrSec.DeltaOk] using h.delta

omit [DecidableEq ι] in
/-- What a round of the tick's loop that fires a timer does to the list. -/
theorem Good.popped {s : Sys ι} {l : List TmrIdx} {δ left : ℤ} {shm : TmrCbs} {que : IpcId}
    {prim : IpcPrim} (h : Good s l) (hpc : s.tmr = .inside (.pop δ))
    (hpop : tickPop s.shm δ = some (shm, left, que, prim)) :
    ∃ a r, l = a :: r ∧ (s.shm.tcb a).timeleft.toNat ≤ δ.toNat ∧
      left = δ - (s.shm.tcb a).timeleft.toNat ∧ que = (s.shm.tcb a).que ∧
      prim = primOf (s.shm.tcb a) ∧ Popped s.shm shm a r ∧ Freed s.shm shm l r := by
  obtain ⟨h0, h1⟩ := h.delta_pop hpc
  rcases tickPop_cases h.linked h0 h1 with ⟨hno, -⟩ | ⟨a, r, shm1, rfl, hle, hyes, hp⟩
  · rw [hno] at hpop
    cases hpop
  · rw [hyes] at hpop
    cases hpop
    exact ⟨a, r, rfl, hle, rfl, rfl, rfl, hp, hp.freed (List.nodup_cons.mp h.linked.nodup).1⟩

omit [DecidableEq ι] in
/-- The last section of the tick frees nothing. -/
theorem Good.freed_final {s : Sys ι} {l : List TmrIdx} {δ : ℤ} (h : Good s l)
    (hpc : s.tmr = .inside (.final δ)) : Freed s.shm (tickFinal s.shm δ) l l := by
  obtain ⟨h0, h1⟩ := h.delta_final hpc
  exact (tickFinal_spec h.linked h0 h1).1

theorem Good.tmr {s s' : Sys ι} {l : List TmrIdx} {d : ℤ} (h : Good s l) (hm : TmrMove s d s') :
    ∃ l', Good s' l' := by
  have hδ := h.delta
  cases hm with
  | p hpc _ => exact ⟨l, h.toPool, by simpa [hpc, TmrPc.DeltaOk] using hδ⟩
  | isEmpty _ => exact ⟨l, h.toPool, by
      simp only [TmrPc.DeltaOk]
      split <;> trivial⟩
  | retake _ => exact ⟨l, h.toPool, trivial⟩
  | left hpc _ =>
    exact ⟨l, h.toPool, by simpa [hpc, TmrPc.DeltaOk, TmrSec.DeltaOk, TmrCont.DeltaOk] using hδ⟩
  | pop hpc hpop =>
    obtain ⟨h0, h1⟩ := h.delta_pop hpc
    obtain ⟨a, l', rfl, hle, rfl, -, -, -, hf⟩ := h.popped hpc hpop
    refine ⟨l', h.toPool.freed hf, ?_⟩
    simp only [TmrPc.DeltaOk, TmrCont.DeltaOk]
    omega
  | final hpc => exact ⟨l, h.toPool.freed (h.freed_final hpc), trivial⟩
  | v hpc =>
    exact ⟨l, h.toPool, (TmrCont.resume_deltaOk _).mpr (by simpa [hpc, TmrPc.DeltaOk] using hδ)⟩
  | pause _ => exact ⟨l, h.toPool, trivial⟩
  | usleep _ => exact ⟨l, h.toPool, tickDelta_range d⟩
  | send hpc => exact ⟨l, h.toPool, by simpa [hpc, TmrPc.DeltaOk, TmrSec.DeltaOk] using hδ⟩

theorem AppCont.resume_atInsert (k : AppCont) (a : StartArgs) (tcb : TmrIdx) :
    ¬ k.resume.AtInsert a tcb := by
  cases k <;> simp [AppCont.resume, AppPc.AtInsert]

theorem Call.sec_atInsert (c : Call) (a : StartArgs) (tcb : TmrIdx) :
    ¬ (AppPc.wait c.sec).AtInsert a tcb := by
  cases c <;> simp [Call.sec, AppPc.AtInsert]

theorem Good.appl {s s' : Sys ι} {l : List TmrIdx} {i : ι} {c : Call} (h : Good s l)
    (hm : AppMove s i c s') : ∃ l', Good s' l' := by
  cases hm with
  | call hpc =>
    refine ⟨l, h.toPool.setPc ?_ fun a tcb hat => absurd hat (c.sec_atInsert a tcb), h.delta⟩
    rw [hpc]
    exact c.sec_owns
  | p hpc _ =>
    refine ⟨l, h.toPool.setPc (by rw [hpc]; rfl) fun a tcb hat => ?_, h.delta⟩
    simpa [hpc, AppPc.AtInsert] using hat
  | body hpc hr =>
    obtain ⟨l', he⟩ := h.toPool.body_effect hpc hr
    exact ⟨l', h.toPool.body hpc he, h.delta⟩
  | v hpc =>
    refine ⟨l, h.toPool.setPc ?_ fun a tcb hat => absurd hat (AppCont.resume_atInsert _ a tcb),
      h.delta⟩
    rw [hpc, AppCont.resume_owns]
    rfl
  | fill hpc => exact ⟨l, h.toPool.fill hpc, h.delta⟩
  | kill hpc =>
    exact ⟨l, h.toPool.setPc (by rw [hpc]; rfl) (by simp [AppPc.AtInsert]), h.delta⟩

/-- **The pool.**  Every step keeps it, as far as bodies are one step each. -/
theorem Good.step {s s' : Sys ι} {l : List TmrIdx} {lab : Lab ι} (h : Good s l)
    (hs : s.step lab = some s') : ∃ l', Good s' l' := by
  cases lab with
  | tmr d => exact h.tmr (Sys.osTmr_move hs)
  | app i c => exact h.appl (Sys.appl_move hs)
  | deliver =>
    obtain ⟨-, ⟨-, rfl⟩ | ⟨-, rfl⟩⟩ := Sys.deliver_cases hs
    · exact ⟨l, h.toPool, trivial⟩
    · exact ⟨l, h.toPool, h.delta⟩
  | eintr =>
    obtain ⟨sec, hpc, rfl⟩ := Sys.eintr_cases hs
    exact ⟨l, h.toPool, by simpa [hpc, TmrPc.DeltaOk] using h.delta⟩

omit [DecidableEq ι] in
theorem good_start (shm : TmrCbs) : Good (Sys.start shm : Sys ι) [] where
  linked := rfl
  live := by simp
  owned := by simp [Sys.start, AppPc.owns]
  owner := by simp [Sys.start, AppPc.owns]
  used := by simp [Sys.start, ostmrInitTmrCbs]
  filled := by simp [Sys.start, AppPc.AtInsert]
  delta := trivial

/-- What a run without an interrupted `p` keeps. -/
def Sound (s : Sys ι) : Prop := s.sem.Guards s.Inside ∧ ∃ l, Good s l

omit [DecidableEq ι] in
theorem sound_start (shm : TmrCbs) : Sound (Sys.start shm : Sys ι) :=
  ⟨Sem.guards_init fun q => by cases q <;> simp [Sys.start, Sys.Inside, TmrPc.Inside, AppPc.Inside],
    [], good_start shm⟩

theorem Sound.step {s s' : Sys ι} {l : Lab ι} (h : Sound s) (hl : l ≠ .eintr)
    (hs : s.step l = some s') : Sound s' :=
  ⟨guards_step h.1 hs hl, h.2.choose_spec.step hs⟩

/-! ## 6. The discipline -/

/-- The three places of a control block. -/
def Accounted (s : Sys ι) (l : List TmrIdx) (tcb : TmrIdx) : Prop :=
  ((s.shm.tcb tcb).idle = true ∧ tcb ∉ l ∧ ∀ i, (s.app i).owns ≠ some tcb) ∨
    ((s.shm.tcb tcb).idle = false ∧ l.count tcb = 1 ∧ ∀ i, (s.app i).owns ≠ some tcb) ∨
    ((s.shm.tcb tcb).idle = false ∧ tcb ∉ l ∧ ∃! i, (s.app i).owns = some tcb)

omit [DecidableEq ι] in
theorem Pool.accounted {s : Sys ι} {l : List TmrIdx} (h : Pool s.shm s.app l) (tcb : TmrIdx) :
    Accounted s l tcb := by
  cases hidle : (s.shm.tcb tcb).idle with
  | true =>
    refine Or.inl ⟨hidle, fun e => ?_, fun i e => ?_⟩
    · simp [h.live tcb e] at hidle
    · simp [(h.owned i tcb e).2] at hidle
  | false =>
    rcases h.used tcb hidle with hl | ⟨i, hi⟩
    · exact Or.inr (Or.inl ⟨hidle, List.count_eq_one_of_mem h.linked.nodup hl,
        fun i e => (h.owned i tcb e).1 hl⟩)
    · exact Or.inr (Or.inr ⟨hidle, (h.owned i tcb hi).1, i, hi, fun j hj => h.owner j i tcb hj hi⟩)

/-- The lock and pool discipline of the timer. -/
structure Disciplined (s : Sys ι) : Prop where
  excl : ∀ q r, s.Inside q → s.Inside r → q = r
  holder : ∀ q, s.sem.semadj q = 1 ↔ s.Inside q
  waiting : ∀ q, s.Waiting q → s.sem.semadj q = 0
  mayBlock : ∀ q, s.MayBlock q → s.sem.semadj q = 0
  pool : (∀ q, ¬ s.Inside q) → ∃ l, Linked s.shm l ∧ ∀ tcb, Accounted s l tcb

omit [DecidableEq ι] in
theorem disciplined_of_sound {s : Sys ι} (h : Sound s) : Disciplined s := by
  obtain ⟨hg, l, hl⟩ := h
  refine ⟨hg.excl, fun q => ⟨?_, hg.owes q⟩, fun q hq => hg.free q hq.not_inside,
    fun q hq => hg.free q hq.not_inside, fun _ => ⟨l, hl.linked, hl.toPool.accounted⟩⟩
  intro hq
  by_contra hno
  rw [hg.free q hno] at hq
  cases hq

/-- **Lock and pool discipline**, in every state of every run of any number of applications in
which no signal interrupts the timer task in a `p`. -/
theorem disciplined {ts : List (Transition (Sys ι) (Lab ι))} {s : Sys ι}
    (h : Run (tasks ι) ts s) (hno : ∀ t ∈ ts, t.lab ≠ .eintr) : Disciplined s := by
  have hs : Sound s := h.invariant Sound (fun _ l => l ≠ .eintr)
    (by rintro s ⟨shm, rfl⟩; exact sound_start shm) (fun _ _ _ hs hl hst => hs.step hl hst) hno
  exact disciplined_of_sound hs

instance : DecidablePred TmrPc.Inside
  | .wait _ | .pause | .paused | .usleep | .send .. => isFalse not_false
  | .inside _ | .out _ => isTrue trivial

instance (pc : AppPc) : Decidable (pc = .kill) :=
  match pc with
  | .kill => isTrue rfl
  | .idle | .wait _ | .inside _ | .out _ | .fill .. => isFalse nofun

instance : DecidablePred AppPc.Inside
  | .idle | .wait _ | .fill .. | .kill => isFalse not_false
  | .inside _ | .out _ => isTrue trivial

/-- One start, undisturbed. -/
theorem disciplined_startSteps : ∃ ts s, Run (tasks (Fin 2)) ts s ∧ s.app 0 = .kill ∧
    Disciplined s := by
  obtain ⟨ts, s, hr, hno, hpc⟩ := run_of_exec zeroShm
    (startSteps (0 : Fin 2) (ofpTxT 7 addr1 10000000)) (fun _ l => l ≠ .eintr)
    (fun s => s.app 0 = .kill) (by decide +kernel)
  exact ⟨ts, s, hr, hpc, disciplined hr hno⟩

/-- **The interrupted `p`.**  The first application has started a timer and is about to send the
signal, the second one is in a section, and the timer task is in its first `p`.  The signal
interrupts that `p`, and then two processes are inside. -/
theorem eintr_two_inside : ∃ ts s, Run (tasks (Fin 2)) ts s ∧ s.Inside .tmr ∧ s.Inside (.app 1) ∧
    ¬ Disciplined s := by
  obtain ⟨ts, s, hr, -, htmr, happ⟩ := run_of_exec zeroShm
    (startSteps (0 : Fin 2) (ofpTxT 7 addr1 10000000)
      ++ [.app 1 (.isTmrExist none 0), .app 1 (.isTmrExist none 0),
        .app 0 (.isTmrExist none 0), .eintr]) (fun _ _ => True)
    (fun s => s.tmr.Inside ∧ (s.app 1).Inside) (by decide +kernel)
  exact ⟨ts, s, hr, htmr, happ, fun h => by simpa using h.excl .tmr (.app 1) htmr happ⟩

end Ofpagent.Timer
