/-
# Waking the timer task up

The timer task pauses when it finds the list empty, and the start that ends this sends it
`SIGUSR1`.  Between the test and the pause the task does not hold the semaphore, and a signal
that arrives before `pause` is forgotten, so the comment in `os_tmr` ("the worst case that the
task can't be resumed [...] is impossible") is not right: `lost_wakeup` is a run into a pause
nothing ends.

`no_lost_wakeup` says that this is the only way: as long as no signal is delivered to the task
between its `v` and its `pause` with timers in the list, a pausing task with timers has its
signal still coming.  Signals that arrive there with an empty list do no harm, since the next
start sends another one.
-/
import Ofpagent.Timer.Discipline

namespace Ofpagent.Timer

open Ofpagent.Lib

variable {ι : Type*} [DecidableEq ι]

/-! ## 1. The invariant -/

/-- About to send the signal. -/
def AppPc.WillKill : AppPc → Prop
  | out .kill => True
  | kill => True
  | _ => False

/-- A timer task on its way into the pause, or in it, is told of the timers there are. -/
structure Awake (s : Sys ι) : Prop where
  emptied : s.tmr = .out .pause → s.shm.tmrHdr = none
  coming : s.tmr = .pause ∨ s.tmr = .paused → s.shm.tmrHdr ≠ none →
    s.sigusr1 = true ∨ ∃ i, (s.app i).WillKill

/-- A body fills an empty list only if its application will send the signal. -/
theorem BodyEffect.willKill {shm shm' : TmrCbs} {l l' : List TmrIdx} {sec : AppSec} {k : AppCont}
    (h : BodyEffect shm l sec shm' k l') (hl : Linked shm l) (hne : shm'.tmrHdr ≠ none) :
    shm.tmrHdr ≠ none ∨ k = .kill := by
  have removed : ∀ {l₁ : List TmrIdx}, Removed shm shm' l l₁ → shm.tmrHdr ≠ none := by
    intro l₁ hr hnone
    have hnil : l = [] := by
      rw [hl.head] at hnone
      simpa using hnone
    have hnil' : l₁ = [] := List.sublist_nil.mp (hnil ▸ hr.sub)
    exact hne (by rw [hr.linked.head, hnil']; rfl)
  cases h with
  | startStop hr => exact Or.inl (removed hr)
  | full _ => exact Or.inl hne
  | malloc _ => exact Or.inl hne
  | insert _ => cases hh : shm.tmrHdr <;> simp
  | stopXtmr hr => exact Or.inl (removed hr)
  | stopTmrs hr => exact Or.inl (removed hr)
  | isTmrExist => exact Or.inl hne

/-- The signal that is coming still is when an application moves on: from the `v` it goes on to
the `kill`, and behind that the signal is pending. -/
theorem coming_setApp {s : Sys ι} {i : ι} {pc : AppPc} {pending : Bool}
    (hk : (s.app i).WillKill → pc.WillKill ∨ pending = true)
    (h : s.sigusr1 = true ∨ ∃ j, (s.app j).WillKill) (hp : s.sigusr1 = true → pending = true) :
    pending = true ∨ ∃ j, (Function.update s.app i pc j).WillKill := by
  rcases h with h | ⟨j, hj⟩
  · exact Or.inl (hp h)
  · by_cases hji : j = i
    · subst hji
      rcases hk hj with hk | hk
      · exact Or.inr ⟨j, by rwa [Function.update_self]⟩
      · exact Or.inl hk
    · exact Or.inr ⟨j, by rwa [Function.update_of_ne hji]⟩

theorem Awake.tmr {s s' : Sys ι} {d : ℤ} (h : Awake s) (hm : TmrMove s d s') : Awake s' := by
  cases hm with
  | isEmpty _ =>
    refine ⟨fun hpc => ?_, by simp⟩
    cases hh : s.shm.tmrHdr with
    | none => rfl
    | some a => simp [ostmrIsTmrListEmpty, hh] at hpc
  | @v k hpc =>
    cases k with
    | pause =>
      exact ⟨by simp [TmrCont.resume], fun _ hne => absurd (h.emptied hpc) hne⟩
    | _ => exact ⟨by simp [TmrCont.resume], by simp [TmrCont.resume]⟩
  | pause hpc => exact ⟨by simp, fun _ => h.coming (Or.inl hpc)⟩
  | _ => exact ⟨by simp, by simp⟩

theorem Awake.appl {s s' : Sys ι} {i : ι} {c : Call} (h : Awake s) (hs : Sound s)
    (hm : AppMove s i c s') : Awake s' := by
  -- a step that leaves the memory's head alone
  have frame : ∀ (t : Sys ι) (pc : AppPc), t.tmr = s.tmr → t.app = s.app →
      t.shm.tmrHdr = s.shm.tmrHdr → ((s.app i).WillKill → pc.WillKill ∨ t.sigusr1 = true) →
      (s.sigusr1 = true → t.sigusr1 = true) → Awake (t.setApp i pc) := by
    intro t pc htmr happ hhdr hk hp
    refine ⟨fun hpc => hhdr.trans (h.emptied (htmr ▸ hpc)), ?_⟩
    intro hpc hne
    have hcoming := coming_setApp hk (h.coming (htmr ▸ hpc) (hhdr ▸ hne)) hp
    rwa [← happ] at hcoming
  cases hm with
  | call hpc => exact frame s _ rfl rfl rfl (by simp [hpc, AppPc.WillKill]) id
  | p hpc _ => exact frame _ _ rfl rfl rfl (by simp [hpc, AppPc.WillKill]) id
  | fill hpc => exact frame _ _ rfl rfl rfl (by simp [hpc, AppPc.WillKill]) id
  | kill hpc => exact frame _ _ rfl rfl rfl (fun _ => Or.inr rfl) fun _ => rfl
  | @v k hpc =>
    refine frame _ _ rfl rfl rfl (fun hk => Or.inl ?_) id
    rw [hpc] at hk
    cases k <;> simp_all [AppPc.WillKill, AppCont.resume]
  | @body sec shm k hpc hr =>
    obtain ⟨hg, l, hl⟩ := hs
    obtain ⟨l', he⟩ := hl.toPool.body_effect hpc hr
    refine ⟨?_, ?_⟩
    · intro htmr
      -- nobody else is in a section while the timer task is in one
      have hin : s.Inside (.app i) := by simp [Sys.Inside, AppPc.Inside, hpc]
      have htin : s.Inside .tmr := by
        rw [Sys.Inside, show s.tmr = .out .pause from htmr]
        trivial
      cases hg.excl _ _ hin htin
    · intro htmr hne
      rcases he.willKill hl.linked hne with hne | rfl
      · exact coming_setApp (by simp [hpc, AppPc.WillKill]) (h.coming htmr hne) id
      · exact Or.inr ⟨i, by simp [Sys.setApp, AppPc.WillKill]⟩

/-- The one delivery that loses a wake-up. -/
def LosesSignal (s : Sys ι) (l : Lab ι) : Prop :=
  l = .deliver ∧ s.tmr = .pause ∧ ostmrIsTmrListEmpty s.shm = false

theorem Awake.step {s s' : Sys ι} {l : Lab ι} (h : Awake s) (hs : Sound s) (hne : l ≠ .eintr)
    (hl : ¬ LosesSignal s l) (hst : s.step l = some s') : Awake s' := by
  cases l with
  | tmr d => exact h.tmr (Sys.osTmr_move hst)
  | app i c => exact h.appl hs (Sys.appl_move hst)
  | deliver =>
    obtain ⟨-, ⟨-, rfl⟩ | ⟨hpc, rfl⟩⟩ := Sys.deliver_cases hst
    · exact ⟨by simp, by simp⟩
    · refine ⟨h.emptied, ?_⟩
      intro htmr hhdr
      have hpause : s.tmr = .pause := htmr.resolve_right hpc
      refine absurd ⟨rfl, hpause, ?_⟩ hl
      simpa [ostmrIsTmrListEmpty, Option.isSome_iff_ne_none] using hhdr
  | eintr => exact absurd rfl hne

/-! ## 2. The result -/

/-- The timer task pauses with timers in the list, and nobody is going to wake it. -/
def LostWakeup (s : Sys ι) : Prop :=
  s.tmr = .paused ∧ ostmrIsTmrListEmpty s.shm = false ∧ s.sigusr1 = false ∧
    ∀ i, ¬ (s.app i).WillKill

/-- **No lost wake-up**, in any run in which signals only run the handler and none is delivered
with timers in the list between the `v` of the empty list and the pause. -/
theorem no_lost_wakeup {ts : List (Transition (Sys ι) (Lab ι))} {s : Sys ι}
    (h : Run (tasks ι) ts s) (hno : ∀ t ∈ ts, t.lab ≠ .eintr)
    (hgood : ∀ t ∈ ts, ¬ LosesSignal t.pre t.lab) : ¬ LostWakeup s := by
  have hinv : Sound s ∧ Awake s :=
    h.invariant (fun s => Sound s ∧ Awake s) (fun s l => l ≠ .eintr ∧ ¬ LosesSignal s l)
      (by rintro s ⟨shm, rfl⟩; exact ⟨sound_start shm, by simp [Sys.start], by simp [Sys.start]⟩)
      (fun _ _ _ hs hl hst => ⟨hs.1.step hl.1 hst, hs.2.step hs.1 hl.1 hl.2 hst⟩)
      fun t ht => ⟨hno t ht, hgood t ht⟩
  rintro ⟨hpc, hne, hsig, hkill⟩
  have hhdr : s.shm.tmrHdr ≠ none := by
    simpa [ostmrIsTmrListEmpty, Option.isSome_iff_ne_none] using hne
  rcases hinv.2.coming (Or.inr hpc) hhdr with hp | ⟨i, hi⟩
  · rw [hp] at hsig
    cases hsig
  · exact hkill i hi

instance : DecidablePred AppPc.WillKill
  | .out .kill | .kill => isTrue trivial
  | .idle | .wait _ | .inside _ | .fill .. => isFalse not_false
  | .out .ret | .out (.malloc _) | .out (.fill ..) => isFalse not_false

instance (s : Sys Unit) : Decidable (LostWakeup s) := by
  unfold LostWakeup
  infer_instance

instance (s : Sys Unit) : DecidablePred (LosesSignal s) := fun l => by
  unfold LosesSignal
  infer_instance

/-- The schedule in which the signal arrives in the pause. -/
theorem no_lost_wakeup_startSteps : ∃ ts s, Run (tasks Unit) ts s ∧ s.tmr = .wait .retake ∧
    ¬ LostWakeup s := by
  obtain ⟨ts, s, hr, hgood, hpc⟩ := run_of_exec zeroShm
    ([.tmr 0, .tmr 0, .tmr 0, .tmr 0] ++ startSteps () (ofpTxT 7 addr1 10000000)
      ++ [.app () (.isTmrExist none 0), .deliver])
    (fun s l => l ≠ .eintr ∧ ¬ LosesSignal s l) (fun s => s.tmr = .wait .retake)
    (by decide +kernel)
  exact ⟨ts, s, hr, hpc, no_lost_wakeup hr (fun t ht => (hgood t ht).1) fun t ht => (hgood t ht).2⟩

/-- **The lost wake-up.**  The timer task finds the list empty and releases the semaphore; the
application starts a timer and sends the signal, which only runs the handler; then the timer
task pauses. -/
theorem lost_wakeup : ∃ ts s, Run (tasks Unit) ts s ∧ (∀ t ∈ ts, t.lab ≠ .eintr) ∧
    LostWakeup s :=
  run_of_exec zeroShm
    ([.tmr 0, .tmr 0, .tmr 0] ++ startSteps () (ofpTxT 7 addr1 10000000)
      ++ [.app () (.isTmrExist none 0), .deliver, .tmr 0])
    (fun _ l => l ≠ .eintr) LostWakeup (by decide +kernel)

end Ofpagent.Timer
