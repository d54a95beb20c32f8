/-
# What an interrupted `p` costs, and that every call can finish

* **The lock**, in all runs.  The semaphore's value and the number of processes inside are `1 + n`
  together, `n` being the number of the interrupted `p`s so far (`units_of_run`): nothing takes the
  unit back which the `v` behind such a `p` leaves.  So the semaphore guards the sections up to the
  first one and never again from then on (`guards_iff`).  What the bodies do to the memory does not
  enter into this.
* **Progress**, in the runs without one, where a body is a step.  No state is a deadlock: at the
  value 0 somebody is inside and its next two steps raise it, and an application alone, once it is
  inside or the value is not 0, is at its return after at most eleven steps, since `left` counts
  them down (`finishes_of_run`).
-/
import Ofpagent.Timer.Discipline

namespace Ofpagent.Timer

open Ofpagent.Lib

variable {ι : Type*} [DecidableEq ι]

/-! ## 1. What a step does to the lock -/

/-- A step enters with a `p`, leaves with a `v`, or is nothing to the lock. -/
inductive LockMove (s s' : Sys ι) : Prop
  | same : s'.sem = s.sem → (∀ r, s'.Inside r ↔ s.Inside r) → LockMove s s'
  | p {q} : ¬ s.Inside q → s.sem.p q = some s'.sem → (∀ r, s'.Inside r ↔ s.Inside r ∨ r = q) →
      LockMove s s'
  | v {q} : s.Inside q → s'.sem = s.sem.v q → (∀ r, s'.Inside r ↔ s.Inside r ∧ r ≠ q) →
      LockMove s s'

/-- The timer task moves on where it is, inside or outside. -/
theorem LockMove.setTmr {s t : Sys ι} {pc : TmrPc} (htmr : s.tmr = pc) (hsem : t.sem = s.sem)
    (happ : t.app = s.app) (hpc : t.tmr.Inside ↔ pc.Inside) : LockMove s t :=
  .same hsem fun r => by cases r <;> simp [Sys.Inside, htmr, happ, hpc]

theorem TmrMove.lock {s s' : Sys ι} {d : ℤ} (h : TmrMove s d s') : LockMove s s' := by
  cases h with
  | p hpc hk =>
    refine .p (q := .tmr) (by simp [Sys.Inside, TmrPc.Inside, hpc]) hk fun r => ?_
    cases r <;> simp [Sys.Inside, TmrPc.Inside, hpc]
  | v hpc =>
    refine .v (q := .tmr) (by simp [Sys.Inside, TmrPc.Inside, hpc]) rfl fun r => ?_
    cases r <;> simp [Sys.Inside]
  | isEmpty hpc => exact .setTmr hpc rfl rfl Iff.rfl
  | retake hpc => exact .setTmr hpc rfl rfl Iff.rfl
  | left hpc _ => exact .setTmr hpc rfl rfl Iff.rfl
  | pop hpc _ => exact .setTmr hpc rfl rfl Iff.rfl
  | final hpc => exact .setTmr hpc rfl rfl Iff.rfl
  | pause hpc => exact .setTmr hpc rfl rfl Iff.rfl
  | usleep hpc => exact .setTmr hpc rfl rfl Iff.rfl
  | send hpc => exact .setTmr hpc rfl rfl Iff.rfl

/-- An application that moves on where it is, inside or outside. -/
theorem LockMove.setApp {s t : Sys ι} {i : ι} {pc : AppPc} (hsem : t.sem = s.sem)
    (htmr : t.tmr = s.tmr) (happ : t.app = s.app) (hpc : pc.Inside ↔ (s.app i).Inside) :
    LockMove s (t.setApp i pc) := by
  have ht : ∀ r, t.Inside r ↔ s.Inside r := fun r => by cases r <;> simp [Sys.Inside, htmr, happ]
  refine .same hsem fun r => ?_
  rw [inside_setApp, ht]
  by_cases hr : r = .app i
  · subst hr; simp [hpc, Sys.Inside]
  · simp [hr]

theorem AppMove.lock {s s' : Sys ι} {i : ι} {c : Call} (h : AppMove s i c s') : LockMove s s' := by
  cases h with
  | call hpc => exact .setApp rfl rfl rfl (by simp [AppPc.Inside, hpc])
  | body hpc _ => exact .setApp rfl rfl rfl (by simp [AppPc.Inside, hpc])
  | fill hpc => exact .setApp rfl rfl rfl (by simp [AppPc.Inside, hpc])
  | kill hpc => exact .setApp rfl rfl rfl (by simp [AppPc.Inside, hpc])
  | p hpc hk =>
    refine .p (q := .app i) (by simp [Sys.Inside, AppPc.Inside, hpc]) hk fun r => ?_
    rw [inside_setApp]
    by_cases hr : r = .app i
    · simp [hr, AppPc.Inside]
    · cases r <;> simp [hr, Sys.Inside]
  | v hpc =>
    refine .v (q := .app i) (by simp [Sys.Inside, AppPc.Inside, hpc]) rfl fun r => ?_
    rw [inside_setApp]
    cases r <;> simp [Sys.Inside, and_comm]

/-! ## 2. The units of a run -/

theorem LockMove.units {s s' : Sys ι} {n : ℕ} (h : LockMove s s') (hu : s.sem.Units s.Inside n) :
    s'.sem.Units s'.Inside n := by
  cases h with
  | same hsem hi =>
    rw [hsem]
    exact hu.congr hi
  | p hq hp hi => exact hu.p hq hp hi
  | v hq hv hi =>
    rw [hv]
    exact hu.v hq hi

/-- Only the interrupted `p` brings a unit. -/
theorem units_step {s s' : Sys ι} {l : Lab ι} {n : ℕ} (h : s.sem.Units s.Inside n)
    (hs : s.step l = some s') :
    s'.sem.Units s'.Inside (n + if l = .eintr then 1 else 0) := by
  cases l with
  | tmr d => exact (Sys.osTmr_move hs).lock.units h
  | app i c => exact (Sys.appl_move hs).lock.units h
  | deliver =>
    obtain ⟨-, ⟨hpc, rfl⟩ | ⟨-, rfl⟩⟩ := Sys.deliver_cases hs
    · exact h.congr fun r => by cases r <;> simp [Sys.Inside, TmrPc.Inside, hpc]
    · exact h
  | eintr =>
    obtain ⟨sec, hpc, rfl⟩ := Sys.eintr_cases hs
    refine h.unpaid (q := .tmr) (by simp [Sys.Inside, TmrPc.Inside, hpc]) fun r => ?_
    cases r <;> simp [Sys.Inside, TmrPc.Inside, hpc]

/-- The interrupted `p`s of a run. -/
def interrupted (ts : List (Transition (Sys ι) (Lab ι))) : ℕ := ts.countP fun t => t.lab = .eintr

theorem units_of_run {ts : List (Transition (Sys ι) (Lab ι))} {s : Sys ι}
    (h : Run (tasks ι) ts s) : s.sem.Units s.Inside (interrupted ts) := by
  refine h.history (fun ts s => s.sem.Units s.Inside (interrupted ts)) (fun _ _ => True)
    ?_ ?_ fun _ _ => trivial
  · rintro s ⟨shm, rfl⟩
    exact Sem.units_init fun q => by
      cases q <;> simp [Sys.start, Sys.Inside, TmrPc.Inside, AppPc.Inside]
  · intro ts s l s' hu _ hs
    have hcount : interrupted (ts ++ [⟨s, l, s'⟩]) = interrupted ts + if l = .eintr then 1 else 0 := by
      simp [interrupted, List.countP_append, List.countP_cons]
    rw [hcount]
    exact units_step hu hs

/-- **The lock, for every run.**  The value and those inside are one more together than there were
interrupted `p`s, and the semaphore guards the sections just when there was none. -/
theorem guards_iff {ts : List (Transition (Sys ι) (Lab ι))} {s : Sys ι} (h : Run (tasks ι) ts s) :
    (∃ F : Finset (Proc ι), (∀ q, q ∈ F ↔ s.Inside q) ∧
      s.sem.val + F.card = 1 + ts.countP fun t => t.lab = .eintr) ∧
    (s.sem.Guards s.Inside ↔ ∀ t ∈ ts, t.lab ≠ .eintr) := by
  refine ⟨units_of_run h, fun hg t ht he => ?_, fun hno => ?_⟩
  · have hzero : interrupted ts = 0 := hg.units_eq (units_of_run h)
    have hpos : 0 < interrupted ts := List.countP_pos_iff.mpr ⟨t, ht, by simp [he]⟩
    omega
  · refine h.invariant (fun s => s.sem.Guards s.Inside) (fun _ l => l ≠ .eintr) ?_
      (fun _ _ _ hg hl hs => guards_step hg hs hl) hno
    rintro s ⟨shm, rfl⟩
    exact (sound_start shm).1

/-- The run of `eintr_two_inside`, one step on: the second application has left, and the value is
1 although the timer task is inside. -/
theorem guards_iff_interrupted : ∃ ts s, Run (tasks (Fin 2)) ts s ∧ s.sem.val = 1 ∧
    s.Inside .tmr ∧ ¬ s.sem.Guards s.Inside := by
  obtain ⟨ts, s, hr, hlab, -, hval, htmr⟩ := Run.of_exec (S := tasks (Fin 2)) (fun _ _ _ hs => hs)
    (⟨zeroShm, rfl⟩ : (tasks (Fin 2)).init (Sys.start zeroShm))
    (startSteps (0 : Fin 2) (ofpTxT 7 addr1 10000000)
      ++ [.app 1 (.isTmrExist none 0), .app 1 (.isTmrExist none 0), .app 0 (.isTmrExist none 0),
        .eintr, .app 1 (.isTmrExist none 0), .app 1 (.isTmrExist none 0)]) (fun _ _ => True)
    (fun s => s.sem.val = 1 ∧ s.tmr.Inside) (by decide +kernel)
  refine ⟨ts, s, hr, hval, htmr, fun hg => ?_⟩
  have hmem : Lab.eintr ∈ ts.map Transition.lab := by rw [hlab]; simp
  obtain ⟨t, ht, he⟩ := List.mem_map.mp hmem
  exact (guards_iff hr).2.mp hg t ht he

/-! ## 3. An application alone -/

/-- The steps from the `p` of a section to the return of its call, at most. -/
def AppSec.left : AppSec → ℕ
  | startStop _ => 11
  | startMalloc _ => 8
  | startInsert .. => 4
  | _ => 3

def AppCont.left : AppCont → ℕ
  | ret => 1
  | malloc _ => 9
  | fill .. => 6
  | kill => 2

/-- The steps to the return of the call, at most. -/
def AppPc.left : AppPc → ℕ
  | idle => 0
  | wait sec => sec.left
  | inside sec => sec.left - 1
  | out k => k.left
  | fill .. => 5
  | kill => 1

theorem AppPc.left_le (pc : AppPc) : pc.left ≤ 11 := by
  cases pc with
  | wait sec => cases sec <;> simp [AppPc.left, AppSec.left]
  | inside sec => cases sec <;> simp [AppPc.left, AppSec.left]
  | out k => cases k <;> simp [AppPc.left, AppCont.left]
  | _ => simp [AppPc.left]

theorem AppPc.left_eq_zero {pc : AppPc} (h : pc.left = 0) : pc = .idle := by
  cases pc with
  | idle => rfl
  | wait sec => cases sec <;> cases h
  | inside sec => cases sec <;> cases h
  | out k => cases k <;> cases h
  | _ => cases h

theorem AppSec.left_pos (sec : AppSec) : 0 < sec.left := by
  cases sec <;> simp [AppSec.left]

theorem BodyEffect.left_lt {shm shm' : TmrCbs} {l l' : List TmrIdx} {sec : AppSec} {k : AppCont}
    (h : BodyEffect shm l sec shm' k l') : k.left < sec.left - 1 := by
  cases h with
  | insert _ => split <;> simp [AppSec.left, AppCont.left]
  | _ => simp [AppSec.left, AppCont.left]

theorem AppCont.resume_left (k : AppCont) : k.resume.left < k.left := by
  cases k <;> simp [AppCont.resume, AppPc.left, AppCont.left, AppSec.left]

/-- A step inside a call is one less to its return. -/
theorem AppMove.left_lt {s s' : Sys ι} {i : ι} {c : Call} {l : List TmrIdx} (h : AppMove s i c s')
    (hl : Good s l) (hi : s.app i ≠ .idle) : (s'.app i).left < (s.app i).left := by
  cases h with
  | call hpc => exact absurd hpc hi
  | @p sec k hpc _ =>
    have := sec.left_pos
    simp only [Sys.setApp, Function.update_self, hpc, AppPc.left]
    omega
  | body hpc hr =>
    obtain ⟨l', he⟩ := hl.toPool.body_effect hpc hr
    simpa [Sys.setApp, hpc, AppPc.left] using he.left_lt
  | @v k hpc => simpa [Sys.setApp, hpc, AppPc.left] using k.resume_left
  | fill hpc => simp [Sys.setApp, hpc, AppPc.left, AppSec.left]
  | kill hpc => simp [Sys.setApp, hpc, AppPc.left]

/-- The application can take its next step. -/
def Ready (s : Sys ι) (i : ι) : Prop := 0 < s.sem.val ∨ (s.app i).Inside

omit [DecidableEq ι] in
theorem Good.run_some {s : Sys ι} {l : List TmrIdx} {i : ι} {sec : AppSec} (h : Good s l)
    (hpc : s.app i = .inside sec) : ∃ r, sec.run s.shm = some r := by
  obtain ⟨shm', k, l', hr, -⟩ := body_effect h.linked sec fun a tcb hsec => by
    have hat : (s.app i).AtInsert a tcb := Or.inr (hsec ▸ hpc)
    exact ⟨(h.owned i tcb hat.owns).1, (h.filled i a tcb hat).2.2⟩
  exact ⟨(shm', k), hr⟩

theorem Good.ready_step {s : Sys ι} {l : List TmrIdx} {i : ι} (h : Good s l) (hi : Ready s i)
    (c : Call) : ∃ s', s.appl i c = some s' ∧ Ready s' i := by
  unfold Sys.appl
  cases hpc : s.app i with
  | idle =>
    refine ⟨_, rfl, Or.inl ?_⟩
    simpa [Ready, hpc, AppPc.Inside, Sys.setApp] using hi
  | wait sec =>
    have hpos : 0 < s.sem.val := by simpa [Ready, hpc, AppPc.Inside] using hi
    obtain ⟨k, hk⟩ := Sem.exists_p hpos (.app i)
    exact ⟨_, by simp only [hk]; rfl, Or.inr (by simp [Sys.setApp, AppPc.Inside])⟩
  | inside sec =>
    obtain ⟨r, hr⟩ := h.run_some hpc
    exact ⟨_, by simp only [hr]; rfl, Or.inr (by simp [Sys.setApp, AppPc.Inside])⟩
  | out k => exact ⟨_, rfl, Or.inl (by simp [Sys.setApp, Sem.v])⟩
  | fill a tcb =>
    refine ⟨_, rfl, Or.inl ?_⟩
    simpa [Ready, hpc, AppPc.Inside, Sys.setApp] using hi
  | kill =>
    refine ⟨_, rfl, Or.inl ?_⟩
    simpa [Ready, hpc, AppPc.Inside, Sys.setApp] using hi

/-- By induction on the steps that are left. -/
theorem Good.finishes {i : ι} (c : Call) : ∀ (n : ℕ) {s : Sys ι} {l : List TmrIdx}, Good s l →
    Ready s i → (s.app i).left ≤ n →
    ∃ m s', m ≤ n ∧ exec Sys.step s (List.replicate m (.app i c)) = some s' ∧ s'.app i = .idle := by
  intro n
  induction n with
  | zero =>
    intro s l _ _ hn
    exact ⟨0, s, le_rfl, rfl, AppPc.left_eq_zero (by omega)⟩
  | succ n ih =>
    intro s l h hi hn
    by_cases hidle : s.app i = .idle
    · exact ⟨0, s, by omega, rfl, hidle⟩
    · obtain ⟨s1, hs1, hi1⟩ := h.ready_step hi c
      obtain ⟨l1, h1⟩ := h.appl (Sys.appl_move hs1)
      have hlt := (Sys.appl_move hs1).left_lt h hidle
      obtain ⟨m, s', hm, he, hdone⟩ := ih h1 hi1 (by omega)
      refine ⟨m + 1, s', by omega, ?_, hdone⟩
      rw [List.replicate_succ, exec, Sys.step, hs1]
      exact he

/-! ## 4. Whoever is inside can leave -/

namespace Sys

/-- A step of a process. -/
def own (c : Call) : Proc ι → Lab ι
  | .tmr => .tmr 0
  | .app i => .app i c

/-- At a `v`. -/
def AtV (s : Sys ι) : Proc ι → Prop
  | .tmr => ∃ k, s.tmr = .out k
  | .app i => ∃ k, s.app i = .out k

/-- The others are where they were. -/
def SameBut (q : Proc ι) (s s' : Sys ι) : Prop :=
  (q ≠ .tmr → s'.tmr = s.tmr) ∧ ∀ i, q ≠ .app i → s'.app i = s.app i

omit [DecidableEq ι] in
theorem SameBut.trans {q : Proc ι} {s s1 s' : Sys ι} (h : SameBut q s s1) (h' : SameBut q s1 s') :
    SameBut q s s' :=
  ⟨fun hq => (h'.1 hq).trans (h.1 hq), fun i hq => (h'.2 i hq).trans (h.2 i hq)⟩

theorem sameBut_setApp {s t : Sys ι} (i : ι) (pc : AppPc) (htmr : t.tmr = s.tmr)
    (happ : t.app = s.app) : SameBut (.app i) s (t.setApp i pc) := by
  refine ⟨fun _ => htmr, fun j hj => ?_⟩
  have hne : j ≠ i := fun e => hj (by rw [e])
  simp [setApp, hne, happ]

theorem v_step {s : Sys ι} {q : Proc ι} (h : s.AtV q) (c : Call) :
    ∃ s', s.step (own c q) = some s' ∧ 0 < s'.sem.val ∧ SameBut q s s' := by
  cases q with
  | tmr =>
    obtain ⟨k, hk⟩ := h
    exact ⟨{ s with sem := s.sem.v .tmr, tmr := k.resume }, by simp only [own, step, osTmr, hk],
      by simp [Sem.v], fun hq => absurd rfl hq, fun _ _ => rfl⟩
  | app i =>
    obtain ⟨k, hk⟩ := h
    exact ⟨{ s with sem := s.sem.v (.app i) }.setApp i k.resume,
      by simp only [own, step, appl, hk], by simp [setApp, Sem.v],
      sameBut_setApp i k.resume rfl rfl⟩

/-- The body of the section is the one step in front of the `v`. -/
theorem body_step {s : Sys ι} {l : List TmrIdx} {q : Proc ι} (h : Good s l) (hq : s.Inside q)
    (hv : ¬ s.AtV q) (c : Call) :
    ∃ s', s.step (own c q) = some s' ∧ s'.AtV q ∧ SameBut q s s' := by
  cases q with
  | tmr =>
    have hframe : ∀ shm k, SameBut .tmr s { s with shm := shm, tmr := .out k } := fun _ _ =>
      ⟨fun hq => absurd rfl hq, fun _ _ => rfl⟩
    cases hpc : s.tmr with
    | inside sec =>
      simp only [own, step, osTmr, hpc]
      cases sec with
      | isEmpty => exact ⟨_, rfl, ⟨_, rfl⟩, hframe s.shm _⟩
      | retake => exact ⟨_, rfl, ⟨_, rfl⟩, hframe s.shm _⟩
      | final delta => exact ⟨_, rfl, ⟨_, rfl⟩, hframe _ _⟩
      | pop delta =>
        cases hpop : tickPop s.shm delta with
        | none => exact ⟨_, by simp only [hpop]; rfl, ⟨_, rfl⟩, hframe s.shm _⟩
        | some r => exact ⟨_, by simp only [hpop]; rfl, ⟨_, rfl⟩, hframe _ _⟩
    | out k => exact absurd ⟨k, hpc⟩ hv
    | _ => simp [Inside, hpc, TmrPc.Inside] at hq
  | app i =>
    cases hpc : s.app i with
    | inside sec =>
      obtain ⟨r, hr⟩ := h.run_some hpc
      refine ⟨{ s with shm := r.1 }.setApp i (.out r.2), ?_, ⟨r.2, by simp [setApp]⟩,
        sameBut_setApp i (.out r.2) rfl rfl⟩
      simp [own, step, appl, hpc, hr]
    | out k => exact absurd ⟨k, hpc⟩ hv
    | _ => simp [Inside, hpc, AppPc.Inside] at hq

theorem leaves {s : Sys ι} {l : List TmrIdx} {q : Proc ι} (h : Good s l) (hq : s.Inside q)
    (c : Call) : ∃ k s', k ≤ 2 ∧ exec step s (List.replicate k (own c q)) = some s' ∧
      0 < s'.sem.val ∧ SameBut q s s' := by
  by_cases hv : s.AtV q
  · obtain ⟨s', hs, hval, hsame⟩ := v_step hv c
    exact ⟨1, s', by omega, by simp [exec, hs], hval, hsame⟩
  · obtain ⟨s1, hs1, hv1, hsame1⟩ := body_step h hq hv c
    obtain ⟨s', hs, hval, hsame⟩ := v_step hv1 c
    exact ⟨2, s', le_rfl, by simp [exec, hs1, hs, List.replicate], hval, hsame1.trans hsame⟩

end Sys

/-! ## 5. No state is a deadlock -/

/-- Whoever is outside stays where it is while the value is raised. -/
theorem Sound.freed {s : Sys ι} (h : Sound s) (c : Call) :
    ∃ q k s', k ≤ 2 ∧ exec Sys.step s (List.replicate k (Sys.own c q)) = some s' ∧
      0 < s'.sem.val ∧ (¬ s.Inside .tmr → s'.tmr = s.tmr) ∧
      ∀ i, ¬ s.Inside (.app i) → s'.app i = s.app i := by
  obtain ⟨hg, l, hl⟩ := h
  rcases hg.val with ⟨-, q, hq⟩ | ⟨hval, -⟩
  · obtain ⟨k, s', hk, he, hval', hsame⟩ := Sys.leaves hl hq c
    exact ⟨q, k, s', hk, he, hval', fun hno => hsame.1 fun e => hno (e ▸ hq),
      fun i hno => hsame.2 i fun e => hno (e ▸ hq)⟩
  · exact ⟨.tmr, 0, s, by omega, rfl, by omega, fun _ => rfl, fun _ _ => rfl⟩

/-- **No deadlock.**  From every state of every run in which no `p` is interrupted, two steps of one
process at most and then eleven of its own at most take an application to the return of its call;
and behind the former the timer task gets past a `p` that it is in. -/
theorem finishes_of_run {ts : List (Transition (Sys ι) (Lab ι))} {s : Sys ι}
    (h : Run (tasks ι) ts s) (hno : ∀ t ∈ ts, t.lab ≠ .eintr) (c : Call) :
    (∀ i, ∃ q k m s', k ≤ 2 ∧ m ≤ 11 ∧ exec Sys.step s
      (List.replicate k (Sys.own c q) ++ List.replicate m (.app i c)) = some s' ∧
      s'.app i = .idle) ∧
    ∀ sec, s.tmr = .wait sec → ∃ q k s', k ≤ 2 ∧ exec Sys.step s
      (List.replicate k (Sys.own c q) ++ [.tmr 0]) = some s' ∧ s'.tmr = .inside sec := by
  have hs : Sound s := h.invariant Sound (fun _ l => l ≠ .eintr)
    (by rintro s ⟨shm, rfl⟩; exact sound_start shm) (fun _ _ _ hs hl hst => hs.step hl hst) hno
  obtain ⟨q, k, s1, hk, he, hval, htmr, happ⟩ := hs.freed c
  obtain ⟨-, l, hl⟩ := hs
  constructor
  · intro i
    by_cases hin : (s.app i).Inside
    · obtain ⟨m, s', hm, he', hdone⟩ := hl.finishes c 11 (Or.inr hin) (AppPc.left_le _)
      exact ⟨.tmr, 0, m, s', by omega, hm, by simpa using he', hdone⟩
    · have hkeep : ∀ (s : Sys ι) lab s', (∃ l, Good s l) → s.step lab = some s' → ∃ l, Good s' l :=
        fun _ _ _ hg hs => hg.choose_spec.step hs
      obtain ⟨l1, h1⟩ := exec_invariant hkeep ⟨l, hl⟩ he
      obtain ⟨m, s', hm, he', hdone⟩ := h1.finishes (i := i) c 11 (Or.inl hval) (AppPc.left_le _)
      exact ⟨q, k, m, s', hk, hm, by rw [exec_append, he]; exact he', hdone⟩
  · intro sec hpc
    have hpc1 : s1.tmr = .wait sec := by
      rw [htmr (by simp [Sys.Inside, hpc, TmrPc.Inside]), hpc]
    obtain ⟨u, hu⟩ := Sem.exists_p hval .tmr
    refine ⟨q, k, { s1 with sem := u, tmr := .inside sec }, hk, ?_, rfl⟩
    rw [exec_append, he]
    simp [exec, Sys.step, Sys.osTmr, hpc1, hu]

/-- The first application is in its last section, and the second one has just made a call. -/
theorem finishes_of_run_waiting : ∃ ts, ∃ s s' : Sys (Fin 2), Run (tasks (Fin 2)) ts s ∧
    s.sem.val = 0 ∧ (s.app 0).Inside ∧ ¬ (s.app 1).Inside ∧ s.app 1 ≠ .idle ∧ s'.app 1 = .idle := by
  obtain ⟨ts, s, hr, hno, hval, hin, hout, hidle⟩ := run_of_exec zeroShm
    (List.replicate 9 (.app (0 : Fin 2) (.startTmr (ofpTxT 7 addr1 10000000)))
      ++ [.app 1 (.isTmrExist none 0)]) (fun _ l => l ≠ .eintr)
    (fun s => s.sem.val = 0 ∧ (s.app 0).Inside ∧ ¬ (s.app 1).Inside ∧ 0 < (s.app 1).left)
    (by decide +kernel)
  obtain ⟨q, k, m, s', -, -, -, hdone⟩ := (finishes_of_run hr hno (.isTmrExist none 0)).1 1
  refine ⟨ts, s, s', hr, hval, hin, hout, fun e => ?_, hdone⟩
  rw [e] at hidle
  exact absurd hidle (Nat.lt_irrefl 0)

end Ofpagent.Timer
