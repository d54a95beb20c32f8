/-
# The time a tick charges

`os_tmr` keeps the microseconds of an instant and not its seconds: the delta of a tick is the
difference of two `tv_usec`, and half a second when that is negative.  So a tick that crosses a second
is charged half a second whatever it took (`tickDeltas_elapsed`), and a timer can only be late.

The clock is added to the tasks of `Tasks.lean` (`clocked`): the steps that call `gettimeofday` read
an instant, and `bgn_time` goes from one to the next.  The deltas of a run are those of the instants
it read (`charged_eq`).
-/
import Ofpagent.Timer.Tasks

namespace Ofpagent.Timer

open Ofpagent.Lib

/-! ## 1. Instants -/

/-- `struct timeval`. -/
structure Timeval where
  tvSec : ℤ
  tvUsec : ℤ
  nonneg : 0 ≤ tvUsec
  lt : tvUsec < sec

/-- The microseconds since the epoch, of which `os_tmr` keeps those of the last second. -/
def Timeval.usecs (t : Timeval) : ℤ := t.tvSec * sec + t.tvUsec

/-- The time from one instant to another. -/
def elapsed (s t : Timeval) : ℤ := t.usecs - s.usecs

/-- Where `os_tmr` calls `gettimeofday`: behind `pause`, and behind `usleep`. -/
inductive Reading
  | first (t : Timeval)
  | second (t : Timeval)

/-- `bgn_time` behind a reading. -/
def Reading.bgnTime : Reading → ℤ
  | first t => t.tvUsec
  | second t => t.tvUsec

/-- The delta a reading ends a tick with. -/
def Reading.delta (bgnTime : ℤ) : Reading → List ℤ
  | first _ => []
  | second t => [tickDelta (t.tvUsec - bgnTime)]

/-- The deltas `os_tmr` computes from these readings. -/
def charge : ℤ → List Reading → List ℤ
  | _, [] => []
  | bgnTime, r :: l => r.delta bgnTime ++ charge r.bgnTime l

/-! ## 2. The tasks with a clock -/

/-- The tasks, with `bgn_time`. -/
structure Clocked (ι : Type*) where
  sys : Sys ι
  bgnTime : ℤ

variable {ι : Type*} [DecidableEq ι]

namespace Clocked

/-- What the timer task reads in its next step, at the instant `now`. -/
def reading (c : Clocked ι) (now : Timeval) : Lab ι → Option Reading
  | .tmr _ =>
    match c.sys.tmr with
    | .inside .retake => some (.first now)
    | .usleep => some (.second now)
    | _ => none
  | _ => none

/-- The difference of the two `tv_usec` is that of `end_time` and `bgn_time`. -/
def lab (c : Clocked ι) (now : Timeval) : Lab ι → Lab ι
  | .tmr _ => .tmr (now.tvUsec - c.bgnTime)
  | l => l

def step (c : Clocked ι) (l : Lab ι × Timeval) : Option (Clocked ι) :=
  (c.sys.step (c.lab l.2 l.1)).map fun s =>
    ⟨s, ((c.reading l.2 l.1).map Reading.bgnTime).getD c.bgnTime⟩

end Clocked

/-- The tasks with a clock.  `bgn_time` is zero until it is read. -/
def clocked (ι : Type*) [DecidableEq ι] : Lts (Clocked ι) (Lab ι × Timeval) where
  init c := ∃ shm, c = ⟨Sys.start shm, 0⟩
  step c l c' := c.step l = some c'

/-- What a run has read, and the deltas its ticks went on with. -/
def readings (ts : List (Transition (Clocked ι) (Lab ι × Timeval))) : List Reading :=
  ts.filterMap fun t => t.pre.reading t.lab.2 t.lab.1

/-- The delta of a tick: the one it enters its loop with, from `usleep`. -/
def chargedStep (t : Transition (Clocked ι) (Lab ι × Timeval)) : Option ℤ :=
  match t.pre.sys.tmr, t.post.sys.tmr with
  | .usleep, .wait (.pop delta) => some delta
  | _, _ => none

def charged (ts : List (Transition (Clocked ι) (Lab ι × Timeval))) : List ℤ :=
  ts.filterMap chargedStep

theorem charge_append (bgnTime : ℤ) (l l' : List Reading) : charge bgnTime (l ++ l') =
    charge bgnTime l ++ charge ((l.getLast?.map Reading.bgnTime).getD bgnTime) l' := by
  induction l generalizing bgnTime with
  | nil => rfl
  | cons q l ih =>
    have hlast : ((q :: l).getLast?.map Reading.bgnTime).getD bgnTime =
        (l.getLast?.map Reading.bgnTime).getD q.bgnTime := by
      cases l with
      | nil => rfl
      | cons p l => rw [List.getLast?_cons_cons, List.getLast?_cons]; rfl
    rw [List.cons_append, charge, charge, ih, hlast, List.append_assoc]

/-- A step of the tasks with a clock is one of the tasks. -/
theorem Clocked.step_sys {c c' : Clocked ι} {l : Lab ι × Timeval} (h : c.step l = some c') :
    c.sys.step (c.lab l.2 l.1) = some c'.sys ∧
      c'.bgnTime = ((c.reading l.2 l.1).map Reading.bgnTime).getD c.bgnTime := by
  obtain ⟨s, hs, rfl⟩ := Option.map_eq_some_iff.mp h
  exact ⟨hs, rfl⟩

theorem clocked_run {ts : List (Transition (Clocked ι) (Lab ι × Timeval))} {c : Clocked ι}
    (h : Run (clocked ι) ts c) : ∃ ts', Run (tasks ι) ts' c.sys := by
  induction h with
  | start h0 =>
    obtain ⟨shm, rfl⟩ := h0
    exact ⟨[], .start ⟨shm, rfl⟩⟩
  | snoc _ hs ih =>
    obtain ⟨ts', hr⟩ := ih
    exact ⟨_, hr.snoc (Clocked.step_sys hs).1⟩

omit [DecidableEq ι] in
/-- A step that leaves the timer task where it is, or does not find it in `usleep`, ends no sleep. -/
theorem chargedStep_eq_none {c c' : Clocked ι} {l : Lab ι × Timeval}
    (h : c'.sys.tmr = c.sys.tmr ∨ c.sys.tmr ≠ .usleep) : chargedStep ⟨c, l, c'⟩ = none := by
  unfold chargedStep
  rcases h with h | h
  · rw [h]
    cases c.sys.tmr <;> rfl
  · split
    · next hpc _ => exact absurd hpc h
    · rfl

omit [DecidableEq ι] in
theorem Clocked.reading_delta_eq_nil {c : Clocked ι} (hpc : c.sys.tmr ≠ .usleep) (now : Timeval)
    (lab : Lab ι) : ((c.reading now lab).map (Reading.delta c.bgnTime)).getD [] = [] := by
  unfold reading
  split
  · split
    · rfl
    · next h => exact absurd h hpc
    · rfl
  · rfl

/-- Only the timer task moves the timer task out of `usleep`, and reads the clock. -/
theorem Sys.step_quiet {s s' : Sys ι} {lab : Lab ι} (h : s.step lab = some s')
    (hlab : ∀ d, lab ≠ .tmr d) : s'.tmr = s.tmr ∨ s.tmr ≠ .usleep := by
  cases lab with
  | tmr d => exact absurd rfl (hlab d)
  | app i a =>
    have hm : AppMove s i a s' := Sys.appl_move h
    cases hm <;> exact .inl rfl
  | deliver =>
    obtain ⟨-, ⟨hpc, -⟩ | ⟨-, rfl⟩⟩ := Sys.deliver_cases h
    · exact .inr (by rw [hpc]; exact TmrPc.noConfusion)
    · exact .inl rfl
  | eintr =>
    obtain ⟨sec, hpc, -⟩ := Sys.eintr_cases h
    exact .inr (by rw [hpc]; exact TmrPc.noConfusion)

omit [DecidableEq ι] in
theorem Clocked.reading_quiet (c : Clocked ι) (now : Timeval) {lab : Lab ι}
    (hlab : ∀ d, lab ≠ .tmr d) : c.reading now lab = none ∧ c.lab now lab = lab := by
  cases lab with
  | tmr d => exact absurd rfl (hlab d)
  | app i a => exact ⟨rfl, rfl⟩
  | deliver => exact ⟨rfl, rfl⟩
  | eintr => exact ⟨rfl, rfl⟩

theorem Sys.osTmr_usleep {s s' : Sys ι} {d : ℤ} (h : s.osTmr d = some s') (hpc : s.tmr = .usleep) :
    s'.tmr = .wait (.pop (tickDelta d)) := by
  cases Sys.osTmr_move h <;> simp_all

/-- The timer task leaves `usleep` into the loop of the tick, with the delta of this reading. -/
theorem chargedStep_eq {c c' : Clocked ι} {l : Lab ι × Timeval} (h : c.step l = some c') :
    (chargedStep ⟨c, l, c'⟩).toList =
      ((c.reading l.2 l.1).map (Reading.delta c.bgnTime)).getD [] := by
  obtain ⟨hs, -⟩ := Clocked.step_sys h
  obtain ⟨lab, now⟩ := l
  by_cases htmr : ∃ d, lab = .tmr d
  · obtain ⟨d, rfl⟩ := htmr
    by_cases hpc : c.sys.tmr = .usleep
    · have hpost := Sys.osTmr_usleep hs hpc
      simp [chargedStep, hpc, hpost, Clocked.reading, Reading.delta]
    · rw [chargedStep_eq_none (.inr hpc), Clocked.reading_delta_eq_nil hpc]
      rfl
  · obtain ⟨hread, hlab⟩ := c.reading_quiet now (not_exists.mp htmr)
    rw [hlab] at hs
    rw [chargedStep_eq_none (Sys.step_quiet hs (not_exists.mp htmr)), hread]
    rfl

/-- **The deltas of a run** are those of the instants it has read. -/
theorem charged_eq {ts : List (Transition (Clocked ι) (Lab ι × Timeval))} {c : Clocked ι}
    (h : Run (clocked ι) ts c) : charged ts = charge 0 (readings ts) ∧
      c.bgnTime = ((readings ts).getLast?.map Reading.bgnTime).getD 0 := by
  induction h with
  | start h0 =>
    obtain ⟨shm, rfl⟩ := h0
    exact ⟨rfl, rfl⟩
  | @snoc ts c c' l _ hs ih =>
    obtain ⟨hcharged, hbgn⟩ := ih
    have hdelta := chargedStep_eq hs
    have hnext := (Clocked.step_sys hs).2
    have hcharged' : charged (ts ++ [⟨c, l, c'⟩]) = charged ts ++ (chargedStep ⟨c, l, c'⟩).toList := by
      rw [charged, charged, List.filterMap_append]
      cases hstep : chargedStep ⟨c, l, c'⟩ <;> simp [hstep]
    have hreadings : readings (ts ++ [⟨c, l, c'⟩]) = readings ts ++ (c.reading l.2 l.1).toList := by
      rw [readings, readings, List.filterMap_append]
      cases hread : c.reading l.2 l.1 <;> simp [hread]
    rw [hcharged', hreadings, hdelta, hcharged, hnext]
    cases hread : c.reading l.2 l.1 with
    | none => simp [hbgn]
    | some r => simp [charge_append, charge, hbgn]

/-! ## 3. What a tick takes -/

/-- The ticks are half a second long, and less than a second. -/
def Paced (b : Timeval) (ticks : List Timeval) : Prop :=
  (b :: ticks).IsChain fun s t => sec / 2 ≤ elapsed s t ∧ elapsed s t < sec

/-- No tick crosses a second, unless it took half a one. -/
def Uncrossed (b : Timeval) (ticks : List Timeval) : Prop :=
  (b :: ticks).IsChain fun s t => s.tvUsec ≤ t.tvUsec ∨ elapsed s t = sec / 2

/-- How long the ticks took. -/
def gaps (b : Timeval) (ticks : List Timeval) : List ℤ := List.zipWith elapsed (b :: ticks) ticks

/-- A tick is charged what it took, or half a second if that crossed a second. -/
theorem tickDelta_elapsed {s t : Timeval} (hmin : sec / 2 ≤ elapsed s t) (hmax : elapsed s t < sec) :
    tickDelta (t.tvUsec - s.tvUsec) = if s.tvUsec ≤ t.tvUsec then elapsed s t else sec / 2 := by
  have hs := s.nonneg
  have hs' := s.lt
  have ht := t.nonneg
  have ht' := t.lt
  simp only [elapsed, Timeval.usecs, sec] at *
  simp only [tickDelta, sec]
  split_ifs <;> omega

theorem sum_gaps (b : Timeval) (ticks : List Timeval) :
    (gaps b ticks).sum = elapsed b (ticks.getLastD b) := by
  induction ticks generalizing b with
  | nil => simp [gaps, elapsed]
  | cons t ticks ih =>
    have hcons : gaps b (t :: ticks) = elapsed b t :: gaps t ticks := rfl
    have hadd : elapsed b t + elapsed t (ticks.getLastD t) = elapsed b (ticks.getLastD t) := by
      simp only [elapsed]
      ring
    rw [hcons, List.sum_cons, ih, hadd, List.getLastD_cons]

/-- The deltas of ticks that follow each other from `b` on. -/
def tickDeltas (b : Timeval) (ticks : List Timeval) : List ℤ :=
  charge b.tvUsec (ticks.map Reading.second)

/-- These are the deltas a run has charged since it read `b` behind `pause`. -/
theorem charged_ticks {ts : List (Transition (Clocked ι) (Lab ι × Timeval))} {c : Clocked ι}
    (h : Run (clocked ι) ts c) {l : List Reading} {b : Timeval} {ticks : List Timeval}
    (hread : readings ts = l ++ .first b :: ticks.map Reading.second) :
    charged ts = charge 0 l ++ tickDeltas b ticks := by
  rw [(charged_eq h).1, hread, charge_append]
  rfl

theorem tickDeltas_cons (b t : Timeval) (ticks : List Timeval) :
    tickDeltas b (t :: ticks) = tickDelta (t.tvUsec - b.tvUsec) :: tickDeltas t ticks := rfl

theorem Paced.cons_iff {b t : Timeval} {ticks : List Timeval} : Paced b (t :: ticks) ↔
    (sec / 2 ≤ elapsed b t ∧ elapsed b t < sec) ∧ Paced t ticks := List.isChain_cons_cons

theorem Uncrossed.cons_iff {b t : Timeval} {ticks : List Timeval} : Uncrossed b (t :: ticks) ↔
    (b.tvUsec ≤ t.tvUsec ∨ elapsed b t = sec / 2) ∧ Uncrossed t ticks := List.isChain_cons_cons

/-- A tick is never charged more than it took, and less exactly when it crossed a second. -/
theorem tickDelta_le {s t : Timeval} (h : sec / 2 ≤ elapsed s t ∧ elapsed s t < sec) :
    tickDelta (t.tvUsec - s.tvUsec) ≤ elapsed s t ∧
      (tickDelta (t.tvUsec - s.tvUsec) = elapsed s t ↔
        s.tvUsec ≤ t.tvUsec ∨ elapsed s t = sec / 2) := by
  rw [tickDelta_elapsed h.1 h.2]
  split_ifs with hle
  · exact ⟨le_rfl, iff_of_true rfl (.inl hle)⟩
  · exact ⟨h.1, by rw [or_iff_right hle, eq_comm]⟩

theorem sum_tickDeltas_le {b : Timeval} {ticks : List Timeval} (h : Paced b ticks) :
    (tickDeltas b ticks).sum ≤ elapsed b (ticks.getLastD b) := by
  rw [← sum_gaps]
  induction ticks generalizing b with
  | nil => rfl
  | cons t ticks ih =>
    obtain ⟨hgap, hrest⟩ := Paced.cons_iff.mp h
    exact add_le_add (tickDelta_le hgap).1 (ih hrest)

/-- The error of a crossing is not made up for by another tick. -/
theorem sum_tickDeltas_iff {b : Timeval} {ticks : List Timeval} (h : Paced b ticks) :
    (tickDeltas b ticks).sum = elapsed b (ticks.getLastD b) ↔ Uncrossed b ticks := by
  induction ticks generalizing b with
  | nil => exact iff_of_true (sum_gaps b []) (List.isChain_singleton b)
  | cons t ticks ih =>
    obtain ⟨hgap, hrest⟩ := Paced.cons_iff.mp h
    obtain ⟨hle, heq⟩ := tickDelta_le hgap
    have htail := sum_tickDeltas_le hrest
    have hadd : elapsed b ((t :: ticks).getLastD b) = elapsed b t + elapsed t (ticks.getLastD t) := by
      rw [List.getLastD_cons]
      simp only [elapsed]
      ring
    rw [tickDeltas_cons, List.sum_cons, hadd, Uncrossed.cons_iff, ← heq, ← ih hrest]
    omega

theorem tickDeltas_eq_gaps_iff {b : Timeval} {ticks : List Timeval} (h : Paced b ticks) :
    tickDeltas b ticks = gaps b ticks ↔ Uncrossed b ticks := by
  induction ticks generalizing b with
  | nil => exact iff_of_true rfl (List.isChain_singleton b)
  | cons t ticks ih =>
    obtain ⟨hgap, hrest⟩ := Paced.cons_iff.mp h
    have hcons : gaps b (t :: ticks) = elapsed b t :: gaps t ticks := rfl
    rw [tickDeltas_cons, hcons, List.cons.injEq, (tickDelta_le hgap).2, ih hrest,
      Uncrossed.cons_iff]

/-- **A tick is charged what it took**, and a run of ticks their whole time, exactly when no tick
crosses a second, or took half a one in doing so. -/
theorem tickDeltas_elapsed {b : Timeval} {ticks : List Timeval} (h : Paced b ticks) :
    (tickDeltas b ticks = gaps b ticks ↔ Uncrossed b ticks) ∧
      ((tickDeltas b ticks).sum = elapsed b (ticks.getLastD b) ↔ Uncrossed b ticks) :=
  ⟨tickDeltas_eq_gaps_iff h, sum_tickDeltas_iff h⟩

/-- An instant of the first seconds. -/
def instant (tvSec tvUsec : ℤ) (h : 0 ≤ tvUsec ∧ tvUsec < sec) : Timeval := ⟨tvSec, tvUsec, h.1, h.2⟩

/-- Three ticks, to 0.6, 1.1 and 1.7 seconds: the second one crosses a second and takes half a one. -/
theorem tickDeltas_elapsed_first :
    tickDeltas (instant 0 0 (by decide)) [instant 0 600000 (by decide), instant 1 100000 (by decide),
      instant 1 700000 (by decide)] = [600000, 500000, 600000] ∧
    (tickDeltas (instant 0 0 (by decide)) [instant 0 600000 (by decide),
      instant 1 100000 (by decide), instant 1 700000 (by decide)]).sum = 1700000 := by
  have hpaced : Paced (instant 0 0 (by decide)) [instant 0 600000 (by decide),
      instant 1 100000 (by decide), instant 1 700000 (by decide)] :=
    Paced.cons_iff.mpr ⟨by decide, Paced.cons_iff.mpr ⟨by decide,
      Paced.cons_iff.mpr ⟨by decide, List.isChain_singleton _⟩⟩⟩
  have huncrossed : Uncrossed (instant 0 0 (by decide)) [instant 0 600000 (by decide),
      instant 1 100000 (by decide), instant 1 700000 (by decide)] :=
    Uncrossed.cons_iff.mpr ⟨by decide, Uncrossed.cons_iff.mpr ⟨by decide,
      Uncrossed.cons_iff.mpr ⟨by decide, List.isChain_singleton _⟩⟩⟩
  exact ⟨(tickDeltas_elapsed hpaced).1.mpr huncrossed, (tickDeltas_elapsed hpaced).2.mpr huncrossed⟩

/-- **A tick from 0.6 to 1.2 seconds** is charged 0.5. -/
theorem tickDeltas_crossed : Paced (instant 0 600000 (by decide)) [instant 1 200000 (by decide)] ∧
    tickDeltas (instant 0 600000 (by decide)) [instant 1 200000 (by decide)] = [500000] ∧
    gaps (instant 0 600000 (by decide)) [instant 1 200000 (by decide)] = [600000] := by
  refine ⟨Paced.cons_iff.mpr ⟨by decide, List.isChain_singleton _⟩, ?_, ?_⟩
  · decide
  · decide

end Ofpagent.Timer
