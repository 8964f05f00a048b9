import Mathlib.Logic.Function.Basic
import OsLabs.CountDownLatch
import OsLabs.Lib.Run

open oslabs.run

namespace oslabs.latch

/-- Where a thread is. In `countdown_enter` and `await_enter` it is about to enter the
    monitor, in `waiting` it sleeps on the condition variable, and in `woken` it sleeps
    no more and competes for the lock. -/
inductive Pc where
  | idle
  | countdown_enter
  | await_enter
  | waiting
  | woken
  deriving DecidableEq, Repr

/-- A latch and the threads that use it. -/
structure State (T : Type) where
  cdl : countdownlatch
  pc : T → Pc

variable {T : Type}

/-- `pthread_cond_broadcast`. -/
def pthread_cond_broadcast (pc : T → Pc) : T → Pc :=
  fun t => if pc t = .waiting then .woken else pc t

variable [DecidableEq T]

/-- `countdownlatch_countdown` in the monitor. -/
def countdown_section (s : State T) (t : T) : State T :=
  let (cdl, broadcast) := countdownlatch_countdown s.cdl
  let pc := if broadcast then pthread_cond_broadcast s.pc else s.pc
  { cdl, pc := Function.update pc t .idle }

/-- `countdownlatch_await` from one test of its guard to the release of the lock, in
    `pthread_cond_wait` or at its end. -/
def await_section (s : State T) (t : T) : State T :=
  { s with pc := Function.update s.pc t (if countdownlatch_await_waits s.cdl then .waiting else .idle) }

/-- The steps of the threads. A step in the monitor is a section during which the
    thread holds the lock, so between steps the lock is free. -/
inductive Label (T : Type) where
  | countdown_begin (t : T)
  | countdown_section (t : T)
  | await_begin (t : T)
  | await_section (t : T)
  | spurious (t : T)

def step (s : State T) : Label T → Option (State T)
  | .countdown_begin t =>
    if s.pc t = .idle then some { s with pc := Function.update s.pc t .countdown_enter } else none
  | .countdown_section t => if s.pc t = .countdown_enter then some (countdown_section s t) else none
  | .await_begin t =>
    if s.pc t = .idle then some { s with pc := Function.update s.pc t .await_enter } else none
  | .await_section t =>
    if s.pc t = .await_enter ∨ s.pc t = .woken then some (await_section s t) else none
  | .spurious t =>
    if s.pc t = .waiting then some { s with pc := Function.update s.pc t .woken } else none

/-- A latch just initialised, with no thread in a call. -/
def start (initial_count : Int32) : State T where
  cdl := countdownlatch_init initial_count
  pc _ := .idle

def Label.isCountdown : Label T → Bool
  | .countdown_section _ => true
  | _ => false

/-- The number of countdowns that are complete. -/
def completed (labels : List (Label T)) : Nat :=
  labels.countP Label.isCountdown

omit [DecidableEq T] in
@[simp] theorem completed_append_singleton (labels : List (Label T)) (label : Label T) :
    completed (labels ++ [label]) = completed labels + if label.isCountdown then 1 else 0 := by
  rw [completed, List.countP_append, List.countP_singleton]
  rfl

theorem pos_iff {x : Int32} : 0 < x ↔ 0 < x.toInt := by
  rw [Int32.lt_iff_toInt_lt, Int32.toInt_zero]

/-- What a latch has counted down to after some countdowns. One that does not start
    above zero stays where it is. -/
def remaining (initial_count : Int) (n : Nat) : Int :=
  if 0 < initial_count then max 0 (initial_count - n) else initial_count

theorem remaining_succ_of_pos {initial_count : Int} {n : Nat} (h : 0 < remaining initial_count n) :
    remaining initial_count (n + 1) = remaining initial_count n - 1 := by
  unfold remaining at *
  split at h
  · omega
  · omega

theorem remaining_succ_of_not_pos {initial_count : Int} {n : Nat}
    (h : ¬ 0 < remaining initial_count n) :
    remaining initial_count (n + 1) = remaining initial_count n := by
  unfold remaining at *
  split at h
  · rw [if_pos ‹_›]
    omega
  · rw [if_neg ‹_›, if_neg ‹_›]

theorem le_of_remaining {initial_count : Int} {n : Nat} (h : ¬ 0 < remaining initial_count n) :
    initial_count ≤ n := by
  unfold remaining at h
  split at h
  · omega
  · omega

/-- The counter is what is left after the countdowns so far. When nothing is left,
    nobody sleeps. -/
structure Counted (initial_count : Int32) (n : Nat) (s : State T) : Prop where
  counter : s.cdl.counter.toInt = remaining initial_count.toInt n
  released : ¬ 0 < s.cdl.counter.toInt → ∀ t, s.pc t ≠ .waiting

variable {initial_count : Int32} {n : Nat} {s s' : State T}

/-- Who sleeps after the move of a thread that does not fall asleep slept before. -/
theorem waiting_of_update {pc : T → Pc} {t u : T} {p : Pc} (hp : p ≠ .waiting)
    (h : Function.update pc t p u = .waiting) : pc u = .waiting := by
  by_cases hu : u = t
  · subst hu
    rw [Function.update_self] at h
    exact absurd h hp
  · rwa [Function.update_of_ne hu] at h

theorem Counted.move (h : Counted initial_count n s) (t : T) {p : Pc} (hp : p ≠ .waiting) :
    Counted initial_count n { s with pc := Function.update s.pc t p } :=
  ⟨h.counter, fun hcount u hu => h.released hcount u (waiting_of_update hp hu)⟩

omit [DecidableEq T] in
theorem broadcast_ne_waiting (pc : T → Pc) (t : T) : pthread_cond_broadcast pc t ≠ .waiting := by
  unfold pthread_cond_broadcast
  split
  · simp
  · assumption

/-- When nothing is left, a countdown does nothing. -/
theorem countdown_section_of_not_pos (t : T) (h : ¬ 0 < s.cdl.counter.toInt) :
    countdown_section s t = { s with pc := Function.update s.pc t .idle } := by
  simp [countdown_section, countdown_of_not_pos h]

/-- The countdown that comes to zero wakes all threads that sleep. -/
theorem Counted.countdown (h : Counted initial_count n s) (t : T) :
    Counted initial_count (n + 1) (countdown_section s t) := by
  by_cases hpos : 0 < s.cdl.counter.toInt
  · have hcounter : (countdown_section s t).cdl.counter.toInt = s.cdl.counter.toInt - 1 :=
      toInt_countdown hpos
    refine ⟨?_, ?_⟩
    · rw [hcounter, remaining_succ_of_pos (h.counter ▸ hpos), h.counter]
    · intro hzero u hu
      have hbroadcast : (countdownlatch_countdown s.cdl).2 = true :=
        (broadcast_countdown_iff hpos).2 (by rw [toInt_countdown hpos]; omega)
      simp only [countdown_section, hbroadcast, if_true] at hu
      exact broadcast_ne_waiting s.pc u (waiting_of_update (by simp) hu)
  · have hmoved := h.move t (p := .idle) (by simp)
    rw [countdown_section_of_not_pos t hpos]
    refine ⟨?_, hmoved.released⟩
    rw [remaining_succ_of_not_pos (h.counter ▸ hpos)]
    exact hmoved.counter

/-- A thread falls asleep only while something is left. -/
theorem Counted.await (h : Counted initial_count n s) (t : T) :
    Counted initial_count n (await_section s t) := by
  unfold await_section
  cases hwaits : countdownlatch_await_waits s.cdl with
  | true =>
    refine ⟨h.counter, fun hcount => ?_⟩
    exact absurd ((countdownlatch_await_waits_iff _).1 hwaits) hcount
  | false => exact h.move t (by simp)

theorem Counted.step {label : Label T} (h : Counted initial_count n s)
    (hstep : step s label = some s') :
    Counted initial_count (n + if label.isCountdown then 1 else 0) s' := by
  cases label with
  | countdown_begin t =>
    obtain ⟨_, hmove⟩ := Option.ite_none_right_eq_some.1 hstep
    obtain rfl := Option.some.inj hmove
    exact h.move t (by simp)
  | countdown_section t =>
    obtain ⟨_, hsection⟩ := Option.ite_none_right_eq_some.1 hstep
    obtain rfl := Option.some.inj hsection
    exact h.countdown t
  | await_begin t =>
    obtain ⟨_, hmove⟩ := Option.ite_none_right_eq_some.1 hstep
    obtain rfl := Option.some.inj hmove
    exact h.move t (by simp)
  | await_section t =>
    obtain ⟨_, hsection⟩ := Option.ite_none_right_eq_some.1 hstep
    obtain rfl := Option.some.inj hsection
    exact h.await t
  | spurious t =>
    obtain ⟨_, hmove⟩ := Option.ite_none_right_eq_some.1 hstep
    obtain rfl := Option.some.inj hmove
    exact h.move t (by simp)

theorem counted_of_run {labels : List (Label T)}
    (hrun : Run (StepOf latch.step) (start initial_count) labels s) :
    Counted initial_count (completed labels) s := by
  induction hrun with
  | nil =>
    refine ⟨?_, fun _ t => by simp [start]⟩
    show initial_count.toInt = remaining initial_count.toInt 0
    unfold remaining
    split
    · omega
    · rfl
  | snoc _ hstep ih =>
    rw [completed_append_singleton]
    exact ih.step hstep

/-- The counter of a latch is what is left after the countdowns that are complete. A
    thread leaves `countdownlatch_await` only when there were as many as the latch was
    set to, nobody sleeps when nothing is left, and countdowns change nothing then. -/
theorem latch_of_run {labels : List (Label T)}
    (hrun : Run (StepOf latch.step) (start initial_count) labels s) :
    (0 < initial_count → s.cdl.counter.toInt = max 0 (initial_count.toInt - completed labels)) ∧
      (¬ 0 < initial_count → s.cdl.counter = initial_count) ∧
      (∀ t s', latch.step s (.await_section t) = some s' → s'.pc t ≠ .waiting →
        initial_count.toInt ≤ completed labels) ∧
      (¬ 0 < s.cdl.counter → ∀ t, s.pc t ≠ .waiting) ∧
      (¬ 0 < s.cdl.counter → ∀ t, countdown_section s t = { s with pc := Function.update s.pc t .idle }) := by
  have hcounted := counted_of_run hrun
  have hcounter := hcounted.counter
  simp only [pos_iff]
  refine ⟨?_, ?_, ?_, hcounted.released, fun hzero t => countdown_section_of_not_pos t hzero⟩
  · intro hpos
    rw [hcounter, remaining, if_pos hpos]
  · intro hneg
    rw [remaining, if_neg hneg] at hcounter
    exact Int32.toInt_inj.1 hcounter
  · intro t s' hstep hleaves
    obtain ⟨_, hsection⟩ := Option.ite_none_right_eq_some.1 hstep
    obtain rfl := Option.some.inj hsection
    apply le_of_remaining
    rw [← hcounter, ← countdownlatch_await_waits_iff]
    intro hwaits
    simp [await_section, hwaits] at hleaves

/-- A thread falls asleep, and another one counts down to zero. -/
theorem latch_of_run_released : ∃ s : State (Fin 2),
    Run (StepOf latch.step) (start 1)
      [.await_begin 0, .await_section 0, .countdown_begin 1, .countdown_section 1] s ∧
      s.cdl.counter.toInt = 0 ∧ s.pc 0 ≠ .waiting := by
  have hrun := run_stepOf_iff.2 (show exec latch.step (start 1 : State (Fin 2))
    [.await_begin 0, .await_section 0, .countdown_begin 1, .countdown_section 1] = some _ from rfl)
  obtain ⟨hcounter, _, _, hreleased, _⟩ := latch_of_run hrun
  exact ⟨_, hrun, hcounter (by decide), hreleased (by decide) 0⟩

end oslabs.latch
