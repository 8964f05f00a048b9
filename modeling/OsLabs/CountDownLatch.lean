import Mathlib.Logic.Basic

namespace oslabs.latch

structure countdownlatch where
  counter : Int32
  deriving DecidableEq, Repr

def countdownlatch_init (initial_count : Int32) : countdownlatch :=
  { counter := initial_count }

/-- The section of `countdownlatch_countdown`. It says whether the section calls
    `pthread_cond_broadcast`. -/
def countdownlatch_countdown (cdl : countdownlatch) : countdownlatch × Bool :=
  if cdl.counter > 0 then
    let cdl := { cdl with counter := cdl.counter - 1 }
    (cdl, cdl.counter = 0)
  else (cdl, false)

/-- The loop guard of `countdownlatch_await`. -/
def countdownlatch_await_waits (cdl : countdownlatch) : Bool :=
  cdl.counter > 0

theorem countdownlatch_await_waits_iff (cdl : countdownlatch) :
    countdownlatch_await_waits cdl = true ↔ 0 < cdl.counter.toInt := by
  unfold countdownlatch_await_waits
  rw [decide_eq_true_eq, gt_iff_lt, Int32.lt_iff_toInt_lt, Int32.toInt_zero]

/-- A positive counter goes down by one. -/
theorem toInt_countdown {cdl : countdownlatch} (h : 0 < cdl.counter.toInt) :
    (countdownlatch_countdown cdl).1.counter.toInt = cdl.counter.toInt - 1 := by
  have hpos : cdl.counter > 0 := by
    rw [gt_iff_lt, Int32.lt_iff_toInt_lt, Int32.toInt_zero]
    exact h
  have hlt := cdl.counter.toInt_lt
  have hone : (1 : Int32).toInt = 1 := rfl
  unfold countdownlatch_countdown
  rw [if_pos hpos, Int32.toInt_sub, hone, Int.bmod_eq_of_le]
  · omega
  · omega

/-- The countdown that comes to zero wakes the threads that wait. -/
theorem broadcast_countdown_iff {cdl : countdownlatch} (h : 0 < cdl.counter.toInt) :
    (countdownlatch_countdown cdl).2 = true ↔ (countdownlatch_countdown cdl).1.counter.toInt = 0 := by
  have hpos : cdl.counter > 0 := by
    rw [gt_iff_lt, Int32.lt_iff_toInt_lt, Int32.toInt_zero]
    exact h
  unfold countdownlatch_countdown
  rw [if_pos hpos, decide_eq_true_eq, ← Int32.toInt_inj, Int32.toInt_zero]

/-- A counter that is not positive stays, and nobody is woken. -/
theorem countdown_of_not_pos {cdl : countdownlatch} (h : ¬ 0 < cdl.counter.toInt) :
    countdownlatch_countdown cdl = (cdl, false) := by
  have hnot : ¬ cdl.counter > 0 := by
    rwa [gt_iff_lt, Int32.lt_iff_toInt_lt, Int32.toInt_zero]
  unfold countdownlatch_countdown
  rw [if_neg hnot]

end oslabs.latch
