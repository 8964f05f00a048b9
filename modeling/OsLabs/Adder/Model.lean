import Mathlib.Data.Fintype.Basic
import OsLabs.Adder.Partition
import OsLabs.CountDownLatch
import OsLabs.Lib.Fifo
import OsLabs.Lib.Run

open oslabs.fifo oslabs.latch oslabs.loop oslabs.run

namespace oslabs.adder

/-- A task, its pointers as indices into the array. -/
structure sum_task where
  begin : UInt64
  end_ : UInt64
  total : Int64
  deriving DecidableEq, Repr

/-- Where the thread in `par_adder` is: before its pass `n` through the loop that
    submits, before the monitor of `countdownlatch_await`, asleep or woken in it,
    before its pass `i` through the loop that adds up, or back at its caller. -/
inductive Caller where
  | submitting (n : Nat)
  | await
  | waiting
  | woken
  | adding (i : Nat) (total : Int64)
  | returned (total : Int64)
  deriving DecidableEq, Repr

/-- Where a worker of the pool is: in `queue_get`, in the action of somebody else,
    in the loop of `par_func`, or before its call of `countdownlatch_countdown`. -/
inductive Worker where
  | idle
  | foreign
  | summing (n : Fin NTHREADS) (p : UInt64) (total : Int64)
  | counting (n : Fin NTHREADS)
  deriving DecidableEq, Repr

/-- The task a worker works on. -/
def Worker.task? : Worker → Option (Fin NTHREADS)
  | .summing n _ _ | .counting n => some n
  | _ => none

/-- The frame of `par_adder`, and the pool `tpool` it shares with others, whose
    items are `none`. `finished` is a history: the tasks that have done their last
    step on the latch. -/
structure State (W : Type) where
  caller : Caller
  cdl : countdownlatch
  tasks : Fin NTHREADS → sum_task
  work_queue : Fifo (Option (Fin NTHREADS))
  worker : W → Worker
  finished : Finset (Fin NTHREADS)

variable {W : Type} [DecidableEq W]

/-- A pass through the loop of `par_adder` that fills in and submits `tasks[n]`.
    The pool is not stopped, so it accepts the task. -/
def par_adder_submit (nvals : UInt64) (s : State W) (n : Nat) : State W :=
  if h : n < NTHREADS then
    let stask := { s.tasks ⟨n, h⟩ with begin := task_begin nvals ⟨n, h⟩, end_ := task_end nvals ⟨n, h⟩ }
    { s with
      caller := .submitting (n + 1)
      tasks := Function.update s.tasks ⟨n, h⟩ stask
      work_queue := s.work_queue.enqueue (some ⟨n, h⟩) }
  else { s with caller := .await }

/-- The section of `countdownlatch_await`, up to where it sleeps or returns. -/
def par_adder_await (s : State W) : State W :=
  { s with caller := if countdownlatch_await_waits s.cdl then .waiting else .adding 0 0 }

/-- A pass through the last loop of `par_adder`. -/
def par_adder_add (s : State W) (i : Nat) (total : Int64) : State W :=
  if h : i < NTHREADS then { s with caller := .adding (i + 1) (total + (s.tasks ⟨i, h⟩).total) }
  else { s with caller := .returned total }

/-- A pass through the loop of `par_func`, or the store of its total. -/
def par_func_pass (vals : List Int32) (s : State W) (w : W) (n : Fin NTHREADS) (p : UInt64)
    (total : Int64) : Option (State W) :=
  if p < (s.tasks n).end_ then do
    let (p, total) ← add_pass vals (p, total)
    some { s with worker := Function.update s.worker w (.summing n p total) }
  else
    some { s with
      tasks := Function.update s.tasks n { s.tasks n with total }
      worker := Function.update s.worker w (.counting n) }

/-- The section of `countdownlatch_countdown` at the end of `par_func`. -/
def par_func_countdown (s : State W) (w : W) (n : Fin NTHREADS) : State W :=
  let (cdl, broadcast) := countdownlatch_countdown s.cdl
  { s with
    cdl
    caller := if broadcast ∧ s.caller = .waiting then .woken else s.caller
    worker := Function.update s.worker w .idle
    finished := insert n s.finished }

/-- A worker takes an item and starts its action. -/
def worker_get (s : State W) (w : W) : Option (State W) := do
  let (item, work_queue) ← s.work_queue.dequeue
  let place := match item with
    | some n => .summing n (s.tasks n).begin 0
    | none => .foreign
  some { s with work_queue, worker := Function.update s.worker w place }

inductive Label (W : Type) where
  | submit
  | await
  | spurious
  | add
  | foreign_put
  | worker_get (w : W)
  | foreign_return (w : W)
  | par_func_pass (w : W)
  | countdown (w : W)

/-- The atomic steps of the caller, of the workers and of the rest of the program. -/
def step (vals : List Int32) (nvals : UInt64) (s : State W) : Label W → Option (State W)
  | .submit =>
    match s.caller with
    | .submitting n => some (par_adder_submit nvals s n)
    | _ => none
  | .await =>
    match s.caller with
    | .await | .woken => some (par_adder_await s)
    | _ => none
  | .spurious =>
    match s.caller with
    | .waiting => some { s with caller := .woken }
    | _ => none
  | .add =>
    match s.caller with
    | .adding i total => some (par_adder_add s i total)
    | _ => none
  | .foreign_put => some { s with work_queue := s.work_queue.enqueue none }
  | .worker_get w =>
    match s.worker w with
    | .idle => worker_get s w
    | _ => none
  | .foreign_return w =>
    match s.worker w with
    | .foreign => some { s with worker := Function.update s.worker w .idle }
    | _ => none
  | .par_func_pass w =>
    match s.worker w with
    | .summing n p total => par_func_pass vals s w n p total
    | _ => none
  | .countdown w =>
    match s.worker w with
    | .counting n => some (par_func_countdown s w n)
    | _ => none

/-- `par_adder` has initialised its latch, and the pool does not know it yet. What
    is in `tasks` is arbitrary. -/
structure Initial (s : State W) : Prop where
  caller : s.caller = .submitting 0
  cdl : s.cdl = countdownlatch_init (Int32.ofNat NTHREADS)
  work_queue : ∀ n, some n ∉ s.work_queue.items
  worker : ∀ w, (s.worker w).task? = none
  finished : s.finished = ∅

/-- A call of `par_adder` on a pool at rest. -/
def par_adder_start (tasks : Fin NTHREADS → sum_task) : State W where
  caller := .submitting 0
  cdl := countdownlatch_init (Int32.ofNat NTHREADS)
  tasks := tasks
  work_queue := .empty
  worker _ := .idle
  finished := ∅

omit [DecidableEq W] in
theorem par_adder_start_initial (tasks : Fin NTHREADS → sum_task) :
    Initial (par_adder_start tasks : State W) where
  caller := rfl
  cdl := rfl
  work_queue := by simp [par_adder_start, Fifo.items]
  worker _ := rfl
  finished := rfl

/-- What a step does, case by case. -/
inductive Move (vals : List Int32) (nvals : UInt64) (s : State W) : Label W → State W → Prop where
  | submit {n : Fin NTHREADS} (hcaller : s.caller = .submitting n) :
      Move vals nvals s .submit { s with
        caller := .submitting (n + 1)
        tasks := Function.update s.tasks n
          { s.tasks n with begin := task_begin nvals n, end_ := task_end nvals n }
        work_queue := s.work_queue.enqueue (some n) }
  | submitted {n : Nat} (hcaller : s.caller = .submitting n) (hge : NTHREADS ≤ n) :
      Move vals nvals s .submit { s with caller := .await }
  | sleep (hcaller : s.caller = .await ∨ s.caller = .woken)
      (hwaits : countdownlatch_await_waits s.cdl = true) :
      Move vals nvals s .await { s with caller := .waiting }
  | leave (hcaller : s.caller = .await ∨ s.caller = .woken)
      (hwaits : countdownlatch_await_waits s.cdl = false) :
      Move vals nvals s .await { s with caller := .adding 0 0 }
  | spurious (hcaller : s.caller = .waiting) : Move vals nvals s .spurious { s with caller := .woken }
  | add {i : Fin NTHREADS} {total : Int64} (hcaller : s.caller = .adding i total) :
      Move vals nvals s .add { s with caller := .adding (i + 1) (total + (s.tasks i).total) }
  | return {i : Nat} {total : Int64} (hcaller : s.caller = .adding i total) (hge : NTHREADS ≤ i) :
      Move vals nvals s .add { s with caller := .returned total }
  | foreign_put : Move vals nvals s .foreign_put { s with work_queue := s.work_queue.enqueue none }
  | foreign_get {w : W} {work_queue : Fifo (Option (Fin NTHREADS))} (hworker : s.worker w = .idle)
      (hqueue : s.work_queue.dequeue = some (none, work_queue)) :
      Move vals nvals s (.worker_get w)
        { s with work_queue, worker := Function.update s.worker w .foreign }
  | get {w : W} {n : Fin NTHREADS} {work_queue : Fifo (Option (Fin NTHREADS))}
      (hworker : s.worker w = .idle) (hqueue : s.work_queue.dequeue = some (some n, work_queue)) :
      Move vals nvals s (.worker_get w)
        { s with work_queue, worker := Function.update s.worker w (.summing n (s.tasks n).begin 0) }
  | foreign_return {w : W} (hworker : s.worker w = .foreign) :
      Move vals nvals s (.foreign_return w) { s with worker := Function.update s.worker w .idle }
  | pass {w : W} {n : Fin NTHREADS} {p : UInt64} {total : Int64} {next : UInt64 × Int64}
      (hworker : s.worker w = .summing n p total) (hlt : p < (s.tasks n).end_)
      (hpass : add_pass vals (p, total) = some next) :
      Move vals nvals s (.par_func_pass w)
        { s with worker := Function.update s.worker w (.summing n next.1 next.2) }
  | store {w : W} {n : Fin NTHREADS} {p : UInt64} {total : Int64}
      (hworker : s.worker w = .summing n p total) (hge : ¬ p < (s.tasks n).end_) :
      Move vals nvals s (.par_func_pass w) { s with
        tasks := Function.update s.tasks n { s.tasks n with total }
        worker := Function.update s.worker w (.counting n) }
  | countdown {w : W} {n : Fin NTHREADS} (hworker : s.worker w = .counting n) :
      Move vals nvals s (.countdown w) (par_func_countdown s w n)

theorem move_of_step {vals : List Int32} {nvals : UInt64} {s s' : State W} {label : Label W}
    (h : step vals nvals s label = some s') : Move vals nvals s label s' := by
  cases label with
  | submit =>
    simp only [step] at h
    split at h
    · rename_i n hcaller
      obtain rfl := Option.some.inj h
      unfold par_adder_submit
      split
      · rename_i hlt
        exact .submit (n := ⟨n, hlt⟩) hcaller
      · exact .submitted hcaller (by omega)
    · cases h
  | await =>
    have hcaller : s.caller = .await ∨ s.caller = .woken := by
      simp only [step] at h
      split at h
      · exact .inl ‹_›
      · exact .inr ‹_›
      · cases h
    have hawait : par_adder_await s = s' := by
      obtain hcaller | hcaller := hcaller <;> simpa [step, hcaller] using h
    subst hawait
    unfold par_adder_await
    cases hwaits : countdownlatch_await_waits s.cdl with
    | true => exact .sleep hcaller hwaits
    | false => exact .leave hcaller hwaits
  | spurious =>
    simp only [step] at h
    split at h
    · obtain rfl := Option.some.inj h
      exact .spurious ‹_›
    · cases h
  | add =>
    simp only [step] at h
    split at h
    · rename_i i total hcaller
      obtain rfl := Option.some.inj h
      unfold par_adder_add
      split
      · rename_i hlt
        exact .add (i := ⟨i, hlt⟩) hcaller
      · exact .return hcaller (by omega)
    · cases h
  | foreign_put =>
    obtain rfl := Option.some.inj h
    exact .foreign_put
  | worker_get w =>
    simp only [step] at h
    split at h
    · rename_i hworker
      unfold worker_get at h
      cases hqueue : s.work_queue.dequeue with
      | none => simp [hqueue] at h
      | some result =>
        obtain ⟨item, work_queue⟩ := result
        rw [hqueue] at h
        obtain rfl := Option.some.inj h
        cases item with
        | none => exact .foreign_get hworker hqueue
        | some n => exact .get hworker hqueue
    · cases h
  | foreign_return w =>
    simp only [step] at h
    split at h
    · obtain rfl := Option.some.inj h
      exact .foreign_return ‹_›
    · cases h
  | par_func_pass w =>
    simp only [step] at h
    split at h
    · rename_i n p total hworker
      unfold par_func_pass at h
      split at h
      · cases hpass : add_pass vals (p, total) with
        | none => simp [hpass] at h
        | some next =>
          rw [hpass] at h
          obtain rfl := Option.some.inj h
          exact .pass hworker ‹_› hpass
      · obtain rfl := Option.some.inj h
        exact .store hworker ‹_›
    · cases h
  | countdown w =>
    simp only [step] at h
    split at h
    · obtain rfl := Option.some.inj h
      exact .countdown ‹_›
    · cases h

end oslabs.adder
