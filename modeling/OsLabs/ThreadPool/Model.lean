import Mathlib.Logic.Function.Basic
import OsLabs.Lib.Fifo
import OsLabs.Lib.Run

open oslabs.fifo oslabs.run

namespace oslabs.pool

/-- A work item in the queue. An accepted action is named by the number of items
    put before it, so every call of `thread_pool_submit` has an item of its own. -/
inductive Job where
  | death_pill
  | work (id : Nat)
  deriving DecidableEq, Repr

/-- A worker is in its loop, runs the action of an item, or has returned. -/
inductive Worker where
  | looping
  | running (id : Nat)
  | exited
  deriving DecidableEq, Repr

/-- Who calls the pool: a thread outside it, or the action a worker runs. -/
inductive Agent (A : Type) (nthreads : Nat) where
  | thread (a : A)
  | action (i : Fin nthreads)
  deriving DecidableEq, Repr

/-- Where a caller is. In `submitting` it has found the pool not stopped; in
    `stopping` it has set the flag and put `i` pills, and goes on to join the
    workers if it came from `thread_pool_cleanup`. -/
inductive Call where
  | none
  | submitting
  | stopping (i : Nat) (cleanup : Bool)
  | joining (n : Nat)
  | cleaned
  deriving DecidableEq, Repr

/-- A pool. `removals` and `executed` are histories: which worker took which item,
    and the actions that have returned. -/
structure State (A : Type) (nthreads : Nat) where
  stopped : Bool
  work_queue : Fifo Job
  worker : Fin nthreads → Worker
  call : Agent A nthreads → Call
  removals : List (Fin nthreads × Job)
  executed : List Nat

variable {A : Type} {nthreads : Nat} [DecidableEq A]

/-- `thread_pool_init`: the workers start with an empty queue. -/
def thread_pool_init : State A nthreads where
  stopped := false
  work_queue := .empty
  worker _ := .looping
  call _ := .none
  removals := []
  executed := []

/-- Who can make a call now: only an action that runs can. -/
def State.active (s : State A nthreads) : Agent A nthreads → Bool
  | .thread _ => true
  | .action i =>
    match s.worker i with
    | .running _ => true
    | _ => false

def State.setCall (s : State A nthreads) (agent : Agent A nthreads) (call : Call) : State A nthreads :=
  { s with call := Function.update s.call agent call }

def thread_pool_internal_submit (s : State A nthreads) (job : Job) : State A nthreads :=
  { s with work_queue := s.work_queue.enqueue job }

/-- `thread_pool_submit` up to its test of `stopped`. It returns false at once
    when the pool is stopped. -/
def thread_pool_submit (s : State A nthreads) (agent : Agent A nthreads) : State A nthreads :=
  if !s.stopped then s.setCall agent .submitting else s

/-- The rest of `thread_pool_submit`, which then returns true. -/
def thread_pool_submit_put (s : State A nthreads) (agent : Agent A nthreads) : State A nthreads :=
  (thread_pool_internal_submit s (.work s.work_queue.entered.length)).setCall agent .none

/-- `thread_pool_stop` up to its loop: the test and set of `stopped`. -/
def thread_pool_stop (s : State A nthreads) (agent : Agent A nthreads) (cleanup : Bool) :
    State A nthreads :=
  if !s.stopped then { s with stopped := true }.setCall agent (.stopping 0 cleanup)
  else if cleanup then s.setCall agent (.joining 0)
  else s

/-- The loop of `thread_pool_stop`: one pill, or the end of the call. -/
def thread_pool_stop_put (s : State A nthreads) (agent : Agent A nthreads) (i : Nat) (cleanup : Bool) :
    State A nthreads :=
  if i < nthreads then
    (thread_pool_internal_submit s .death_pill).setCall agent (.stopping (i + 1) cleanup)
  else s.setCall agent (if cleanup then .joining 0 else .none)

/-- The loop of `thread_pool_cleanup`. `pthread_join` waits for a worker's end. -/
def thread_pool_cleanup_join (s : State A nthreads) (agent : Agent A nthreads) (n : Nat) :
    Option (State A nthreads) :=
  if h : n < nthreads then
    match s.worker ⟨n, h⟩ with
    | .exited => some (s.setCall agent (.joining (n + 1)))
    | _ => none
  else some (s.setCall agent .cleaned)

/-- The loop of `thread_pool_worker` up to the call of the action. It waits in
    `queue_get` while the queue is empty. -/
def thread_pool_worker (s : State A nthreads) (i : Fin nthreads) : Option (State A nthreads) := do
  let (job, work_queue) ← s.work_queue.dequeue
  let s := { s with work_queue, removals := s.removals ++ [(i, job)] }
  match job with
  | .death_pill => some { s with worker := Function.update s.worker i .exited }
  | .work id => some { s with worker := Function.update s.worker i (.running id) }

/-- The return of the action. -/
def thread_pool_worker_return (s : State A nthreads) (i : Fin nthreads) (id : Nat) : State A nthreads :=
  { s with worker := Function.update s.worker i .looping, executed := s.executed ++ [id] }

inductive Label (A : Type) (nthreads : Nat) where
  | submit (agent : Agent A nthreads)
  | submit_put (agent : Agent A nthreads)
  | stop (agent : Agent A nthreads)
  | stop_put (agent : Agent A nthreads)
  | cleanup (a : A)
  | join (a : A)
  | worker_get (i : Fin nthreads)
  | worker_return (i : Fin nthreads)

/-- The atomic steps of callers and workers. A call begins only when its caller
    is in no other call, and an action returns only when its calls have. -/
def step (s : State A nthreads) : Label A nthreads → Option (State A nthreads)
  | .submit agent =>
    if s.active agent ∧ s.call agent = .none then some (thread_pool_submit s agent) else none
  | .submit_put agent =>
    if s.call agent = .submitting then some (thread_pool_submit_put s agent) else none
  | .stop agent =>
    if s.active agent ∧ s.call agent = .none then some (thread_pool_stop s agent false) else none
  | .stop_put agent =>
    match s.call agent with
    | .stopping i cleanup => some (thread_pool_stop_put s agent i cleanup)
    | _ => none
  | .cleanup a =>
    if s.call (.thread a) = .none then some (thread_pool_stop s (.thread a) true) else none
  | .join a =>
    match s.call (.thread a) with
    | .joining n => thread_pool_cleanup_join s (.thread a) n
    | _ => none
  | .worker_get i =>
    match s.worker i with
    | .looping => thread_pool_worker s i
    | _ => none
  | .worker_return i =>
    match s.worker i with
    | .running id =>
      if s.call (.action i) = .none then some (thread_pool_worker_return s i id) else none
    | _ => none

/-- The number of pills a caller in the loop of `thread_pool_stop` has put. -/
def Call.pills? : Call → Option Nat
  | .stopping i _ => some i
  | _ => Option.none

/-- The number of workers a caller has joined. -/
def Call.joined (nthreads : Nat) : Call → Nat
  | .joining n => n
  | .cleaned => nthreads
  | _ => 0

/-- What a step does, case by case. -/
inductive Move (s : State A nthreads) : Label A nthreads → State A nthreads → Prop where
  | same {label : Label A nthreads} (hlabel : ∀ agent, label ≠ .submit_put agent) : Move s label s
  | call {label : Label A nthreads} {agent : Agent A nthreads} {call : Call}
      (hlabel : ∀ agent, label ≠ .submit_put agent) (hbefore : (s.call agent).pills? = Option.none)
      (hafter : call.pills? = Option.none)
      (hjoined : ∀ j : Fin nthreads, j < call.joined nthreads → s.worker j = .exited) :
      Move s label (s.setCall agent call)
  | put {agent : Agent A nthreads} (hcall : s.call agent = .submitting) :
      Move s (.submit_put agent) (thread_pool_submit_put s agent)
  | set {label : Label A nthreads} {agent : Agent A nthreads} {cleanup : Bool}
      (hlabel : ∀ agent, label ≠ .submit_put agent) (hstopped : s.stopped = false) :
      Move s label ({ s with stopped := true }.setCall agent (.stopping 0 cleanup))
  | pill {agent : Agent A nthreads} {i : Nat} {cleanup : Bool}
      (hcall : s.call agent = .stopping i cleanup) (hlt : i < nthreads) :
      Move s (.stop_put agent)
        ((thread_pool_internal_submit s .death_pill).setCall agent (.stopping (i + 1) cleanup))
  | stop_return {agent : Agent A nthreads} {i : Nat} {cleanup : Bool} {call : Call}
      (hcall : s.call agent = .stopping i cleanup) (hge : nthreads ≤ i)
      (hafter : call.pills? = Option.none) (hjoined : call.joined nthreads = 0) :
      Move s (.stop_put agent) (s.setCall agent call)
  | exit {i : Fin nthreads} {work_queue : Fifo Job} (hworker : s.worker i = .looping)
      (hqueue : s.work_queue.dequeue = some (.death_pill, work_queue)) :
      Move s (.worker_get i) { s with
        work_queue
        removals := s.removals ++ [(i, .death_pill)]
        worker := Function.update s.worker i .exited }
  | run {i : Fin nthreads} {id : Nat} {work_queue : Fifo Job} (hworker : s.worker i = .looping)
      (hqueue : s.work_queue.dequeue = some (.work id, work_queue)) :
      Move s (.worker_get i) { s with
        work_queue
        removals := s.removals ++ [(i, .work id)]
        worker := Function.update s.worker i (.running id) }
  | worker_return {i : Fin nthreads} {id : Nat} (hworker : s.worker i = .running id) :
      Move s (.worker_return i) (thread_pool_worker_return s i id)

/-- The test and set of `stopped`, by a caller that is in no other call. -/
private theorem move_of_stop {s : State A nthreads} {agent : Agent A nthreads} {cleanup : Bool}
    {label : Label A nthreads} (hlabel : ∀ agent, label ≠ .submit_put agent)
    (hcall : s.call agent = .none) : Move s label (thread_pool_stop s agent cleanup) := by
  unfold thread_pool_stop
  split
  · rename_i hopen
    exact .set hlabel (by simpa using hopen)
  · split
    · exact .call hlabel (by rw [hcall]; rfl) rfl (by simp [Call.joined])
    · exact .same hlabel

/-- A worker that joins waits for, one by one, has exited. -/
private theorem move_of_join {s s' : State A nthreads} {agent : Agent A nthreads} {n : Nat}
    {label : Label A nthreads} (hlabel : ∀ agent, label ≠ .submit_put agent)
    (hcall : s.call agent = .joining n)
    (hjoined : ∀ j : Fin nthreads, j < n → s.worker j = .exited)
    (h : thread_pool_cleanup_join s agent n = some s') : Move s label s' := by
  unfold thread_pool_cleanup_join at h
  split at h
  · rename_i hlt
    split at h
    · obtain rfl := Option.some.inj h
      refine .call hlabel (by rw [hcall]; rfl) rfl fun j hj => ?_
      have hle : j.val ≤ n := Nat.lt_succ_iff.mp hj
      obtain heq | hless := Nat.eq_or_lt_of_le hle
      · obtain rfl : j = ⟨n, hlt⟩ := Fin.ext heq
        assumption
      · exact hjoined j hless
    · cases h
  · obtain rfl := Option.some.inj h
    refine .call hlabel (by rw [hcall]; rfl) rfl fun j _ => hjoined j ?_
    omega

/-- Every caller has joined only workers that have exited. -/
def Joined (s : State A nthreads) : Prop :=
  ∀ agent, ∀ j : Fin nthreads, j < (s.call agent).joined nthreads → s.worker j = .exited

theorem move_of_step {s s' : State A nthreads} {label : Label A nthreads} (hjoined : Joined s)
    (h : step s label = some s') : Move s label s' := by
  cases label with
  | submit agent =>
    simp only [step] at h
    split at h
    · obtain ⟨_, hcall⟩ := ‹_ ∧ _›
      obtain rfl := Option.some.inj h
      unfold thread_pool_submit
      split
      · exact .call (by simp) (by rw [hcall]; rfl) rfl (by simp [Call.joined])
      · exact .same (by simp)
    · cases h
  | submit_put agent =>
    simp only [step] at h
    split at h
    · obtain rfl := Option.some.inj h
      exact .put ‹_›
    · cases h
  | stop agent =>
    simp only [step] at h
    split at h
    · obtain ⟨_, hcall⟩ := ‹_ ∧ _›
      obtain rfl := Option.some.inj h
      exact move_of_stop (by simp) hcall
    · cases h
  | stop_put agent =>
    simp only [step] at h
    split at h
    · rename_i i cleanup hcall
      obtain rfl := Option.some.inj h
      unfold thread_pool_stop_put
      split
      · exact .pill hcall ‹_›
      · refine .stop_return hcall (by omega) ?_ ?_
        · split <;> rfl
        · split <;> rfl
    · cases h
  | cleanup a =>
    simp only [step] at h
    split at h
    · obtain rfl := Option.some.inj h
      exact move_of_stop (by simp) ‹_›
    · cases h
  | join a =>
    simp only [step] at h
    split at h
    · rename_i n hcall
      refine move_of_join (by simp) hcall (fun j hj => hjoined (.thread a) j ?_) h
      rw [hcall]
      exact hj
    · cases h
  | worker_get i =>
    simp only [step] at h
    split at h
    · rename_i hworker
      unfold thread_pool_worker at h
      cases hqueue : s.work_queue.dequeue with
      | none => simp [hqueue] at h
      | some result =>
        obtain ⟨job, work_queue⟩ := result
        rw [hqueue] at h
        cases job with
        | death_pill =>
          obtain rfl := Option.some.inj h
          exact .exit hworker hqueue
        | work id =>
          obtain rfl := Option.some.inj h
          exact .run hworker hqueue
    · cases h
  | worker_return i =>
    simp only [step] at h
    split at h
    · split at h
      · obtain rfl := Option.some.inj h
        exact .worker_return ‹_›
      · cases h
    · cases h

end oslabs.pool
