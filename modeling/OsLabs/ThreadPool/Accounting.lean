import OsLabs.Lib.Tally
import OsLabs.ThreadPool.Model

open oslabs.fifo oslabs.run oslabs.census

namespace oslabs.pool

variable {A : Type} {nthreads : Nat} {s s' : State A nthreads}

/-- How far the pool is on its way to a stop. -/
inductive Phase (A : Type) (nthreads : Nat) where
  | accepting
  | stopping (agent : Agent A nthreads) (i : Nat)
  | stopped

/-- What holds in each phase of the flag, of the callers in the loop of
    `thread_pool_stop`, and of the number of pills ever put. -/
def InPhase [DecidableEq A] (s : State A nthreads) : Phase A nthreads → Prop
  | .accepting =>
    s.stopped = false ∧ (∀ agent, (s.call agent).pills? = none) ∧
      s.work_queue.entered.count .death_pill = 0
  | .stopping agent i =>
    s.stopped = true ∧ (∀ other, (s.call other).pills? = if other = agent then some i else none) ∧
      i ≤ nthreads ∧ s.work_queue.entered.count .death_pill = i
  | .stopped =>
    s.stopped = true ∧ (∀ agent, (s.call agent).pills? = none) ∧
      s.work_queue.entered.count .death_pill = nthreads

/-- What one worker took from the queue, in order. -/
def State.takenBy (s : State A nthreads) (i : Fin nthreads) : List Job :=
  (s.removals.filter (·.1 = i)).map Prod.snd

def exitedCount (worker : Fin nthreads → Worker) : Nat :=
  tally (fun w => if w = .exited then 1 else 0) worker

def runningCount (worker : Fin nthreads → Worker) (id : Nat) : Nat :=
  tally (fun w => if w = .running id then 1 else 0) worker

/-- The workers' accounts of the queue. A worker has taken items and, if it has
    exited, at last one pill. The actions taken have returned or run. -/
structure Accounts (s : State A nthreads) : Prop where
  left : s.removals.map Prod.snd = s.work_queue.left
  takenBy : ∀ i, ∃ ids : List Nat,
    s.takenBy i = ids.map Job.work ++ if s.worker i = .exited then [.death_pill] else []
  pills : s.work_queue.left.count .death_pill = exitedCount s.worker
  works : ∀ id, s.executed.count id + runningCount s.worker id = s.work_queue.left.count (.work id)
  ids : ∀ k id, s.work_queue.entered[k]? = some (Job.work id) → id = k

/-- An item taken from a queue is one more that has left it. -/
private theorem count_left {q q' : Fifo Job} {job : Job} (h : q.dequeue = some (job, q')) (other : Job) :
    q'.left.count other = q.left.count other + if job = other then 1 else 0 := by
  obtain ⟨_, hleft, _⟩ := Fifo.dequeue_eq_some h
  rw [hleft, List.count_append, List.count_singleton]
  simp

theorem Accounts.congr (h : Accounts s) (hremovals : s'.removals = s.removals)
    (hworker : s'.worker = s.worker) (hexecuted : s'.executed = s.executed)
    (hleft : s'.work_queue.left = s.work_queue.left)
    (hids : ∀ k id, s'.work_queue.entered[k]? = some (Job.work id) → id = k) : Accounts s' where
  left := by rw [hremovals, hleft, h.left]
  takenBy i := by rw [State.takenBy, hremovals, hworker]; exact h.takenBy i
  pills := by rw [hleft, hworker, h.pills]
  works id := by rw [hexecuted, hworker, hleft, h.works]
  ids := hids

/-- A new item is named by its position, and a pill has no name. -/
private theorem ids_concat {l : List Job} {job : Job}
    (h : ∀ k id, l[k]? = some (Job.work id) → id = k) (hjob : ∀ id, job = .work id → id = l.length)
    (k id : Nat) (hk : (l ++ [job])[k]? = some (Job.work id)) : id = k := by
  rw [List.getElem?_append] at hk
  split at hk
  · exact h k id hk
  · rw [List.getElem?_singleton] at hk
    split at hk
    · have hname := hjob id (Option.some.inj hk)
      omega
    · cases hk

theorem exitedCount_update (worker : Fin nthreads → Worker) (i : Fin nthreads) (w : Worker) :
    exitedCount (Function.update worker i w) + (if worker i = .exited then 1 else 0) =
      exitedCount worker + if w = .exited then 1 else 0 :=
  tally_update _ worker i w

theorem runningCount_update (worker : Fin nthreads → Worker) (i : Fin nthreads) (w : Worker) (id : Nat) :
    runningCount (Function.update worker i w) id + (if worker i = .running id then 1 else 0) =
      runningCount worker id + if w = .running id then 1 else 0 :=
  tally_update _ worker i w

/-- A worker in its loop takes an item and goes where the item sends it. -/
theorem Accounts.take (h : Accounts s) {i : Fin nthreads} {job : Job} {work_queue : Fifo Job}
    {w : Worker} (hworker : s.worker i = .looping)
    (hqueue : s.work_queue.dequeue = some (job, work_queue))
    (hexited : w = .exited ↔ job = .death_pill) (hrunning : ∀ id, w = .running id ↔ job = .work id) :
    Accounts { s with
      work_queue
      removals := s.removals ++ [(i, job)]
      worker := Function.update s.worker i w } := by
  obtain ⟨hentered, hleft, _⟩ := Fifo.dequeue_eq_some hqueue
  constructor
  · simp [h.left, hleft]
  · intro j
    obtain ⟨ids, hids⟩ := h.takenBy j
    by_cases heq : j = i
    · subst heq
      rw [hworker, if_neg (by simp), List.append_nil] at hids
      have hconcat : (s.removals ++ [(j, job)]).filter (·.1 = j) =
          s.removals.filter (·.1 = j) ++ [(j, job)] := by
        simp
      simp only [State.takenBy, hconcat, List.map_append, Function.update_self] at hids ⊢
      rw [hids]
      cases job with
      | death_pill => exact ⟨ids, by simp [hexited]⟩
      | work id => exact ⟨ids ++ [id], by simp [hexited]⟩
    · have hsame : (s.removals ++ [(i, job)]).filter (·.1 = j) = s.removals.filter (·.1 = j) := by
        simp [Ne.symm heq]
      refine ⟨ids, ?_⟩
      simpa only [State.takenBy, hsame, Function.update_of_ne heq] using hids
  · have hcount := exitedCount_update s.worker i w
    have hpills := h.pills
    rw [hworker] at hcount
    simp only [count_left hqueue, hpills, ← hexited]
    simpa using hcount.symm
  · intro id
    have hcount := runningCount_update s.worker i w id
    have hworks := h.works id
    rw [hworker] at hcount
    simp only [count_left hqueue, ← hworks, ← hrunning]
    simp only [reduceCtorEq, if_false, Nat.add_zero] at hcount
    omega
  · intro k id hk
    exact h.ids k id (by rw [← hentered]; exact hk)

/-- An action that returns has been executed, and runs no longer. -/
theorem Accounts.worker_return (h : Accounts s) {i : Fin nthreads} {id : Nat}
    (hworker : s.worker i = .running id) : Accounts (thread_pool_worker_return s i id) where
  left := h.left
  takenBy j := by
    obtain ⟨ids, hids⟩ := h.takenBy j
    refine ⟨ids, ?_⟩
    by_cases heq : j = i
    · subst heq
      rw [hworker] at hids
      simpa [thread_pool_worker_return, State.takenBy] using hids
    · simpa [thread_pool_worker_return, State.takenBy, heq] using hids
  pills := by
    have hcount := exitedCount_update s.worker i .looping
    have hpills := h.pills
    rw [hworker] at hcount
    simp only [thread_pool_worker_return, hpills]
    simpa using hcount.symm
  works other := by
    have hcount := runningCount_update s.worker i .looping other
    have hworks := h.works other
    rw [hworker] at hcount
    simp only [thread_pool_worker_return, List.count_append, List.count_singleton]
    simp only [Worker.running.injEq, reduceCtorEq, if_false, Nat.add_zero, beq_iff_eq] at hcount ⊢
    omega
  ids := h.ids

theorem accounts_init : Accounts (thread_pool_init : State A nthreads) where
  left := rfl
  takenBy i := ⟨[], rfl⟩
  pills := by simp [thread_pool_init, exitedCount, tally_const]
  works id := by simp [thread_pool_init, runningCount, tally_const]
  ids k id hk := by simp [thread_pool_init] at hk

variable [DecidableEq A]

/-- Every step keeps the accounts in order. -/
theorem Accounts.step {label : Label A nthreads} (h : Accounts s) (hmove : Move s label s') :
    Accounts s' := by
  cases hmove with
  | same hlabel => exact h
  | call hlabel hbefore hafter hjoined => exact h.congr rfl rfl rfl rfl h.ids
  | put hcall => exact h.congr rfl rfl rfl rfl (ids_concat h.ids (by simp))
  | set hlabel hstopped => exact h.congr rfl rfl rfl rfl h.ids
  | pill hcall hlt => exact h.congr rfl rfl rfl rfl (ids_concat h.ids (by simp))
  | stop_return hcall hge hafter hjoined => exact h.congr rfl rfl rfl rfl h.ids
  | exit hworker hqueue => exact h.take hworker hqueue (by simp) (by simp)
  | run hworker hqueue => exact h.take hworker hqueue (by simp) (by simp)
  | worker_return hworker => exact h.worker_return hworker

end oslabs.pool
