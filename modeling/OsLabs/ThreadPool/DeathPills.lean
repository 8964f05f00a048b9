import OsLabs.ThreadPool.Stop

open oslabs.fifo oslabs.run oslabs.census

namespace oslabs.pool

variable {A : Type} {nthreads : Nat} {s : State A nthreads}

/-- In a queue whose items are named by their positions, no name occurs twice. -/
theorem count_work_le_one {l : List Job} (h : ∀ k id, l[k]? = some (Job.work id) → id = k) (id : Nat) :
    l.count (.work id) ≤ 1 := by
  induction l using List.reverseRecOn with
  | nil => simp
  | append_singleton l job ih =>
    have hprefix : ∀ k id, l[k]? = some (Job.work id) → id = k := by
      intro k other hk
      apply h k other
      rw [List.getElem?_append_left (List.getElem?_eq_some_iff.mp hk).1, hk]
    rw [List.count_append, List.count_singleton]
    split
    · rename_i heq
      obtain rfl := eq_of_beq heq
      have hname : id = l.length := h l.length id (by simp)
      have hnone : l.count (.work id) = 0 := by
        rw [List.count_eq_zero]
        intro hmem
        obtain ⟨k, hk⟩ := List.mem_iff_getElem?.mp hmem
        have hlt := (List.getElem?_eq_some_iff.mp hk).1
        have hposition := hprefix k id hk
        omega
      omega
    · have hle := ih hprefix
      omega

theorem Accounts.ids_left (h : Accounts s) (k id : Nat)
    (hk : s.work_queue.left[k]? = some (Job.work id)) : id = k := by
  apply h.ids k id
  rw [Fifo.entered_eq_left (List.getElem?_eq_some_iff.mp hk).1, hk]

/-- No action is run by two workers, twice by one, or again once it returned. -/
theorem Accounts.once (h : Accounts s) (id : Nat) : s.executed.count id + runningCount s.worker id ≤ 1 := by
  rw [h.works id]
  exact count_work_le_one h.ids_left id

section Exited

variable (hexited : ∀ i, s.worker i = .exited)
include hexited

theorem exitedCount_of_exited : exitedCount s.worker = nthreads := by
  unfold exitedCount
  rw [show s.worker = fun _ => .exited from funext hexited, tally_const]
  simp

theorem runningCount_of_exited (id : Nat) : runningCount s.worker id = 0 := by
  unfold runningCount
  rw [show s.worker = fun _ => .exited from funext hexited, tally_const]
  simp

/-- The last item the workers took is a pill, for the worker that took it has
    exited and took nothing behind its pill. -/
theorem Accounts.left_last (h : Accounts s) (hpos : 0 < nthreads) :
    ∃ before, s.work_queue.left = before ++ [.death_pill] := by
  obtain ⟨ids, hids⟩ := h.takenBy ⟨0, hpos⟩
  rw [hexited, if_pos rfl] at hids
  obtain hnone | ⟨front, ⟨i, job⟩, hlast⟩ := List.eq_nil_or_concat s.removals
  · simp [State.takenBy, hnone] at hids
  · rw [List.concat_eq_append] at hlast
    obtain ⟨ids', hids'⟩ := h.takenBy i
    rw [hexited, if_pos rfl] at hids'
    have htaken : s.takenBy i = (front.filter (·.1 = i)).map Prod.snd ++ [job] := by
      simp [State.takenBy, hlast]
    have hjob : [job] = [.death_pill] := (List.append_inj' (htaken.symm.trans hids') rfl).2
    refine ⟨front.map Prod.snd, ?_⟩
    rw [← h.left, hlast, List.map_append, List.map_singleton, ← hjob]

/-- When all workers have exited, the queue holds what was put behind the last
    pill, and the actions executed are those put before it. -/
theorem Sound.exited [DecidableEq A] (h : Sound s) (hpos : 0 < nthreads) :
    ∃ before, s.work_queue.left = before ++ [.death_pill] ∧
      s.work_queue.entered = before ++ .death_pill :: s.work_queue.items ∧
      .death_pill ∉ s.work_queue.items ∧
      s.work_queue.entered.count .death_pill = nthreads ∧
      ∀ id, s.executed.count id = before.count (.work id) := by
  obtain ⟨before, hleft⟩ := h.accounts.left_last hexited hpos
  have hentered : s.work_queue.entered = s.work_queue.left ++ s.work_queue.items :=
    s.work_queue.left_append_items.symm
  have htaken : s.work_queue.left.count .death_pill = nthreads := by
    rw [h.accounts.pills, exitedCount_of_exited hexited]
  have hle := h.pills_le
  have hcount := congrArg (List.count Job.death_pill) hentered
  rw [List.count_append] at hcount
  refine ⟨before, hleft, ?_, ?_, by omega, fun id => ?_⟩
  · rw [hentered, hleft, List.append_assoc, List.singleton_append]
  · rw [← List.count_eq_zero]
    omega
  · have hworks := h.accounts.works id
    rw [runningCount_of_exited hexited, hleft, List.count_append] at hworks
    simpa using hworks

end Exited

/-- A caller whose `thread_pool_cleanup` has ended has joined every worker. -/
theorem Joined.exited (h : Joined s) {a : A} (hcleaned : s.call (.thread a) = .cleaned)
    (i : Fin nthreads) : s.worker i = .exited := by
  apply h (.thread a) i
  rw [hcleaned]
  exact i.isLt

variable [DecidableEq A]

/-- The account of the death pills. At most one pill for each worker is ever put,
    and exactly one once `thread_pool_stop` has done its work. A worker takes
    actions and, at last, one pill. No action is executed twice. When
    `thread_pool_cleanup` has joined the workers, the actions executed are those
    put before the last pill, and the queue holds the items put behind it. -/
theorem death_pills {labels : List (Label A nthreads)} (hpos : 0 < nthreads)
    (hrun : Run (StepOf step) thread_pool_init labels s) :
    s.work_queue.entered.count .death_pill ≤ nthreads ∧
      (s.stopped = true → (∀ agent i cleanup, s.call agent ≠ .stopping i cleanup) →
        s.work_queue.entered.count .death_pill = nthreads) ∧
      s.removals.map Prod.snd = s.work_queue.left ∧
      (∀ i, ∃ ids : List Nat, s.takenBy i =
        ids.map Job.work ++ if s.worker i = .exited then [.death_pill] else []) ∧
      (∀ id, s.executed.count id +
        (Finset.univ.filter fun i => s.worker i = .running id).card ≤ 1) ∧
      ((∃ a, s.call (.thread a) = .cleaned) →
        (∀ i, s.worker i = .exited) ∧ s.work_queue.entered.count .death_pill = nthreads ∧
        ∃ before, s.work_queue.entered = before ++ .death_pill :: s.work_queue.items ∧
          .death_pill ∉ s.work_queue.items ∧
          ∀ id, id ∈ s.executed ↔ .work id ∈ before) := by
  have h := run_sound hrun
  refine ⟨h.pills_le, h.pills_eq, h.accounts.left, h.accounts.takenBy, ?_, ?_⟩
  · intro id
    rw [← tally_indicator (fun w => w = .running id) s.worker]
    exact h.accounts.once id
  · rintro ⟨a, hcleaned⟩
    have hexited := h.joined.exited hcleaned
    obtain ⟨before, _, hentered, hrest, hcount, hexecuted⟩ := h.exited hexited hpos
    refine ⟨hexited, hcount, before, hentered, hrest, fun id => ?_⟩
    rw [← List.count_pos_iff, ← List.count_pos_iff, hexecuted]

/-- Two workers, one action, and a cleanup that joins them both. -/
theorem death_pills_joined : ∃ s : State Unit 2,
    Run (StepOf step) thread_pool_init
      [.submit (.thread ()), .submit_put (.thread ()), .cleanup (), .stop_put (.thread ()),
        .worker_get 0, .stop_put (.thread ()), .worker_get 1, .stop_put (.thread ()),
        .worker_return 0, .worker_get 0, .join (), .join (), .join ()] s ∧
    s.call (.thread ()) = .cleaned ∧
    s.work_queue.entered.count .death_pill ≤ 2 ∧
      (s.stopped = true → (∀ agent i cleanup, s.call agent ≠ .stopping i cleanup) →
        s.work_queue.entered.count .death_pill = 2) ∧
      s.removals.map Prod.snd = s.work_queue.left ∧
      (∀ i, ∃ ids : List Nat, s.takenBy i =
        ids.map Job.work ++ if s.worker i = .exited then [.death_pill] else []) ∧
      (∀ id, s.executed.count id +
        (Finset.univ.filter fun i => s.worker i = .running id).card ≤ 1) ∧
      ((∃ a, s.call (.thread a) = .cleaned) →
        (∀ i, s.worker i = .exited) ∧ s.work_queue.entered.count .death_pill = 2 ∧
        ∃ before, s.work_queue.entered = before ++ .death_pill :: s.work_queue.items ∧
          .death_pill ∉ s.work_queue.items ∧
          ∀ id, id ∈ s.executed ↔ .work id ∈ before) := by
  have hrun := run_stepOf_iff.mpr (show exec step (thread_pool_init : State Unit 2)
    [.submit (.thread ()), .submit_put (.thread ()), .cleanup (), .stop_put (.thread ()),
      .worker_get 0, .stop_put (.thread ()), .worker_get 1, .stop_put (.thread ()),
      .worker_return 0, .worker_get 0, .join (), .join (), .join ()] = some _ from rfl)
  exact ⟨_, hrun, rfl, death_pills (by decide) hrun⟩

end oslabs.pool
