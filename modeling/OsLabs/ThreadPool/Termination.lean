import Mathlib.Algebra.Order.Ring.Nat
import OsLabs.Lib.Settle
import OsLabs.ThreadPool.DeathPills

open oslabs.census oslabs.fifo oslabs.run

namespace oslabs.pool

variable {A : Type} {nthreads : Nat} [DecidableEq A] {s s' : State A nthreads}

/-- What a step does, with the call its caller is in then. -/
inductive Turn (s : State A nthreads) : Label A nthreads → State A nthreads → Prop where
  | refused {agent : Agent A nthreads} : Turn s (.submit agent) s
  | submit {agent : Agent A nthreads} (hcall : s.call agent = .none) :
      Turn s (.submit agent) (s.setCall agent .submitting)
  | submit_put {agent : Agent A nthreads} (hcall : s.call agent = .submitting) :
      Turn s (.submit_put agent) (thread_pool_submit_put s agent)
  | stop {agent : Agent A nthreads} (hcall : s.call agent = .none) :
      Turn s (.stop agent) ({ s with stopped := true }.setCall agent (.stopping 0 false))
  | stop_again {agent : Agent A nthreads} : Turn s (.stop agent) s
  | cleanup {a : A} (hcall : s.call (.thread a) = .none) :
      Turn s (.cleanup a) ({ s with stopped := true }.setCall (.thread a) (.stopping 0 true))
  | cleanup_again {a : A} (hcall : s.call (.thread a) = .none) :
      Turn s (.cleanup a) (s.setCall (.thread a) (.joining 0))
  | pill {agent : Agent A nthreads} {i : Nat} {cleanup : Bool} (hcall : s.call agent = .stopping i cleanup)
      (hlt : i < nthreads) : Turn s (.stop_put agent)
        ((thread_pool_internal_submit s .death_pill).setCall agent (.stopping (i + 1) cleanup))
  | stop_return {agent : Agent A nthreads} {i : Nat} {cleanup : Bool}
      (hcall : s.call agent = .stopping i cleanup) (hge : nthreads ≤ i) :
      Turn s (.stop_put agent) (s.setCall agent (if cleanup then .joining 0 else .none))
  | join {a : A} {n : Nat} (hcall : s.call (.thread a) = .joining n) (hlt : n < nthreads) :
      Turn s (.join a) (s.setCall (.thread a) (.joining (n + 1)))
  | joined {a : A} {n : Nat} (hcall : s.call (.thread a) = .joining n) (hge : nthreads ≤ n) :
      Turn s (.join a) (s.setCall (.thread a) .cleaned)
  | exit {i : Fin nthreads} {work_queue : Fifo Job} (hworker : s.worker i = .looping)
      (hqueue : s.work_queue.dequeue = some (.death_pill, work_queue)) :
      Turn s (.worker_get i) { s with
        work_queue
        removals := s.removals ++ [(i, .death_pill)]
        worker := Function.update s.worker i .exited }
  | run {i : Fin nthreads} {id : Nat} {work_queue : Fifo Job} (hworker : s.worker i = .looping)
      (hqueue : s.work_queue.dequeue = some (.work id, work_queue)) :
      Turn s (.worker_get i) { s with
        work_queue
        removals := s.removals ++ [(i, .work id)]
        worker := Function.update s.worker i (.running id) }
  | worker_return {i : Fin nthreads} {id : Nat} (hworker : s.worker i = .running id) :
      Turn s (.worker_return i) (thread_pool_worker_return s i id)

theorem turn_of_step {label : Label A nthreads} (h : step s label = some s') : Turn s label s' := by
  cases label with
  | submit agent =>
    obtain ⟨⟨_, hcall⟩, heq⟩ := Option.ite_none_right_eq_some.1 h
    obtain rfl := Option.some.inj heq
    unfold thread_pool_submit
    split
    · exact .submit hcall
    · exact .refused
  | submit_put agent =>
    obtain ⟨hcall, heq⟩ := Option.ite_none_right_eq_some.1 h
    obtain rfl := Option.some.inj heq
    exact .submit_put hcall
  | stop agent =>
    obtain ⟨⟨_, hcall⟩, heq⟩ := Option.ite_none_right_eq_some.1 h
    obtain rfl := Option.some.inj heq
    unfold thread_pool_stop
    split
    · exact .stop hcall
    · exact .stop_again
  | stop_put agent =>
    simp only [step] at h
    split at h
    · rename_i i cleanup hcall
      obtain rfl := Option.some.inj h
      unfold thread_pool_stop_put
      split
      · exact .pill hcall ‹_›
      · exact .stop_return hcall (Nat.not_lt.1 ‹_›)
    · cases h
  | cleanup a =>
    obtain ⟨hcall, heq⟩ := Option.ite_none_right_eq_some.1 h
    obtain rfl := Option.some.inj heq
    unfold thread_pool_stop
    split
    · exact .cleanup hcall
    · exact .cleanup_again hcall
  | join a =>
    simp only [step] at h
    split at h
    · rename_i n hcall
      unfold thread_pool_cleanup_join at h
      split at h
      · split at h
        · obtain rfl := Option.some.inj h
          exact .join hcall ‹_›
        · cases h
      · obtain rfl := Option.some.inj h
        exact .joined hcall (Nat.not_lt.1 ‹_›)
    · cases h
  | worker_get i =>
    simp only [step] at h
    split at h
    · rename_i hworker
      obtain ⟨⟨job, work_queue⟩, hqueue, heq⟩ := Option.bind_eq_some_iff.1 h
      cases job with
      | death_pill =>
        obtain rfl := Option.some.inj heq
        exact .exit hworker hqueue
      | work id =>
        obtain rfl := Option.some.inj heq
        exact .run hworker hqueue
    · cases h
  | worker_return i =>
    simp only [step] at h
    split at h
    · obtain ⟨_, heq⟩ := Option.ite_none_right_eq_some.1 h
      obtain rfl := Option.some.inj heq
      exact .worker_return ‹_›
    · cases h

/-- Whether a call is one of `thread_pool_cleanup`, at whatever point. -/
def Call.cleaning : Call → Bool
  | .stopping _ cleanup => cleanup
  | .joining _ | .cleaned => true
  | _ => false

/-- No action is in a call of `thread_pool_cleanup`. -/
def Kept (s : State A nthreads) : Prop :=
  ∀ i, (s.call (.action i)).cleaning = false

omit [DecidableEq A] in
theorem kept_init : Kept (thread_pool_init : State A nthreads) :=
  fun _ => rfl

/-- A caller that is not an action may clean up, and one that is may not. -/
theorem Kept.setCall (h : Kept s) {agent : Agent A nthreads} {call : Call}
    (hcall : ∀ i, agent = .action i → call.cleaning = false) : Kept (s.setCall agent call) := by
  intro i
  by_cases heq : .action i = agent
  · simpa [State.setCall, heq] using hcall i heq.symm
  · simpa [State.setCall, heq] using h i

theorem Kept.step {label : Label A nthreads} (h : Kept s) (hturn : Turn s label s') : Kept s' := by
  cases hturn with
  | refused | stop_again => exact h
  | submit | submit_put | stop => exact Kept.setCall h fun _ _ => rfl
  | cleanup | cleanup_again | join | joined => exact Kept.setCall h fun _ heq => by cases heq
  | pill hcall hlt =>
    refine Kept.setCall h fun i heq => ?_
    have hbefore := h i
    rwa [← heq, hcall] at hbefore
  | stop_return hcall hge =>
    refine h.setCall fun i heq => ?_
    have hbefore := h i
    rw [← heq, hcall] at hbefore
    obtain rfl : _ = false := hbefore
    rfl
  | exit | run | worker_return => exact h

theorem Turn.stopped {label : Label A nthreads} (hturn : Turn s label s') (h : s.stopped = true) :
    s'.stopped = true := by
  cases hturn with
  | stop | cleanup => rfl
  | _ => exact h

/-- Another caller, or one whose call goes on as one of `thread_pool_cleanup`. -/
private theorem cleaning_setCall {agent : Agent A nthreads} {call : Call}
    (hcall : (s.call agent).cleaning = true → call.cleaning = true) {other : Agent A nthreads}
    (h : (s.call other).cleaning = true) : ((s.setCall agent call).call other).cleaning = true := by
  by_cases heq : other = agent
  · subst heq
    simpa [State.setCall] using hcall h
  · simpa [State.setCall, heq] using h

/-- A call of `thread_pool_cleanup` stays one. -/
theorem Turn.cleaning {label : Label A nthreads} (hturn : Turn s label s') {agent : Agent A nthreads}
    (h : (s.call agent).cleaning = true) : (s'.call agent).cleaning = true := by
  cases hturn with
  | refused | stop_again | exit | run | worker_return => exact h
  | submit hcall => exact cleaning_setCall (by rw [hcall]; simp [Call.cleaning]) h
  | submit_put hcall =>
    exact cleaning_setCall (s := thread_pool_internal_submit s _) (by
      show (s.call _).cleaning = true → _
      rw [hcall]; simp [Call.cleaning]) h
  | stop hcall =>
    exact cleaning_setCall (s := { s with stopped := true }) (by
      show (s.call _).cleaning = true → _
      rw [hcall]; simp [Call.cleaning]) h
  | cleanup | cleanup_again | join | joined => exact cleaning_setCall (fun _ => rfl) h
  | pill hcall hlt =>
    exact cleaning_setCall (s := thread_pool_internal_submit s _) (by
      show (s.call _).cleaning = true → _
      rw [hcall]; exact id) h
  | stop_return hcall hge =>
    refine cleaning_setCall (fun hcleaning => ?_) h
    rw [hcall] at hcleaning
    obtain rfl : _ = true := hcleaning
    rfl

/-- How many steps an item in the queue leads to: it is taken, and an action returns. -/
def Job.steps : Job → Nat
  | .death_pill => 1
  | .work _ => 2

def Worker.steps : Worker → Nat
  | .running _ => 1
  | _ => 0

/-- How many steps a caller has still to make, with those that its items lead to. -/
def Call.steps (nthreads : Nat) : Call → Nat
  | .none | .cleaned => 0
  | .submitting => 3
  | .stopping i cleanup => 2 * (nthreads - i) + 1 + if cleanup then nthreads + 1 else 0
  | .joining n => nthreads - n + 1

instance [Fintype A] : Fintype (Agent A nthreads) :=
  Fintype.ofEquiv (A ⊕ Fin nthreads)
    { toFun := Sum.elim .thread .action
      invFun
        | .thread a => .inl a
        | .action i => .inr i
      left_inv place := by cases place <;> rfl
      right_inv agent := by cases agent <;> rfl }

variable [Fintype A]

/-- How many steps there are still to make, at most, when no call begins. -/
def State.steps (s : State A nthreads) : Nat :=
  tally (Call.steps nthreads) s.call + (s.work_queue.items.map Job.steps).sum + tally Worker.steps s.worker

/-- Who begins to stop the pool or to clean it up in a step. -/
def Label.controller : Label A nthreads → Option (Agent A nthreads)
  | .stop agent => some agent
  | .cleanup a => some (.thread a)
  | _ => none

/-- A step where only one thread stops the pool and cleans it up, which need no lock then for
    their test of `stopped`. -/
def Controlled (controller : Agent A nthreads) (s : State A nthreads) (label : Label A nthreads)
    (s' : State A nthreads) : Prop :=
  StepOf step s label s' ∧ ∀ agent ∈ label.controller, agent = controller

omit [Fintype A] in
theorem run_controlled {controller : Agent A nthreads} {first last : State A nthreads}
    {labels : List (Label A nthreads)} (hrun : Run (StepOf step) first labels last)
    (hlabels : ∀ label ∈ labels, ∀ agent ∈ label.controller, agent = controller) :
    Run (Controlled controller) first labels last := by
  induction hrun with
  | nil => exact .nil
  | snoc _ hstep ih =>
    obtain ⟨hbefore, hlast⟩ := List.forall_mem_append.1 hlabels
    exact (ih hbefore).snoc ⟨hstep, hlast _ (List.mem_singleton_self _)⟩

/-- Whether a step goes on with what has begun. No new call begins with it. -/
def Label.goesOn : Label A nthreads → Bool
  | .submit _ | .stop _ | .cleanup _ => false
  | _ => true

def GoesOn (s : State A nthreads) (label : Label A nthreads) (s' : State A nthreads) : Prop :=
  label.goesOn = true ∧ step s label = some s'

omit [DecidableEq A] [Fintype A] in
theorem steps_dequeue {q q' : Fifo Job} {job : Job} (h : q.dequeue = some (job, q')) :
    (q.items.map Job.steps).sum = job.steps + (q'.items.map Job.steps).sum := by
  obtain ⟨_, _, hitems⟩ := Fifo.dequeue_eq_some h
  rw [hitems, List.map_cons, List.sum_cons]

/-- Every step that goes on with what has begun brings it nearer to its end. -/
theorem Turn.steps_lt {label : Label A nthreads} (hturn : Turn s label s') (hgoes : label.goesOn = true) :
    s'.steps < s.steps := by
  cases hturn with
  | refused | submit | stop | stop_again | cleanup | cleanup_again => cases hgoes
  | @submit_put agent hcall =>
    have htally := tally_update (Call.steps nthreads) s.call agent .none
    simp only [hcall, Call.steps] at htally
    simp only [State.steps, thread_pool_submit_put, thread_pool_internal_submit, State.setCall,
      Fifo.enqueue_items, List.map_append, List.sum_append, List.map_singleton, List.sum_singleton, Job.steps]
    omega
  | @pill agent i cleanup hcall hlt =>
    have htally := tally_update (Call.steps nthreads) s.call agent (.stopping (i + 1) cleanup)
    simp only [hcall, Call.steps] at htally
    simp only [State.steps, thread_pool_internal_submit, State.setCall, Fifo.enqueue_items,
      List.map_append, List.sum_append, List.map_singleton, List.sum_singleton, Job.steps]
    omega
  | @stop_return agent i cleanup hcall hge =>
    have htally := tally_update (Call.steps nthreads) s.call agent (if cleanup then .joining 0 else .none)
    have hafter : (if cleanup then .joining 0 else .none : Call).steps nthreads =
        if cleanup then nthreads + 1 else 0 := by
      cases cleanup <;> rfl
    simp only [hcall, hafter] at htally
    simp only [Call.steps] at htally
    simp only [State.steps, State.setCall]
    omega
  | @join a n hcall hlt =>
    have htally := tally_update (Call.steps nthreads) s.call (.thread a) (.joining (n + 1))
    simp only [hcall, Call.steps] at htally
    simp only [State.steps, State.setCall]
    omega
  | @joined a n hcall hge =>
    have htally := tally_update (Call.steps nthreads) s.call (.thread a) .cleaned
    simp only [hcall, Call.steps] at htally
    simp only [State.steps, State.setCall]
    omega
  | @exit i work_queue hworker hqueue =>
    have hitems := steps_dequeue hqueue
    have htally := tally_update Worker.steps s.worker i .exited
    simp only [hworker, Worker.steps, Job.steps] at htally hitems
    simp only [State.steps]
    omega
  | @run i id work_queue hworker hqueue =>
    have hitems := steps_dequeue hqueue
    have htally := tally_update Worker.steps s.worker i (.running id)
    simp only [hworker, Worker.steps, Job.steps] at htally hitems
    simp only [State.steps]
    omega
  | @worker_return i id hworker =>
    have htally := tally_update Worker.steps s.worker i .looping
    simp only [hworker, Worker.steps] at htally
    simp only [State.steps, thread_pool_worker_return]
    omega

omit [Fintype A] in
theorem step_eq_none (hend : ∀ label s', ¬ GoesOn s label s') {label : Label A nthreads}
    (hgoes : label.goesOn = true) : step s label = none := by
  by_contra hsome
  obtain ⟨s', hstep⟩ := Option.ne_none_iff_exists'.1 hsome
  exact hend label s' ⟨hgoes, hstep⟩

section End

variable (hend : ∀ label s', ¬ GoesOn s label s')
include hend

omit [Fintype A] in
/-- Where nothing goes on, the only calls that have not returned are of `thread_pool_cleanup`. -/
theorem call_of_end (agent : Agent A nthreads) :
    s.call agent = .none ∨ s.call agent = .cleaned ∨ ∃ n, s.call agent = .joining n := by
  cases hcall : s.call agent with
  | none => exact .inl rfl
  | submitting =>
    have hnone : pool.step s (.submit_put agent) = none := step_eq_none hend rfl
    simp only [pool.step, hcall, if_pos, reduceCtorEq] at hnone
  | stopping i cleanup =>
    have hnone : pool.step s (.stop_put agent) = none := step_eq_none hend rfl
    simp only [pool.step, hcall, reduceCtorEq] at hnone
  | joining n => exact .inr (.inr ⟨n, rfl⟩)
  | cleaned => exact .inr (.inl rfl)

omit [Fintype A] in
/-- Where nothing goes on, no worker runs an action, for an action whose calls have returned can
    return. -/
theorem Kept.worker_of_end (h : Kept s) (i : Fin nthreads) : s.worker i = .looping ∨ s.worker i = .exited := by
  cases hworker : s.worker i with
  | looping => exact .inl rfl
  | exited => exact .inr rfl
  | running id =>
    have hkept := h i
    have hcall : s.call (.action i) = .none := by
      obtain hnone | hcleaned | ⟨n, hjoining⟩ := call_of_end hend (.action i)
      · exact hnone
      · rw [hcleaned] at hkept
        cases hkept
      · rw [hjoining] at hkept
        cases hkept
    have hnone : pool.step s (.worker_return i) = none := step_eq_none hend rfl
    simp only [pool.step, hworker, hcall, if_pos, reduceCtorEq] at hnone

omit [Fintype A] in
/-- Where nothing goes on in a pool that is stopped, all workers have exited: there is a pill in
    the queue for each one that has not. -/
theorem Sound.exited_of_end (h : Sound s) (hkept : Kept s) (hstopped : s.stopped = true)
    (i : Fin nthreads) : s.worker i = .exited := by
  refine (hkept.worker_of_end hend i).resolve_left fun hlooping => ?_
  have hpills := h.pills_eq hstopped fun agent k cleanup hcall => by
    obtain hnone | hcleaned | ⟨n, hjoining⟩ := call_of_end hend agent
    · rw [hnone] at hcall
      cases hcall
    · rw [hcleaned] at hcall
      cases hcall
    · rw [hjoining] at hcall
      cases hcall
  have hexited : exitedCount s.worker < nthreads := by
    rw [exitedCount, tally_indicator]
    have hproper : (Finset.univ.filter fun j => s.worker j = .exited) ⊂ Finset.univ :=
      Finset.filter_ssubset.2 ⟨i, Finset.mem_univ i, by simp [hlooping]⟩
    have hfewer := Finset.card_lt_card hproper
    rwa [Finset.card_univ, Fintype.card_fin] at hfewer
  have htaken := h.accounts.pills
  have hentered := congrArg (List.count Job.death_pill) s.work_queue.left_append_items
  rw [List.count_append] at hentered
  have hqueued : Job.death_pill ∈ s.work_queue.items := List.count_pos_iff.1 (by omega)
  obtain ⟨job, jobs, hitems⟩ := List.exists_cons_of_ne_nil (List.ne_nil_of_mem hqueued)
  obtain ⟨work_queue, hdequeue, _⟩ := Fifo.dequeue_of_items_eq_cons hitems
  have hnone : pool.step s (.worker_get i) = none := step_eq_none hend rfl
  cases job with
  | death_pill | work =>
    simp only [pool.step, hlooping, thread_pool_worker, hdequeue, Option.bind_eq_bind, Option.bind_some,
      reduceCtorEq] at hnone

end End

/-- A pool that one thread has stopped comes to rest, from wherever it is and however its callers
    and workers are interleaved, once no new call begins: all workers exit, every call returns, every
    `thread_pool_cleanup` has joined all workers, and the actions executed are those put before
    the last pill. -/
theorem cleanup_settles {controller : Agent A nthreads} {labels : List (Label A nthreads)}
    (hpos : 0 < nthreads) (hrun : Run (Controlled controller) thread_pool_init labels s)
    (hstopped : s.stopped = true) :
    Settles GoesOn (fun last =>
      (∀ i, last.worker i = .exited) ∧
      (∀ agent, last.call agent = .none ∨ last.call agent = .cleaned) ∧
      (∀ agent, (s.call agent).cleaning = true → last.call agent = .cleaned) ∧
      ∃ before, last.work_queue.entered = before ++ .death_pill :: last.work_queue.items ∧
        .death_pill ∉ last.work_queue.items ∧ ∀ id, last.executed.count id = before.count (.work id))
      s s.steps := by
  have hrun := hrun.mono fun _ _ _ h => h.1
  have hkept := hrun.invariant Kept kept_init fun _ _ _ h hstep => h.step (turn_of_step hstep)
  refine settles_of_measure
    (fun last => Sound last ∧ Kept last ∧ last.stopped = true ∧
      ∀ agent, (s.call agent).cleaning = true → (last.call agent).cleaning = true)
    State.steps ?_ ?_ ⟨run_sound hrun, hkept, hstopped, fun _ h => h⟩
  · rintro s label s' ⟨hsound, hkept, hstopped, hcleaning⟩ ⟨hgoes, hstep⟩
    have hturn := turn_of_step hstep
    exact ⟨⟨hsound.step hstep, hkept.step hturn, hturn.stopped hstopped,
      fun agent h => hturn.cleaning (hcleaning agent h)⟩, hturn.steps_lt hgoes⟩
  · rintro last ⟨hsound, hkept, hstopped, hcleaning⟩ hend
    have hexited := hsound.exited_of_end hend hkept hstopped
    -- A caller in `pthread_join` can go on, for all workers have exited.
    have hcall : ∀ agent, last.call agent = .none ∨ last.call agent = .cleaned := by
      intro agent
      obtain hnone | hcleaned | ⟨n, hjoining⟩ := call_of_end hend agent
      · exact .inl hnone
      · exact .inr hcleaned
      · cases agent with
        | action i =>
          have hkept := hkept i
          rw [hjoining] at hkept
          cases hkept
        | thread a =>
          have hnone : pool.step last (.join a) = none := step_eq_none hend rfl
          simp only [pool.step, hjoining, thread_pool_cleanup_join, hexited] at hnone
          split at hnone <;> cases hnone
    refine ⟨hexited, hcall, fun agent h => (hcall agent).resolve_left fun hnone => ?_, ?_⟩
    · have hcleaning := hcleaning agent h
      rw [hnone] at hcleaning
      cases hcleaning
    · obtain ⟨before, _, hentered, hleft, _, hexecuted⟩ := hsound.exited hexited hpos
      exact ⟨before, hentered, hleft, hexecuted⟩

/-- Two workers, of which one runs an action that submits another while the pool is cleaned up. -/
theorem cleanup_settles_submitting : ∃ s : State Unit 2,
    Run (Controlled (.thread ())) thread_pool_init
      [.submit (.thread ()), .submit_put (.thread ()), .worker_get 1, .submit (.action 1),
        .cleanup (), .stop_put (.thread ())] s ∧
    s.call (.action 1) = .submitting ∧ s.steps = 11 ∧
    Settles GoesOn (fun last =>
      (∀ i, last.worker i = .exited) ∧
      (∀ agent, last.call agent = .none ∨ last.call agent = .cleaned) ∧
      (∀ agent, (s.call agent).cleaning = true → last.call agent = .cleaned) ∧
      ∃ before, last.work_queue.entered = before ++ .death_pill :: last.work_queue.items ∧
        .death_pill ∉ last.work_queue.items ∧ ∀ id, last.executed.count id = before.count (.work id))
      s s.steps := by
  have hrun := run_stepOf_iff.mpr (show exec step (thread_pool_init : State Unit 2)
    [.submit (.thread ()), .submit_put (.thread ()), .worker_get 1, .submit (.action 1),
      .cleanup (), .stop_put (.thread ())] = some _ from rfl)
  have hcontrolled : Run (Controlled (.thread ())) _ _ _ := run_controlled hrun (by simp [Label.controller])
  exact ⟨_, hcontrolled, rfl, by decide, cleanup_settles (by decide) hcontrolled rfl⟩

end oslabs.pool
