import OsLabs.ThreadPool.Accounting

open oslabs.fifo oslabs.run oslabs.census

namespace oslabs.pool

variable {A : Type} {nthreads : Nat} [DecidableEq A] {s s' : State A nthreads}

/-- A caller that leaves no loop over the pills and enters none. -/
private theorem pills?_setCall (s : State A nthreads) {agent : Agent A nthreads} (call : Call)
    (h : call.pills? = (s.call agent).pills?) (other : Agent A nthreads) :
    ((s.setCall agent call).call other).pills? = (s.call other).pills? := by
  by_cases heq : other = agent
  · subst heq
    simp [State.setCall, h]
  · simp [State.setCall, heq]

/-- A pill is being put in one phase only, and by its caller only. -/
private theorem InPhase.eq_stopping {phase : Phase A nthreads} (h : InPhase s phase)
    {agent : Agent A nthreads} {i : Nat} {cleanup : Bool} (hcall : s.call agent = .stopping i cleanup) :
    phase = .stopping agent i := by
  have hpills : (s.call agent).pills? = some i := by rw [hcall]; rfl
  cases phase with
  | accepting => simp [h.2.1 agent] at hpills
  | stopped => simp [h.2.1 agent] at hpills
  | stopping other k =>
    have hother := h.2.1 agent
    rw [hpills] at hother
    split at hother
    · obtain rfl := Option.some.inj hother
      subst agent
      rfl
    · cases hother

/-- What a phase says does not depend on who else calls, nor on the workers. -/
private theorem InPhase.congr {phase : Phase A nthreads} (h : InPhase s phase)
    (hstopped : s'.stopped = s.stopped)
    (hcall : ∀ agent, (s'.call agent).pills? = (s.call agent).pills?)
    (hentered : s'.work_queue.entered.count .death_pill = s.work_queue.entered.count .death_pill) :
    InPhase s' phase := by
  cases phase <;> simpa only [InPhase, hstopped, hcall, hentered] using h

theorem inPhase_init : InPhase (thread_pool_init : State A nthreads) .accepting :=
  ⟨rfl, fun _ => rfl, rfl⟩

/-- Every step leads from phase to phase. -/
theorem InPhase.step {phase : Phase A nthreads} {label : Label A nthreads} (h : InPhase s phase)
    (hmove : Move s label s') : ∃ phase', InPhase s' phase' := by
  cases hmove with
  | same hlabel => exact ⟨phase, h⟩
  | call hlabel hbefore hafter hjoined =>
    exact ⟨phase, h.congr rfl (pills?_setCall s _ (hafter.trans hbefore.symm)) rfl⟩
  | @put agent hcall =>
    refine ⟨phase, h.congr rfl (pills?_setCall s .none ?_) ?_⟩
    · rw [hcall]
      rfl
    · simp [thread_pool_submit_put, thread_pool_internal_submit, State.setCall]
  | @set _ agent cleanup hlabel hstopped =>
    cases phase with
    | accepting =>
      refine ⟨.stopping agent 0, rfl, fun other => ?_, Nat.zero_le _, h.2.2⟩
      by_cases heq : other = agent
      · simp [State.setCall, heq, Call.pills?]
      · simp [State.setCall, heq, h.2.1 other]
    | stopping other i => simp [h.1] at hstopped
    | stopped => simp [h.1] at hstopped
  | @pill agent i cleanup hcall hlt =>
    obtain rfl := h.eq_stopping hcall
    obtain ⟨hstopped, hothers, _, hcount⟩ := h
    refine ⟨.stopping agent (i + 1), hstopped, fun other => ?_, hlt, ?_⟩
    · by_cases heq : other = agent
      · simp [State.setCall, heq, Call.pills?]
      · simpa [State.setCall, heq, thread_pool_internal_submit] using hothers other
    · simp [State.setCall, thread_pool_internal_submit, hcount]
  | @stop_return agent i cleanup call hcall hge hafter hjoined =>
    obtain rfl := h.eq_stopping hcall
    obtain ⟨hstopped, hothers, hle, hcount⟩ := h
    refine ⟨.stopped, hstopped, fun other => ?_, ?_⟩
    · by_cases heq : other = agent
      · simp [State.setCall, heq, hafter]
      · simpa [State.setCall, heq] using hothers other
    · show s.work_queue.entered.count .death_pill = nthreads
      omega
  | exit hworker hqueue =>
    obtain ⟨hentered, _⟩ := Fifo.dequeue_eq_some hqueue
    exact ⟨phase, h.congr rfl (fun _ => rfl) (by rw [hentered])⟩
  | run hworker hqueue =>
    obtain ⟨hentered, _⟩ := Fifo.dequeue_eq_some hqueue
    exact ⟨phase, h.congr rfl (fun _ => rfl) (by rw [hentered])⟩
  | worker_return hworker => exact ⟨phase, h.congr rfl (fun _ => rfl) rfl⟩

omit [DecidableEq A] in
/-- A worker that exits or works on leaves those that have exited as they are. -/
private theorem Joined.worker (h : Joined s) {i : Fin nthreads} {w : Worker}
    (hworker : s.worker i ≠ .exited) (agent : Agent A nthreads) (j : Fin nthreads)
    (hj : j < (s.call agent).joined nthreads) : Function.update s.worker i w j = .exited := by
  have hexited := h agent j hj
  have hne : j ≠ i := fun heq => hworker (heq ▸ hexited)
  rw [Function.update_of_ne hne, hexited]

/-- A caller that has joined no more than it may. -/
private theorem Joined.setCall (h : Joined s) {agent : Agent A nthreads} {call : Call}
    (hjoined : ∀ j : Fin nthreads, j < call.joined nthreads → s.worker j = .exited) :
    Joined (s.setCall agent call) := by
  intro other j hj
  by_cases heq : other = agent
  · subst heq
    exact hjoined j (by simpa [State.setCall] using hj)
  · exact h other j (by simpa [State.setCall, heq] using hj)

omit [DecidableEq A] in
theorem joined_init : Joined (thread_pool_init : State A nthreads) := by
  intro agent j hj
  simp [thread_pool_init, Call.joined] at hj

theorem Joined.step {label : Label A nthreads} (h : Joined s) (hmove : Move s label s') : Joined s' := by
  cases hmove with
  | same hlabel => exact h
  | call hlabel hbefore hafter hjoined => exact h.setCall hjoined
  | put hcall => exact Joined.setCall (s := thread_pool_internal_submit s _) h (by simp [Call.joined])
  | set hlabel hstopped => exact Joined.setCall (s := { s with stopped := true }) h (by simp [Call.joined])
  | pill hcall hlt => exact Joined.setCall (s := thread_pool_internal_submit s _) h (by simp [Call.joined])
  | stop_return hcall hge hafter hjoined => exact h.setCall (by simp [hjoined])
  | exit hworker hqueue => exact h.worker (by simp [hworker])
  | run hworker hqueue => exact h.worker (by simp [hworker])
  | worker_return hworker => exact h.worker (by simp [hworker])

/-- What holds of a pool in every state of every run. -/
structure Sound (s : State A nthreads) : Prop where
  accounts : Accounts s
  phase : ∃ phase, InPhase s phase
  joined : Joined s

theorem sound_init : Sound (thread_pool_init : State A nthreads) :=
  ⟨accounts_init, ⟨_, inPhase_init⟩, joined_init⟩

theorem Sound.step {label : Label A nthreads} (h : Sound s) (hstep : step s label = some s') :
    Sound s' := by
  have hmove := move_of_step h.joined hstep
  obtain ⟨phase, hphase⟩ := h.phase
  exact ⟨h.accounts.step hmove, hphase.step hmove, h.joined.step hmove⟩

theorem run_sound {labels : List (Label A nthreads)}
    (hrun : Run (StepOf step) thread_pool_init labels s) : Sound s :=
  hrun.invariant Sound sound_init fun _ _ _ h hstep => h.step hstep

theorem Sound.pills_le (h : Sound s) : s.work_queue.entered.count .death_pill ≤ nthreads := by
  obtain ⟨phase, hphase⟩ := h.phase
  cases phase with
  | accepting => simp [hphase.2.2]
  | stopping agent i =>
    have hcount := hphase.2.2.2
    have hle := hphase.2.2.1
    omega
  | stopped => exact hphase.2.2.le

/-- Nobody in the loop over the pills has still to put one. -/
theorem Sound.pills_eq (h : Sound s) (hstopped : s.stopped = true)
    (hdone : ∀ agent i cleanup, s.call agent ≠ .stopping i cleanup) :
    s.work_queue.entered.count .death_pill = nthreads := by
  obtain ⟨phase, hphase⟩ := h.phase
  cases phase with
  | accepting => simp [hphase.1] at hstopped
  | stopping agent i =>
    have hcall := hphase.2.1 agent
    rw [if_pos rfl] at hcall
    unfold Call.pills? at hcall
    split at hcall
    · exact absurd ‹_› (hdone agent _ _)
    · cases hcall
  | stopped => exact hphase.2.2

end oslabs.pool
