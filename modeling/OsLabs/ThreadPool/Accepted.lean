import OsLabs.ThreadPool.DeathPills

open oslabs.fifo oslabs.run oslabs.census

namespace oslabs.pool

variable {A : Type} {nthreads : Nat} {s s' : State A nthreads}

/-- An accepted action is put while a pill is still to be put. -/
def EarlyPut (s : State A nthreads) (label : Label A nthreads) : Prop :=
  ∀ agent, label = .submit_put agent → s.work_queue.entered.count .death_pill < nthreads

/-- Some action stands behind as many pills as there are workers. -/
def Overtaken (nthreads : Nat) (l : List Job) : Prop :=
  ∃ id, .work id ∈ l ∧ nthreads ≤ (l.take id).count .death_pill

private theorem position_lt {l : List Job} (h : ∀ k id, l[k]? = some (Job.work id) → id = k) {id : Nat}
    (hmem : .work id ∈ l) : id < l.length ∧ l[id]? = some (.work id) := by
  obtain ⟨k, hk⟩ := List.mem_iff_getElem?.mp hmem
  obtain rfl := h k id hk
  exact ⟨(List.getElem?_eq_some_iff.mp hk).1, hk⟩

/-- A new item is overtaken when all pills are in the queue before it. -/
theorem overtaken_concat_iff {l : List Job} {job : Job}
    (h : ∀ k id, (l ++ [job])[k]? = some (Job.work id) → id = k) :
    Overtaken nthreads (l ++ [job]) ↔
      Overtaken nthreads l ∨ job ≠ .death_pill ∧ nthreads ≤ l.count .death_pill := by
  have hfront : ∀ k id, l[k]? = some (Job.work id) → id = k := by
    intro k id hk
    apply h k id
    rw [List.getElem?_append_left (List.getElem?_eq_some_iff.mp hk).1, hk]
  constructor
  · rintro ⟨id, hmem, hpills⟩
    rw [List.mem_append, List.mem_singleton] at hmem
    obtain hold | rfl := hmem
    · have hlt := (position_lt hfront hold).1
      rw [List.take_append_of_le_length hlt.le] at hpills
      exact .inl ⟨id, hold, hpills⟩
    · have hname : id = l.length := h l.length id (by simp)
      rw [hname, List.take_left] at hpills
      exact .inr ⟨by simp, hpills⟩
  · rintro (⟨id, hmem, hpills⟩ | ⟨hjob, hpills⟩)
    · have hlt := (position_lt hfront hmem).1
      refine ⟨id, List.mem_append_left _ hmem, ?_⟩
      rwa [List.take_append_of_le_length hlt.le]
    · cases job with
      | death_pill => exact absurd rfl hjob
      | work id =>
        have hname : id = l.length := h l.length id (by simp)
        refine ⟨id, by simp, ?_⟩
        rwa [hname, List.take_left]

variable [DecidableEq A]

/-- One step lets an action be overtaken exactly when it puts it too late. -/
theorem Sound.overtaken_step {label : Label A nthreads} (h : Sound s)
    (hstep : pool.step s label = some s') :
    ¬ Overtaken nthreads s'.work_queue.entered ↔
      ¬ Overtaken nthreads s.work_queue.entered ∧ EarlyPut s label := by
  have hids := (h.step hstep).accounts.ids
  have hquiet : (∀ agent, label ≠ .submit_put agent) →
      (Overtaken nthreads s'.work_queue.entered ↔ Overtaken nthreads s.work_queue.entered) →
      (¬ Overtaken nthreads s'.work_queue.entered ↔
        ¬ Overtaken nthreads s.work_queue.entered ∧ EarlyPut s label) := by
    intro hlabel hsame
    rw [hsame]
    exact ⟨fun hnot => ⟨hnot, fun agent heq => absurd heq (hlabel agent)⟩, And.left⟩
  cases move_of_step h.joined hstep with
  | same hlabel => exact hquiet hlabel Iff.rfl
  | call hlabel hbefore hafter hjoined => exact hquiet hlabel Iff.rfl
  | @put agent hcall =>
    have hearly : EarlyPut s (.submit_put agent) ↔
        s.work_queue.entered.count .death_pill < nthreads :=
      ⟨fun hput => hput agent rfl, fun hlt _ _ => hlt⟩
    have hconcat : Overtaken nthreads _ ↔ _ := overtaken_concat_iff hids
    rw [hearly, ← Nat.not_le, ← not_or]
    refine not_congr (hconcat.trans (or_congr_right ?_))
    exact ⟨And.right, fun hpills => ⟨by simp, hpills⟩⟩
  | set hlabel hstopped => exact hquiet hlabel Iff.rfl
  | pill hcall hlt =>
    refine hquiet (by simp) ((overtaken_concat_iff hids).trans ?_)
    exact ⟨fun hor => hor.resolve_right fun hand => hand.1 rfl, .inl⟩
  | stop_return hcall hge hafter hjoined => exact hquiet (by simp) Iff.rfl
  | exit hworker hqueue =>
    obtain ⟨hentered, _⟩ := Fifo.dequeue_eq_some hqueue
    exact hquiet (by simp) (by rw [← hentered])
  | run hworker hqueue =>
    obtain ⟨hentered, _⟩ := Fifo.dequeue_eq_some hqueue
    exact hquiet (by simp) (by rw [← hentered])
  | worker_return hworker => exact hquiet (by simp) Iff.rfl

/-- Along a run, no action is overtaken as long as none is put too late. -/
theorem run_overtaken_iff {labels : List (Label A nthreads)}
    (hrun : Run (StepOf step) thread_pool_init labels s) :
    ¬ Overtaken nthreads s.work_queue.entered ↔ EveryStep step EarlyPut thread_pool_init labels := by
  induction hrun with
  | nil =>
    refine ⟨fun _ => everyStep_nil _ _ _, fun _ => ?_⟩
    rintro ⟨id, hmem, _⟩
    simp [thread_pool_init] at hmem
  | snoc hrun hstep ih =>
    rw [everyStep_snoc_iff (run_stepOf_iff.mp hrun), ← ih]
    exact (run_sound hrun).overtaken_step hstep

/-- When all workers have exited, an action put has been executed exactly once
    or never: once if fewer pills than workers stand before it. -/
theorem Sound.executed_once_iff (h : Sound s) (hpos : 0 < nthreads) (hexited : ∀ i, s.worker i = .exited)
    {id : Nat} (hmem : .work id ∈ s.work_queue.entered) :
    s.executed.count id = 1 ↔ (s.work_queue.entered.take id).count .death_pill < nthreads := by
  obtain ⟨before, hleft, hentered, hrest, hcount, hexecuted⟩ := h.exited hexited hpos
  obtain ⟨_, hposition⟩ := position_lt h.accounts.ids hmem
  have hpills : before.count .death_pill + 1 = nthreads := by
    rw [hentered, List.count_append, List.count_cons_self, List.count_eq_zero.mpr hrest] at hcount
    omega
  have hbefore : .work id ∈ before ↔ id < before.length := by
    constructor
    · intro hin
      obtain ⟨k, hk⟩ := List.mem_iff_getElem?.mp hin
      have hlt := (List.getElem?_eq_some_iff.mp hk).1
      have hname := h.accounts.ids k id (by rw [hentered, List.getElem?_append_left hlt, hk])
      omega
    · intro hlt
      rw [hentered, List.getElem?_append_left hlt] at hposition
      exact List.mem_of_getElem? hposition
  have honce : s.executed.count id = 1 ↔ .work id ∈ before := by
    have hle := h.accounts.once id
    rw [← List.count_pos_iff, ← hexecuted]
    omega
  rw [honce, hbefore]
  constructor
  · intro hlt
    have htake : s.work_queue.entered.take id = before.take id := by
      rw [hentered, List.take_append_of_le_length hlt.le]
    have hle := (List.take_sublist id before).count_le .death_pill
    rw [htake]
    omega
  · intro hlt
    by_contra hge
    -- The last pill stands at `before.length`, so the action stands behind it.
    have hne : id ≠ before.length := by
      rintro rfl
      simp [hentered] at hposition
    have hprefix : before ++ [.death_pill] <+: s.work_queue.entered.take id := by
      rw [hentered, List.prefix_take_iff]
      refine ⟨by simp, ?_⟩
      rw [List.length_append, List.length_singleton]
      omega
    have hle := hprefix.sublist.count_le .death_pill
    rw [List.count_append, List.count_singleton_self] at hle
    omega

/-- When `thread_pool_cleanup` has joined the workers, every action for which
    `thread_pool_submit` returned true has been executed exactly once, if and
    only if in the whole run none was put behind the last pill. -/
theorem accepted_executed_iff {labels : List (Label A nthreads)} (hpos : 0 < nthreads)
    (hrun : Run (StepOf step) thread_pool_init labels s) {a : A}
    (hcleaned : s.call (.thread a) = .cleaned) :
    (∀ id, .work id ∈ s.work_queue.entered → s.executed.count id = 1) ↔
      EveryStep step EarlyPut thread_pool_init labels := by
  have h := run_sound hrun
  have hexited := h.joined.exited hcleaned
  rw [← run_overtaken_iff hrun]
  constructor
  · rintro hall ⟨id, hmem, hpills⟩
    have hlt := (h.executed_once_iff hpos hexited hmem).mp (hall id hmem)
    omega
  · intro hnot id hmem
    rw [h.executed_once_iff hpos hexited hmem, ← Nat.not_le]
    exact fun hpills => hnot ⟨id, hmem, hpills⟩

/-- One worker and one action that is submitted and put before the pool stops. -/
theorem accepted_executed_iff_before_stop : ∃ s : State Unit 1,
    Run (StepOf step) thread_pool_init
      [.submit (.thread ()), .submit_put (.thread ()), .cleanup (), .stop_put (.thread ()),
        .stop_put (.thread ()), .worker_get 0, .worker_return 0, .worker_get 0, .join (), .join ()] s ∧
    ((∀ id, .work id ∈ s.work_queue.entered → s.executed.count id = 1) ↔
      EveryStep step EarlyPut (thread_pool_init : State Unit 1)
        [.submit (.thread ()), .submit_put (.thread ()), .cleanup (), .stop_put (.thread ()),
          .stop_put (.thread ()), .worker_get 0, .worker_return 0, .worker_get 0, .join (), .join ()]) := by
  have hrun := run_stepOf_iff.mpr (show exec step (thread_pool_init : State Unit 1)
    [.submit (.thread ()), .submit_put (.thread ()), .cleanup (), .stop_put (.thread ()),
      .stop_put (.thread ()), .worker_get 0, .worker_return 0, .worker_get 0, .join (), .join ()] =
    some _ from rfl)
  exact ⟨_, hrun, accepted_executed_iff (by decide) hrun (a := ()) rfl⟩

/-- A thread finds the pool not stopped. Before it puts its action, another stops
    the pool and puts the only pill. The worker takes the pill and exits, and the
    action stays in the queue, although `thread_pool_submit` returned true. -/
theorem accepted_never_executed :
    ¬ ∀ (labels : List (Label Bool 1)) (s : State Bool 1),
      Run (StepOf step) thread_pool_init labels s → (∃ a, s.call (.thread a) = .cleaned) →
        ∀ id, .work id ∈ s.work_queue.entered → s.executed.count id = 1 := by
  intro hall
  have hrun := run_stepOf_iff.mpr (show exec step (thread_pool_init : State Bool 1)
    [.submit (.thread true), .cleanup false, .stop_put (.thread false), .stop_put (.thread false),
      .submit_put (.thread true), .worker_get 0, .join false, .join false] = some _ from rfl)
  have hcount := hall _ _ hrun ⟨false, rfl⟩ 1 (by decide)
  exact absurd hcount (by decide)

end oslabs.pool
