import OsLabs.Lib.Crew
import OsLabs.Net.EndOfFile
import OsLabs.Net.Endings
import OsLabs.ThreadPool.DeathPills

open oslabs.fifo oslabs.memory oslabs.loop oslabs.run oslabs.census
open oslabs.async (BUFSIZE QUIT received)

namespace oslabs.net.thread_pool

abbrev NTHREADS : Nat := 8

/-- The process: its pool, in which the main thread is the only caller from outside, and the
    loops over the connections that workers have begun with, by the numbers of their items. -/
structure Process where
  tpool : pool.State Unit NTHREADS
  loops : Nat → Option (Flow State)
  exited : Bool

/-- The main thread has accepted a connection and submits it, in two parts; a worker takes one,
    with whatever its stack holds; it passes through the loop over the connection; and it goes
    back to the pool. -/
inductive Label where
  | accept
  | submit_put
  | worker_get (i : Fin NTHREADS) (buf : Memory)
  | pass (i : Fin NTHREADS)
  | worker_return (i : Fin NTHREADS)

def returned : Flow State → Bool
  | .leave c => c.ending = some .returned
  | .again _ => false

def main_thread : pool.Agent Unit NTHREADS := .thread ()

/-- The atomic steps of the server's threads. Nothing happens when the process has exited. -/
def step (inputs : Nat → Input) (p : Process) : Label → Option Process
  | .accept =>
    if p.exited then none
    else (pool.step p.tpool (.submit main_thread)).map fun tpool => { p with tpool }
  | .submit_put =>
    if p.exited then none
    else (pool.step p.tpool (.submit_put main_thread)).map fun tpool => { p with tpool }
  | .worker_get i buf =>
    if p.exited then none
    else (pool.step p.tpool (.worker_get i)).map fun tpool =>
      match tpool.worker i with
      | .running id => { p with tpool, loops := Function.update p.loops id (some (.again (start buf))) }
      | _ => { p with tpool }
  | .pass i =>
    if p.exited then none
    else
      match p.tpool.worker i with
      | .running id =>
        match p.loops id with
        | some (.again c) =>
          let flow := process_connection (inputs id) c
          some { p with loops := Function.update p.loops id (some flow), exited := exits flow }
        | _ => none
      | _ => none
  | .worker_return i =>
    if p.exited then none
    else
      match p.tpool.worker i with
      | .running id =>
        if (p.loops id).any returned then
          (pool.step p.tpool (.worker_return i)).map fun tpool => { p with tpool }
        else none
      | _ => none

/-- The server behind `thread_pool_init`. -/
def init : Process where
  tpool := pool.thread_pool_init
  loops _ := none
  exited := false

variable {inputs : Nat → Input} {p p' : Process} {label : Label} {i : Fin NTHREADS} {id : Nat}

section Pool

variable {s : pool.State Unit NTHREADS}

/-- A pool that was not stopped has no pills. -/
theorem no_pills (h : pool.Sound s) (haccepting : s.stopped = false) :
    .death_pill ∉ s.work_queue.entered := by
  obtain ⟨phase, hphase⟩ := h.phase
  cases phase with
  | accepting => exact List.count_eq_zero.1 hphase.2.2
  | stopping => exact absurd (haccepting.symm.trans hphase.1) Bool.false_ne_true
  | stopped => exact absurd (haccepting.symm.trans hphase.1) Bool.false_ne_true

/-- The items left are named by the order in which they entered. -/
theorem getElem?_left (h : pool.Sound s) (haccepting : s.stopped = false) {k : Nat} {job : pool.Job}
    (hk : s.work_queue.left[k]? = some job) : job = .work k := by
  cases job with
  | work id => rw [h.accounts.ids_left k id hk]
  | death_pill =>
    have hentered := s.work_queue.left_prefix.subset (List.mem_of_getElem? hk)
    exact absurd hentered (no_pills h haccepting)

theorem mem_left_iff (h : pool.Sound s) (haccepting : s.stopped = false) (id : Nat) :
    .work id ∈ s.work_queue.left ↔ id < s.work_queue.left.length := by
  constructor
  · intro hmem
    obtain ⟨k, hk⟩ := List.mem_iff_getElem?.1 hmem
    obtain rfl := h.accounts.ids_left k id hk
    exact (List.getElem?_eq_some_iff.1 hk).1
  · intro hlt
    have hget := List.getElem?_eq_getElem hlt
    exact List.mem_of_getElem? (hget.trans (congrArg some (getElem?_left h haccepting hget)))

theorem left_eq (h : pool.Sound s) (haccepting : s.stopped = false) :
    s.work_queue.left = (List.range s.work_queue.left.length).map .work := by
  apply List.ext_getElem?
  intro k
  by_cases hk : k < s.work_queue.left.length
  · have hget := List.getElem?_eq_getElem hk
    have hjob := getElem?_left h haccepting hget
    rw [hget, hjob]
    simp [hk]
  · rw [List.getElem?_eq_none (Nat.not_lt.1 hk), List.getElem?_eq_none (by simpa using Nat.not_lt.1 hk)]

/-- The item that is taken next. -/
theorem dequeue_eq (h : pool.Sound s) (haccepting : s.stopped = false) {job : pool.Job}
    {work_queue : Fifo pool.Job} (hqueue : s.work_queue.dequeue = some (job, work_queue)) :
    job = .work s.work_queue.left.length := by
  obtain ⟨_, _, hitems⟩ := Fifo.dequeue_eq_some hqueue
  have hget : s.work_queue.entered[s.work_queue.left.length]? = some job := by
    rw [← s.work_queue.left_append_items, hitems]
    simp
  cases job with
  | work id => rw [h.accounts.ids _ id hget]
  | death_pill => exact absurd (List.mem_of_getElem? hget) (no_pills h haccepting)

/-- A worker that runs an action has taken it. -/
theorem mem_left_of_running (h : pool.Sound s) {i : Fin NTHREADS} {id : Nat}
    (hworker : s.worker i = .running id) : .work id ∈ s.work_queue.left := by
  have hone : 1 ≤ pool.runningCount s.worker id := by
    have hweight := weight_le_tally (fun w => if w = pool.Worker.running id then 1 else 0) s.worker i
    rwa [if_pos hworker] at hweight
  have hworks := h.accounts.works id
  rw [← List.count_pos_iff]
  omega

/-- An action that was taken has returned, or a worker runs it. -/
theorem executed_or_running (h : pool.Sound s) {id : Nat} (hid : .work id ∈ s.work_queue.left) :
    id ∈ s.executed ∨ ∃ i, s.worker i = .running id := by
  by_cases hexecuted : id ∈ s.executed
  · exact .inl hexecuted
  · have hworks := h.accounts.works id
    rw [List.count_eq_zero.2 hexecuted] at hworks
    have hcount := List.count_pos_iff.2 hid
    obtain ⟨i, hi⟩ := exists_of_tally_pos (show 0 < pool.runningCount s.worker id by omega)
    refine .inr ⟨i, ?_⟩
    by_contra hnot
    rw [if_neg hnot] at hi
    exact absurd hi (Nat.lt_irrefl 0)

theorem worker_ne_exited (h : pool.Sound s) (haccepting : s.stopped = false) (i : Fin NTHREADS) :
    s.worker i ≠ .exited := by
  intro hexited
  have hone : 1 ≤ pool.exitedCount s.worker := by
    have hweight := weight_le_tally (fun w => if w = pool.Worker.exited then 1 else 0) s.worker i
    rwa [if_pos hexited] at hweight
  have hleft : s.work_queue.left.count .death_pill = 0 :=
    List.count_eq_zero.2 fun hmem => no_pills h haccepting (s.work_queue.left_prefix.subset hmem)
  have hpills := h.accounts.pills
  omega

/-- No two workers run one action, and none that has returned. -/
theorem running_unique (h : pool.Sound s) {i j : Fin NTHREADS} {id : Nat} (hi : s.worker i = .running id)
    (hj : s.worker j = .running id) : i = j := by
  have honce := h.accounts.once id
  unfold pool.runningCount at honce
  rw [tally_indicator] at honce
  have hone : (Finset.univ.filter fun t => s.worker t = .running id).card ≤ 1 := by omega
  refine Finset.card_le_one.1 hone i ?_ j ?_
  · exact Finset.mem_filter.2 ⟨Finset.mem_univ i, hi⟩
  · exact Finset.mem_filter.2 ⟨Finset.mem_univ j, hj⟩

end Pool

/-- What a step does, case by case, while the pool is not stopped. -/
inductive Move (inputs : Nat → Input) (p : Process) : Label → Process → Prop where
  | accept (hcall : p.tpool.call main_thread = .none) :
      Move inputs p .accept { p with tpool := p.tpool.setCall main_thread .submitting }
  | put (hcall : p.tpool.call main_thread = .submitting) :
      Move inputs p .submit_put { p with tpool := pool.thread_pool_submit_put p.tpool main_thread }
  | get {i : Fin NTHREADS} {buf : Memory} {id : Nat} {work_queue : Fifo pool.Job}
      (hworker : p.tpool.worker i = .looping)
      (hqueue : p.tpool.work_queue.dequeue = some (.work id, work_queue)) :
      Move inputs p (.worker_get i buf) { p with
        tpool := { p.tpool with
          work_queue
          removals := p.tpool.removals ++ [(i, .work id)]
          worker := Function.update p.tpool.worker i (.running id) }
        loops := Function.update p.loops id (some (.again (start buf))) }
  | pass {i : Fin NTHREADS} {id : Nat} {c : State} (hworker : p.tpool.worker i = .running id)
      (hloop : p.loops id = some (.again c)) :
      Move inputs p (.pass i) { p with
        loops := Function.update p.loops id (some (process_connection (inputs id) c))
        exited := exits (process_connection (inputs id) c) }
  | worker_return {i : Fin NTHREADS} {id : Nat} {c : State} (hworker : p.tpool.worker i = .running id)
      (hloop : p.loops id = some (.leave c)) (hending : c.ending = some .returned) :
      Move inputs p (.worker_return i) { p with tpool := pool.thread_pool_worker_return p.tpool i id }

/-- What holds of the process in every state of every run. Nobody stops the pool, and the
    loop over a connection is one that `process_connection` would come to alone. -/
structure Sound (inputs : Nat → Input) (p : Process) : Prop where
  tpool : pool.Sound p.tpool
  accepting : p.tpool.stopped = false
  main : p.tpool.call main_thread = .none ∨ p.tpool.call main_thread = .submitting
  actions : ∀ i, p.tpool.call (.action i) = .none
  begun : ∀ id, (p.loops id).isSome ↔ .work id ∈ p.tpool.work_queue.left
  alone : ∀ id flow, p.loops id = some flow →
    ∃ buf n, flow = forLoop (process_connection (inputs id)) n (start buf)
  served : ∀ id ∈ p.tpool.executed, ∃ c, p.loops id = some (.leave c) ∧ c.ending = some .returned
  live : p.exited = false → ∀ id c, p.loops id = some (.leave c) → c.ending = some .returned

@[simp] theorem setCall_main (s : pool.State Unit NTHREADS) (call : pool.Call) :
    (s.setCall main_thread call).call main_thread = call := by
  simp [pool.State.setCall]

@[simp] theorem setCall_action (s : pool.State Unit NTHREADS) (call : pool.Call) (i : Fin NTHREADS) :
    (s.setCall main_thread call).call (.action i) = s.call (.action i) := by
  simp [pool.State.setCall, main_thread]

theorem sound_init : Sound inputs init where
  tpool := pool.sound_init
  accepting := rfl
  main := .inl rfl
  actions _ := rfl
  begun id := by simp [init, pool.thread_pool_init]
  alone id flow h := by cases h
  served id h := by cases h
  live _ id c h := by cases h

theorem move_of_step (h : Sound inputs p) (hstep : step inputs p label = some p') :
    p.exited = false ∧ Move inputs p label p' := by
  have hlive : ¬ p.exited = true := by
    intro hexited
    cases label <;> simp [step, hexited] at hstep
  refine ⟨Bool.eq_false_iff.2 hlive, ?_⟩
  cases label with
  | accept =>
    rw [step, if_neg hlive] at hstep
    obtain ⟨tpool, htpool, rfl⟩ := Option.map_eq_some_iff.1 hstep
    simp only [pool.step] at htpool
    split at htpool
    · obtain ⟨_, hcall⟩ := ‹_ ∧ _›
      obtain rfl := Option.some.inj htpool
      rw [pool.thread_pool_submit, h.accepting, Bool.not_false, if_pos rfl]
      exact .accept hcall
    · cases htpool
  | submit_put =>
    rw [step, if_neg hlive] at hstep
    obtain ⟨tpool, htpool, rfl⟩ := Option.map_eq_some_iff.1 hstep
    simp only [pool.step] at htpool
    split at htpool
    · obtain rfl := Option.some.inj htpool
      exact .put ‹_›
    · cases htpool
  | worker_get i buf =>
    rw [step, if_neg hlive] at hstep
    obtain ⟨tpool, htpool, rfl⟩ := Option.map_eq_some_iff.1 hstep
    simp only [pool.step] at htpool
    split at htpool
    · rename_i hworker
      obtain ⟨⟨job, work_queue⟩, hqueue, hjob⟩ := Option.bind_eq_some_iff.1 htpool
      obtain rfl := dequeue_eq h.tpool h.accepting hqueue
      obtain rfl := Option.some.inj hjob
      simp only [Function.update_self]
      exact .get hworker hqueue
    · cases htpool
  | pass i =>
    rw [step, if_neg hlive] at hstep
    split at hstep
    · split at hstep
      · obtain rfl := Option.some.inj hstep
        exact .pass ‹_› ‹_›
      · cases hstep
    · cases hstep
  | worker_return i =>
    rw [step, if_neg hlive] at hstep
    split at hstep
    · rename_i id hworker
      split at hstep
      · rename_i hreturned
        obtain ⟨tpool, htpool, rfl⟩ := Option.map_eq_some_iff.1 hstep
        simp only [pool.step, hworker] at htpool
        obtain rfl := Option.some.inj (Option.ite_none_right_eq_some.1 htpool).2
        obtain ⟨flow, hloop, hflow⟩ := (Option.any_eq_true _ _).1 hreturned
        cases flow with
        | again c => cases hflow
        | leave c => exact .worker_return hworker hloop (of_decide_eq_true hflow)
      · cases hstep
    · cases hstep

/-- Every step of the process is one of its pool, or leaves the pool as it is. -/
theorem tpool_step (hstep : step inputs p label = some p') :
    p'.tpool = p.tpool ∨ ∃ l, pool.step p.tpool l = some p'.tpool := by
  have hlive : ¬ p.exited = true := by
    intro hexited
    cases label <;> simp [step, hexited] at hstep
  cases label with
  | accept =>
    rw [step, if_neg hlive] at hstep
    obtain ⟨tpool, htpool, rfl⟩ := Option.map_eq_some_iff.1 hstep
    exact .inr ⟨_, htpool⟩
  | submit_put =>
    rw [step, if_neg hlive] at hstep
    obtain ⟨tpool, htpool, rfl⟩ := Option.map_eq_some_iff.1 hstep
    exact .inr ⟨_, htpool⟩
  | worker_get i buf =>
    rw [step, if_neg hlive] at hstep
    obtain ⟨tpool, htpool, rfl⟩ := Option.map_eq_some_iff.1 hstep
    refine .inr ⟨_, htpool.trans (congrArg some ?_)⟩
    split <;> rfl
  | pass i =>
    rw [step, if_neg hlive] at hstep
    split at hstep
    · split at hstep
      · obtain rfl := Option.some.inj hstep
        exact .inl rfl
      · cases hstep
    · cases hstep
  | worker_return i =>
    rw [step, if_neg hlive] at hstep
    split at hstep
    · obtain ⟨tpool, htpool, rfl⟩ := Option.map_eq_some_iff.1 (Option.ite_none_right_eq_some.1 hstep).2
      exact .inr ⟨_, htpool⟩
    · cases hstep

/-- A worker that runs an action is in the loop over its connection. -/
theorem Sound.exists_loop (h : Sound inputs p) (hworker : p.tpool.worker i = .running id) :
    ∃ flow, p.loops id = some flow :=
  Option.isSome_iff_exists.1 ((h.begun id).2 (mem_left_of_running h.tpool hworker))

theorem Sound.step (h : Sound inputs p) (hstep : thread_pool.step inputs p label = some p') :
    Sound inputs p' := by
  have htpool : pool.Sound p'.tpool := by
    obtain hsame | ⟨l, hl⟩ := tpool_step hstep
    · rw [hsame]
      exact h.tpool
    · exact h.tpool.step hl
  obtain ⟨hexited, hmove⟩ := move_of_step h hstep
  cases hmove with
  | accept hcall =>
    refine ⟨htpool, h.accepting, .inr (setCall_main _ _), ?_, h.begun, h.alone, h.served, h.live⟩
    exact fun i => (setCall_action _ _ i).trans (h.actions i)
  | put hcall =>
    refine ⟨htpool, h.accepting, .inl (setCall_main _ _), ?_, h.begun, h.alone, h.served, h.live⟩
    exact fun i => (setCall_action _ _ i).trans (h.actions i)
  | @get i buf id work_queue hworker hqueue =>
    obtain ⟨_, hleft, _⟩ := Fifo.dequeue_eq_some hqueue
    have hnew : ¬ (p.loops id).isSome := by
      rw [h.begun, mem_left_iff h.tpool h.accepting]
      have hid := pool.Job.work.inj (dequeue_eq h.tpool h.accepting hqueue)
      omega
    refine ⟨htpool, h.accepting, h.main, h.actions, ?_, ?_, ?_, ?_⟩
    · intro other
      rw [isSome_update, h.begun, hleft]
      simp
    · intro other flow hother
      rcases update_eq_some hother with ⟨rfl, rfl⟩ | ⟨_, hold⟩
      · exact ⟨buf, 0, rfl⟩
      · exact h.alone other flow hold
    · intro other hother
      obtain ⟨c, hloop, hending⟩ := h.served other hother
      have hne : other ≠ id := by
        rintro rfl
        simp [hloop] at hnew
      exact ⟨c, (Function.update_of_ne hne ..).trans hloop, hending⟩
    · intro hlive other c hother
      rcases update_eq_some hother with ⟨_, hflow⟩ | ⟨_, hold⟩
      · cases hflow
      · exact h.live hlive other c hold
  | @pass i id c hworker hloop =>
    refine ⟨htpool, h.accepting, h.main, h.actions, ?_, ?_, ?_, ?_⟩
    · intro other
      rw [isSome_update, h.begun, or_iff_left_iff_imp]
      rintro rfl
      exact mem_left_of_running h.tpool hworker
    · intro other flow hother
      rcases update_eq_some hother with ⟨rfl, rfl⟩ | ⟨_, hold⟩
      · obtain ⟨buf, n, hpasses⟩ := h.alone other _ hloop
        exact ⟨buf, n + 1, (forLoop_succ_of_again hpasses.symm).symm⟩
      · exact h.alone other flow hold
    · intro other hother
      obtain ⟨c', hloop', hending⟩ := h.served other hother
      have hne : other ≠ id := by
        rintro rfl
        rw [hloop] at hloop'
        cases hloop'
      exact ⟨c', (Function.update_of_ne hne ..).trans hloop', hending⟩
    · intro hlive other c' hother
      rcases update_eq_some hother with ⟨_, hflow⟩ | ⟨_, hold⟩
      · simpa [← hflow, exits] using hlive
      · exact h.live hexited other c' hold
  | @worker_return i id c hworker hloop hending =>
    refine ⟨htpool, h.accepting, h.main, h.actions, h.begun, h.alone, ?_, h.live⟩
    intro other hother
    rcases List.mem_append.1 hother with hold | hnew
    · exact h.served other hold
    · rw [List.mem_singleton.1 hnew]
      exact ⟨c, hloop, hending⟩

theorem sound_of_run {labels : List Label} (hrun : Run (StepOf (thread_pool.step inputs)) init labels p) :
    Sound inputs p :=
  hrun.invariant (Sound inputs) sound_init fun _ _ _ h hstep => h.step hstep

section Enabled

variable (hlive : p.exited = false)
include hlive

theorem step_accept (h : Sound inputs p) (hcall : p.tpool.call main_thread = .none) :
    step inputs p .accept = some { p with tpool := p.tpool.setCall main_thread .submitting } := by
  have hactive : p.tpool.active main_thread = true := rfl
  simp [step, hlive, pool.step, hcall, hactive, pool.thread_pool_submit, h.accepting]

theorem step_submit_put (hcall : p.tpool.call main_thread = .submitting) :
    step inputs p .submit_put =
      some { p with tpool := pool.thread_pool_submit_put p.tpool main_thread } := by
  simp [step, hlive, pool.step, hcall]

theorem step_worker_get (hworker : p.tpool.worker i = .looping) {work_queue : Fifo pool.Job}
    (hqueue : p.tpool.work_queue.dequeue = some (.work id, work_queue)) (buf : Memory) :
    step inputs p (.worker_get i buf) = some { p with
      tpool := { p.tpool with
        work_queue
        removals := p.tpool.removals ++ [(i, .work id)]
        worker := Function.update p.tpool.worker i (.running id) }
      loops := Function.update p.loops id (some (.again (start buf))) } := by
  simp [step, hlive, pool.step, hworker, pool.thread_pool_worker, hqueue]

theorem step_pass (hworker : p.tpool.worker i = .running id) {c : State}
    (hloop : p.loops id = some (.again c)) :
    step inputs p (.pass i) = some { p with
      loops := Function.update p.loops id (some (process_connection (inputs id) c))
      exited := exits (process_connection (inputs id) c) } := by
  simp [step, hlive, hworker, hloop]

theorem step_worker_return (h : Sound inputs p) (hworker : p.tpool.worker i = .running id) {c : State}
    (hloop : p.loops id = some (.leave c)) (hending : c.ending = some .returned) :
    step inputs p (.worker_return i) =
      some { p with tpool := pool.thread_pool_worker_return p.tpool i id } := by
  have hreturned : (p.loops id).any returned = true := by simp [hloop, returned, hending]
  simp [step, hlive, hworker, hreturned, pool.step, h.actions i]

end Enabled

/-- Where a loop over a connection is, in it or behind it. -/
def outcome : Flow State → State
  | .again c | .leave c => c

/-- A worker goes back to the pool with its connection closed. -/
theorem closed_of_returned {input : Input} {n : Nat} {s c : State}
    (hloop : forLoop (process_connection input) n s = .leave c) (hending : c.ending = some .returned) :
    c.conn_open = false := by
  induction n generalizing s with
  | zero => cases hloop
  | succ n ih =>
    rw [forLoop] at hloop
    cases hpass : process_connection input s with
    | again s' =>
      rw [hpass] at hloop
      exact ih hloop
    | leave s' =>
      rw [hpass] at hloop
      cases hloop
      simp only [process_connection, pass] at hpass
      split at hpass
      · cases hpass
        cases hending
      · split at hpass
        · cases hpass
          rfl
        · split at hpass
          · cases hpass
            cases hending
          · cases hpass

/-- What a loop has written is the replies to what it has read. A call that fails adds none. -/
def Answered (input : Input) (c : State) : Prop :=
  c.written = (List.range c.reads).flatMap fun r => ((input r).getD []).takeWhile (· ≠ 0)

theorem answered_start (input : Input) (buf : Memory) : Answered input (start buf) :=
  rfl

theorem answered_pass {input : Input} {c : State} (h : Answered input c)
    (hsize : ∀ r data, input r = some data → data.length < BUFSIZE) :
    Answered input (outcome (process_connection input c)) := by
  unfold Answered at h ⊢
  unfold process_connection pass
  cases hread : input c.reads with
  | none =>
    simp only [outcome, State.exit, List.range_succ, List.flatMap_append, List.flatMap_singleton, hread,
      Option.getD_none, List.takeWhile_nil, List.append_nil]
    exact h
  | some data =>
    have hstring : (received c.buf data).string 0 (BUFSIZE + 1) = data.takeWhile (· ≠ 0) :=
      async.string_received c.buf (Nat.lt_succ_of_lt (hsize _ data hread))
    have hwritten : c.written ++ data.takeWhile (· ≠ 0) =
        (List.range (c.reads + 1)).flatMap fun r => ((input r).getD []).takeWhile (· ≠ 0) := by
      rw [h, List.range_succ, List.flatMap_append, List.flatMap_singleton, hread, Option.getD_some]
    dsimp only
    split
    · simpa only [outcome, hstring] using hwritten
    · split
      · simpa only [outcome, State.exit, hstring] using hwritten
      · simpa only [outcome, hstring] using hwritten

theorem answered_of_forLoop {input : Input} {c : State} (h : Answered input c)
    (hsize : ∀ r data, input r = some data → data.length < BUFSIZE) (n : Nat) :
    Answered input (outcome (forLoop (process_connection input) n c)) := by
  induction n generalizing c with
  | zero => exact h
  | succ n ih =>
    have hpass := answered_pass h hsize
    rw [forLoop]
    cases hflow : process_connection input c with
    | again c' =>
      rw [hflow] at hpass
      exact ih hpass
    | leave c' =>
      rw [hflow] at hpass
      exact hpass

/-- The workers take the connections in the order in which these were accepted, each of them
    once, and no two are at one connection. The loop over a connection is where it would be if
    the server had no other client, and has written back what it has read. It is at its end,
    with the connection closed, when its worker goes back to the pool. No message fills the
    buffer. -/
theorem connections_of_run {labels : List Label}
    (hsize : ∀ id r data, inputs id r = some data → data.length < BUFSIZE)
    (hrun : Run (StepOf (thread_pool.step inputs)) init labels p) :
    p.tpool.removals.map Prod.snd = (List.range p.tpool.removals.length).map .work ∧
      (∀ i j id, p.tpool.worker i = .running id → p.tpool.worker j = .running id → i = j) ∧
      (∀ id, (p.loops id).isSome ↔ id < p.tpool.removals.length) ∧
      (∀ id flow, p.loops id = some flow →
        (∃ buf n, flow = forLoop (process_connection (inputs id)) n (start buf)) ∧
          Answered (inputs id) (outcome flow)) ∧
      (∀ id ∈ p.tpool.executed,
        ∃ c, p.loops id = some (.leave c) ∧ c.conn_open = false ∧ c.ending = some .returned) := by
  have h := sound_of_run hrun
  have hlength : p.tpool.removals.length = p.tpool.work_queue.left.length := by
    rw [← h.tpool.accounts.left, List.length_map]
  refine ⟨?_, ?_, ?_, ?_, ?_⟩
  · rw [hlength, ← left_eq h.tpool h.accepting, h.tpool.accounts.left]
  · exact fun i j id => running_unique h.tpool
  · intro id
    rw [h.begun, mem_left_iff h.tpool h.accepting, hlength]
  · intro id flow hloop
    obtain ⟨buf, n, hflow⟩ := h.alone id flow hloop
    refine ⟨⟨buf, n, hflow⟩, ?_⟩
    rw [hflow]
    exact answered_of_forLoop (answered_start _ buf) (hsize id) n
  · intro id hid
    obtain ⟨c, hloop, hending⟩ := h.served id hid
    obtain ⟨buf, n, hflow⟩ := h.alone id _ hloop
    exact ⟨c, hloop, closed_of_returned hflow.symm hending, hending⟩

/-- The second client says `quit` while a worker still waits for the first one. -/
def quitting (id : Nat) : Input :=
  if id = 1 then fun _ => some (QUIT ++ [10]) else fun _ => some [104, 105]

def quitting_labels : List Label :=
  [.accept, .submit_put, .worker_get 3 fun _ => 0, .accept, .submit_put, .worker_get 5 fun _ => 0, .pass 3,
    .pass 5, .worker_return 5]

theorem quitting_fits (id r : Nat) (data : List UInt8) (hread : quitting id r = some data) :
    data.length < BUFSIZE := by
  unfold quitting at hread
  split at hread
  · obtain rfl := Option.some.inj hread
    decide
  · obtain rfl := Option.some.inj hread
    decide

theorem connections_of_run_quitting : ∃ p, Run (StepOf (thread_pool.step quitting)) init quitting_labels p ∧
    p.tpool.executed = [1] ∧ ((p.loops 0).map fun flow => (outcome flow).written) = some [104, 105] ∧
    p.tpool.removals.map Prod.snd = (List.range p.tpool.removals.length).map .work ∧
      (∀ i j id, p.tpool.worker i = .running id → p.tpool.worker j = .running id → i = j) ∧
      (∀ id, (p.loops id).isSome ↔ id < p.tpool.removals.length) ∧
      (∀ id flow, p.loops id = some flow →
        (∃ buf n, flow = forLoop (process_connection (quitting id)) n (start buf)) ∧
          Answered (quitting id) (outcome flow)) ∧
      (∀ id ∈ p.tpool.executed,
        ∃ c, p.loops id = some (.leave c) ∧ c.conn_open = false ∧ c.ending = some .returned) := by
  have hrun := run_stepOf_iff.mpr (show exec (thread_pool.step quitting) init quitting_labels = some _ from rfl)
  exact ⟨_, hrun, rfl, by decide +kernel, connections_of_run quitting_fits hrun⟩

end oslabs.net.thread_pool
