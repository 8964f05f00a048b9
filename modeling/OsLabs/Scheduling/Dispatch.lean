import OsLabs.Scheduling.Order

open oslabs.ring oslabs.roundrobin oslabs.rota oslabs.run
open oslabs.uthread (Thread Obs Rotated queueEvents)

namespace oslabs.scheduling

/-- A call of `ut_yield` by the thread `t` comes to its end. Between it and the next dispatch
    of the thread, the threads that were ready at the call are dispatched, each once and in the
    order of the queue, and no others. If none was ready, the thread has just gone on. -/
def YieldTurns {σ α S : Type} (Step : σ → α → σ → Prop) (trace : σ → List (Obs S)) (ut_yield : α)
    (s : σ) (t : Thread) (ready : List Thread) : Prop :=
  ready.Nodup ∧ (∃ called, Step s ut_yield called) ∧ ∀ called labels s' between after, Step s ut_yield called → Run Step called labels s' →
    trace s' = trace s ++ (between ++ .dispatch t :: after) → .dispatch t ∉ between → ready ≠ [] →
      takes (queueEvents between) = ready

/-- The queue that a memory spells out has been served in order since the start, and
    a thread that yields waits for all others. -/
structure InTurn {σ α S : Type} (Step : σ → α → σ → Prop) (trace : σ → List (Obs S)) (ut_yield : α)
    (s : σ) (running_thread : Option Thread) (ready : List Thread) : Prop where
  queued : takes (queueEvents (trace s)) ++ ready = insertions (queueEvents (trace s))
  order : InOrder (queueEvents (trace s))
  yields : ∀ block, running_thread = some (.user block) →
    YieldTurns Step trace ut_yield s (.user block) ready

/-- A yield makes its caller ready and dispatches another thread. What follows is the
    service of the queue, as long as the run only adds to the trace. -/
theorem yieldTurns {σ α S : Type} {Step : σ → α → σ → Prop} {trace : σ → List (Obs S)} {ut_yield : α}
    {s : σ} {block : Nat} {ready : List Thread} (hnodup : ready.Nodup)
    (hends : ∃ called, Step s ut_yield called) (hyield : ∀ called, Step s ut_yield called → ready ≠ [] →
      ∃ next, trace called = trace s ++ [.ready (.user block), .dispatch next])
    (hlater : ∀ called labels s', Step s ut_yield called → Run Step called labels s' →
      (∃ more, trace s' = trace called ++ more) ∧ ∃ last, Rotated (trace s) ready (trace s') last) :
    YieldTurns Step trace ut_yield s (.user block) ready := by
  refine ⟨hnodup, hends, ?_⟩
  intro called labels s' between after hstep hrun htrace hfirst hready
  obtain ⟨next, hcalled⟩ := hyield called hstep hready
  obtain ⟨⟨more, hmore⟩, last, hrotated⟩ := hlater called labels s' hstep hrun
  have hcut : between ++ .dispatch (.user block) :: after =
      .ready (.user block) :: .dispatch next :: more := by
    rw [hcalled, htrace, List.append_assoc] at hmore
    exact List.append_cancel_left hmore
  cases between with
  | nil => cases hcut
  | cons first between =>
    obtain ⟨rfl, _⟩ := List.cons.inj hcut
    rw [htrace, List.cons_append] at hrotated
    rw [uthread.queueEvents_cons_ready, takes_cons_insert]
    exact hrotated.takes_until_next fun hmem => hfirst (List.mem_cons_of_mem _ hmem)

theorem uthread_inTurn {E S : Type} [DecidableEq E] [DecidableEq S] {s₀ s : uthread.State E S}
    {calls : List (uthread.Call E S)} (hinitial : uthread.Initial s₀)
    (hrun : Run uthread.Step s₀ calls s) :
    ∃ ready, Ring s.links .ready_queue (ready.map .thread) ∧
      InTurn uthread.Step (·.trace) .ut_yield s s.running_thread ready := by
  have hstart : uthread.Rotating [] [] (uthread.Queues.initial s₀.toCore) := by
    rw [uthread.Rotating, uthread.Queues.initial, hinitial.trace]
    exact Rotated.refl [] []
  obtain ⟨a, place, href, hlocated, hrotating⟩ :=
    hinitial.refines.run_rotating hinitial.located hstart hrun
  have hcore := href.core
  rw [uthread.Rotating, ← hcore] at hrotating
  obtain ⟨hqueued, horder⟩ := hrotating.inOrder
  refine ⟨a.ready, href.rings.each none, hqueued, horder, ?_⟩
  intro block hrunning
  have hrunning' : a.running_thread = some (.user block) := by rw [← hrunning, hcore]
  have hallowed : uthread.Allowed s.toCore .ut_yield := ⟨block, hrunning⟩
  apply yieldTurns hlocated.ready_nodup (uthread.run_progress hinitial hrun hallowed (by simp))
  · intro called hstep hready
    obtain ⟨b, _, ⟨_, hb⟩, href', _⟩ := href.step hlocated hstep
    rw [uthread.Queues.perform_ut_yield hrunning' hready] at hb
    obtain rfl := uthread.Queues.eq_of_dispatch hb (hlocated.main_of_running hrunning')
    refine ⟨(a.activate (.user block)).ready.headD .main, ?_⟩
    rw [href'.core, hcore]
    exact List.append_assoc _ _ _
  · intro called labels s' hstep hrun'
    obtain ⟨b, place', ⟨hallowed, hb⟩, href', hlocated'⟩ := href.step hlocated hstep
    obtain ⟨c, _, href'', _, hsince⟩ :=
      href'.run_rotating hlocated' (Rotated.refl b.trace b.ready) hrun'
    have hyielded : uthread.Rotating a.trace a.ready b :=
      uthread.Rotating.perform (Rotated.refl a.trace a.ready) hlocated hallowed hb
    obtain ⟨d, _, hsim, _, hall⟩ := href'.run_rotating hlocated' hyielded hrun'
    constructor
    · obtain ⟨more, hmore, _⟩ := hsince
      exact ⟨more, by rw [href''.core, href'.core, hmore]⟩
    · rw [uthread.Rotating, ← hsim.core, ← hcore] at hall
      exact ⟨d.ready, hall⟩

theorem scheduling_inTurn {s₀ s : State} {calls : List Call} (hinitial : Initial s₀)
    (hrun : Run Step s₀ calls s) :
    ∃ ready, Ring s.links .ready_queue (ready.map .thread) ∧
      InTurn Step (·.trace) .ut_yield s s.running_thread ready := by
  obtain ⟨a, href, hrotating⟩ := hinitial.refines.run_rotating hinitial.rotating hrun
  have hcore := href.core
  have hrotated := hrotating.rotated
  rw [← hcore] at hrotated
  obtain ⟨hqueued, horder⟩ := hrotated.inOrder
  refine ⟨a.ready, href.ring, hqueued, horder, ?_⟩
  intro block hrunning
  have hrunning' : a.running_thread = some (.user block) := by rw [← hrunning, hcore]
  have hallowed : Allowed s.toCore .ut_yield := ⟨block, hrunning⟩
  have hallowed' : Allowed a.toCore .ut_yield := href.core ▸ hallowed
  obtain ⟨b, hb, _⟩ := hrotating.perform hallowed'
  obtain ⟨yielded, hyielded, _⟩ := href.perform hrotating hallowed hb
  apply yieldTurns hrotating.nodup ⟨yielded, hallowed, hyielded⟩
  · intro called hstep hready
    obtain ⟨b, hb, href', _⟩ := href.step hrotating hstep
    rw [Queue.perform_ut_yield hrunning' hready] at hb
    obtain rfl := Queue.eq_of_dispatch hb (hrotating.main_thread block hrunning')
    refine ⟨(a.insert (.user block)).ready.headD .main, ?_⟩
    rw [href'.core, hcore]
    exact List.append_assoc _ _ _
  · intro called labels s' hstep hrun'
    obtain ⟨b, hb, href', hrotating'⟩ := href.step hrotating.restart hstep
    obtain ⟨c, href'', hsince⟩ := href'.run_rotating hrotating'.restart hrun'
    obtain ⟨d, hsim, hall⟩ := href'.run_rotating hrotating' hrun'
    constructor
    · obtain ⟨more, hmore, _⟩ := hsince.rotated
      exact ⟨more, by rw [href''.core, href'.core, hmore]⟩
    · refine ⟨d.ready, ?_⟩
      rw [hsim.core, hcore]
      exact hall.rotated

/-- Both schedulers dispatch round robin. The k-th thread taken from the ready queue
    is the k-th inserted, the main thread is dispatched only once all threads
    inserted have been, and a thread that yields waits for all that are ready.
    A program that creates threads, yields and exits runs alike in both: every run in one
    has its counterpart in the other, with the same operations and the threads dispatched
    in one order, unless `malloc` finds no room for a thread that `mmap` had room for. -/
theorem dispatch_order {E S : Type} [DecidableEq E] [DecidableEq S] {s₀ s : uthread.State E S}
    {calls : List (uthread.Call E S)} (hinitial : uthread.Initial s₀)
    (hrun : Run uthread.Step s₀ calls s) {t₀ t : State} {calls' : List Call} (hinitial' : Initial t₀)
    (hrun' : Run Step t₀ calls' t) {σ : Type} {program : Program σ} {e₀ : Hosted (uthread.State E S) σ}
    (he₀ : e₀.Initial (uthread_host E S) program) {f₀ : Hosted State σ} (hf₀ : f₀.Initial scheduling_host program) :
    (∃ ready, Ring s.links .ready_queue (ready.map .thread) ∧
      InTurn uthread.Step (·.trace) .ut_yield s s.running_thread ready) ∧
    (∃ ready, Ring t.links .ready_queue (ready.map .thread) ∧
      InTurn Step (·.trace) .ut_yield t t.running_thread ready) ∧
    (∀ blocks e blocks' f, Run (Hosted.Step (uthread_host E S) program) e₀ blocks e →
      Run (Hosted.Step scheduling_host program) f₀ blocks' f → blocks.length = blocks'.length →
      e.memory = f.memory ∧ e.order = f.order) ∧
    (∀ blocks e, Run (Hosted.Step (uthread_host E S) program) e₀ blocks e →
      ∃ blocks' f, Run (Hosted.Step scheduling_host program) f₀ blocks' f ∧ blocks'.length = blocks.length ∧
        f.memory = e.memory ∧ f.order = e.order) ∧
    ∀ blocks' f, Run (Hosted.Step scheduling_host program) f₀ blocks' f →
      ∃ blocks e, Run (Hosted.Step (uthread_host E S) program) e₀ blocks e ∧
        (blocks.length = blocks'.length ∧ e.memory = f.memory ∧ e.order = f.order ∨
          blocks.length < blocks'.length ∧ e.op (uthread_host E S) program = .create ∧
            ∀ block stack, ¬ uthread.MallocFresh e.host.toCore block stack) := by
  refine ⟨uthread_inTurn hinitial hrun, scheduling_inTurn hinitial' hrun', ?_, ?_, ?_⟩
  · intro blocks e blocks' f he hf hlength
    exact uthread_follows.same_order scheduling_follows he₀ he hf₀ hf hlength
  · intro blocks e he
    obtain ⟨blocks', f, hf, hsame | ⟨_, _, hfull⟩⟩ :=
      uthread_follows.counterpart scheduling_follows scheduling_keepsPace he₀ he hf₀
    · exact ⟨blocks', f, hf, hsame⟩
    · exact hfull.elim
  · intro blocks' f hf
    exact scheduling_follows.counterpart uthread_follows uthread_keepsPace hf₀ hf he₀

/-- The main program creates two threads and runs them. The first one yields, and both exit. -/
def sample_program : Program Nat where
  start := 0
  next memory _ :=
    (match memory with
      | 0 | 1 => .create
      | 2 => .run
      | 3 => .yield
      | _ => .exit, memory + 1)

/-- What the program calls in the second scheduler, up to the return of `ut_run`. -/
def sample_calls : List (Option Thread × uthread.Call Unit Unit) :=
  [(none, .ut_create 1 4096), (none, .ut_create 2 40960), (none, .ut_run), (some (.user 1), .ut_yield),
    (some (.user 2), .ut_exit), (some (.user 1), .ut_exit), (some .main, .ut_run_resumed)]

/-- The second scheduler after the first of these calls. -/
def sample_state (n : Nat) : uthread.State Unit Unit :=
  uthread.after (uthread.booted fun _ => ⟨0, 1⟩) ((sample_calls.take n).map Prod.snd)

/-- That scheduler and the program after as many operations. -/
def sample_hosted (n : Nat) : Hosted (uthread.State Unit Unit) Nat where
  host := sample_state (if n = 6 then 7 else n)
  memory := n
  number := if n = 0 then id else if n = 1 then Function.update id 1 0 else
    Function.update (Function.update id 1 0) 2 1
  created := min n 2
  order := [some 0, some 1, some 0, none].take (n - 2)

theorem sample_step (n : Nat) (label : Option Thread × uthread.Call Unit Unit)
    (hlabel : sample_calls.take n ++ [label] ++ sample_calls.drop (n + 1) = sample_calls)
    (hnext : sample_calls.take (n + 1) = sample_calls.take n ++ [label]) :
    uthread.Step (sample_state n) label.2 (sample_state (n + 1)) := by
  have hplays : uthread.plays (fun _ _ => true) (uthread.booted fun _ => ⟨0, 1⟩) [] sample_calls = true := by
    decide +kernel
  rw [← hlabel] at hplays
  rw [sample_state, sample_state, hnext]
  exact uthread.step_of_plays _ hplays

theorem sample_run : Run (Hosted.Step (uthread_host Unit Unit) sample_program) (sample_hosted 0)
    [1, 2, 0, 0, 0, 0] (sample_hosted 6) := by
  have hrunning : ∀ n < 6, (sample_state n).running_thread ≠ some .main := by decide +kernel
  have hfirst : Hosted.Step (uthread_host Unit Unit) sample_program (sample_hosted 0) 1 (sample_hosted 1) :=
    ⟨⟨4096, sample_state 1, sample_step 0 (none, .ut_create 1 4096) rfl rfl, nofun,
      (if_neg (hrunning 1 (by decide))).mpr rfl⟩, rfl, rfl, rfl, by decide +kernel⟩
  have hsecond : Hosted.Step (uthread_host Unit Unit) sample_program (sample_hosted 1) 2 (sample_hosted 2) :=
    ⟨⟨40960, sample_state 2, sample_step 1 (none, .ut_create 2 40960) rfl rfl, nofun,
      (if_neg (hrunning 2 (by decide))).mpr rfl⟩, rfl, rfl, rfl, by decide +kernel⟩
  have hstart : Hosted.Step (uthread_host Unit Unit) sample_program (sample_hosted 2) 0 (sample_hosted 3) :=
    ⟨⟨0, sample_state 3, sample_step 2 (none, .ut_run) rfl rfl, fun _ => by decide +kernel,
      (if_neg (hrunning 3 (by decide))).mpr rfl⟩, rfl, rfl, rfl, by decide +kernel⟩
  have hyield : Hosted.Step (uthread_host Unit Unit) sample_program (sample_hosted 3) 0 (sample_hosted 4) :=
    ⟨⟨0, sample_state 4, sample_step 3 (some (.user 1), .ut_yield) rfl rfl, nofun,
      (if_neg (hrunning 4 (by decide))).mpr rfl⟩, rfl, rfl, rfl, by decide +kernel⟩
  have hexit : Hosted.Step (uthread_host Unit Unit) sample_program (sample_hosted 4) 0 (sample_hosted 5) :=
    ⟨⟨0, sample_state 5, sample_step 4 (some (.user 2), .ut_exit) rfl rfl, nofun,
      (if_neg (hrunning 5 (by decide))).mpr rfl⟩, rfl, rfl, rfl, by decide +kernel⟩
  have hlast : Hosted.Step (uthread_host Unit Unit) sample_program (sample_hosted 5) 0 (sample_hosted 6) :=
    ⟨⟨0, sample_state 6, sample_step 5 (some (.user 1), .ut_exit) rfl rfl, nofun,
      (if_pos (by decide +kernel)).mpr (sample_step 6 (some .main, .ut_run_resumed) rfl rfl)⟩,
      rfl, rfl, rfl, by decide +kernel⟩
  exact (((((Run.nil.snoc hfirst).snoc hsecond).snoc hstart).snoc hyield).snoc hexit).snoc hlast

/-- The first scheduler after some calls. -/
def scheduled (calls : List Call) : State :=
  calls.foldl (fun s call => (perform s call).getD s) booted

/-- The program runs in the first scheduler as in the second one. A thread yields while the
    other one is ready, and its call comes to an end, in both. -/
theorem dispatch_order_sample : ∃ (blocks : List Nat) (f : Hosted State Nat),
    Run (Hosted.Step scheduling_host sample_program) ⟨booted, 0, id, 0, []⟩ blocks f ∧ blocks.length = 6 ∧
      f.order = [some 0, some 1, some 0, none] ∧
    (∃ called, uthread.Step (sample_state 3) .ut_yield called) ∧
      Ring (sample_state 3).links .ready_queue [.thread (.user 2)] ∧
    (∃ called, Step (scheduled [.ut_create 7, .ut_create 8, .ut_run]) .ut_yield called) ∧
      Ring (scheduled [.ut_create 7, .ut_create 8, .ut_run]).links .ready_queue [.thread (.user 8)] := by
  have hplays : uthread.plays (fun _ _ => true) (uthread.booted fun _ => ⟨0, 1⟩) [] (sample_calls.take 3) = true := by
    decide +kernel
  have hcreate : Step booted (.ut_create 7) (scheduled [.ut_create 7]) :=
    ⟨show 7 ∉ booted.live by decide, rfl⟩
  have hcreate' : Step (scheduled [.ut_create 7]) (.ut_create 8) (scheduled [.ut_create 7, .ut_create 8]) :=
    ⟨show 8 ∉ (scheduled [.ut_create 7]).live by decide +kernel, rfl⟩
  have hstart : Step (scheduled [.ut_create 7, .ut_create 8]) .ut_run
      (scheduled [.ut_create 7, .ut_create 8, .ut_run]) := ⟨.inl rfl, rfl⟩
  have hrun' := ((Run.nil.snoc hcreate).snoc hcreate').snoc hstart
  have he₀ : (sample_hosted 0).Initial (uthread_host Unit Unit) sample_program :=
    ⟨uthread.booted_initial _, rfl, rfl, rfl⟩
  have hf₀ : (⟨booted, 0, id, 0, []⟩ : Hosted State Nat).Initial scheduling_host sample_program :=
    ⟨booted_initial, rfl, rfl, rfl⟩
  obtain ⟨⟨ready, _, hturns⟩, ⟨ready', _, hturns'⟩, _, hcounterpart, _⟩ :=
    dispatch_order (uthread.booted_initial _) (uthread.run_of_stepBy (uthread.stepBy_of_plays _ hplays))
      booted_initial hrun' he₀ hf₀
  obtain ⟨blocks, f, hf, hlength, _, horder⟩ := hcounterpart _ _ sample_run
  exact ⟨blocks, f, hf, hlength, horder, (hturns.yields 1 (by decide +kernel)).2.1, by decide +kernel,
    (hturns'.yields 7 (by decide +kernel)).2.1, by decide +kernel⟩

end oslabs.scheduling
