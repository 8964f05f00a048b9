import OsLabs.Net.PoolServer

open oslabs.fifo oslabs.memory oslabs.loop oslabs.run oslabs.crew
open oslabs.async (BUFSIZE QUIT)

namespace oslabs.net.thread_pool

/-- The clients send some messages each, and go away. -/
def streams (chunks : Nat → List (List UInt8)) (id : Nat) : Input :=
  fun r => some (stream (chunks id) r)

/-- A connection from which no worker comes back: its first command, if it has one, is not `quit`. -/
def Endless (chunks : Nat → List (List UInt8)) (id : Nat) : Prop :=
  (chunks id).findSome? ending ≠ some .returned

instance (chunks : Nat → List (List UInt8)) : DecidablePred (Endless chunks) := fun _ => instDecidableNot

/-- The connection that a worker is at. -/
def job : pool.Worker → Option Nat
  | .running id => some id
  | _ => none

/-- The workers as a crew that takes connections in their order. -/
def crew_of (p : Process) : Crew (Fin NTHREADS) where
  taken := p.tpool.work_queue.left.length
  job i := job (p.tpool.worker i)

variable {chunks : Nat → List (List UInt8)} {p p' : Process} {label : Label} {i : Fin NTHREADS} {id : Nat}

theorem job_running (id : Nat) : job (.running id) = some id := rfl

theorem job_looping : job .looping = none := rfl

theorem job_update (worker : Fin NTHREADS → pool.Worker) (i : Fin NTHREADS) (w : pool.Worker) :
    (fun j => job (Function.update worker i w j)) = Function.update (fun j => job (worker j)) i (job w) := by
  funext j
  by_cases hj : j = i
  · subst hj
    rw [Function.update_self, Function.update_self]
  · rw [Function.update_of_ne hj, Function.update_of_ne hj]

section Sizes

variable (hsize : ∀ id, ∀ data ∈ chunks id, data.length < BUFSIZE)
include hsize

/-- A loop is left for the pool only when the first command is `quit`. -/
theorem not_endless_of_returned (h : Sound (streams chunks) p) {c : State}
    (hloop : p.loops id = some (.leave c)) (hending : c.ending = some .returned) : ¬ Endless chunks id := by
  obtain ⟨buf, n, hflow⟩ := h.alone id _ hloop
  rw [Endless, not_not]
  have hends : EndsClosed .thread_pool buf (chunks id) .returned ↔ _ := endsClosed_iff (hsize id)
  exact hends.1 ⟨n, c, hflow.symm, closed_of_returned hflow.symm hending, hending⟩

/-- Every step of the process is a turn of the crew. -/
theorem turn_of_step (h : Sound (streams chunks) p) (hstep : step (streams chunks) p label = some p') :
    Turn (Endless chunks) (crew_of p) (crew_of p') := by
  obtain ⟨_, hmove⟩ := move_of_step h hstep
  cases hmove with
  | accept hcall => exact .stay
  | put hcall => exact .stay
  | @get i buf id work_queue hworker hqueue =>
    obtain ⟨_, hleft, _⟩ := Fifo.dequeue_eq_some hqueue
    obtain rfl := pool.Job.work.inj (dequeue_eq h.tpool h.accepting hqueue)
    have hidle : (crew_of p).job i = none := congrArg job hworker
    have htake : Turn (Endless chunks) (crew_of p) _ := .take hidle
    simpa only [crew_of, hleft, List.length_append, List.length_singleton, job_update, job_running]
      using htake
  | pass hworker hloop => exact .stay
  | @worker_return i id c hworker hloop hending =>
    have hjob : (crew_of p).job i = some id := congrArg job hworker
    have hfinish := Turn.finish hjob (not_endless_of_returned hsize h hloop hending)
    simpa only [crew_of, pool.thread_pool_worker_return, job_update, job_looping] using hfinish

/-- What every state of every run of the server has in common, its crew included. -/
structure Staffed (chunks : Nat → List (List UInt8)) (p : Process) : Prop where
  sound : Sound (streams chunks) p
  busy : Busy (Endless chunks) (crew_of p)

omit hsize in
theorem staffed_init : Staffed chunks init where
  sound := sound_init
  busy := by
    refine ⟨?_, ?_, fun _ h => absurd h (Nat.not_lt_zero _)⟩
    · intro w j hjob
      cases hjob
    · intro w w' j hjob
      cases hjob

theorem Staffed.step (h : Staffed chunks p) (hstep : thread_pool.step (streams chunks) p label = some p') :
    Staffed chunks p' :=
  ⟨h.sound.step hstep, h.busy.turn (turn_of_step hsize h.sound hstep)⟩

theorem Staffed.run (h : Staffed chunks p) {labels : List Label}
    (hrun : Run (StepOf (thread_pool.step (streams chunks))) p labels p') : Staffed chunks p' :=
  hrun.invariant (Staffed chunks) h fun _ _ _ hs hstep => hs.step hsize hstep

theorem bounded_of_run {labels : List Label} (hrun : Run (StepOf (step (streams chunks))) init labels p) :
    Bounded (Endless chunks) (crew_of p) := by
  have hboth : Staffed chunks p ∧ Bounded (Endless chunks) (crew_of p) := by
    refine hrun.invariant (fun p => Staffed chunks p ∧ Bounded (Endless chunks) (crew_of p))
      ⟨staffed_init, fun _ h => absurd h (Nat.not_lt_zero _)⟩ ?_
    rintro q label q' ⟨hq, hbounded⟩ hstep
    exact ⟨hq.step hsize hstep, hq.busy.bounded hbounded (turn_of_step hsize hq.sound hstep)⟩
  exact hboth.2

end Sizes

/-- The process can come to `p'` in some steps without ending. -/
def Leads (inputs : Nat → Input) (p p' : Process) : Prop :=
  p'.exited = false ∧ ∃ labels, Run (StepOf (step inputs)) p labels p'

variable {inputs : Nat → Input} {p'' : Process}

theorem Leads.refl (hlive : p.exited = false) : Leads inputs p p :=
  ⟨hlive, [], .nil⟩

theorem Leads.trans (h : Leads inputs p p') (h' : Leads inputs p' p'') : Leads inputs p p'' := by
  obtain ⟨_, labels, hrun⟩ := h
  obtain ⟨hlive, more, hmore⟩ := h'
  exact ⟨hlive, labels ++ more, hrun.append hmore⟩

theorem Leads.of_step (label : Label) (hlive : p'.exited = false) (hstep : step inputs p label = some p') :
    Leads inputs p p' :=
  ⟨hlive, [] ++ [label], .snoc .nil hstep⟩

/-- The main thread can accept one more client, and hand it over to the pool. -/
theorem exists_submitted (h : Sound inputs p) (hlive : p.exited = false) :
    ∃ p', Leads inputs p p' ∧ p'.tpool.worker = p.tpool.worker ∧ p'.loops = p.loops ∧
      p'.tpool.work_queue.left = p.tpool.work_queue.left ∧ p'.tpool.work_queue.items ≠ [] := by
  have hput : ∀ q : Process, q.exited = false → q.tpool.call main_thread = .submitting →
      Leads inputs q { q with tpool := pool.thread_pool_submit_put q.tpool main_thread } :=
    fun q hq hcall => .of_step .submit_put hq (step_submit_put hq hcall)
  obtain hnone | hsubmitting := h.main
  · have haccept : Leads inputs p { p with tpool := p.tpool.setCall main_thread .submitting } := by
      refine Leads.of_step .accept hlive ?_
      have hactive : p.tpool.active main_thread = true := rfl
      simp [step, hlive, pool.step, hnone, hactive, pool.thread_pool_submit, h.accepting]
    refine ⟨_, haccept.trans (hput _ hlive (setCall_main _ _)), rfl, rfl, rfl, ?_⟩
    simp [pool.thread_pool_submit_put, pool.thread_pool_internal_submit, pool.State.setCall]
  · refine ⟨_, hput p hlive hsubmitting, rfl, rfl, rfl, ?_⟩
    simp [pool.thread_pool_submit_put, pool.thread_pool_internal_submit, pool.State.setCall]

/-- A worker whose loop comes to its end after some passes can make them. -/
theorem exists_left {buf : Memory} {n m : Nat} {flow : Flow State} {c : State} (hlive : p.exited = false)
    (hworker : p.tpool.worker i = .running id) (hloop : p.loops id = some flow)
    (hflow : flow = forLoop (process_connection (inputs id)) n (start buf))
    (hend : forLoop (process_connection (inputs id)) (n + m) (start buf) = .leave c)
    (hending : c.ending = some .returned) :
    ∃ p', Leads inputs p p' ∧ p'.tpool = p.tpool ∧ p'.loops id = some (.leave c) := by
  have hdriven := forLoop_driven
    (fun q flow => q.exited = false ∧ q.tpool = p.tpool ∧ q.loops id = some flow) (Leads inputs)
    (fun q flow h => Leads.refl h.1) (fun q q' q'' h h' => h.trans h') ?_ ⟨hlive, rfl, hloop⟩ hflow hend
  · obtain ⟨p', hleads, _, htpool, hleft⟩ := hdriven
    exact ⟨p', hleads, htpool, hleft⟩
  · rintro q c' ⟨hq, htpool, hloop'⟩ hleaves
    have hexits : exits (process_connection (inputs id) c') = false := by
      cases hpass : process_connection (inputs id) c' with
      | again _ => rfl
      | leave c'' =>
        obtain rfl := hleaves c'' hpass
        simp [exits, hending]
    have hworker' : q.tpool.worker i = .running id := htpool ▸ hworker
    have hstep : step inputs q (.pass i) = some _ := step_pass hq hworker' hloop'
    exact ⟨_, .of_step (.pass i) hexits hstep, hexits, htpool, Function.update_self ..⟩

/-- A worker whose client says `quit` comes back to the pool. -/
theorem exists_returned (hsize : ∀ id, ∀ data ∈ chunks id, data.length < BUFSIZE)
    (h : Sound (streams chunks) p) (hlive : p.exited = false) (hworker : p.tpool.worker i = .running id)
    (hends : ¬ Endless chunks id) :
    ∃ p', Leads (streams chunks) p p' ∧ p'.tpool.work_queue = p.tpool.work_queue ∧
      p'.tpool.worker i = .looping ∧ id ∈ p'.tpool.executed := by
  obtain ⟨flow, hloop⟩ := h.exists_loop hworker
  obtain ⟨buf, n, hflow⟩ := h.alone id flow hloop
  have hcloses : EndsClosed .thread_pool buf (chunks id) .returned :=
    (endsClosed_iff (hsize id)).2 (not_not.1 hends)
  obtain ⟨m, c, hend, _, hending⟩ := hcloses
  have hlater := forLoop_of_leave hend n
  rw [Nat.add_comm] at hlater
  obtain ⟨p', hleads, htpool, hleft⟩ := exists_left hlive hworker hloop hflow hlater hending
  have hreturn : Leads (streams chunks) p'
      { p' with tpool := pool.thread_pool_worker_return p'.tpool i id } := by
    have hsound : Sound (streams chunks) p' :=
      hleads.2.choose_spec.invariant (Sound (streams chunks)) h fun _ _ _ hs hstep => hs.step hstep
    have hworker' : p'.tpool.worker i = .running id := htpool ▸ hworker
    exact .of_step (.worker_return i) hleads.1 (step_worker_return hleads.1 hsound hworker' hleft hending)
  refine ⟨_, hleads.trans hreturn, ?_, ?_, ?_⟩
  · rw [← htpool]
    rfl
  · exact Function.update_self ..
  · exact List.mem_append_right _ (List.mem_singleton_self id)

/-- As long as fewer clients than workers keep theirs, one more connection can be taken. -/
theorem exists_taken (hsize : ∀ id, ∀ data ∈ chunks id, data.length < BUFSIZE) (h : Staffed chunks p)
    (hlive : p.exited = false) (hcount : Nat.count (Endless chunks) p.tpool.work_queue.left.length < NTHREADS) :
    ∃ p', Leads (streams chunks) p p' ∧
      p'.tpool.work_queue.left.length = p.tpool.work_queue.left.length + 1 := by
  obtain ⟨q, hsubmitted, hworkers, _, hleft, hitems⟩ := exists_submitted h.sound hlive
  obtain ⟨i, hfree⟩ := h.busy.exists_free (by simpa [crew_of] using hcount)
  have hq : Staffed chunks q := h.run hsize hsubmitted.2.choose_spec
  obtain ⟨r, hreturned, hqueue, hlooping⟩ : ∃ r, Leads (streams chunks) q r ∧
      r.tpool.work_queue = q.tpool.work_queue ∧ r.tpool.worker i = .looping := by
    cases hworker : q.tpool.worker i with
    | looping => exact ⟨q, .refl hsubmitted.1, rfl, hworker⟩
    | exited => exact absurd hworker (worker_ne_exited hq.sound.tpool hq.sound.accepting i)
    | running id =>
      have hjob : (crew_of p).job i = some id := by rw [← job_running, ← hworker, hworkers]; rfl
      have hends := hfree id hjob
      obtain ⟨r, hreturned, hqueue, hlooping, _⟩ :=
        exists_returned hsize hq.sound hsubmitted.1 hworker hends
      exact ⟨r, hreturned, hqueue, hlooping⟩
  have hr : Staffed chunks r := hq.run hsize hreturned.2.choose_spec
  obtain ⟨first, rest, hfirst⟩ := List.exists_cons_of_ne_nil (hqueue ▸ hitems)
  obtain ⟨work_queue, hdequeue, _, hleft'⟩ := Fifo.dequeue_of_items_eq_cons hfirst
  obtain rfl := dequeue_eq hr.sound.tpool hr.sound.accepting hdequeue
  have hget : step (streams chunks) r (.worker_get i fun _ => 0) = some _ :=
    step_worker_get hreturned.1 hlooping hdequeue _
  refine ⟨_, (hsubmitted.trans hreturned).trans (.of_step _ ?_ hget), ?_⟩
  · exact hreturned.1
  · dsimp only
    rw [hleft', List.length_append, List.length_singleton, hqueue, hleft]

theorem exists_begun (hsize : ∀ id, ∀ data ∈ chunks id, data.length < BUFSIZE) {k : Nat}
    (h : Staffed chunks p) (hlive : p.exited = false) (hcount : Nat.count (Endless chunks) k < NTHREADS) :
    ∃ p', Leads (streams chunks) p p' ∧ k < p'.tpool.work_queue.left.length := by
  induction hmore : k + 1 - p.tpool.work_queue.left.length generalizing p with
  | zero => exact ⟨p, .refl hlive, by omega⟩
  | succ d ih =>
    have hle : p.tpool.work_queue.left.length ≤ k := by omega
    obtain ⟨q, hleads, hleft⟩ :=
      exists_taken hsize h hlive (Nat.lt_of_le_of_lt (Nat.count_monotone _ hle) hcount)
    obtain ⟨p', hleads', hk⟩ := ih (h.run hsize hleads.2.choose_spec) hleads.1 (by omega)
    exact ⟨p', hleads.trans hleads', hk⟩

/-- From every state of the running server, a connection can still come to a worker, or has
    come to one, just when fewer of the clients accepted before it keep theirs for ever than
    there are workers. Its worker can be done with it if its own client does not either. -/
theorem served_iff (hsize : ∀ id, ∀ data ∈ chunks id, data.length < BUFSIZE) {labels : List Label}
    (hrun : Run (StepOf (step (streams chunks))) init labels p) (hlive : p.exited = false) (k : Nat) :
    ((∃ more p', Run (StepOf (step (streams chunks))) p more p' ∧ (p'.loops k).isSome) ↔
      Nat.count (Endless chunks) k < NTHREADS) ∧
    ((∃ more p', Run (StepOf (step (streams chunks))) p more p' ∧ k ∈ p'.tpool.executed) ↔
      Nat.count (Endless chunks) k < NTHREADS ∧ ¬ Endless chunks k) := by
  have hp : Staffed chunks p := staffed_init.run hsize hrun
  have hnecessary : ∀ more p', Run (StepOf (step (streams chunks))) p more p' → (p'.loops k).isSome →
      Nat.count (Endless chunks) k < NTHREADS := by
    intro more p' hmore hbegun
    have hp' := (hp.run hsize hmore).sound
    rw [hp'.begun, mem_left_iff hp'.tpool hp'.accepting] at hbegun
    simpa using bounded_of_run hsize (hrun.append hmore) k hbegun
  refine ⟨⟨?_, fun hcount => ?_⟩, ⟨?_, ?_⟩⟩
  · rintro ⟨more, p', hmore, hbegun⟩
    exact hnecessary more p' hmore hbegun
  · obtain ⟨p', ⟨_, more, hmore⟩, hk⟩ := exists_begun hsize hp hlive hcount
    have hp' := (hp.run hsize hmore).sound
    exact ⟨more, p', hmore, (hp'.begun k).2 ((mem_left_iff hp'.tpool hp'.accepting k).2 hk)⟩
  · rintro ⟨more, p', hmore, hk⟩
    have hp' := (hp.run hsize hmore).sound
    obtain ⟨c, hloop, hending⟩ := hp'.served k hk
    refine ⟨hnecessary more p' hmore (by rw [hloop]; rfl), ?_⟩
    exact not_endless_of_returned hsize hp' hloop hending
  · rintro ⟨hcount, hends⟩
    obtain ⟨q, hleads, hk⟩ := exists_begun hsize hp hlive hcount
    have hq := (hp.run hsize hleads.2.choose_spec).sound
    have htaken := (mem_left_iff hq.tpool hq.accepting k).2 hk
    obtain hexecuted | ⟨i, hworker⟩ := executed_or_running hq.tpool htaken
    · exact ⟨_, q, hleads.2.choose_spec, hexecuted⟩
    · obtain ⟨p', hreturned, _, _, hexecuted⟩ := exists_returned hsize hq hleads.1 hworker hends
      obtain ⟨_, more, hmore⟩ := hleads.trans hreturned
      exact ⟨more, p', hmore, hexecuted⟩

/-- Eight clients that go away without a word are all that the server can bear. -/
theorem served_iff_gone :
    (∃ more p', Run (StepOf (step (streams fun _ => []))) init more p' ∧ (p'.loops 7).isSome) ∧
      ¬ ∃ more p', Run (StepOf (step (streams fun _ => []))) init more p' ∧ (p'.loops 8).isSome := by
  have hserved : ∀ k, _ ↔ Nat.count (Endless fun _ => []) k < NTHREADS :=
    fun k => (served_iff (by simp) .nil rfl k).1
  exact ⟨(hserved 7).2 (by decide), fun h => absurd ((hserved 8).1 h) (by decide)⟩

end oslabs.net.thread_pool
