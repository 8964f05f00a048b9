import OsLabs.Net.BasicServer
import OsLabs.Net.PoolServer
import OsLabs.Net.Refinement
import OsLabs.Net.ThreadServer

open oslabs.fifo oslabs.memory oslabs.loop oslabs.run
open oslabs.async (BUFSIZE STOP)

namespace oslabs.net

/-- The clients send text: no message has a zero, and every one leaves room for one. -/
def Text (inputs : Nat → Input) : Prop :=
  ∀ id r data, inputs id r = some data → data.length < BUFSIZE ∧ 0 ∉ data

variable {inputs : Nat → Input}

/-- Of a text, the two servers write back the same. -/
theorem inner_loop_eq (htext : Text inputs) (id : Nat) (c : State) :
    inner_loop (inputs id) c = thread_pool.process_connection (inputs id) c := by
  change Server.basic.handler (inputs id) c = Server.thread_pool.handler (inputs id) c
  cases hread : inputs id c.reads with
  | none => rw [handler_of_fail hread, handler_of_fail hread]; rfl
  | some data =>
    obtain ⟨hlength, hzero⟩ := htext id c.reads data hread
    have hle : data.length ≤ BUFSIZE := Nat.le_of_lt hlength
    have hone : ∀ server : Server, server.handler (inputs id) c = server.handler (fun _ => some data) c :=
      fun server => handler_congr _ hread
    rw [hone, hone, handler_eq (f := fun _ => data) hle, handler_eq (f := fun _ => data) hle]
    simp only [Server.reply, takeWhile_eq_self_iff.2 hzero]

/-- As long as no call fails, the threads of the two servers do the same. -/
theorem process_connection_eq (hread : ∀ id r, inputs id r ≠ none) (id : Nat) (c : State) :
    multithreaded.process_connection (inputs id) c = thread_pool.process_connection (inputs id) c := by
  obtain ⟨data, hdata⟩ := Option.ne_none_iff_exists'.1 (hread id c.reads)
  simp [multithreaded.process_connection, thread_pool.process_connection, pass, hdata]

/-- Then both end their process for the same reason. -/
theorem exits_eq (hread : ∀ id r, inputs id r ≠ none) (id : Nat) (c : State) :
    threads.exits (thread_pool.process_connection (inputs id) c) =
      net.exits (thread_pool.process_connection (inputs id) c) := by
  obtain ⟨data, hdata⟩ := Option.ne_none_iff_exists'.1 (hread id c.reads)
  simp only [thread_pool.process_connection, pass, hdata]
  split
  · rfl
  · split <;> rfl

section Pool

variable {q : thread_pool.Process} {i : Fin thread_pool.NTHREADS} {id : Nat}

/-- The pool has nothing to do but what the workers are at, and the main thread is between two
    connections. -/
structure Idle (q : thread_pool.Process) : Prop where
  live : q.exited = false
  main : q.tpool.call thread_pool.main_thread = .none
  empty : q.tpool.work_queue.items = []

/-- A connection can come at once from the main thread to a worker. -/
theorem exists_handed (h : thread_pool.Sound inputs q) (hidle : Idle q) (hworker : q.tpool.worker i = .looping)
    (buf : Memory) :
    ∃ labels q', Run (StepOf (thread_pool.step inputs)) q labels q' ∧ Idle q' ∧
      q'.loops = Function.update q.loops q.tpool.work_queue.left.length (some (.again (start buf))) ∧
      q'.tpool.work_queue.left.length = q.tpool.work_queue.left.length + 1 ∧
      q'.tpool.worker = Function.update q.tpool.worker i (.running q.tpool.work_queue.left.length) := by
  obtain ⟨hlive, hmain, hempty⟩ := hidle
  obtain ⟨q₁, haccept, hq₁⟩ : ∃ q₁, thread_pool.step inputs q .accept = some q₁ ∧
      q₁ = { q with tpool := q.tpool.setCall thread_pool.main_thread .submitting } :=
    ⟨_, thread_pool.step_accept hlive h hmain, rfl⟩
  obtain ⟨q₂, hput, hq₂⟩ : ∃ q₂, thread_pool.step inputs q₁ .submit_put = some q₂ ∧
      q₂ = { q with
        tpool := pool.thread_pool_submit_put (q.tpool.setCall thread_pool.main_thread .submitting)
          thread_pool.main_thread } := by
    refine ⟨_, thread_pool.step_submit_put (by rw [hq₁]; exact hlive) ?_, by rw [hq₁]⟩
    rw [hq₁]
    exact thread_pool.setCall_main _ _
  have hsubmitted := (h.step haccept).step hput
  have hlive₂ : q₂.exited = false := by rw [hq₂]; exact hlive
  have hworker₂ : q₂.tpool.worker = q.tpool.worker := by rw [hq₂]; rfl
  have hleft₂ : q₂.tpool.work_queue.left = q.tpool.work_queue.left := by rw [hq₂]; rfl
  have hitems : q₂.tpool.work_queue.items = [.work q.tpool.work_queue.entered.length] := by
    rw [hq₂]
    simp [pool.thread_pool_submit_put, pool.thread_pool_internal_submit, pool.State.setCall, hempty]
  obtain ⟨work_queue, hdequeue, _, hleft⟩ := Fifo.dequeue_of_items_eq_cons hitems
  obtain ⟨_, _, hrest⟩ := Fifo.dequeue_eq_some hdequeue
  rw [thread_pool.dequeue_eq hsubmitted.tpool hsubmitted.accepting hdequeue, hleft₂] at hdequeue
  have hget : thread_pool.step inputs q₂ (.worker_get i buf) = some _ :=
    thread_pool.step_worker_get hlive₂ (hworker₂ ▸ hworker) hdequeue buf
  refine ⟨_, _, ((Run.single haccept).snoc hput).snoc hget, ⟨hlive₂, ?_, ?_⟩, ?_, ?_, ?_⟩
  · simp [hq₂, pool.thread_pool_submit_put]
  · rw [hitems] at hrest
    exact (List.cons.inj hrest).2.symm
  · rw [hq₂]
  · dsimp only
    rw [hleft, hleft₂, List.length_append, List.length_singleton]
  · rw [hq₂]
    rfl

end Pool

/-- Where the first worker is while the basic server is at a connection, or at none. -/
def worker_at : Option Nat → pool.Worker
  | some id => .running id
  | none => .looping

/-- The server with a pool has come as far as the basic one, with one of its workers. -/
structure Follows (inputs : Nat → Input) (p : basic.Process) (q : thread_pool.Process) : Prop where
  server : basic.Sound inputs p
  pool_server : thread_pool.Sound inputs q
  loops : q.loops = p.loops
  exited : q.exited = p.exited
  idle : p.exited = false → Idle q ∧ q.tpool.work_queue.left.length = p.accepted ∧
    q.tpool.worker 0 = worker_at p.conn_fd

variable {p p' : basic.Process} {q : thread_pool.Process} {label : basic.Label}

theorem follows_init (inputs : Nat → Input) (buf : Memory) :
    Follows inputs (basic.init buf) thread_pool.init where
  server := basic.sound_init buf
  pool_server := thread_pool.sound_init
  loops := rfl
  exited := rfl
  idle _ := ⟨⟨rfl, rfl, rfl⟩, rfl, rfl⟩

theorem Follows.step (htext : Text inputs) (h : Follows inputs p q)
    (hstep : basic.step inputs p label = some p') :
    ∃ labels q', Run (StepOf (thread_pool.step inputs)) q labels q' ∧ Follows inputs p' q' := by
  have hserver := h.server.step hstep
  have hkept : ∀ {labels q'}, Run (StepOf (thread_pool.step inputs)) q labels q' →
      thread_pool.Sound inputs q' :=
    fun hrun => hrun.invariant (thread_pool.Sound inputs) h.pool_server fun _ _ _ hs hs' => hs.step hs'
  have hmove := basic.move_of_step hstep
  cases hmove with
  | accept hlive hconn =>
    obtain ⟨hidle, hleft, hworker⟩ := h.idle hlive
    rw [hconn] at hworker
    obtain ⟨labels, q', hrun, hidle', hloops, hleft', hworker'⟩ :=
      exists_handed h.pool_server hidle hworker p.buf
    refine ⟨labels, q', hrun, hserver, hkept hrun, ?_, hidle'.live.trans hlive.symm, fun _ => ⟨hidle', ?_, ?_⟩⟩
    · rw [hloops, h.loops, hleft]
    · rw [hleft', hleft]
    · rw [hworker', hleft, Function.update_self]
      rfl
  | @again id c c' hconn hloop hpass =>
    obtain ⟨_, hlive, _⟩ := h.server.inside id hconn
    obtain ⟨hidle, hleft, hworker⟩ := h.idle hlive
    rw [hconn] at hworker
    have hstep' : thread_pool.step inputs q (.pass 0) = some _ :=
      thread_pool.step_pass hidle.live hworker (h.loops ▸ hloop)
    rw [← inner_loop_eq htext, hpass] at hstep'
    have hrun : Run (StepOf (thread_pool.step inputs)) q [.pass 0] _ := .single hstep'
    refine ⟨_, _, hrun, hserver, hkept hrun, ?_, rfl, fun _ => ⟨⟨rfl, hidle.main, hidle.empty⟩, hleft, ?_⟩⟩
    · rw [h.loops]
    · rw [hconn]
      exact hworker
  | @leave id c c' hconn hloop hpass =>
    obtain ⟨_, hlive, _⟩ := h.server.inside id hconn
    obtain ⟨hidle, hleft, hworker⟩ := h.idle hlive
    rw [hconn] at hworker
    have hstep' : thread_pool.step inputs q (.pass 0) = some _ :=
      thread_pool.step_pass hidle.live hworker (h.loops ▸ hloop)
    rw [← inner_loop_eq htext, hpass] at hstep'
    have hrun : Run (StepOf (thread_pool.step inputs)) q [.pass 0] _ := .single hstep'
    by_cases hending : c'.ending = some .returned
    · -- the worker goes back to the pool at once
      have hgoes : decide (c'.ending ≠ some .returned) = false := by simp [hending]
      have hreturn : thread_pool.step inputs _ (.worker_return 0) = some _ :=
        thread_pool.step_worker_return hgoes (hkept hrun) hworker (Function.update_self ..) hending
      have hmore := hrun.snoc hreturn
      refine ⟨_, _, hmore, hserver, hkept hmore, ?_, rfl,
        fun _ => ⟨⟨hgoes, hidle.main, hidle.empty⟩, hleft, ?_⟩⟩
      · rw [h.loops]
      · change Function.update q.tpool.worker 0 pool.Worker.looping 0 = .looping
        exact Function.update_self ..
    · refine ⟨_, _, hrun, hserver, hkept hrun, ?_, rfl, fun hgoes => ?_⟩
      · rw [h.loops]
      · exact absurd (not_not.1 (of_decide_eq_false hgoes)) hending

/-- A server with a thread for each connection has come as far as the one with a pool. -/
structure Spreads (inputs : Nat → Input) (p : thread_pool.Process) (q : threads.Process) : Prop where
  pool_server : thread_pool.Sound inputs p
  loops : q.loops = p.loops
  exited : q.exited = p.exited
  accepted : q.accepted = p.tpool.work_queue.left.length

theorem spreads_init (inputs : Nat → Input) : Spreads inputs thread_pool.init threads.init where
  pool_server := thread_pool.sound_init
  loops := rfl
  exited := rfl
  accepted := rfl

theorem Spreads.step (hread : ∀ id r, inputs id r ≠ none) {p p' : thread_pool.Process}
    {q : threads.Process} {label : thread_pool.Label} (h : Spreads inputs p q)
    (hstep : thread_pool.step inputs p label = some p') :
    ∃ labels q', Run (StepOf (multithreaded.step inputs)) q labels q' ∧ Spreads inputs p' q' := by
  have hpool := h.pool_server.step hstep
  obtain ⟨hlive, hmove⟩ := thread_pool.move_of_step h.pool_server hstep
  have hlive' : q.exited = false := h.exited.trans hlive
  cases hmove with
  | accept hcall => exact ⟨[], q, .nil, hpool, h.loops, h.exited, h.accepted⟩
  | put hcall => exact ⟨[], q, .nil, hpool, h.loops, h.exited, h.accepted⟩
  | worker_return hworker hloop hending => exact ⟨[], q, .nil, hpool, h.loops, h.exited, h.accepted⟩
  | @get i buf id work_queue hworker hqueue =>
    -- the workers take the connections in their order, so this is the one that comes next
    obtain ⟨_, hleft, _⟩ := Fifo.dequeue_eq_some hqueue
    obtain rfl := pool.Job.work.inj
      (thread_pool.dequeue_eq h.pool_server.tpool h.pool_server.accepting hqueue)
    refine ⟨_, _, .single (threads.step_accept hlive' buf), hpool, ?_, h.exited, ?_⟩
    · rw [h.loops, h.accepted]
    · dsimp only
      rw [h.accepted, hleft, List.length_append, List.length_singleton]
  | @pass i id c hworker hloop =>
    have hstep' : multithreaded.step inputs q (.pass id) = some _ :=
      threads.step_pass hlive' (h.loops ▸ hloop)
    rw [process_connection_eq hread] at hstep'
    refine ⟨_, _, .single hstep', hpool, ?_, ?_, h.accepted⟩
    · rw [h.loops]
    · exact exits_eq hread id c

/-- What the basic server can do with clients that send text, the one with a pool can do, and
    what that one can do as long as no call fails, the one with a thread for each connection
    can do: the loops over all connections are in the same states, with the same bytes read
    and written. -/
theorem designs_nested (inputs : Nat → Input) :
    (Text inputs → ∀ buf labels p, Run (StepOf (basic.step inputs)) (basic.init buf) labels p →
      ∃ labels' q, Run (StepOf (thread_pool.step inputs)) thread_pool.init labels' q ∧
        q.loops = p.loops ∧ q.exited = p.exited) ∧
    ((∀ id r, inputs id r ≠ none) → ∀ labels p,
      Run (StepOf (thread_pool.step inputs)) thread_pool.init labels p →
        ∃ labels' q, Run (StepOf (multithreaded.step inputs)) threads.init labels' q ∧
          q.loops = p.loops ∧ q.exited = p.exited) := by
  constructor
  · intro htext buf labels p hrun
    obtain ⟨labels', q, hrun', hfollows⟩ :=
      hrun.simulates_runs (follows_init inputs buf) fun _ _ _ _ h hstep => h.step htext hstep
    exact ⟨labels', q, hrun', hfollows.loops, hfollows.exited⟩
  · intro hread labels p hrun
    obtain ⟨labels', q, hrun', hspreads⟩ :=
      hrun.simulates_runs (spreads_init inputs) fun _ _ _ _ h hstep => h.step hread hstep
    exact ⟨labels', q, hrun', hspreads.loops, hspreads.exited⟩

/-- The second of two clients of the pool says `stop`, which a thread of its own can do as well. -/
def stopping (id : Nat) : Input :=
  if id = 1 then fun _ => some (STOP ++ [10]) else fun _ => some [104, 105]

def stopping_labels (i j : Fin thread_pool.NTHREADS) : List thread_pool.Label :=
  [.accept, .submit_put, .accept, .submit_put, .worker_get i fun _ => 0, .worker_get j fun _ => 0, .pass i,
    .pass j]

theorem designs_nested_stopping : ∃ p labels' q,
    Run (StepOf (thread_pool.step stopping)) thread_pool.init (stopping_labels 4 2) p ∧ p.exited = true ∧
    Run (StepOf (multithreaded.step stopping)) threads.init labels' q ∧ q.loops = p.loops ∧
      q.exited = true := by
  have hread : ∀ id r, stopping id r ≠ none := by
    intro id r
    unfold stopping
    split
    · exact Option.some_ne_none _
    · exact Option.some_ne_none _
  have hrun := run_stepOf_iff.mpr
    (show exec (thread_pool.step stopping) thread_pool.init (stopping_labels 4 2) = some _ from rfl)
  obtain ⟨labels', q, hrun', hloops, hexited⟩ := (designs_nested stopping).2 hread _ _ hrun
  exact ⟨_, labels', q, hrun, rfl, hrun', hloops, hexited⟩

end oslabs.net
