import OsLabs.Adder.Result
import OsLabs.Lib.Settle

open oslabs.census oslabs.fifo oslabs.latch oslabs.loop oslabs.run

namespace oslabs.adder

variable {W : Type} {vals : List Int32} {nvals : UInt64} {s s' : State W}

/-- How many passes a task makes through its loop. -/
def passes (nvals : UInt64) (n : Fin NTHREADS) : Nat :=
  (task_end nvals n).toNat - (task_begin nvals n).toNat

/-- How many steps an item in the queue leads to, at most. -/
def itemSteps (nvals : UInt64) : Option (Fin NTHREADS) → Nat
  | none => 2
  | some n => passes nvals n + 4

/-- How many steps a worker has still to make with what it is at. The last step of a task may
    wake the caller. -/
def Worker.steps (nvals : UInt64) : Worker → Nat
  | .idle => 0
  | .foreign => 1
  | .summing n p _ => (task_end nvals n).toNat - p.toNat + 3
  | .counting _ => 2

/-- How many steps the caller has still to make, with those that its submissions lead to. -/
def Caller.steps (nvals : UInt64) : Caller → Nat
  | .submitting n => (((List.finRange NTHREADS).drop n).map fun n => passes nvals n + 5).sum + NTHREADS + 4
  | .await | .woken => NTHREADS + 3
  | .waiting => NTHREADS + 2
  | .adding i _ => NTHREADS - i + 1
  | .returned _ => 0

variable [Fintype W]

/-- How many steps there are still to make, at most, when nothing comes in from outside. -/
def State.steps (nvals : UInt64) (s : State W) : Nat :=
  s.caller.steps nvals + (s.work_queue.items.map (itemSteps nvals)).sum + tally (Worker.steps nvals) s.worker

variable [DecidableEq W]

/-- A step of the caller or of a worker, not one of the rest of the program, nor a wake-up
    that nobody has called for. -/
def Own (vals : List Int32) (nvals : UInt64) (s : State W) (label : Label W) (s' : State W) : Prop :=
  label ≠ .foreign_put ∧ label ≠ .spurious ∧ step vals nvals s label = some s'

omit [Fintype W] in
/-- Where no step of the call is left, the code cannot make any. -/
theorem step_eq_none (hend : ∀ label s', ¬ Own vals nvals s label s') {label : Label W}
    (hput : label ≠ .foreign_put) (hspurious : label ≠ .spurious) : step vals nvals s label = none := by
  by_contra hsome
  obtain ⟨s', hstep⟩ := Option.ne_none_iff_exists'.1 hsome
  exact hend label s' ⟨hput, hspurious, hstep⟩

/-- While the caller waits, the latch is closed. -/
def Closed (s : State W) : Prop :=
  s.caller = .waiting → countdownlatch_await_waits s.cdl = true

omit [Fintype W] in
theorem Closed.step {label : Label W} (h : Closed s) (hmove : Move vals nvals s label s') : Closed s' := by
  cases hmove with
  | submit | submitted | leave | spurious | add | «return» => intro hwaiting; cases hwaiting
  | sleep hcaller hwaits => exact fun _ => hwaits
  | foreign_put | foreign_get | get | foreign_return | pass | store => exact h
  | @countdown w n hworker =>
    intro hwaiting
    simp only [par_func_countdown] at hwaiting ⊢
    split at hwaiting
    · cases hwaiting
    · rename_i hsilent
      have hopen := h hwaiting
      rw [countdownlatch_await_waits_iff] at hopen ⊢
      have hcount := toInt_countdown hopen
      have hbroadcast := broadcast_countdown_iff hopen
      have hnone : (countdownlatch_countdown s.cdl).2 ≠ true := fun hcalled => hsilent ⟨hcalled, hwaiting⟩
      rw [ne_eq, hbroadcast] at hnone
      omega

theorem steps_submit (nvals : UInt64) (n : Fin NTHREADS) :
    (Caller.submitting n).steps nvals = (Caller.submitting (n + 1)).steps nvals + passes nvals n + 5 := by
  have hlt : n.val < (List.finRange NTHREADS).length := by simp
  simp only [Caller.steps]
  rw [List.drop_eq_getElem_cons hlt, List.map_cons, List.sum_cons, List.getElem_finRange]
  simp only [Fin.cast_mk, Fin.eta]
  omega

theorem items_enqueue (nvals : UInt64) (q : Fifo (Option (Fin NTHREADS))) (item : Option (Fin NTHREADS)) :
    ((q.enqueue item).items.map (itemSteps nvals)).sum =
      (q.items.map (itemSteps nvals)).sum + itemSteps nvals item := by
  simp

theorem items_dequeue {q q' : Fifo (Option (Fin NTHREADS))} {item : Option (Fin NTHREADS)} (nvals : UInt64)
    (h : q.dequeue = some (item, q')) : (q.items.map (itemSteps nvals)).sum =
      itemSteps nvals item + (q'.items.map (itemSteps nvals)).sum := by
  obtain ⟨_, _, hitems⟩ := Fifo.dequeue_eq_some h
  rw [hitems, List.map_cons, List.sum_cons]

/-- Every step that is the caller's own or a worker's brings the call nearer to its end. -/
theorem steps_lt {label : Label W} (hlength : vals.length = nvals.toNat)
    (hsize : nvals.toNat + (NTHREADS - 1) < 2 ^ 64) (hprotocol : Protocol s) (hvalues : Values vals nvals s)
    (hput : label ≠ .foreign_put) (hspurious : label ≠ .spurious) (hmove : Move vals nvals s label s') :
    s'.steps nvals < s.steps nvals := by
  cases hmove with
  | @submit n hcaller =>
    have hsubmit := steps_submit nvals n
    simp only [State.steps, hcaller, items_enqueue, itemSteps]
    omega
  | @submitted n hcaller hge =>
    simp only [State.steps, hcaller, Caller.steps]
    omega
  | sleep hcaller hwaits =>
    rcases hcaller with hcaller | hcaller
    · simp [State.steps, hcaller, Caller.steps]
    · simp [State.steps, hcaller, Caller.steps]
  | leave hcaller hwaits =>
    rcases hcaller with hcaller | hcaller
    · simp [State.steps, hcaller, Caller.steps]
    · simp [State.steps, hcaller, Caller.steps]
  | spurious => exact absurd rfl hspurious
  | @add i total hcaller =>
    have hlt := i.isLt
    simp only [State.steps, hcaller, Caller.steps]
    omega
  | «return» hcaller hge =>
    simp only [State.steps, hcaller, Caller.steps]
    omega
  | foreign_put => exact absurd rfl hput
  | @foreign_get w work_queue hworker hqueue =>
    have hitems := items_dequeue nvals hqueue
    have htally := tally_update (Worker.steps nvals) s.worker w .foreign
    simp only [hworker, Worker.steps, itemSteps] at htally hitems
    simp only [State.steps]
    omega
  | @get w n work_queue hworker hqueue =>
    have hitems := items_dequeue nvals hqueue
    have htally := tally_update (Worker.steps nvals) s.worker w (.summing n (s.tasks n).begin 0)
    have hqueued : some n ∈ s.work_queue.items := by
      obtain ⟨_, _, hcons⟩ := Fifo.dequeue_eq_some hqueue
      rw [hcons]
      exact List.mem_cons_self
    obtain ⟨hbegin, _⟩ := hvalues.ranges n (hprotocol.of_queued hqueued)
    simp only [hworker, Worker.steps, itemSteps, passes, hbegin] at htally hitems
    simp only [State.steps, hbegin]
    omega
  | @foreign_return w hworker =>
    have htally := tally_update (Worker.steps nvals) s.worker w .idle
    simp only [hworker, Worker.steps] at htally
    simp only [State.steps]
    omega
  | @pass w n p total next hworker hlt hpass =>
    obtain ⟨hnext, _, hend⟩ := hvalues.pass hlength hsize hprotocol hworker hlt
    obtain rfl := Option.some.inj (hpass.symm.trans hnext)
    have htally := tally_update (Worker.steps nvals) s.worker w
      (.summing n (p + 1) (segmentSum vals (task_begin nvals n).toNat (p + 1).toNat))
    simp only [hworker, Worker.steps] at htally
    have hsucc : (p + 1).toNat = p.toNat + 1 := toNat_succ hlt
    rw [UInt64.le_iff_toNat_le] at hend
    simp only [State.steps]
    omega
  | @store w n p total hworker hge =>
    have htally := tally_update (Worker.steps nvals) s.worker w (.counting n)
    simp only [hworker, Worker.steps] at htally
    simp only [State.steps]
    omega
  | @countdown w n hworker =>
    have htally := tally_update (Worker.steps nvals) s.worker w .idle
    simp only [hworker, Worker.steps] at htally
    simp only [State.steps, par_func_countdown]
    split
    · rename_i hwoken
      simp only [hwoken.2, Caller.steps]
      omega
    · omega

/-- What holds in every state of a call. -/
structure Sound (vals : List Int32) (nvals : UInt64) (s : State W) : Prop where
  protocol : Protocol s
  values : Values vals nvals s
  closed : Closed s

section Call

variable (hlength : vals.length = nvals.toNat) (hsize : nvals.toNat + (NTHREADS - 1) < 2 ^ 64)
include hlength hsize

theorem Sound.step {label : Label W} (h : Sound vals nvals s) (hmove : Move vals nvals s label s') :
    Sound vals nvals s' :=
  ⟨h.protocol.step hmove, h.values.step hlength hsize h.protocol hmove, h.closed.step hmove⟩

theorem sound_of_run {s₀ : State W} {labels : List (Label W)} (hinitial : Initial s₀)
    (hrun : Run (StepOf (step vals nvals)) s₀ labels s) : Sound vals nvals s := by
  refine hrun.invariant (Sound vals nvals) ⟨hinitial.protocol, hinitial.values, ?_⟩
    fun s label s' h hstep => h.step hlength hsize (move_of_step hstep)
  intro hwaiting
  rw [hinitial.caller] at hwaiting
  cases hwaiting

/-- A worker that can make no step has nothing to do. -/
theorem Sound.idle (h : Sound vals nvals s) (hend : ∀ label s', ¬ Own vals nvals s label s') (w : W) :
    s.worker w = .idle := by
  cases hworker : s.worker w with
  | idle => rfl
  | foreign =>
    have hnone : adder.step vals nvals s (.foreign_return w) = none := step_eq_none hend (by simp) (by simp)
    simp only [adder.step, hworker, reduceCtorEq] at hnone
  | summing n p total =>
    have hpass : ∃ s', par_func_pass vals s w n p total = some s' := by
      unfold par_func_pass
      split
      · obtain ⟨hnext, _⟩ := h.values.pass hlength hsize h.protocol hworker ‹_›
        rw [hnext]
        exact ⟨_, rfl⟩
      · exact ⟨_, rfl⟩
    obtain ⟨s', hs'⟩ := hpass
    have hnone : adder.step vals nvals s (.par_func_pass w) = none := step_eq_none hend (by simp) (by simp)
    simp only [adder.step, hworker, hs', reduceCtorEq] at hnone
  | counting n =>
    have hnone : adder.step vals nvals s (.countdown w) = none := step_eq_none hend (by simp) (by simp)
    simp only [adder.step, hworker, reduceCtorEq] at hnone

/-- A caller whose call can make no step has returned. -/
theorem Sound.returned [Nonempty W] (h : Sound vals nvals s)
    (hend : ∀ label s', ¬ Own vals nvals s label s') :
    ∃ total, s.caller = .returned total ∧ seq_adder vals nvals = some total := by
  cases hcaller : s.caller with
  | submitting n =>
    have hnone : adder.step vals nvals s .submit = none := step_eq_none hend (by simp) (by simp)
    simp only [adder.step, hcaller, reduceCtorEq] at hnone
  | await | woken =>
    have hnone : adder.step vals nvals s .await = none := step_eq_none hend (by simp) (by simp)
    simp only [adder.step, hcaller, reduceCtorEq] at hnone
  | adding i total =>
    have hnone : adder.step vals nvals s .add = none := step_eq_none hend (by simp) (by simp)
    simp only [adder.step, hcaller, reduceCtorEq] at hnone
  | returned total =>
    refine ⟨total, rfl, ?_⟩
    have hadds := h.values.adds
    rw [hcaller] at hadds
    rw [seq_adder_eq hlength, hadds]
  | waiting =>
    -- The latch is closed, so that some task is not finished: it is in the queue, with all workers idle.
    have hidle := h.idle hlength hsize hend
    have hclosed := (countdownlatch_await_waits_iff _).1 (h.closed hcaller)
    have hcounter := h.protocol.counter
    obtain ⟨n, hn⟩ : ∃ n, n ∉ s.finished := by
      by_contra hall
      simp only [not_exists, not_not] at hall
      have hcard : s.finished.card = NTHREADS := by
        rw [Finset.eq_univ_of_forall hall, Finset.card_univ, Fintype.card_fin]
      omega
    have haccount := h.protocol.account n
    have hruns : runs s.worker n = 0 := by
      refine (tally_eq_zero_iff _ _).2 fun w => ?_
      rw [hidle w]
      rfl
    have hhanded : s.caller.handedOver n = 1 := by
      rw [hcaller]
      exact if_pos n.isLt
    rw [hruns, if_neg hn, hhanded] at haccount
    have hqueued : some n ∈ s.work_queue.items := List.count_pos_iff.1 (by omega)
    obtain ⟨item, items, hitems⟩ := List.exists_cons_of_ne_nil (List.ne_nil_of_mem hqueued)
    obtain ⟨work_queue, hdequeue, _⟩ := Fifo.dequeue_of_items_eq_cons hitems
    obtain ⟨w⟩ := ‹Nonempty W›
    have hnone : adder.step vals nvals s (.worker_get w) = none := step_eq_none hend (by simp) (by simp)
    simp only [adder.step, hidle w, worker_get, hdequeue, Option.bind_eq_bind, Option.bind_some,
      reduceCtorEq] at hnone

/-- A call of `par_adder` comes to its end, with the result of `seq_adder`, from wherever it is
    and however the steps of the caller and of the workers are interleaved, when the actions of
    others that are in the pool return, and nothing else comes in. -/
theorem par_adder_settles [Nonempty W] {s₀ : State W} {labels : List (Label W)} (hinitial : Initial s₀)
    (hrun : Run (StepOf (step vals nvals)) s₀ labels s) :
    Settles (Own vals nvals) (fun s => ∃ total, s.caller = .returned total ∧ seq_adder vals nvals = some total)
      s (s.steps nvals) := by
  have hsound := sound_of_run hlength hsize hinitial hrun
  refine settles_of_measure (Sound vals nvals) (State.steps nvals) ?_ ?_ hsound
  · rintro s label s' h ⟨hput, hspurious, hstep⟩
    have hmove := move_of_step hstep
    exact ⟨h.step hlength hsize hmove, steps_lt hlength hsize h.protocol h.values hput hspurious hmove⟩
  · exact fun s h hend => h.returned hlength hsize hend

end Call

/-- The one worker of the pool is with somebody else's action when the caller has submitted its
    first task, and everything ends within 30 steps. -/
theorem par_adder_settles_two : ∃ s : State Unit,
    Run (StepOf (step [5, 7] 2)) (par_adder_start fun _ => ⟨0, 0, 0⟩)
      [.foreign_put, .worker_get (), .submit] s ∧ s.worker () = .foreign ∧ s.steps 2 = 30 ∧
    Settles (Own [5, 7] 2) (fun s => ∃ total, s.caller = .returned total ∧ seq_adder [5, 7] 2 = some total)
      s (s.steps 2) := by
  have hrun := run_stepOf_iff.mpr (show exec (step [5, 7] 2) (par_adder_start fun _ => ⟨0, 0, 0⟩ : State Unit)
      [.foreign_put, .worker_get (), .submit] = some _ from rfl)
  exact ⟨_, hrun, rfl, by decide, par_adder_settles rfl (by decide) (par_adder_start_initial _) hrun⟩

end oslabs.adder
