import OsLabs.Lib.OneShot
import OsLabs.UThread.Runs

open oslabs.ring oslabs.list oslabs.loop oslabs.run oslabs.oneshot

namespace oslabs.uthread

variable {E S : Type} [DecidableEq E]

/-- What a call by a thread does to an event. -/
def eventOp (event : E) (label : Option Thread × Call E S) : Option (Op Thread) :=
  match label.2 with
  | .event_wait other _ => if other = event then label.1.map .wait else none
  | .event_set other => if other = event then some .set else none
  | _ => none

/-- What the calls of a run did to an event. -/
def eventOps (event : E) (labels : List (Option Thread × Call E S)) : List (Op Thread) :=
  labels.filterMap (eventOp event)

theorem eventOp_wait (event : E) (thread : Thread) (wblock : Nat) :
    eventOp (S := S) event (some thread, .event_wait event wblock) = some (.wait thread) := by
  simp [eventOp]

/-- The queues hold an event as it is by itself. -/
structure Tracks (event : E) (a : Queues E S) (e : OneShot Thread) : Prop where
  signaled : a.signaled event = e.isSet
  blocked : a.blocked (.event event) = e.waiting

variable {event : E} {a b next : Queues E S} {e : OneShot Thread}

omit [DecidableEq E] in
theorem Tracks.congr (h : Tracks event a e)
    (hsignaled : b.signaled event = a.signaled event := by rfl)
    (hblocked : b.blocked (.event event) = a.blocked (.event event) := by rfl) : Tracks event b e :=
  ⟨hsignaled.trans h.signaled, hblocked.trans h.blocked⟩

omit [DecidableEq E] in
/-- A dispatch leaves all events as they are. -/
theorem Tracks.dispatch (hdispatch : a.dispatch = some next) (h : Tracks event a e) :
    Tracks event next e := by
  simp only [Queues.dispatch] at hdispatch
  split at hdispatch
  · obtain rfl := Option.some.inj hdispatch
    exact h.congr
  · split at hdispatch
    · obtain rfl := Option.some.inj hdispatch
      exact h.congr
    · cases hdispatch

omit [DecidableEq E] in
theorem blocked_congr {sync : Sync E S} (hwaiters : b.waiters sync = a.waiters sync)
    (hthread : ∀ wblock ∈ a.waiters sync, b.wblock_thread wblock = a.wblock_thread wblock) :
    b.blocked sync = a.blocked sync := by
  rw [Queues.blocked, Queues.blocked, hwaiters]
  exact List.map_congr_left hthread

variable [DecidableEq S]

/-- The thread that blocks comes behind the ones that wait. -/
theorem Queues.blocked_enqueue (a : Queues E S) (sync : Sync E S) (thread : Thread) {wblock : Nat}
    (hnew : wblock ∉ a.waiters sync) (units : Nat → Int32) (frame : Thread → Option Nat)
    (trace : List (Obs S)) :
    ({ a with
      wblock_thread := Function.update a.wblock_thread wblock thread
      wblock_units := units
      frame := frame
      trace := trace }.enqueue sync wblock).blocked sync = a.blocked sync ++ [thread] := by
  simp only [Queues.blocked, Queues.enqueue, Function.update_self, List.map_append, List.map_cons,
    List.map_nil, List.append_cancel_right_eq]
  apply List.map_congr_left
  intro w hw
  have hne : w ≠ wblock := fun heq => hnew (heq ▸ hw)
  exact Function.update_of_ne hne _ _

/-- A thread that blocks on something else leaves an event as it is. -/
theorem Tracks.enqueue (h : Tracks event a e) {sync : Sync E S} (hsync : sync ≠ .event event)
    {wblock : Nat} (hnew : wblock ∉ a.waiters (.event event)) (thread : Thread)
    (units : Nat → Int32) (frame : Thread → Option Nat) (trace : List (Obs S)) :
    Tracks event ({ a with
      wblock_thread := Function.update a.wblock_thread wblock thread
      wblock_units := units
      frame := frame
      trace := trace }.enqueue sync wblock) e := by
  refine ⟨h.signaled, (blocked_congr ?_ ?_).trans h.blocked⟩
  · simp [Queues.enqueue, hsync.symm]
  · intro w hw
    have hne : w ≠ wblock := fun heq => hnew (heq ▸ hw)
    exact Function.update_of_ne hne _ _

theorem Tracks.grant (h : Tracks event a e) (sem : S) : Tracks event (a.grant sem) e := by
  cases hwaiters : a.waiters (.sem sem) with
  | nil => simpa [Queues.grant, hwaiters] using h
  | cons wblock rest =>
    refine ⟨Eq.trans ?_ h.signaled, Eq.trans ?_ h.blocked⟩
    · simp [Queues.grant, Queues.wake, Queues.activate, hwaiters, take_units]
    · simp [Queues.grant, Queues.wake, Queues.activate, hwaiters, take_units, Queues.blocked]

theorem Tracks.release (h : Tracks event a e) (sem : S) : Tracks event (a.release sem) e := by
  apply Queues.release_induction (P := fun a b => Tracks event a e → Tracks event b e)
  · exact fun _ _ h => h
  · exact fun a _ _ _ _ _ ih h => ih (h.grant sem)
  · exact h

/-- Every call does to the event what it does to the event by itself. -/
theorem Tracks.perform {place : Thread → Place E S} {call : Call E S} (h : Tracks event a e)
    (hlocated : Located a place) (hallowed : Allowed a.toCore call)
    (hperform : a.perform call = some b) :
    Tracks event b ((eventOp event (a.running_thread, call)).elim e e.apply) := by
  cases Queues.move_of_perform hallowed hperform with
  | create | resumed => exact h.congr
  | run_nothing | yield_alone => exact h
  | run hdispatch | yield _ hdispatch | exit _ hdispatch => exact Tracks.dispatch hdispatch h.congr
  | @signaled other wblock block hrunning hsignaled =>
    rw [hrunning]
    by_cases hother : other = event
    · subst hother
      have hset : e.isSet = true := by rw [← h.signaled, hsignaled]
      rw [eventOp_wait]
      show Tracks other a (e.wait (.user block))
      rw [OneShot.wait, if_pos hset]
      exact h
    · simp only [eventOp, if_neg hother]
      exact h
  | @event_wait other wblock block _ hrunning hfresh hsignaled hdispatch =>
    have hnew := hlocated.wblock_fresh hfresh
    rw [hrunning]
    by_cases hother : other = event
    · subst hother
      have hunset : ¬ e.isSet = true := by rw [← h.signaled, hsignaled]; simp
      rw [eventOp_wait]
      apply Tracks.dispatch hdispatch
      refine ⟨?_, ?_⟩
      · exact h.signaled.trans (e.isSet_wait _).symm
      · rw [Queues.blocked_enqueue a (.event other) (.user block) (hnew _), h.blocked]
        exact (OneShot.waiting_wait hunset _).symm
    · have hsync : Sync.event other ≠ Sync.event (S := S) event := by simp [hother]
      simp only [eventOp, if_neg hother]
      exact Tracks.dispatch hdispatch (h.enqueue hsync (hnew _) _ _ _ _)
  | @event_set other =>
    by_cases hother : other = event
    · subst hother
      simp only [eventOp, if_true]
      exact ⟨by simp [Queues.wakeAll, OneShot.apply, OneShot.set],
        by simp [Queues.wakeAll, Queues.blocked, OneShot.apply, OneShot.set]⟩
    · simp only [eventOp, if_neg hother]
      refine ⟨Eq.trans ?_ h.signaled, Eq.trans ?_ h.blocked⟩
      · simp [Queues.wakeAll, Ne.symm hother]
      · simp [Queues.wakeAll, Queues.blocked, Ne.symm hother]
  | granted => exact h.congr
  | @sem_wait sem _ _ _ _ _ hfresh _ hdispatch =>
    have hnew := hlocated.wblock_fresh hfresh (.event event)
    have hsync : Sync.sem sem ≠ Sync.event event := by simp
    exact Tracks.dispatch hdispatch (h.enqueue hsync hnew _ _ _ _)
  | @sem_post sem _ => exact Tracks.release h.congr sem

section Run

variable {s₀ s : State E S} {labels : List (Option Thread × Call E S)}

omit [DecidableEq S] in
theorem eventOps_append_singleton (label : Option Thread × Call E S) :
    eventOps event (labels ++ [label]) = eventOps event labels ++ (eventOp event label).toList := by
  rw [eventOps, List.filterMap_append]
  cases hop : eventOp event label <;> simp [eventOps, hop]

/-- At the end of a run the event is what the calls of the run have made of it. -/
theorem tracks_of_run (event : E) (hinitial : Initial s₀) (hrun : Run StepBy s₀ labels s) :
    ∃ a place, Refines s a ∧ Located a place ∧ Tracks event a (replay (eventOps event labels)) := by
  induction hrun with
  | nil =>
    refine ⟨_, _, hinitial.refines, hinitial.located, hinitial.signaled event, ?_⟩
    rfl
  | snoc _ hstep ih =>
    obtain ⟨a, place, href, hlocated, htracks⟩ := ih
    obtain ⟨hcaller, hstep⟩ := hstep
    obtain ⟨a', place', hstep', href', hlocated'⟩ := href.step hlocated hstep
    refine ⟨a', place', href', hlocated', ?_⟩
    have hnext := htracks.perform hlocated hstep'.1 hstep'.2
    rw [eventOps_append_singleton, replay_append_toList]
    rwa [← href.core, ← hcaller] at hnext

/-- An event is signaled once it was set, and then nobody waits for it. Until then no
    thread that has called `event_wait` runs again. Every call a thread may make comes
    to its end. The first `event_set` makes ready all threads that have called
    `event_wait`, each once and in this order, and any other one makes nobody ready. -/
theorem event_single_shot (event : E) (hinitial : Initial s₀) (hrun : Run StepBy s₀ labels s) :
    (s.signaled event = true ↔ .set ∈ eventOps event labels) ∧
      (s.signaled event = true → is_list_empty s.links (.waiters (.event event)) = true) ∧
      (∀ thread, .wait thread ∈ eventOps event labels → s.running_thread = some thread →
        .set ∈ eventOps event labels) ∧
      (∀ call, Allowed s.toCore call → call ≠ .ut_run_resumed → ∃ s', Step s call s') ∧
      ∀ s', Step s (.event_set event) s' →
        ∃ ready woken, woken = (if .set ∈ eventOps event labels then [] else waits (eventOps event labels)) ∧
          Ring s.links .ready_queue (ready.map .thread) ∧
          Ring s'.links .ready_queue ((ready ++ woken).map .thread) ∧ (ready ++ woken).Nodup ∧
          s'.trace = s.trace ++ woken.map .ready := by
  obtain ⟨a, place, href, hlocated, htracks⟩ := tracks_of_run event hinitial hrun
  have hsignaled : s.signaled event = a.signaled event := by rw [href.core]
  have hset : s.signaled event = true ↔ .set ∈ eventOps event labels := by
    rw [hsignaled, htracks.signaled, isSet_replay]
  refine ⟨hset, ?_, ?_, fun _ => run_progress hinitial (run_of_stepBy hrun), ?_⟩
  · intro h
    rw [href.is_list_empty_waiters, ← List.map_eq_nil_iff]
    exact htracks.blocked.trans ((replay _).released ((isSet_replay _).2 (hset.1 h)))
  · intro thread hwait hrunning
    by_contra hunset
    have hblocked : thread ∈ a.blocked (.event event) := by
      rw [htracks.blocked, waiting_replay hunset, mem_waits]
      exact hwait
    have hplace := (hlocated.mem_blocked _ _).1 hblocked
    rw [href.core, ← hlocated.running, hplace] at hrunning
    cases hrunning
  · intro s' hstep
    obtain ⟨a', place', ⟨_, hset'⟩, href', hlocated'⟩ := href.step hlocated hstep
    obtain rfl := Option.some.inj hset'
    refine ⟨a.ready, a.blocked (.event event), ?_, href.rings.each none, ?_, hlocated'.ready_nodup, ?_⟩
    · rw [htracks.blocked, released_replay]
    · exact href'.rings.each none
    · rw [href'.core, href.core]
      rfl

end Run

/-- Two of three threads wait for an event. -/
def twoWait : List (Option Thread × Call Unit Unit) :=
  [(none, .ut_create 1 4096), (none, .ut_create 2 40960), (none, .ut_create 3 77824), (none, .ut_run),
    (some (.user 1), .event_wait () 0), (some (.user 2), .event_wait () 1)]

/-- The third thread sets the event for which the two wait. Both are ready then. -/
theorem event_single_shot_waiting : ∃ s s' : State Unit Unit,
    Run StepBy (booted fun _ => ⟨0, 1⟩) twoWait s ∧ s.running_thread = some (.user 3) ∧
      Step s (.event_set ()) s' ∧
      Ring s'.links .ready_queue [.thread (.user 1), .thread (.user 2)] ∧
      s'.trace = s.trace ++ [.ready (.user 1), .ready (.user 2)] := by
  have hrun := stepBy_of_plays (fun _ => ⟨0, 1⟩) (show plays _ _ [] twoWait = true by decide +kernel)
  have hrunning : (after (booted fun _ : Unit => ⟨0, 1⟩) (twoWait.map Prod.snd)).running_thread =
      some (.user 3) := by decide +kernel
  obtain ⟨_, _, _, hend, hset⟩ := event_single_shot () (booted_initial _) hrun
  obtain ⟨s', hstep⟩ := hend (.event_set ()) ⟨3, hrunning⟩ (by simp)
  obtain ⟨ready, woken, hwoken, hready, hready', _, htrace⟩ := hset s' hstep
  obtain rfl : woken = [.user 1, .user 2] := hwoken
  have hempty : ready = [] := by
    have hlist : is_list_empty (after (booted fun _ : Unit => ⟨0, 1⟩) (twoWait.map Prod.snd)).links
      .ready_queue = true := by decide +kernel
    rwa [is_list_empty_iff hready, List.map_eq_nil_iff] at hlist
  subst hempty
  exact ⟨_, s', hrun, hrunning, hstep, hready', htrace⟩

end oslabs.uthread
