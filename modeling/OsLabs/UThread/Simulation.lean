import OsLabs.UThread.Refinement
import OsLabs.UThread.Steps

open oslabs.ring oslabs.list oslabs.loop oslabs.run

namespace oslabs.uthread

variable {E S : Type} [DecidableEq E] [DecidableEq S] {s s' : State E S} {a : Queues E S}
  {place : Thread → Place E S}

private theorem rel_bind {α β γ δ : Type} {R : α → β → Prop} {R' : γ → δ → Prop} {x : Option α}
    {y : Option β} {f : α → Option γ} {g : β → Option δ} (h : Option.Rel R x y)
    (hcont : ∀ v w, R v w → Option.Rel R' (f v) (g w)) : Option.Rel R' (x >>= f) (y >>= g) := by
  cases h with
  | some hrel => exact hcont _ _ hrel
  | none => exact .none

private theorem rel_bind_same {α γ δ : Type} {R : γ → δ → Prop} {x : Option α} {f : α → Option γ}
    {g : α → Option δ} (hcont : ∀ v, x = some v → Option.Rel R (f v) (g v)) :
    Option.Rel R (x >>= f) (x >>= g) := by
  cases x with
  | some v => exact hcont v rfl
  | none => exact .none

/-- The links a pass through either loop starts from. -/
private theorem waiters_next (s : State E S) (sync : Sync E S) :
    (remove_list_first s.links (.waiters sync)).1 = s.links.next (.waiters sync) := rfl

/-- The threads that wait on an object are distinct, and none of them is ready. -/
structure Parked (sync : Sync E S) (a : Queues E S) : Prop where
  nodup : (a.blocked sync).Nodup
  not_ready : ∀ t ∈ a.blocked sync, t ∉ a.ready

omit [DecidableEq E] [DecidableEq S] in
theorem Queued.parked (h : Queued a place) (sync : Sync E S) : Parked sync a := by
  refine ⟨h.blocked_nodup sync, fun t ht => ?_⟩
  rw [h.mem_ready, (h.mem_blocked sync t).mp ht]
  simp

omit [DecidableEq E] [DecidableEq S] in
theorem Parked.set_core {sync : Sync E S} (h : Parked sync a) (core : Core E S)
    (hthread : core.wblock_thread = a.wblock_thread := by rfl) :
    Parked sync { a with toCore := core } := by
  have hblocked : Queues.blocked { a with toCore := core } sync = a.blocked sync := by
    rw [Queues.blocked, hthread, Queues.blocked]
  refine ⟨?_, ?_⟩
  · rw [hblocked]
    exact h.nodup
  · rw [hblocked]
    exact h.not_ready

/-- Granting the first request leaves the others parked. -/
theorem Parked.grant {sem : S} (h : Parked (.sem sem) a) {wblock : Nat} {rest : List Nat}
    (hwaiters : a.waiters (.sem sem) = wblock :: rest) : Parked (.sem sem) (a.grant sem) := by
  have hblocked : a.blocked (.sem sem) = a.wblock_thread wblock :: rest.map a.wblock_thread := by
    rw [Queues.blocked, hwaiters, List.map_cons]
  have hgrant : (a.grant sem).blocked (.sem sem) = rest.map a.wblock_thread := by
    simp [Queues.blocked, Queues.grant, Queues.wake, Queues.activate, hwaiters, take_units]
  obtain ⟨hnodup, hready⟩ := h
  rw [hblocked] at hnodup hready
  obtain ⟨hnot, hrest⟩ := List.nodup_cons.mp hnodup
  refine ⟨by rwa [hgrant], fun t ht => ?_⟩
  rw [hgrant] at ht
  rw [a.ready_grant hwaiters, List.mem_append, List.mem_singleton, not_or]
  refine ⟨hready t (List.mem_cons_of_mem _ ht), ?_⟩
  rintro rfl
  exact hnot ht

/-- Waking the first waiter in memory wakes the first waiter of the queue. Its
    thread waits, so its entry is in no list when `ut_activate` is called. -/
theorem Refines.wake (h : Refines s a) {sync : Sync E S} (hparked : Parked sync a) {wblock : Nat}
    {rest : List Nat} (hwaiters : a.waiters sync = wblock :: rest) :
    Refines (uthread.ut_activate { s with links := (remove_list_first s.links (.waiters sync)).2 }
      (a.wblock_thread wblock)) (a.wake sync) := by
  obtain ⟨_, hremoved⟩ := h.remove_waiter hwaiters
  have hnot : a.wblock_thread wblock ∉ a.ready :=
    hparked.not_ready _ (mem_blocked_of_mem_waiters (hwaiters ▸ List.mem_cons_self))
  simpa only [Queues.wake, hwaiters] using hremoved.ut_activate hnot

/-- `event_set` ends, and wakes every waiter of the event. -/
theorem Refines.event_set (h : Refines s a) (hqueued : Queued a place) (event : E) :
    ∃ fuel s', event_set fuel s event = some s' ∧
      Refines s' ({ a with signaled := Function.update a.signaled event true }.wakeAll (.event event)) := by
  have hstart : Refines { s with signaled := Function.update s.signaled event true }
      { a with signaled := Function.update a.signaled event true } := by
    rw [show s.signaled = a.signaled from congrArg Core.signaled h.core]
    exact ⟨by rw [← h.core], h.rings, h.activations⟩
  refine ⟨_, whileLoop_refines (fun s (a : Queues E S) => Refines s a ∧ ∃ place, Queued a place)
    (·.wakeAll (.event event)) (fun a => (a.waiters (.event event)).length) ?_ ?_
    ⟨hstart, place, hqueued.congr⟩ (Nat.lt_succ_self _) |>.imp
    fun s' hend => ⟨hend.1, hend.2.1⟩⟩
  · rintro s a ⟨href, _⟩ hcond
    rw [Bool.not_eq_false', href.is_list_empty_waiters] at hcond
    exact Queues.wakeAll_nil hcond
  · rintro s a ⟨href, place, hplaced⟩ hcond
    rw [Bool.not_eq_true', Bool.eq_false_iff, ne_eq, href.is_list_empty_waiters] at hcond
    obtain ⟨wblock, rest, hwaiters⟩ := List.exists_cons_of_ne_nil hcond
    obtain ⟨hfirst, _⟩ := href.remove_waiter hwaiters
    refine .inl ⟨_, a.wake (.event event), ?_,
      ⟨href.wake (hplaced.parked _) hwaiters, _, hplaced.wake hwaiters⟩, a.wakeAll_wake _, ?_⟩
    · simp only [event_set_pass, hfirst, container_of_waitblock,
        show s.wblock_thread = a.wblock_thread from congrArg Core.wblock_thread href.core]
      rfl
    · simp [Queues.wake, hwaiters]

section Post

variable {sem : S} {wblock : Nat} {rest : List Nat}

/-- The two ways a pass through the loop of `sem_post` ends. -/
theorem Refines.sem_post_pass_leave (h : Refines s a) (hwaiters : a.waiters (.sem sem) = wblock :: rest)
    (hlarge : (a.sem sem).units < a.wblock_units wblock) : sem_post_pass sem s = some (.leave s) := by
  obtain ⟨hfirst, _⟩ := h.remove_waiter hwaiters
  rw [waiters_next] at hfirst
  have hsem : s.sem = a.sem := congrArg Core.sem h.core
  have hdemand : s.wblock_units = a.wblock_units := congrArg Core.wblock_units h.core
  simp [sem_post_pass, hfirst, container_of_waitblock, hsem, hdemand, hlarge]

theorem Refines.sem_post_pass_again (h : Refines s a) (hparked : Parked (.sem sem) a)
    (hwaiters : a.waiters (.sem sem) = wblock :: rest)
    (hfits : ¬ (a.sem sem).units < a.wblock_units wblock) :
    ∃ s', sem_post_pass sem s = some (.again s') ∧ Refines s' (a.grant sem) := by
  obtain ⟨hfirst, _⟩ := h.remove_waiter hwaiters
  rw [waiters_next] at hfirst
  have hsem : s.sem = a.sem := congrArg Core.sem h.core
  have hthread : s.wblock_thread = a.wblock_thread := congrArg Core.wblock_thread h.core
  have hdemand : s.wblock_units = a.wblock_units := congrArg Core.wblock_units h.core
  refine ⟨uthread.ut_activate { s with
    toCore := take_units s.toCore sem (a.wblock_thread wblock) (a.wblock_units wblock)
    links := (remove_list_first s.links (.waiters (.sem sem))).2 } (a.wblock_thread wblock), ?_, ?_⟩
  · simp only [sem_post_pass, hfirst, container_of_waitblock, hsem, hdemand, hthread]
    exact if_neg hfits
  · have htaken := h.set_core
      (take_units a.toCore sem (a.wblock_thread wblock) (a.wblock_units wblock))
    have hparked' := hparked.set_core
      (take_units a.toCore sem (a.wblock_thread wblock) (a.wblock_units wblock))
    rw [show s = { s with toCore := a.toCore } by rw [← h.core]]
    simp only [Queues.grant, hwaiters]
    exact htaken.wake hparked' hwaiters

/-- The loop of `sem_post` looks at the queue as long as somebody waits. -/
theorem Refines.waiting_iff (h : Refines s a) :
    s.links.next (.waiters (.sem sem)) ≠ .waiters (.sem sem) ↔ a.waiters (.sem sem) ≠ [] := by
  rw [ne_eq, ne_eq, ← h.is_list_empty_waiters, is_list_empty, decide_eq_true_eq]

end Post

/-- `sem_post` ends, and grants exactly the requests its loop can. -/
theorem Refines.sem_post_of_parked (h : Refines s a) {sem : S} (hparked : Parked (.sem sem) a)
    (units : Int32) :
    ∃ fuel s', sem_post fuel s sem units = some s' ∧
      Refines s' ({ a with toCore := add_units a.toCore sem units }.release sem) := by
  have hstart : Refines { s with toCore := add_units s.toCore sem units }
      { a with toCore := add_units a.toCore sem units } := h.core ▸ h.set_core _
  refine ⟨_, whileLoop_refines (fun s (a : Queues E S) => Refines s a ∧ Parked (.sem sem) a)
    (·.release sem) (fun a => (a.waiters (.sem sem)).length) ?_ ?_
    ⟨hstart, hparked.set_core _⟩ (Nat.lt_succ_self _) |>.imp
    fun s' hend => ⟨hend.1, hend.2.1⟩⟩
  · rintro s a ⟨href, _⟩ hcond
    refine Queues.release_stop fun wblock rest hwaiters hunits => ?_
    rw [decide_eq_false_iff_not, not_and, href.waiting_iff, href.core] at hcond
    exact absurd (by simp [hwaiters]) (hcond hunits)
  · rintro s a ⟨href, hparked⟩ hcond
    rw [decide_eq_true_eq, href.waiting_iff, href.core] at hcond
    obtain ⟨hunits, hwaiting⟩ := hcond
    obtain ⟨wblock, rest, hwaiters⟩ := List.exists_cons_of_ne_nil hwaiting
    by_cases hfits : (a.sem sem).units < a.wblock_units wblock
    · have hstop : a.release sem = a := by
        refine Queues.release_stop fun other tail hother _ => ?_
        obtain ⟨rfl, rfl⟩ := List.cons.inj (hwaiters.symm.trans hother)
        exact hfits
      rw [hstop]
      exact .inr ⟨s, href.sem_post_pass_leave hwaiters hfits, href, hparked⟩
    · obtain ⟨s', hpass, href'⟩ := href.sem_post_pass_again hparked hwaiters hfits
      exact .inl ⟨s', a.grant sem, hpass, ⟨href', hparked.grant hwaiters⟩,
        Queues.release_grant hwaiters hunits hfits, by simp [a.waiters_grant hwaiters, hwaiters]⟩

theorem Refines.sem_post (h : Refines s a) (hqueued : Queued a place) (sem : S) (units : Int32) :
    ∃ fuel s', sem_post fuel s sem units = some s' ∧
      Refines s' ({ a with toCore := add_units a.toCore sem units }.release sem) :=
  h.sem_post_of_parked (hqueued.parked _) units

/-- `ut_exit` schedules the next thread and frees the old one behind its back. -/
theorem ut_exit_eq (s : State E S) :
    ut_exit s = (do
      let curr ← s.running_thread
      let next ← schedule { s with number_of_threads := s.number_of_threads - 1 }
      let core ← internal_cleanup next.toCore curr
      some { next with toCore := core }) := by
  simp only [ut_exit, uthread.schedule, internal_exit, Option.bind_eq_bind, Option.bind_assoc,
    Option.bind_some]

/-- A user thread that waits on an object in a new wait block switches away. -/
theorem Refines.block (h : Refines s a) (hqueued : Queued a place) (core : Core E S)
    (sync : Sync E S) {wblock : Nat} (hfresh : ∀ t, a.frame t ≠ some wblock) :
    Option.Rel Refines
      (uthread.ut_deactivate { s with
        toCore := core
        links := insert_list_last s.links (.waiters sync) (.wblock wblock) })
      ({ a with toCore := core }.enqueue sync wblock).dispatch :=
  ((h.set_core core).enqueue sync (hqueued.wblock_fresh hfresh)).schedule

/-- Every call does to the lists in memory what it does to the queues, and where
    one of the two is undefined so is the other. Enough fuel ends its loops. -/
theorem Refines.perform (h : Refines s a) (hlocated : Located a place) {call : Call E S}
    (hallowed : Allowed s.toCore call) :
    ∃ fuel, Option.Rel Refines (perform fuel s call) (a.perform call) := by
  have hqueued := hlocated.toQueued
  obtain ⟨core, links, activations⟩ := s
  obtain rfl : core = a.toCore := h.core
  cases call with
  | ut_create block stack =>
    obtain ⟨_, hfresh⟩ := hallowed
    have hgone : place (.user block) = .gone := by
      by_contra hplace
      exact hfresh.block_fresh ((hqueued.live block).mpr hplace)
    have hcreated := h.set_core { a.toCore with
      live := insert block a.live
      stack := Function.update a.stack block stack
      number_of_threads := a.number_of_threads + 1 }
    exact ⟨0, .some (hcreated.ut_activate (hqueued.not_queued (.inr hgone)).1)⟩
  | ut_run =>
    refine ⟨0, ?_⟩
    have hempty := h.is_list_empty_ready
    simp only [uthread.perform, ut_run, Queues.perform, hempty]
    split
    · split
      · exact .some h
      · exact (h.set_core { a.toCore with main_thread := some .main, running_thread := some .main }).schedule
    · exact .none
  | ut_run_resumed =>
    refine ⟨0, ?_⟩
    have hempty := h.is_list_empty_ready
    simp only [uthread.perform, ut_run_resumed, Queues.perform, hempty]
    by_cases hready : a.ready = []
    · by_cases hcount : a.number_of_threads = 0
      · rw [if_pos hready, if_pos hcount, if_pos ⟨hready, hcount⟩]
        exact .some (h.set_core _)
      · rw [if_pos hready, if_neg hcount, if_neg fun hboth => hcount hboth.2]
        exact .none
    · rw [if_neg hready, if_neg fun hboth => hready hboth.1]
      exact .none
  | ut_yield =>
    obtain ⟨block, hrunning⟩ := hallowed
    refine ⟨0, ?_⟩
    have hempty := h.is_list_empty_ready
    by_cases hready : a.ready = []
    · simp only [uthread.perform, ut_yield, Queues.perform, hempty, hready, if_true]
      exact .some h
    · simp only [uthread.perform, ut_yield, Queues.perform, hempty, hready, if_false]
      refine rel_bind_same fun curr hcurr => ?_
      obtain rfl : Thread.user block = curr := Option.some.inj (hrunning.symm.trans hcurr)
      refine Refines.schedule ⟨rfl, h.insert_ready ?_, h.activations⟩
      rw [hqueued.mem_ready, (hlocated.running _).mpr hrunning]
      simp
  | ut_exit =>
    refine ⟨0, ?_⟩
    simp only [uthread.perform, ut_exit_eq, Queues.perform]
    refine rel_bind_same fun curr _ => ?_
    refine rel_bind (h.set_core _).schedule fun next next' hnext => ?_
    rw [hnext.core]
    exact rel_bind_same fun core _ => .some (hnext.set_core core)
  | event_wait event wblock =>
    obtain ⟨⟨block, hrunning⟩, hfresh⟩ := hallowed
    refine ⟨0, ?_⟩
    simp only [uthread.perform, event_wait, Queues.perform]
    split
    · exact rel_bind_same fun core _ => h.block hqueued core (.event event) hfresh
    · exact .some h
  | event_set event =>
    obtain ⟨fuel, s', hend, href⟩ := h.event_set hqueued event
    refine ⟨fuel, ?_⟩
    simp only [uthread.perform, hend]
    exact .some href
  | sem_wait sem units wblock =>
    obtain ⟨⟨block, hrunning⟩, hfresh⟩ := hallowed
    refine ⟨0, ?_⟩
    have hempty := h.is_list_empty_waiters (.sem sem)
    simp only [uthread.perform, sem_wait, Queues.perform, hempty]
    refine rel_bind_same fun self _ => ?_
    split
    · exact .some (h.set_core _)
    · exact rel_bind_same fun core _ => h.block hqueued core (.sem sem) hfresh
  | sem_post sem units =>
    obtain ⟨fuel, s', hend, href⟩ := h.sem_post hqueued sem units
    refine ⟨fuel, ?_⟩
    simp only [uthread.perform, hend]
    exact .some href

end oslabs.uthread
