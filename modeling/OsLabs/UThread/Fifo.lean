import OsLabs.UThread.Post

open oslabs.ring oslabs.list oslabs.loop oslabs.run oslabs.greedy

namespace oslabs.uthread

variable {E S : Type} [DecidableEq S] {sem : S} {s s' : State E S} {a a' : Queues E S}
  {label : Option Thread × Call E S}

/-- The calls on a semaphore. -/
def Call.uses (sem : S) : Call E S → Prop
  | .sem_wait other _ _ | .sem_post other _ => other = sem
  | _ => False

/-- The request for units of a semaphore that a call by a thread makes, if any. -/
def asks (sem : S) : Option Thread × Call E S → List (Thread × Int32)
  | (some thread, .sem_wait other units _) => if other = sem then [(thread, units)] else []
  | _ => []

/-- The requests that the calls of a run make, in their order. -/
def asked (sem : S) (labels : List (Option Thread × Call E S)) : List (Thread × Int32) :=
  labels.flatMap (asks sem)

/-- What a blocked thread asks for: the units in the wait block on its stack. -/
def State.demand (s : State E S) (thread : Thread) : Int32 :=
  ((s.frame thread).map s.wblock_units).getD 0

/-- The requests that a call answers, as the memory before and after it shows them. A call of
    `sem_wait` has returned if its thread still runs. A `sem_post` answers the threads
    that it puts in the ready queue. -/
inductive Answers (sem : S) (s s' : State E S) : Option Thread × Call E S → List (Thread × Int32) → Prop where
  | returned {thread : Thread} {units : Int32} {wblock : Nat} (hrunning : s'.running_thread = some thread) :
      Answers sem s s' (some thread, .sem_wait sem units wblock) [(thread, units)]
  | switched_out {thread : Thread} {units : Int32} {wblock : Nat}
      (hrunning : s'.running_thread ≠ some thread) :
      Answers sem s s' (some thread, .sem_wait sem units wblock) []
  | posted {caller : Option Thread} {units : Int32} {ready released : List Thread}
      (hbefore : Ring s.links .ready_queue (ready.map .thread))
      (hafter : Ring s'.links .ready_queue ((ready ++ released).map .thread)) :
      Answers sem s s' (caller, .sem_post sem units) (released.map fun thread => (thread, s.demand thread))
  | other {label : Option Thread × Call E S} (hother : ¬ label.2.uses sem) : Answers sem s s' label []

/-- The units there are for requests, once a call has added to them up to the limit. -/
def supply (sem : S) (limit : Int32) (left : Int) : Call E S → Int
  | .sem_post other units => if other = sem then min limit.toInt (left + units.toInt) else left
  | _ => left

/-- What an observer of a semaphore keeps: the memory, the requests answered so far, and
    the units that these and the posts should have left. -/
structure Watch (E S : Type) where
  state : State E S
  answered : List (Thread × Int32)
  left : Int

variable [DecidableEq E]

/-- A step of a program that keeps to the rules for a semaphore, with the thread that makes the call. -/
def AdmissibleBy (sem : S) (s : State E S) (label : Option Thread × Call E S) (s' : State E S) : Prop :=
  StepBy s label s' ∧ Admissible sem s.toCore label.2

/-- Such a step, observed. -/
def Watches (sem : S) (w : Watch E S) (label : Option Thread × Call E S) (w' : Watch E S) : Prop :=
  AdmissibleBy sem w.state label w'.state ∧ ∃ now, Answers sem w.state w'.state label now ∧
    w'.answered = w.answered ++ now ∧
    w'.left = supply sem (w.state.sem sem).limit w.left label.2 - (now.map fun request => request.2.toInt).sum

/-- What a step adds to the history of a semaphore and takes from its units is what the
    observer notes. -/
structure Noted (sem : S) (label : Option Thread × Call E S) (now : List (Thread × Int32))
    (a a' : Queues E S) : Prop where
  requests : requests sem a'.trace = requests sem a.trace ++ asks sem label
  grants : grants sem a'.trace = grants sem a.trace ++ now
  units : (a'.sem sem).units.toInt =
    supply sem (a.sem sem).limit (a.sem sem).units.toInt label.2 - (now.map fun request => request.2.toInt).sum

omit [DecidableEq E] in
theorem supply_of_not_uses {call : Call E S} (hother : ¬ call.uses sem) (limit : Int32) (left : Int) :
    supply sem limit left call = left := by
  cases call with
  | sem_post other units => exact if_neg hother
  | _ => rfl

omit [DecidableEq E] in
theorem asks_of_not_uses (hother : ¬ label.2.uses sem) : asks sem label = [] := by
  obtain ⟨caller, call⟩ := label
  cases call with
  | sem_wait other units wblock =>
    cases caller with
    | none => rfl
    | some thread => exact if_neg hother
  | _ => cases caller <;> rfl

omit [DecidableEq E] in
theorem SameSem.noted (h : SameSem sem a a') (hother : ¬ label.2.uses sem) : Noted sem label [] a a' where
  requests := by rw [h.requests_eq, asks_of_not_uses hother, List.append_nil]
  grants := by rw [h.grants_eq, List.append_nil]
  units := by simp [h.sem_eq, supply_of_not_uses hother]

/-- A call that is not on the semaphore leaves it alone. -/
theorem Queues.Step.sameSem {place : Thread → Place E S} {call : Call E S} (hlocated : Located a place)
    (hstep : a.Step call a') (hother : ¬ call.uses sem) : SameSem sem a a' := by
  cases Queues.semMove sem hlocated hstep.1 hstep.2 with
  | frame hsame => exact hsame
  | fast | await | post => exact absurd rfl hother

omit [DecidableEq S] [DecidableEq E] in
/-- A thread that is neither ready nor the main thread does not run after a dispatch. -/
theorem Queues.not_running_of_dispatch {b : Queues E S} (hdispatch : a.dispatch = some b) {thread : Thread}
    (hready : thread ∉ a.ready) (hmain : a.main_thread ≠ some thread) : b.running_thread ≠ some thread := by
  simp only [Queues.dispatch] at hdispatch
  split at hdispatch
  · rename_i next rest heq
    obtain rfl := Option.some.inj hdispatch
    rintro hrunning
    obtain rfl : next = thread := Option.some.inj hrunning
    exact hready (heq ▸ List.mem_cons_self)
  · split at hdispatch
    · rename_i next heq
      obtain rfl := Option.some.inj hdispatch
      rintro hrunning
      obtain rfl : next = thread := Option.some.inj hrunning
      exact hmain heq
    · cases hdispatch

omit [DecidableEq S] [DecidableEq E] in
/-- What the blocked threads ask for is what the queue in memory says. -/
theorem Refines.map_demand {place : Thread → Place E S} (href : Refines s a) (hlocated : Located a place) :
    (a.blocked (.sem sem)).map (fun thread => (thread, s.demand thread)) = a.queued sem := by
  rw [Queues.blocked, Queues.queued, List.map_map]
  apply List.map_congr_left
  intro wblock hmem
  have hframe := hlocated.frame (.sem sem) wblock hmem
  simp [State.demand, href.core, hframe]

omit [DecidableEq E] in
/-- A request that finds its units is answered with them. -/
theorem noted_fast {block wblock : Nat} {units : Int32} (hpos : 0 < units) (hfits : units ≤ (a.sem sem).units) :
    Noted sem (some (.user block), .sem_wait sem units wblock) [(.user block, units)] a { a with
      sem := Function.update a.sem sem { a.sem sem with units := (a.sem sem).units - units }
      trace := a.trace ++ [.request sem (.user block) units] ++ [.grant sem (.user block) units] } where
  requests := by
    simp only [requests_append, requests_request, requests_grant, List.append_nil, if_true, asks]
  grants := by
    simp only [grants_append, grants_grant, grants_request, List.append_nil, if_true]
  units := by simp [supply, toInt_sub_of_le (Int32.le_of_lt hpos) hfits]

/-- A request that has to wait is not answered, and leaves the units as they are. -/
theorem noted_await {thread : Thread} {wblock : Nat} {units : Int32}
    (hsame : SameSem sem (a.await sem thread units wblock) a') :
    Noted sem (some thread, .sem_wait sem units wblock) [] a a' where
  requests := by
    rw [hsame.requests_eq]
    simp [Queues.await, Queues.enqueue, asks]
  grants := by
    rw [hsame.grants_eq]
    simp [Queues.await, Queues.enqueue]
  units := by
    rw [hsame.sem_eq]
    simp [Queues.await, Queues.enqueue, supply]

/-- A `sem_post` answers the first requests in the queue. -/
theorem Released.noted {caller : Option Thread} {n : Int32} {k : Nat}
    (h : Released sem (available a.toCore sem n) k a a') :
    Noted sem (caller, .sem_post sem n) ((a.queued sem).take k) a a' where
  requests := by
    rw [h.requests]
    cases caller <;> simp [asks]
  grants := h.grants
  units := by simp [h.units, supply, available, Queues.demands, List.map_take]

/-- A call of `sem_wait` either returns and has its units, or its thread is queued. -/
theorem InOrder.noted_wait {caller : Option Thread} {units : Int32} {wblock : Nat} (h : InOrder sem s a)
    (hcaller : caller = s.running_thread) (hpos : 0 < units) (hstep : a.Step (.sem_wait sem units wblock) a')
    (href : Refines s' a') :
    (∃ now, Answers sem s s' (caller, .sem_wait sem units wblock) now) ∧
      ∀ now, Answers sem s s' (caller, .sem_wait sem units wblock) now →
        Noted sem (caller, .sem_wait sem units wblock) now a a' := by
  obtain ⟨place, hlocated⟩ := h.located
  cases Queues.move_of_perform hstep.1 hstep.2 with
  | @granted _ _ _ block hrunning hfast =>
    obtain rfl : caller = some (.user block) := by rw [hcaller, h.refines.core, hrunning]
    have hreturned : s'.running_thread = some (.user block) := by
      rw [href.core]
      exact hrunning
    refine ⟨⟨_, .returned hreturned⟩, fun now hnow => ?_⟩
    cases hnow with
    | returned => exact noted_fast hpos hfast.2
    | switched_out hrunning' => exact absurd hreturned hrunning'
    | other hother => exact absurd rfl hother
  | @sem_wait _ _ _ block _ hrunning _ _ hdispatch =>
    obtain rfl : caller = some (.user block) := by rw [hcaller, h.refines.core, hrunning]
    have hswitched : s'.running_thread ≠ some (.user block) := by
      rw [href.core]
      apply Queues.not_running_of_dispatch hdispatch
      · exact (hlocated.toQueued.not_queued (.inl ((hlocated.running _).mpr hrunning))).1
      · simp [Queues.enqueue, hlocated.main_of_running hrunning]
    refine ⟨⟨_, .switched_out hswitched⟩, fun now hnow => ?_⟩
    cases hnow with
    | returned hrunning' => exact absurd hrunning' hswitched
    | switched_out => exact noted_await (SameSem.dispatch hdispatch (.of_eq rfl rfl))
    | other hother => exact absurd rfl hother

/-- A call of `sem_post` answers those that it makes ready, with what is in their wait blocks. -/
theorem InOrder.noted_post {caller : Option Thread} {n : Int32} (h : InOrder sem s a)
    (hamount : 0 ≤ n) (hfits : (s.sem sem).units.toInt + n.toInt < 2 ^ 31)
    (hstep : Step s (.sem_post sem n) s') (href : Refines s' a') :
    (∃ now, Answers sem s s' (caller, .sem_post sem n) now) ∧
      ∀ now, Answers sem s s' (caller, .sem_post sem n) now →
        Noted sem (caller, .sem_post sem n) now a a' := by
  obtain ⟨place, hlocated⟩ := h.located
  have hrange : InRange sem s.toCore := by
    rw [h.refines.core]
    exact ⟨h.fifo.units_nonneg, h.fifo.units_le_limit⟩
  obtain ⟨fuel, s'', b, hend, href', hreleased⟩ := h.refines.posted (hlocated.toQueued.parked _) hrange
    (fun request hmem => Int32.le_of_lt (h.fifo.positive request hmem)) hamount hfits
  obtain ⟨_, fuel', hend'⟩ := hstep
  have hperform : perform fuel s (.sem_post sem n) = some s'' := hend
  obtain rfl := perform_unique hend' hperform
  obtain rfl := href'.unique href
  rw [h.refines.core] at hreleased
  have hbefore := h.refines.rings.each none
  have hafter := href'.rings.each none
  rw [show Queues.entries b none = (a.ready ++ _).map .thread from congrArg (List.map _) hreleased.ready] at hafter
  refine ⟨⟨_, .posted hbefore hafter⟩, fun now hnow => ?_⟩
  cases hnow with
  | other hother => exact absurd rfl hother
  | @posted _ _ ready woken hready hwoken =>
    have hsame : ready = a.ready :=
      List.map_injective_iff.mpr (fun _ _ heq => Entry.thread.inj heq) (hready.entries_unique hbefore)
    have hboth := List.map_injective_iff.mpr (fun _ _ heq => Entry.thread.inj heq) (hwoken.entries_unique hafter)
    rw [hsame] at hboth
    rw [List.append_cancel_left hboth, List.map_take, h.refines.map_demand hlocated]
    exact hreleased.noted

/-- Every step is what the observer notes of it. -/
theorem InOrder.noted (h : InOrder sem s a) (hstep : AdmissibleBy sem s label s')
    (hstep' : a.Step label.2 a') (href : Refines s' a') :
    (∃ now, Answers sem s s' label now) ∧ ∀ now, Answers sem s s' label now → Noted sem label now a a' := by
  obtain ⟨caller, call⟩ := label
  obtain ⟨⟨hcaller, hstep⟩, hadmissible⟩ := hstep
  by_cases huses : call.uses sem
  · cases call with
    | sem_wait other units wblock =>
      obtain rfl : other = sem := huses
      exact h.noted_wait hcaller (hadmissible rfl) hstep' href
    | sem_post other n =>
      obtain rfl : other = sem := huses
      obtain ⟨hamount, hfits⟩ := hadmissible rfl
      exact h.noted_post hamount hfits hstep href
    | _ => exact absurd huses id
  · obtain ⟨place, hlocated⟩ := h.located
    refine ⟨⟨[], .other huses⟩, fun now hnow => ?_⟩
    cases hnow with
    | returned | switched_out | posted => exact absurd rfl huses
    | other => exact (hstep'.sameSem hlocated huses).noted huses

/-- A state with its queues and what was observed up to it: the history of the semaphore
    is what was asked and answered. -/
structure Watched (sem : S) (labels : List (Option Thread × Call E S)) (w : Watch E S)
    (a : Queues E S) : Prop where
  inOrder : InOrder sem w.state a
  requests : requests sem a.trace = asked sem labels
  grants : grants sem a.trace = w.answered
  units : (a.sem sem).units.toInt = w.left

section Run

variable {s₀ : State E S} {w w' : Watch E S} {labels : List (Option Thread × Call E S)}

theorem Watched.step (h : Watched sem labels w a) (hstep : Watches sem w label w') :
    ∃ a', Watched sem (labels ++ [label]) w' a' := by
  obtain ⟨hadmissible, now, hnow, hanswered, hleft⟩ := hstep
  obtain ⟨a', hstep', hinOrder⟩ := h.inOrder.step ⟨hadmissible.1.2, hadmissible.2⟩
  have hnoted := (h.inOrder.noted hadmissible hstep' hinOrder.refines).2 now hnow
  refine ⟨a', hinOrder, ?_, ?_, ?_⟩
  · rw [hnoted.requests, h.requests]
    simp [asked]
  · rw [hnoted.grants, h.grants, hanswered]
  · rw [hnoted.units, hleft, h.units, h.inOrder.refines.core]

theorem watched_of_run (hinitial : Initial s₀) (hunits : 0 ≤ (s₀.sem sem).units)
    (hlimit : (s₀.sem sem).units ≤ (s₀.sem sem).limit)
    (hrun : Run (Watches sem) ⟨s₀, [], (s₀.sem sem).units.toInt⟩ labels w) :
    ∃ a, Watched sem labels w a := by
  induction hrun with
  | nil =>
    refine ⟨_, hinitial.inOrder hunits hlimit, ?_, ?_, rfl⟩
    · simp [Queues.initial, hinitial.trace, asked]
    · simp [Queues.initial, hinitial.trace]
  | snoc _ hstep ih =>
    obtain ⟨a, hwatched⟩ := ih
    exact hwatched.step hstep

/-- Every run can be observed. -/
theorem exists_watch (hinitial : Initial s₀) (hunits : 0 ≤ (s₀.sem sem).units)
    (hlimit : (s₀.sem sem).units ≤ (s₀.sem sem).limit) (hrun : Run (AdmissibleBy sem) s₀ labels s) :
    ∃ answered left, Run (Watches sem) ⟨s₀, [], (s₀.sem sem).units.toInt⟩ labels ⟨s, answered, left⟩ := by
  induction hrun with
  | nil => exact ⟨_, _, .nil⟩
  | snoc _ hstep ih =>
    obtain ⟨answered, left, hwatch⟩ := ih
    obtain ⟨a, hwatched⟩ := watched_of_run hinitial hunits hlimit hwatch
    obtain ⟨a', hstep', hinOrder⟩ := hwatched.inOrder.step ⟨hstep.1.2, hstep.2⟩
    obtain ⟨now, hnow⟩ := (hwatched.inOrder.noted hstep hstep' hinOrder.refines).1
    exact ⟨_, _, hwatch.snoc ⟨hstep, now, hnow, rfl, rfl⟩⟩

/-- The grants in the history of a semaphore are the calls of `sem_wait` that have returned
    at once and those whose threads a `sem_post` has made ready. -/
theorem grants_eq_answered (hinitial : Initial s₀) (hunits : 0 ≤ (s₀.sem sem).units)
    (hlimit : (s₀.sem sem).units ≤ (s₀.sem sem).limit)
    (hrun : Run (Watches sem) ⟨s₀, [], (s₀.sem sem).units.toInt⟩ labels w) :
    grants sem w.state.trace = w.answered := by
  obtain ⟨a, hwatched⟩ := watched_of_run hinitial hunits hlimit hrun
  rw [hwatched.inOrder.refines.core, hwatched.grants]

/-- Requests for units of a semaphore are answered in the order of the calls of `sem_wait`,
    and the first one not yet answered asks for more units than there are. Those answered
    have taken their units, and the others wait in the queue in memory. Every call on the
    semaphore comes to its end. -/
theorem sem_fifo (sem : S) (hinitial : Initial s₀) (hunits : 0 ≤ (s₀.sem sem).units)
    (hlimit : (s₀.sem sem).units ≤ (s₀.sem sem).limit) (hrun : Run (AdmissibleBy sem) s₀ labels s) :
    (∃ answered left, Run (Watches sem) ⟨s₀, [], (s₀.sem sem).units.toInt⟩ labels ⟨s, answered, left⟩) ∧
      (∀ call, call.uses sem → Allowed s.toCore call → ∃ s', Step s call s') ∧
      ∀ answered left, Run (Watches sem) ⟨s₀, [], (s₀.sem sem).units.toInt⟩ labels ⟨s, answered, left⟩ →
        answered <+: asked sem labels ∧
        (∀ request, (asked sem labels)[answered.length]? = some request → (s.sem sem).units < request.2) ∧
        (s.sem sem).units.toInt = left ∧
        ∃ queue : List Nat, Ring s.links (.waiters (.sem sem)) (queue.map .wblock) ∧
          (asked sem labels).drop answered.length =
            queue.map fun wblock => (s.wblock_thread wblock, s.wblock_units wblock) := by
  have hends : ∀ call, call.uses sem → Allowed s.toCore call → ∃ s', Step s call s' := by
    rintro call huses hallowed
    refine run_progress hinitial (run_of_stepBy (hrun.mono fun _ _ _ hstep => hstep.1)) hallowed ?_
    rintro rfl
    exact huses
  refine ⟨exists_watch hinitial hunits hlimit hrun, hends, fun answered left hwatch => ?_⟩
  obtain ⟨a, hwatched⟩ := watched_of_run hinitial hunits hlimit hwatch
  have hcore : s.toCore = a.toCore := hwatched.inOrder.refines.core
  have hasked : asked sem labels = answered ++ a.queued sem := by
    rw [← hwatched.requests, hwatched.inOrder.fifo.history, hwatched.grants]
  rw [hasked, hcore]
  refine ⟨List.prefix_append _ _, fun request hrequest => ?_, hwatched.units, a.waiters (.sem sem),
    hwatched.inOrder.refines.rings.each (some (.sem sem)), ?_⟩
  · rw [List.getElem?_append_right (Nat.le_refl _), Nat.sub_self, ← List.head?_eq_getElem?] at hrequest
    exact hwatched.inOrder.starved request hrequest
  · rw [List.drop_left]
    rfl

end Run

instance (sem : S) (c : Core E S) (call : Call E S) : Decidable (Admissible sem c call) := by
  cases call <;> unfold Admissible <;> infer_instance

/-- A thread asks for two units of a semaphore that has one, and another one behind it for one. -/
def smallBehindLarge : List (Option Thread × Call Unit Unit) :=
  [(none, .ut_create 1 4096), (none, .ut_create 2 40960), (none, .ut_create 3 77824), (none, .ut_run),
    (some (.user 1), .sem_wait () 2 0), (some (.user 2), .sem_wait () 1 1)]

/-- The memory after these calls. -/
private def oneUnit (labels : List (Option Thread × Call Unit Unit)) : State Unit Unit :=
  after (booted fun _ => ⟨1, 2⟩) (labels.map Prod.snd)

private theorem run_oneUnit {labels : List (Option Thread × Call Unit Unit)}
    (h : plays (fun c label => decide (Admissible () c label.2)) (booted fun _ => ⟨1, 2⟩) [] labels = true) :
    Run (AdmissibleBy ()) (booted fun _ => ⟨1, 2⟩) labels (oneUnit labels) :=
  (run_of_plays _ h).mono fun _ _ _ hstep => ⟨hstep.1, of_decide_eq_true hstep.2⟩

private theorem eq_take_of_queue {answered all : List (Thread × Int32)} {links : Links (Entry Unit Unit)}
    {queue blocks : List Nat} {f : Nat → Thread × Int32} (hpart : answered <+: all)
    (hring : Ring links (.waiters (.sem ())) (queue.map .wblock)) (hdrop : all.drop answered.length = queue.map f)
    (hblocks : Ring links (.waiters (.sem ())) (blocks.map .wblock)) :
    answered = all.take (all.length - blocks.length) := by
  have hqueue := congrArg List.length (hring.entries_unique hblocks)
  have hlength := congrArg List.length hdrop
  have hle := hpart.length_le
  simp only [List.length_map, List.length_drop] at hqueue hlength
  rw [List.prefix_iff_eq_take.1 hpart]
  congr 1
  omega

/-- Nobody is answered, although there is a unit. With the second one, the large request is
    answered and the small one goes on waiting. -/
theorem sem_fifo_starved : ∃ s s' : State Unit Unit,
    Run (AdmissibleBy ()) (booted fun _ => ⟨1, 2⟩) smallBehindLarge s ∧
      Run (Watches ()) ⟨booted fun _ => ⟨1, 2⟩, [], 1⟩ smallBehindLarge ⟨s, [], 1⟩ ∧
      Run (AdmissibleBy ()) (booted fun _ => ⟨1, 2⟩)
        (smallBehindLarge ++ [(some (.user 3), .sem_post () 1)]) s' ∧
      Run (Watches ()) ⟨booted fun _ => ⟨1, 2⟩, [], 1⟩
        (smallBehindLarge ++ [(some (.user 3), .sem_post () 1)]) ⟨s', [(.user 1, 2)], 0⟩ := by
  have hwaits : Run (AdmissibleBy ()) _ smallBehindLarge _ := run_oneUnit (by decide +kernel)
  have hposts : Run (AdmissibleBy ()) _ (smallBehindLarge ++ [(some (.user 3), .sem_post () 1)]) _ :=
    run_oneUnit (by decide +kernel)
  refine ⟨_, _, hwaits, ?_, hposts, ?_⟩
  · obtain ⟨⟨answered, left, hwatch⟩, _, hall⟩ := sem_fifo () (booted_initial _) (by decide) (by decide) hwaits
    obtain ⟨hpart, _, rfl, queue, hring, hdrop⟩ := hall _ _ hwatch
    have hblocks : Ring (oneUnit smallBehindLarge).links (.waiters (.sem ())) ([0, 1].map .wblock) := by
      decide +kernel
    obtain rfl : answered = [] := eq_take_of_queue hpart hring hdrop hblocks
    rwa [show ((oneUnit smallBehindLarge).sem ()).units.toInt = 1 by decide +kernel] at hwatch
  · obtain ⟨⟨answered, left, hwatch⟩, _, hall⟩ := sem_fifo () (booted_initial _) (by decide) (by decide) hposts
    obtain ⟨hpart, _, rfl, queue, hring, hdrop⟩ := hall _ _ hwatch
    have hblocks : Ring (oneUnit (smallBehindLarge ++ [(some (.user 3), .sem_post () 1)])).links
      (.waiters (.sem ())) ([1].map .wblock) := by decide +kernel
    obtain rfl : answered = [(.user 1, 2)] := eq_take_of_queue hpart hring hdrop hblocks
    rwa [show ((oneUnit (smallBehindLarge ++ [(some (.user 3), .sem_post () 1)])).sem ()).units.toInt = 0 by
      decide +kernel] at hwatch

end oslabs.uthread
