import OsLabs.UThread.Simulation

open oslabs.ring oslabs.list oslabs.loop oslabs.run

namespace oslabs.uthread

variable {E S : Type} [DecidableEq E] [DecidableEq S] {s s₀ s' : State E S} {a a' : Queues E S}
  {place : Thread → Place E S} {call : Call E S} {calls : List (Call E S)}

/-- One step of a program on the queues. -/
def Queues.Step (a : Queues E S) (call : Call E S) (a' : Queues E S) : Prop :=
  Allowed a.toCore call ∧ a.perform call = some a'

/-- The queues before the first thread is created: all of them are empty. -/
def Queues.initial (c : Core E S) : Queues E S :=
  { c with ready := [], waiters := fun _ => [] }

/-- A call has one result, whatever fuel its loops are given. -/
theorem perform_unique {fuel₁ fuel₂ : Nat} {s₁ s₂ : State E S} (h₁ : perform fuel₁ s call = some s₁)
    (h₂ : perform fuel₂ s call = some s₂) : s₁ = s₂ := by
  cases call with
  | event_set event => exact whileLoop_unique h₁ h₂
  | sem_post sem units => exact whileLoop_unique h₁ h₂
  | _ => exact Option.some.inj (h₁.symm.trans h₂)

/-- The calls of a run determine its end. -/
theorem run_unique {s₁ s₂ : State E S} (h₁ : Run Step s₀ calls s₁) (h₂ : Run Step s₀ calls s₂) : s₁ = s₂ := by
  induction h₁ generalizing s₂ with
  | nil => exact h₂.eq_of_nil.symm
  | snoc _ hstep ih =>
    obtain ⟨state, hrun', hstep'⟩ := h₂.of_snoc
    obtain rfl := ih hrun'
    obtain ⟨_, fuel, hend⟩ := hstep
    obtain ⟨_, fuel', hend'⟩ := hstep'
    exact perform_unique hend hend'

/-- One step in memory is one step on the queues. -/
theorem Refines.step (h : Refines s a) (hlocated : Located a place) (hstep : Step s call s') :
    ∃ a' place', a.Step call a' ∧ Refines s' a' ∧ Located a' place' := by
  obtain ⟨hallowed, fuel, hperform⟩ := hstep
  obtain ⟨enough, hrel⟩ := h.perform hlocated hallowed
  have hallowed' : Allowed a.toCore call := h.core ▸ hallowed
  rcases hlocated.perform hallowed' with ⟨a', place', ha', hlocated'⟩ | ⟨hnone, rfl⟩
  · rw [ha'] at hrel
    generalize hend : uthread.perform enough s call = result at hrel
    obtain ⟨href⟩ := hrel
    obtain rfl := perform_unique hperform hend
    exact ⟨a', place', ⟨hallowed', ha'⟩, href, hlocated'⟩
  · -- A failed assertion ends the program: there is no step.
    rw [hnone, show uthread.perform enough s .ut_run_resumed = some s' from hperform] at hrel
    cases hrel

omit [DecidableEq E] [DecidableEq S] in
theorem Initial.refines (h : Initial s) : Refines s (Queues.initial s.toCore) := by
  have hentries : ∀ list, (Queues.initial s.toCore).entries list = [] := by
    intro list
    cases list <;> rfl
  refine ⟨rfl, ⟨?_, ?_⟩, by simp [h.activations]⟩
  · intro list
    rw [hentries]
    exact h.lists list
  · intro list other hne
    rw [hentries, hentries, List.singleton_disjoint, List.mem_singleton]
    cases list <;> cases other <;> simp_all [sentinel]

omit [DecidableEq E] [DecidableEq S] in
theorem Initial.located (h : Initial s) : Located (Queues.initial s.toCore) fun _ => .gone where
  ready_nodup := List.nodup_nil
  mem_ready t := by simp [Queues.initial]
  blocked_nodup sync := by simp [Queues.initial, Queues.blocked]
  mem_blocked sync t := by simp [Queues.initial, Queues.blocked]
  live block := by simp [Queues.initial, h.live]
  main := .inr rfl
  frame sync wblock hmem := by simp [Queues.initial] at hmem
  stack := by constructor <;> simp [Queues.initial, h.live]
  count := by simp [Queues.initial, h.number_of_threads, h.live]
  running t := by simp [Queues.initial, h.running_thread]
  main_thread := by simp [Queues.initial, h.running_thread, h.main_thread]
  idle _ := rfl

section Initialisation

/-- What a program finds in its memory: nobody runs, and there are no threads. -/
structure Zeroed (s : State E S) : Prop where
  number_of_threads : s.number_of_threads = 0
  running_thread : s.running_thread = none
  main_thread : s.main_thread = none
  live : s.live = ∅
  frame : ∀ thread, s.frame thread = none
  trace : s.trace = []
  activations : s.activations = []

/-- A program's first calls: `ut_init`, `event_init` for some events, and `sem_init` for some
    semaphores. -/
def initialise (events : List E) (sems : List (S × semaphore)) (s : State E S) : State E S :=
  sems.foldl (fun s sem => sem_init s sem.1 sem.2.units sem.2.limit) (events.foldl event_init (ut_init s))

/-- Among the first calls, when some events and some semaphores are initialised. -/
structure Initialising (events : E → Prop) (sems : S → Prop) (s : State E S) : Prop where
  zeroed : Zeroed s
  ready_queue : Ring s.links .ready_queue []
  signaled : ∀ event, events event → s.signaled event = false
  event : ∀ event, events event → Ring s.links (.waiters (.event event)) []
  sem : ∀ sem, sems sem → Ring s.links (.waiters (.sem sem)) []

/-- A list that is empty stays so when one is initialised. -/
theorem ring_init_list_head {m : Links (Entry E S)} {listhead list : Entry E S}
    (h : list = listhead ∨ Ring m list []) : Ring (init_list_head m listhead) list [] := by
  by_cases heq : list = listhead
  · subst heq
    exact init_list_head_ring m list
  · obtain ⟨hnext, hprev⟩ := ring_nil_iff.mp (h.resolve_left heq)
    refine ring_nil_iff.mpr ⟨?_, ?_⟩
    · simp [init_list_head, heq, hnext]
    · simp [init_list_head, heq, hprev]

variable {events : E → Prop} {sems : S → Prop}

theorem Initialising.event_init (h : Initialising events sems s) (event : E) :
    Initialising (fun other => other = event ∨ events other) sems (event_init s event) where
  zeroed := ⟨h.zeroed.1, h.zeroed.2, h.zeroed.3, h.zeroed.4, h.zeroed.5, h.zeroed.6, h.zeroed.7⟩
  ready_queue := ring_init_list_head (.inr h.ready_queue)
  signaled other hother := by
    by_cases heq : other = event
    · simp [uthread.event_init, heq]
    · simp [uthread.event_init, heq, h.signaled other (hother.resolve_left heq)]
  event other hother := ring_init_list_head (hother.imp (by rintro rfl; rfl) (h.event other))
  sem sem hsem := ring_init_list_head (.inr (h.sem sem hsem))

theorem Initialising.sem_init (h : Initialising events sems s) (sem : S) (units limit : Int32) :
    Initialising events (fun other => other = sem ∨ sems other) (sem_init s sem units limit) where
  zeroed := ⟨h.zeroed.1, h.zeroed.2, h.zeroed.3, h.zeroed.4, h.zeroed.5, h.zeroed.6, h.zeroed.7⟩
  ready_queue := ring_init_list_head (.inr h.ready_queue)
  signaled := h.signaled
  event other hother := ring_init_list_head (.inr (h.event other hother))
  sem other hother := ring_init_list_head (hother.imp (by rintro rfl; rfl) (h.sem other))

theorem Initialising.event_inits (h : Initialising events sems s) (list : List E) :
    Initialising (fun event => event ∈ list ∨ events event) sems (list.foldl uthread.event_init s) := by
  induction list generalizing s events with
  | nil => simpa using h
  | cons event list ih => simpa [or_left_comm, or_assoc] using ih (h.event_init event)

theorem Initialising.sem_inits (h : Initialising events sems s) (list : List (S × semaphore)) :
    Initialising events (fun sem => sem ∈ list.map Prod.fst ∨ sems sem)
      (list.foldl (fun s sem => uthread.sem_init s sem.1 sem.2.units sem.2.limit) s) := by
  induction list generalizing s sems with
  | nil => simpa using h
  | cons sem list ih =>
    simpa only [List.map_cons, List.mem_cons, List.foldl_cons, or_left_comm, or_assoc] using
      ih (h.sem_init sem.1 sem.2.units sem.2.limit)

/-- A program that has initialised the threads and everything that it uses. -/
theorem initialise_initial {list : List E} {others : List (S × semaphore)} (h : Zeroed s)
    (hevents : ∀ event, event ∈ list) (hsems : ∀ sem, sem ∈ others.map Prod.fst) :
    Initial (initialise list others s) := by
  have hstart : Initialising (fun _ => False) (fun _ => False) (ut_init s) :=
    ⟨⟨h.1, h.2, h.3, h.4, h.5, h.6, h.7⟩, init_list_head_ring s.links .ready_queue, by simp, by simp, by simp⟩
  obtain ⟨hzeroed, hready, hsignaled, hevent, hsem⟩ := (hstart.event_inits list).sem_inits others
  refine ⟨?_, hzeroed.1, hzeroed.2, hzeroed.3, hzeroed.4, fun event => hsignaled event (.inl (hevents event)),
    hzeroed.5, hzeroed.6, hzeroed.7⟩
  rintro (_ | event | sem)
  · exact hready
  · exact hevent event (.inl (hevents event))
  · exact hsem sem (.inl (hsems sem))

end Initialisation

/-- A memory just initialised, with nothing in the fields no initialisation writes. -/
def booted (sem : S → semaphore) : State E S where
  number_of_threads := 0
  running_thread := none
  main_thread := none
  live := ∅
  stack _ := 0
  signaled _ := false
  sem := sem
  wblock_thread _ := .main
  wblock_units _ := 0
  frame _ := none
  trace := []
  links := { next := id, prev := id }
  activations := []

omit [DecidableEq E] [DecidableEq S] in
theorem booted_initial (sem : S → semaphore) : Initial (booted sem : State E S) where
  lists _ := ring_nil_iff.mpr ⟨rfl, rfl⟩
  number_of_threads := rfl
  running_thread := rfl
  main_thread := rfl
  live := rfl
  signaled _ := rfl
  frame _ := rfl
  trace := rfl
  activations := rfl

/-- Every run in memory is a run on the queues, at whose end the links in memory
    spell out the queues and every thread is placed. -/
theorem run_refines (hinitial : Initial s₀) (hrun : Run Step s₀ calls s) :
    ∃ a place, Run Queues.Step (Queues.initial s₀.toCore) calls a ∧ Refines s a ∧ Located a place := by
  have hmatch : ∀ (s : State E S) (a : Queues E S) call s',
      (Refines s a ∧ ∃ place, Located a place) → Step s call s' →
      ∃ a', a.Step call a' ∧ Refines s' a' ∧ ∃ place', Located a' place' := by
    rintro s a call s' ⟨href, place, hlocated⟩ hstep
    obtain ⟨a', place', hstep', href', hlocated'⟩ := href.step hlocated hstep
    exact ⟨a', hstep', href', place', hlocated'⟩
  obtain ⟨a, hrun', href, place, hlocated⟩ :=
    hrun.simulates ⟨hinitial.refines, _, hinitial.located⟩ hmatch
  exact ⟨a, place, hrun', href, hlocated⟩

/-- An allowed call comes to its end, but for an assertion of `ut_run` that fails. -/
theorem Refines.exists_step (h : Refines s a) (hlocated : Located a place) (hallowed : Allowed s.toCore call)
    (hcall : call ≠ .ut_run_resumed ∨ a.ready = [] ∧ a.number_of_threads = 0) : ∃ s', Step s call s' := by
  obtain ⟨fuel, hrel⟩ := h.perform hlocated hallowed
  rcases hlocated.perform (h.core ▸ hallowed) with ⟨a', place', ha', _⟩ | ⟨hnone, rfl⟩
  · rw [ha'] at hrel
    generalize hend : uthread.perform fuel s call = result at hrel
    cases hrel with
    | some _ => exact ⟨_, hallowed, fuel, hend⟩
  · rcases hcall with hcall | hsettled
    · exact absurd rfl hcall
    · simp only [Queues.perform, if_pos hsettled] at hnone
      cases hnone

/-- No call of a program goes wrong: in a reachable state every allowed call
    comes to its end, but for an assertion of `ut_run` that fails. -/
theorem run_progress (hinitial : Initial s₀) (hrun : Run Step s₀ calls s)
    (hallowed : Allowed s.toCore call) (hcall : call ≠ .ut_run_resumed) :
    ∃ s', Step s call s' := by
  obtain ⟨a, place, _, href, hlocated⟩ := run_refines hinitial hrun
  exact href.exists_step hlocated hallowed (.inl hcall)

/-- A step of a program, with the thread that makes the call. -/
def StepBy (s : State E S) (label : Option Thread × Call E S) (s' : State E S) : Prop :=
  label.1 = s.running_thread ∧ Step s label.2 s'

theorem run_of_stepBy {labels : List (Option Thread × Call E S)} (hrun : Run StepBy s₀ labels s) :
    Run Step s₀ (labels.map Prod.snd) s := by
  induction hrun with
  | nil => exact .nil
  | snoc _ hstep ih =>
    rw [List.map_append]
    exact ih.snoc hstep.2

/-- The memory once a first thread is created and `ut_run` has switched to it. -/
def started (sem : S → semaphore) : State E S :=
  (ut_run (ut_create (booted sem) 1 4096)).getD (booted sem)

theorem step_created (sem : S → semaphore) :
    Step (booted sem : State E S) (.ut_create 1 4096) (ut_create (booted sem) 1 4096) := by
  have hfresh : MallocFresh (booted sem : State E S).toCore 1 4096 := by
    constructor <;> simp [booted, STACK_SIZE, USER_SPACE_END]
  exact ⟨⟨by simp [booted], hfresh⟩, 0, rfl⟩

theorem step_started (sem : S → semaphore) :
    Step (ut_create (booted sem) 1 4096 : State E S) .ut_run (started sem) :=
  ⟨rfl, 0, rfl⟩

theorem run_started (sem : S → semaphore) :
    Run Step (booted sem) [.ut_create 1 4096, .ut_run] (started sem : State E S) :=
  .snoc (.snoc .nil (step_created sem)) (step_started sem)

/-- No thread is in a blocking call when the first one starts. -/
theorem started_frame (sem : S → semaphore) (wblock : Nat) (t : Thread) :
    (started sem : State E S).frame t ≠ some wblock := by
  rw [show (started sem : State E S).frame = Function.update (fun _ => none) (.user 1) none from rfl,
    Function.update_apply]
  split <;> simp

/-- The wait block that a call brings. -/
def Call.wblock? : Call E S → Option Nat
  | .event_wait _ wblock | .sem_wait _ _ wblock => some wblock
  | _ => none

omit [DecidableEq E] [DecidableEq S] in
theorem Queues.frame_of_dispatch {b : Queues E S} (hdispatch : a.dispatch = some b) {t : Thread} {wblock : Nat}
    (hframe : b.frame t = some wblock) : a.frame t = some wblock := by
  have hswitched : ∀ next, (context_switch a.toCore next).frame t = some wblock → a.frame t = some wblock := by
    intro next hswitched
    simp only [context_switch, Function.update_apply] at hswitched
    split at hswitched
    · cases hswitched
    · exact hswitched
  simp only [Queues.dispatch] at hdispatch
  split at hdispatch
  · obtain rfl := Option.some.inj hdispatch
    exact hswitched _ hframe
  · split at hdispatch
    · obtain rfl := Option.some.inj hdispatch
      exact hswitched _ hframe
    · cases hdispatch

theorem Queues.frame_release (a : Queues E S) (sem : S) : (a.release sem).frame = a.frame := by
  apply Queues.release_induction (P := fun a b => b.frame = a.frame)
  · exact fun _ _ => rfl
  · intro a wblock rest hwaiters _ _ ih
    simpa [Queues.grant, Queues.wake, Queues.activate, hwaiters, take_units] using ih

/-- A wait block on a frame was there before the call, or the call brought it. -/
theorem Queues.Move.frame {b : Queues E S} (hmove : a.Move call b) {t : Thread} {wblock : Nat}
    (hframe : b.frame t = some wblock) : a.frame t = some wblock ∨ call.wblock? = some wblock := by
  have hbrought : ∀ {block new : Nat}, Function.update a.frame (.user block) (some new) t = some wblock →
      a.frame t = some wblock ∨ some new = some wblock := by
    intro block new hupdate
    rw [Function.update_apply] at hupdate
    split at hupdate
    · exact .inr hupdate
    · exact .inl hupdate
  cases hmove with
  | create | run_nothing | resumed | yield_alone | signaled | event_set | granted => exact .inl hframe
  | run hdispatch | yield _ hdispatch | exit _ hdispatch => exact .inl (Queues.frame_of_dispatch hdispatch hframe)
  | event_wait _ _ _ hdispatch | sem_wait _ _ _ hdispatch =>
    exact hbrought (Queues.frame_of_dispatch hdispatch hframe)
  | sem_post =>
    rw [Queues.frame_release] at hframe
    exact .inl hframe

instance (c : Core E S) (block stack : Nat) : Decidable (MallocFresh c block stack) :=
  decidable_of_iff (block ∉ c.live ∧ 0 < stack ∧ stack + STACK_SIZE ≤ USER_SPACE_END ∧
      ∀ other ∈ c.live, stack + STACK_SIZE ≤ c.stack other ∨ c.stack other + STACK_SIZE ≤ stack)
    ⟨fun ⟨hblock, hpos, hend, hdisjoint⟩ => ⟨hblock, hpos, hend, hdisjoint⟩,
      fun ⟨hblock, hpos, hend, hdisjoint⟩ => ⟨hblock, hpos, hend, hdisjoint⟩⟩

/-- A test for allowed calls, where no wait blocks but the `used` ones are on a frame. -/
def allows (c : Core E S) (used : List Nat) : Call E S → Bool
  | .ut_create block stack => c.running_thread ≠ some .main ∧ MallocFresh c block stack
  | .ut_run => c.running_thread = none
  | .ut_run_resumed => c.running_thread = some .main
  | .event_wait _ wblock | .sem_wait _ _ wblock =>
    (c.running_thread matches some (.user _)) ∧ wblock ∉ used
  | .ut_yield | .ut_exit | .event_set _ | .sem_post _ _ => c.running_thread matches some (.user _)

omit [DecidableEq E] [DecidableEq S] in
theorem allowed_of_allows {c : Core E S} {used : List Nat} (h : allows c used call = true)
    (hused : ∀ t wblock, c.frame t = some wblock → wblock ∈ used) : Allowed c call := by
  have huser : (c.running_thread matches some (.user _)) = true →
      ∃ block, c.running_thread = some (.user block) := by
    intro hmatches
    split at hmatches
    · rename_i block heq
      exact ⟨block, heq⟩
    · cases hmatches
  have hfresh : ∀ wblock, wblock ∉ used → ∀ t, c.frame t ≠ some wblock :=
    fun wblock hnot t hframe => hnot (hused t wblock hframe)
  cases call with
  | ut_create | ut_run | ut_run_resumed =>
    simpa only [allows, decide_eq_true_eq, Allowed] using h
  | event_wait | sem_wait =>
    obtain ⟨hmatches, hnot⟩ := of_decide_eq_true h
    exact ⟨huser hmatches, hfresh _ hnot⟩
  | ut_yield | ut_exit | event_set | sem_post => exact huser h

/-- The memory after some calls, each of which comes to its end. -/
def after (s : State E S) (calls : List (Call E S)) : State E S :=
  calls.foldl (fun s call => (perform 4 s call).getD s) s

/-- A test for runs whose steps all pass `ok`. -/
def plays (ok : Core E S → Option Thread × Call E S → Bool) (s : State E S) (used : List Nat) :
    List (Option Thread × Call E S) → Bool
  | [] => true
  | label :: labels => label.1 = s.running_thread ∧ allows s.toCore used label.2 ∧ ok s.toCore label ∧
    (perform 4 s label.2).isSome ∧ plays ok (after s [label.2]) (label.2.wblock?.toList ++ used) labels

/-- A list of calls that passes the test is a run. -/
theorem run_of_plays (sem : S → semaphore) {ok : Core E S → Option Thread × Call E S → Bool}
    {labels : List (Option Thread × Call E S)} (h : plays ok (booted sem) [] labels = true) :
    Run (fun s label s' => StepBy s label s' ∧ ok s.toCore label = true) (booted sem) labels
      (after (booted sem) (labels.map Prod.snd)) := by
  have hrest : ∀ before s a used labels,
      Run (fun s label s' => StepBy s label s' ∧ ok s.toCore label = true) (booted sem : State E S) before s →
      Refines s a → (∃ place, Located a place) → (∀ t wblock, s.frame t = some wblock → wblock ∈ used) →
      plays ok s used labels = true →
      Run (fun s label s' => StepBy s label s' ∧ ok s.toCore label = true) (booted sem) (before ++ labels)
        (after s (labels.map Prod.snd)) := by
    intro before s a used labels
    induction labels generalizing before s a used with
    | nil =>
      intro hrun _ _ _ _
      rwa [List.append_nil]
    | cons label labels ih =>
      rintro hrun href ⟨place, hlocated⟩ hused hplays
      obtain ⟨hcaller, hallows, hok, hend, hplays⟩ := of_decide_eq_true hplays
      obtain ⟨s', hs'⟩ := Option.isSome_iff_exists.1 hend
      have hstep : Step s label.2 s' := ⟨allowed_of_allows hallows hused, 4, hs'⟩
      have hafter : after s [label.2] = s' := by simp [after, hs']
      obtain ⟨a', place', hmove, href', hlocated'⟩ := href.step hlocated hstep
      have hused' : ∀ t wblock, s'.frame t = some wblock → wblock ∈ label.2.wblock?.toList ++ used := by
        intro t wblock hframe
        rw [href'.core] at hframe
        rcases (Queues.move_of_perform hmove.1 hmove.2).frame hframe with hold | hnew
        · rw [← href.core] at hold
          exact List.mem_append_right _ (hused t wblock hold)
        · exact List.mem_append_left _ (by simp [hnew])
      rw [hafter] at hplays
      have hend := ih (before ++ [label]) s' a' _ (hrun.snoc ⟨⟨hcaller, hstep⟩, hok⟩) href' ⟨place', hlocated'⟩
        hused' hplays
      rw [List.append_assoc, List.singleton_append, ← hafter] at hend
      exact hend
  exact hrest [] _ _ [] labels .nil (booted_initial sem).refines ⟨_, (booted_initial sem).located⟩
    (by simp [booted]) h

theorem stepBy_of_plays (sem : S → semaphore) {labels : List (Option Thread × Call E S)}
    (h : plays (fun _ _ => true) (booted sem) [] labels = true) :
    Run StepBy (booted sem) labels (after (booted sem) (labels.map Prod.snd)) :=
  (run_of_plays sem h).mono fun _ _ _ hstep => hstep.1

theorem plays_of_append {ok : Core E S → Option Thread × Call E S → Bool} {s : State E S} {used : List Nat}
    {labels more : List (Option Thread × Call E S)} (h : plays ok s used (labels ++ more) = true) :
    plays ok s used labels = true := by
  induction labels generalizing s used with
  | nil => rfl
  | cons label labels ih =>
    obtain ⟨hcaller, hallows, hok, hend, hplays⟩ := of_decide_eq_true h
    exact decide_eq_true ⟨hcaller, hallows, hok, hend, ih hplays⟩

/-- Every call in a list that passes the test is a step. -/
theorem step_of_plays (sem : S → semaphore) {labels more : List (Option Thread × Call E S)}
    {label : Option Thread × Call E S}
    (h : plays (fun _ _ => true) (booted sem) [] (labels ++ [label] ++ more) = true) :
    Step (after (booted sem) (labels.map Prod.snd)) label.2
      (after (booted sem) ((labels ++ [label]).map Prod.snd)) := by
  obtain ⟨state, hrun, hstep⟩ := (stepBy_of_plays sem (plays_of_append h)).of_snoc
  obtain rfl := run_unique (run_of_stepBy hrun)
    (run_of_stepBy (stepBy_of_plays sem (plays_of_append (plays_of_append h))))
  exact hstep.2

end oslabs.uthread
