import OsLabs.UThread.Calls

open oslabs.ring oslabs.list oslabs.loop

namespace oslabs.uthread

variable {E S : Type}

/-- The library with its lists as sequences: the threads that are ready, and for
    each event or semaphore the wait blocks of the threads that wait on it. -/
structure Queues (E S : Type) extends Core E S where
  ready : List Thread
  waiters : Sync E S → List Nat

/-- The threads that wait on an event or semaphore, in the order they came. -/
def Queues.blocked (a : Queues E S) (sync : Sync E S) : List Thread :=
  (a.waiters sync).map a.wblock_thread

/-- The entries of every list of the library, as its memory links them. -/
def Queues.entries (a : Queues E S) : Option (Sync E S) → List (Entry E S)
  | none => a.ready.map .thread
  | some sync => (a.waiters sync).map .wblock

/-- Switch to the first ready thread, or to the main thread when there is none. -/
def Queues.dispatch (a : Queues E S) : Option (Queues E S) :=
  match a.ready with
  | next :: rest => some { a with toCore := context_switch a.toCore next, ready := rest }
  | [] =>
    match a.main_thread with
    | some next => some { a with toCore := context_switch a.toCore next }
    | none => none

theorem Queues.eq_of_dispatch {a b : Queues E S} (hdispatch : a.dispatch = some b)
    (hmain : a.main_thread = some .main) :
    b = { a with toCore := context_switch a.toCore (a.ready.headD .main), ready := a.ready.tail } := by
  cases hready : a.ready with
  | nil =>
    simp only [Queues.dispatch, hready, hmain] at hdispatch
    simp [← Option.some.inj hdispatch]
  | cons next rest =>
    simp only [Queues.dispatch, hready] at hdispatch
    simp [← Option.some.inj hdispatch]

/-- Make a thread ready behind all others. -/
def Queues.activate (a : Queues E S) (thread : Thread) : Queues E S :=
  { a with ready := a.ready ++ [thread], trace := a.trace ++ [.ready thread] }

@[simp] theorem Queues.activate_ready (a : Queues E S) (t : Thread) :
    (a.activate t).ready = a.ready ++ [t] := rfl

@[simp] theorem Queues.activate_trace (a : Queues E S) (t : Thread) :
    (a.activate t).trace = a.trace ++ [.ready t] := rfl

@[simp] theorem Queues.activate_waiters (a : Queues E S) (t : Thread) :
    (a.activate t).waiters = a.waiters := rfl

@[simp] theorem Queues.activate_blocked (a : Queues E S) (t : Thread) :
    (a.activate t).blocked = a.blocked := rfl

variable [DecidableEq E] [DecidableEq S]

/-- Queue a wait block behind all others. -/
def Queues.enqueue (a : Queues E S) (sync : Sync E S) (wblock : Nat) : Queues E S :=
  { a with waiters := Function.update a.waiters sync (a.waiters sync ++ [wblock]) }

@[simp] theorem Queues.enqueue_ready (a : Queues E S) (sync : Sync E S) (wblock : Nat) :
    (a.enqueue sync wblock).ready = a.ready := rfl

@[simp] theorem Queues.enqueue_trace (a : Queues E S) (sync : Sync E S) (wblock : Nat) :
    (a.enqueue sync wblock).trace = a.trace := rfl

/-- Take the first wait block out of a queue and make its thread ready. -/
def Queues.wake (a : Queues E S) (sync : Sync E S) : Queues E S :=
  match a.waiters sync with
  | [] => a
  | wblock :: rest =>
    { a with waiters := Function.update a.waiters sync rest }.activate (a.wblock_thread wblock)

/-- Wake every thread that waits, first come first. -/
def Queues.wakeAll (a : Queues E S) (sync : Sync E S) : Queues E S :=
  { a with
    waiters := Function.update a.waiters sync []
    ready := a.ready ++ a.blocked sync
    trace := a.trace ++ (a.blocked sync).map .ready }

/-- Give the first waiting request of a semaphore its units and wake its thread. -/
def Queues.grant (a : Queues E S) (sem : S) : Queues E S :=
  match a.waiters (.sem sem) with
  | [] => a
  | wblock :: _ =>
    { a with toCore := take_units a.toCore sem (a.wblock_thread wblock) (a.wblock_units wblock) }.wake
      (.sem sem)

/-- Grant requests from the head of the queue on while units are left and the
    first request fits. `pending` is the part of the queue not yet looked at. -/
def Queues.releaseFrom (sem : S) : List Nat → Queues E S → Queues E S
  | [], a => a
  | wblock :: pending, a =>
    if (a.sem sem).units > 0 then
      if (a.sem sem).units < a.wblock_units wblock then a
      else releaseFrom sem pending (a.grant sem)
    else a

def Queues.release (a : Queues E S) (sem : S) : Queues E S :=
  releaseFrom sem (a.waiters (.sem sem)) a

/-- What each call does to the queues. It is undefined where the call would use
    a null pointer or fail an assertion. -/
def Queues.perform (a : Queues E S) : Call E S → Option (Queues E S)
  | .ut_create block stack =>
    some ({ a with
      live := insert block a.live
      stack := Function.update a.stack block stack
      number_of_threads := a.number_of_threads + 1 }.activate (.user block))
  | .ut_run =>
    if a.running_thread = none then
      if a.ready = [] then some a
      else { a with main_thread := some .main, running_thread := some .main }.dispatch
    else none
  | .ut_run_resumed =>
    if a.ready = [] ∧ a.number_of_threads = 0 then
      some { a with running_thread := none, main_thread := none }
    else none
  | .ut_yield =>
    if a.ready = [] then some a
    else do
      let curr ← a.running_thread
      (a.activate curr).dispatch
  | .ut_exit => do
    let curr ← a.running_thread
    let a ← { a with number_of_threads := a.number_of_threads - 1 }.dispatch
    let core ← internal_cleanup a.toCore curr
    some { a with toCore := core }
  | .event_wait event wblock =>
    if a.signaled event = false then do
      let core ← init_waitblock a.toCore wblock
      ({ a with toCore := core }.enqueue (.event event) wblock).dispatch
    else some a
  | .event_set event =>
    some ({ a with signaled := Function.update a.signaled event true }.wakeAll (.event event))
  | .sem_wait sem units wblock => do
    let self ← ut_self a.toCore
    let a := { a with trace := a.trace ++ [Obs.request sem self units] }
    if a.waiters (.sem sem) = [] ∧ (a.sem sem).units ≥ units then
      some { a with toCore := take_units a.toCore sem self units }
    else do
      let core ← init_sem_waitblock a.toCore wblock units
      ({ a with toCore := core }.enqueue (.sem sem) wblock).dispatch
  | .sem_post sem units =>
    some ({ a with toCore := add_units a.toCore sem units }.release sem)

/-- Queues that differ in what is ready differ in the first list only. -/
theorem Queues.rings_of_ready {a b : Queues E S} {links : Links (Entry E S)}
    (hwaiters : b.waiters = a.waiters)
    (h : Rings links sentinel (Function.update a.entries none (b.ready.map .thread))) :
    Rings links sentinel b.entries := by
  have hentries : b.entries = Function.update a.entries none (b.ready.map .thread) := by
    funext list
    cases list with
    | none => simp [Queues.entries]
    | some sync => simp [Queues.entries, hwaiters]
  rwa [hentries]

/-- Queues that differ in one object's waiters differ in that list only. -/
theorem Queues.rings_of_waiters {a b : Queues E S} {links : Links (Entry E S)} {sync : Sync E S}
    {queue : List Nat} (hready : b.ready = a.ready)
    (hwaiters : b.waiters = Function.update a.waiters sync queue)
    (h : Rings links sentinel (Function.update a.entries (some sync) (queue.map .wblock))) :
    Rings links sentinel b.entries := by
  have hentries : b.entries = Function.update a.entries (some sync) (queue.map .wblock) := by
    funext list
    cases list with
    | none => simp [Queues.entries, hready]
    | some other =>
      by_cases heq : other = sync
      · subst heq
        simp [Queues.entries, hwaiters]
      · simp [Queues.entries, hwaiters, heq]
  rwa [hentries]

omit [DecidableEq E] [DecidableEq S] in
theorem Queues.unlinked_thread_iff (a : Queues E S) (t : Thread) :
    Unlinked sentinel a.entries (.thread t) ↔ t ∉ a.ready := by
  constructor
  · intro h hmem
    exact h none (by simp [Queues.entries, sentinel, hmem])
  · intro h list
    cases list <;> simp [Queues.entries, sentinel, h]

omit [DecidableEq E] [DecidableEq S] in
theorem Queues.unlinked_wblock_iff (a : Queues E S) (w : Nat) :
    Unlinked sentinel a.entries (.wblock w) ↔ ∀ sync, w ∉ a.waiters sync := by
  constructor
  · intro h sync hmem
    exact h (some sync) (by simp [Queues.entries, sentinel, hmem])
  · intro h list
    cases list with
    | none => simp [Queues.entries, sentinel]
    | some sync => simp [Queues.entries, sentinel, h sync]

theorem Queues.wakeAll_nil {a : Queues E S} {sync : Sync E S} (h : a.waiters sync = []) :
    a.wakeAll sync = a := by
  have hupdate : Function.update a.waiters sync [] = a.waiters := by
    rw [← h, Function.update_eq_self]
  simp [Queues.wakeAll, Queues.blocked, h, hupdate]

/-- Waking one thread does not change what waking all of them comes to. -/
theorem Queues.wakeAll_wake (a : Queues E S) (sync : Sync E S) :
    (a.wake sync).wakeAll sync = a.wakeAll sync := by
  cases hwaiters : a.waiters sync with
  | nil => simp [Queues.wake, hwaiters]
  | cons wblock rest => simp [Queues.wake, Queues.wakeAll, Queues.activate, Queues.blocked, hwaiters]

theorem Queues.waiters_grant (a : Queues E S) {sem : S} {wblock : Nat} {rest : List Nat}
    (h : a.waiters (.sem sem) = wblock :: rest) : (a.grant sem).waiters (.sem sem) = rest := by
  simp [Queues.grant, Queues.wake, Queues.activate, h]

theorem Queues.trace_grant (a : Queues E S) {sem : S} {wblock : Nat} {rest : List Nat}
    (hwaiters : a.waiters (.sem sem) = wblock :: rest) :
    (a.grant sem).trace = a.trace ++ [.grant sem (a.wblock_thread wblock) (a.wblock_units wblock)] ++
      [.ready (a.wblock_thread wblock)] := by
  simp only [Queues.grant, Queues.wake, Queues.activate, hwaiters, take_units]

theorem Queues.ready_grant (a : Queues E S) {sem : S} {wblock : Nat} {rest : List Nat}
    (hwaiters : a.waiters (.sem sem) = wblock :: rest) :
    (a.grant sem).ready = a.ready ++ [a.wblock_thread wblock] := by
  simp only [Queues.grant, Queues.wake, Queues.activate, hwaiters, take_units]

/-- Granting the first request, where the loop does, leaves the same release. -/
theorem Queues.release_grant {a : Queues E S} {sem : S} {wblock : Nat} {rest : List Nat}
    (hwaiters : a.waiters (.sem sem) = wblock :: rest) (hunits : (a.sem sem).units > 0)
    (hfits : ¬ (a.sem sem).units < a.wblock_units wblock) :
    (a.grant sem).release sem = a.release sem := by
  simp only [Queues.release, a.waiters_grant hwaiters, hwaiters, Queues.releaseFrom, hunits, hfits,
    if_true, if_false]

/-- Without units, or with a first request that does not fit, nothing happens. -/
theorem Queues.release_stop {a : Queues E S} {sem : S}
    (hstop : ∀ wblock rest, a.waiters (.sem sem) = wblock :: rest →
      (a.sem sem).units > 0 → (a.sem sem).units < a.wblock_units wblock) : a.release sem = a := by
  cases hwaiters : a.waiters (.sem sem) with
  | nil => simp [Queues.release, hwaiters, Queues.releaseFrom]
  | cons wblock rest =>
    have hfits := hstop wblock rest hwaiters
    simp only [Queues.release, hwaiters, Queues.releaseFrom]
    split
    · rw [if_pos (hfits ‹_›)]
    · rfl

/-- Induction along a release. It stops where there are no units or the first request
    does not fit, and otherwise grants the first request and goes on. -/
theorem Queues.release_induction {sem : S} {P : Queues E S → Queues E S → Prop}
    (hstop : ∀ a, (∀ wblock rest, a.waiters (.sem sem) = wblock :: rest →
      (a.sem sem).units > 0 → (a.sem sem).units < a.wblock_units wblock) → P a a)
    (hgrant : ∀ a wblock rest, a.waiters (.sem sem) = wblock :: rest → (a.sem sem).units > 0 →
      ¬ (a.sem sem).units < a.wblock_units wblock → P (a.grant sem) (a.release sem) →
      P a (a.release sem)) (a : Queues E S) : P a (a.release sem) := by
  generalize hqueue : a.waiters (.sem sem) = queue
  induction queue generalizing a with
  | nil =>
    have hend := hstop a (by simp [hqueue])
    rwa [Queues.release_stop (by simp [hqueue])]
  | cons wblock rest ih =>
    by_cases hgo : (a.sem sem).units > 0 ∧ ¬ (a.sem sem).units < a.wblock_units wblock
    · have hnext := ih (a.grant sem) (a.waiters_grant hqueue)
      rw [Queues.release_grant hqueue hgo.1 hgo.2] at hnext
      exact hgrant a wblock rest hqueue hgo.1 hgo.2 hnext
    · have hfirst : ∀ other tail, a.waiters (.sem sem) = other :: tail →
          (a.sem sem).units > 0 → (a.sem sem).units < a.wblock_units other := by
        intro other tail hother hunits
        obtain ⟨rfl, rfl⟩ := List.cons.inj (hqueue.symm.trans hother)
        by_contra hfits
        exact hgo ⟨hunits, hfits⟩
      rw [Queues.release_stop hfirst]
      exact hstop a hfirst

omit [DecidableEq E] [DecidableEq S] in
/-- Dispatching neither reads nor changes the set of blocks in use. -/
theorem Queues.dispatch_live (a : Queues E S) (live : Finset Nat) :
    { a with live }.dispatch = a.dispatch.map fun next => { next with live } := by
  cases hready : a.ready with
  | nil =>
    cases hmain : a.main_thread <;> simp [Queues.dispatch, hready, hmain, context_switch]
  | cons next rest => simp [Queues.dispatch, hready, context_switch]

omit [DecidableEq E] [DecidableEq S] in
theorem Queues.live_of_dispatch {a next : Queues E S} (h : a.dispatch = some next) :
    next.live = a.live := by
  have hmap := a.dispatch_live a.live
  rw [h, Option.map_some, Option.some.injEq] at hmap
  rw [hmap]

private theorem bind_of_eq_some {α β : Type} {o : Option α} {x : α} (h : o = some x)
    (f : α → Option β) : (o >>= f) = f x := by
  rw [h]
  rfl

section Running

variable {a : Queues E S} {thread : Thread} (hrunning : a.running_thread = some thread)
include hrunning

/-- The calls of a running thread that switch it out, each as the change it
    makes to the queues followed by a dispatch. -/
theorem Queues.perform_ut_yield (hready : a.ready ≠ []) :
    a.perform .ut_yield = (a.activate thread).dispatch := by
  simp [Queues.perform, hready, hrunning]

theorem Queues.perform_ut_exit {block : Nat} (hthread : thread = .user block) :
    a.perform .ut_exit = { a with
      number_of_threads := a.number_of_threads - 1
      live := a.live.erase block }.dispatch := by
  subst hthread
  have hlive := Queues.dispatch_live { a with number_of_threads := a.number_of_threads - 1 }
    (a.live.erase block)
  rw [hlive]
  simp only [Queues.perform]
  rw [bind_of_eq_some hrunning]
  cases hdispatch : Queues.dispatch { a with number_of_threads := a.number_of_threads - 1 } with
  | none => rfl
  | some next => simp [internal_cleanup, Queues.live_of_dispatch hdispatch]

theorem Queues.perform_event_wait {event : E} (wblock : Nat) (hsignaled : a.signaled event = false) :
    a.perform (.event_wait event wblock) = ({ a with
      wblock_thread := Function.update a.wblock_thread wblock thread
      frame := Function.update a.frame thread (some wblock) }.enqueue (.event event) wblock).dispatch := by
  simp [Queues.perform, hsignaled, init_waitblock, ut_self, hrunning]

/-- `sem_wait` on a semaphore nobody waits on and that has the units. -/
theorem Queues.perform_sem_wait_fast {sem : S} {units : Int32} (wblock : Nat)
    (hfast : a.waiters (.sem sem) = [] ∧ (a.sem sem).units ≥ units) :
    a.perform (.sem_wait sem units wblock) = some { a with
      sem := Function.update a.sem sem { a.sem sem with units := (a.sem sem).units - units }
      trace := a.trace ++ [.request sem thread units] ++ [.grant sem thread units] } := by
  simp [Queues.perform, hfast, ut_self, hrunning, take_units]

theorem Queues.perform_sem_wait_slow {sem : S} {units : Int32} (wblock : Nat)
    (hslow : ¬ (a.waiters (.sem sem) = [] ∧ (a.sem sem).units ≥ units)) :
    a.perform (.sem_wait sem units wblock) = ({ a with
      wblock_thread := Function.update a.wblock_thread wblock thread
      wblock_units := Function.update a.wblock_units wblock units
      frame := Function.update a.frame thread (some wblock)
      trace := a.trace ++ [Obs.request sem thread units] }.enqueue (.sem sem) wblock).dispatch := by
  simp only [Queues.perform, ut_self, hrunning, Option.bind_eq_bind, Option.bind_some, if_neg hslow,
    init_sem_waitblock, init_waitblock]

end Running

/-- What an allowed call does to the queues. The calls that make way for another thread
    change the queues and then dispatch. -/
inductive Queues.Move (a : Queues E S) : Call E S → Queues E S → Prop where
  | create {block stack : Nat} (hfresh : MallocFresh a.toCore block stack) :
      a.Move (.ut_create block stack) ({ a with
        live := insert block a.live
        stack := Function.update a.stack block stack
        number_of_threads := a.number_of_threads + 1 }.activate (.user block))
  | run_nothing : a.Move .ut_run a
  | run {b : Queues E S}
      (hdispatch : { a with main_thread := some .main, running_thread := some .main }.dispatch = some b) :
      a.Move .ut_run b
  | resumed : a.Move .ut_run_resumed { a with running_thread := none, main_thread := none }
  | yield_alone : a.Move .ut_yield a
  | yield {block : Nat} {b : Queues E S} (hrunning : a.running_thread = some (.user block))
      (hdispatch : (a.activate (.user block)).dispatch = some b) : a.Move .ut_yield b
  | exit {block : Nat} {b : Queues E S} (hrunning : a.running_thread = some (.user block))
      (hdispatch : { a with
        number_of_threads := a.number_of_threads - 1
        live := a.live.erase block }.dispatch = some b) : a.Move .ut_exit b
  | signaled {event : E} {wblock block : Nat} (hrunning : a.running_thread = some (.user block))
      (hsignaled : a.signaled event = true) : a.Move (.event_wait event wblock) a
  | event_wait {event : E} {wblock block : Nat} {b : Queues E S}
      (hrunning : a.running_thread = some (.user block)) (hfresh : ∀ t, a.frame t ≠ some wblock)
      (hsignaled : a.signaled event = false) (hdispatch : ({ a with
        wblock_thread := Function.update a.wblock_thread wblock (.user block)
        frame := Function.update a.frame (.user block) (some wblock) }.enqueue (.event event) wblock).dispatch =
          some b) : a.Move (.event_wait event wblock) b
  | event_set {event : E} : a.Move (.event_set event)
      ({ a with signaled := Function.update a.signaled event true }.wakeAll (.event event))
  | granted {sem : S} {units : Int32} {wblock block : Nat} (hrunning : a.running_thread = some (.user block))
      (hfast : a.waiters (.sem sem) = [] ∧ (a.sem sem).units ≥ units) :
      a.Move (.sem_wait sem units wblock) { a with
        sem := Function.update a.sem sem { a.sem sem with units := (a.sem sem).units - units }
        trace := a.trace ++ [.request sem (.user block) units] ++ [.grant sem (.user block) units] }
  | sem_wait {sem : S} {units : Int32} {wblock block : Nat} {b : Queues E S}
      (hrunning : a.running_thread = some (.user block)) (hfresh : ∀ t, a.frame t ≠ some wblock)
      (hslow : ¬ (a.waiters (.sem sem) = [] ∧ (a.sem sem).units ≥ units)) (hdispatch : ({ a with
        wblock_thread := Function.update a.wblock_thread wblock (.user block)
        wblock_units := Function.update a.wblock_units wblock units
        frame := Function.update a.frame (.user block) (some wblock)
        trace := a.trace ++ [Obs.request sem (.user block) units] }.enqueue (.sem sem) wblock).dispatch =
          some b) : a.Move (.sem_wait sem units wblock) b
  | sem_post {sem : S} {units : Int32} :
      a.Move (.sem_post sem units) ({ a with toCore := add_units a.toCore sem units }.release sem)

theorem Queues.move_of_perform {a b : Queues E S} {call : Call E S} (hallowed : Allowed a.toCore call)
    (hperform : a.perform call = some b) : a.Move call b := by
  cases call with
  | ut_create block stack =>
    obtain rfl := Option.some.inj hperform
    exact .create hallowed.2
  | ut_run =>
    simp only [Queues.perform] at hperform
    split at hperform
    · split at hperform
      · obtain rfl := Option.some.inj hperform
        exact .run_nothing
      · exact .run hperform
    · cases hperform
  | ut_run_resumed =>
    simp only [Queues.perform] at hperform
    split at hperform
    · obtain rfl := Option.some.inj hperform
      exact .resumed
    · cases hperform
  | ut_yield =>
    obtain ⟨block, hrunning⟩ := hallowed
    by_cases hready : a.ready = []
    · obtain rfl : a = b := by simpa [Queues.perform, hready] using hperform
      exact .yield_alone
    · rw [Queues.perform_ut_yield hrunning hready] at hperform
      exact .yield hrunning hperform
  | ut_exit =>
    obtain ⟨block, hrunning⟩ := hallowed
    rw [Queues.perform_ut_exit hrunning rfl] at hperform
    exact .exit hrunning hperform
  | event_wait event wblock =>
    obtain ⟨⟨block, hrunning⟩, hfresh⟩ := hallowed
    by_cases hsignaled : a.signaled event = false
    · rw [Queues.perform_event_wait hrunning wblock hsignaled] at hperform
      exact .event_wait hrunning hfresh hsignaled hperform
    · obtain rfl : a = b := by simpa [Queues.perform, hsignaled] using hperform
      exact .signaled hrunning (Bool.eq_true_of_not_eq_false hsignaled)
  | event_set event =>
    obtain rfl := Option.some.inj hperform
    exact .event_set
  | sem_wait sem units wblock =>
    obtain ⟨⟨block, hrunning⟩, hfresh⟩ := hallowed
    by_cases hfast : a.waiters (.sem sem) = [] ∧ (a.sem sem).units ≥ units
    · rw [Queues.perform_sem_wait_fast hrunning wblock hfast] at hperform
      obtain rfl := Option.some.inj hperform
      exact .granted hrunning hfast
    · rw [Queues.perform_sem_wait_slow hrunning wblock hfast] at hperform
      exact .sem_wait hrunning hfresh hfast hperform
  | sem_post sem units =>
    obtain rfl := Option.some.inj hperform
    exact .sem_post

end oslabs.uthread
