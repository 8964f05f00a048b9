import OsLabs.Lib.Loop
import OsLabs.Lib.Run
import OsLabs.UThread.State

open oslabs.ring oslabs.list oslabs.loop oslabs.run

namespace oslabs.uthread

variable {E S : Type} [DecidableEq E] [DecidableEq S]

/-- `ut_init`. -/
def ut_init (s : State E S) : State E S :=
  { s with links := init_list_head s.links .ready_queue }

/-- `extract_next_thread`, undefined where it would hand out a null pointer. -/
def extract_next_thread (s : State E S) : Option (Thread × State E S) :=
  if is_list_empty s.links .ready_queue then do
    let next ← s.main_thread
    some (next, s)
  else do
    let (entry, links) := remove_list_first s.links .ready_queue
    let next ← container_of_thread entry
    some (next, { s with links })

/-- `context_switch`: from here on `nextThread` runs. It returns from the call
    that switched it out, so a wait block on the frame of that call is gone. -/
def context_switch (c : Core E S) (nextThread : Thread) : Core E S :=
  { c with
    running_thread := some nextThread
    frame := Function.update c.frame nextThread none
    trace := c.trace ++ [.dispatch nextThread] }

omit [DecidableEq E] [DecidableEq S] in
@[simp] theorem context_switch_trace (c : Core E S) (nextThread : Thread) :
    (context_switch c nextThread).trace = c.trace ++ [.dispatch nextThread] := rfl

def schedule (s : State E S) : Option (State E S) := do
  let (next_thread, s) ← extract_next_thread s
  some { s with toCore := context_switch s.toCore next_thread }

/-- `internal_cleanup`: frees the thread's stack and the thread itself. -/
def internal_cleanup (c : Core E S) : Thread → Option (Core E S)
  | .user block => some { c with live := c.live.erase block }
  | .main => none

/-- `internal_exit`: switches to `nextThread` and frees `currThread`. -/
def internal_exit (s : State E S) (currThread nextThread : Thread) : Option (State E S) := do
  let core ← internal_cleanup (context_switch s.toCore nextThread) currThread
  some { s with toCore := core }

def ut_exit (s : State E S) : Option (State E S) := do
  let s := { s with number_of_threads := s.number_of_threads - 1 }
  let curr ← s.running_thread
  let (next, s) ← extract_next_thread s
  internal_exit s curr next

def ut_yield (s : State E S) : Option (State E S) :=
  if is_list_empty s.links .ready_queue then some s
  else do
    let curr ← s.running_thread
    schedule { s with
      links := insert_list_last s.links .ready_queue (.thread curr)
      trace := s.trace ++ [.ready curr] }

def ut_self (c : Core E S) : Option Thread :=
  c.running_thread

def ut_deactivate (s : State E S) : Option (State E S) :=
  schedule s

def ut_activate (s : State E S) (thread : Thread) : State E S :=
  { s with
    links := insert_list_last s.links .ready_queue (.thread thread)
    trace := s.trace ++ [.ready thread]
    activations := s.activations ++ [(thread, s.links)] }

/-- `ut_create`, with the blocks that `malloc` returned for the descriptor and
    for the stack. The thread's code is left open, so its arguments are too. -/
def ut_create (s : State E S) (thread stack : Nat) : State E S :=
  let s := { s with
    live := insert thread s.live
    stack := Function.update s.stack thread stack }
  let s := { s with number_of_threads := s.number_of_threads + 1 }
  ut_activate s (.user thread)

/-- `ut_run`, up to where `schedule` switches away from the calling thread. -/
def ut_run (s : State E S) : Option (State E S) :=
  if s.running_thread = none then
    if is_list_empty s.links .ready_queue then some s
    else
      let s := { s with main_thread := some .main }
      let s := { s with running_thread := s.main_thread }
      schedule s
  else none

/-- The rest of `ut_run`, from the return of `schedule` on. A failing assertion
    aborts the program. -/
def ut_run_resumed (s : State E S) : Option (State E S) :=
  if is_list_empty s.links .ready_queue then
    if s.number_of_threads = 0 then
      some { s with running_thread := none, main_thread := none }
    else none
  else none

/-- `init_waitblock`. The block is on the frame of the thread that calls. -/
def init_waitblock (c : Core E S) (waitblock : Nat) : Option (Core E S) := do
  let self ← ut_self c
  some { c with
    wblock_thread := Function.update c.wblock_thread waitblock self
    frame := Function.update c.frame self (some waitblock) }

def init_sem_waitblock (c : Core E S) (sem_wblock : Nat) (units : Int32) : Option (Core E S) := do
  let c ← init_waitblock c sem_wblock
  some { c with wblock_units := Function.update c.wblock_units sem_wblock units }

def event_init (s : State E S) (event : E) : State E S :=
  { s with
    signaled := Function.update s.signaled event false
    links := init_list_head s.links (.waiters (.event event)) }

def event_wait (s : State E S) (event : E) (wblock : Nat) : Option (State E S) :=
  if s.signaled event = false then do
    let core ← init_waitblock s.toCore wblock
    ut_deactivate { s with
      toCore := core
      links := insert_list_last s.links (.waiters (.event event)) (.wblock wblock) }
  else some s

/-- One pass through the loop of `event_set`. -/
def event_set_pass (event : E) (s : State E S) : Option (Flow (State E S)) := do
  let (curr, links) := remove_list_first s.links (.waiters (.event event))
  let pwblock ← container_of_waitblock curr
  some (.again (ut_activate { s with links } (s.wblock_thread pwblock)))

def event_set (fuel : Nat) (s : State E S) (event : E) : Option (State E S) :=
  whileLoop (fun s => !is_list_empty s.links (.waiters (.event event))) (event_set_pass event) fuel
    { s with signaled := Function.update s.signaled event true }

def sem_init (s : State E S) (sem : S) (units limit : Int32) : State E S :=
  { s with
    links := init_list_head s.links (.waiters (.sem sem))
    sem := Function.update s.sem sem { units, limit } }

/-- Give `units` of a semaphore to a thread. -/
def take_units (c : Core E S) (sem : S) (thread : Thread) (units : Int32) : Core E S :=
  { c with
    sem := Function.update c.sem sem { c.sem sem with units := (c.sem sem).units - units }
    trace := c.trace ++ [.grant sem thread units] }

def sem_wait (s : State E S) (sem : S) (units : Int32) (waitblock : Nat) : Option (State E S) := do
  let self ← ut_self s.toCore
  let s := { s with trace := s.trace ++ [Obs.request sem self units] }
  if is_list_empty s.links (.waiters (.sem sem)) ∧ (s.sem sem).units ≥ units then
    some { s with toCore := take_units s.toCore sem self units }
  else
    let core ← init_sem_waitblock s.toCore waitblock units
    ut_deactivate { s with
      toCore := core
      links := insert_list_last s.links (.waiters (.sem sem)) (.wblock waitblock) }

/-- The saturating addition at the start of `sem_post`. The sum wraps around. -/
def add_units (c : Core E S) (sem : S) (units : Int32) : Core E S :=
  let sum := (c.sem sem).units + units
  { c with
    sem := Function.update c.sem sem { c.sem sem with
      units := if sum > (c.sem sem).limit then (c.sem sem).limit else sum } }

/-- One pass through the loop of `sem_post`. -/
def sem_post_pass (sem : S) (s : State E S) : Option (Flow (State E S)) := do
  let entry := s.links.next (.waiters (.sem sem))
  let waitblock ← container_of_waitblock entry
  if (s.sem sem).units < s.wblock_units waitblock then
    some (.leave s)
  else
    let thread := s.wblock_thread waitblock
    let core := take_units s.toCore sem thread (s.wblock_units waitblock)
    let (_, links) := remove_list_first s.links (.waiters (.sem sem))
    some (.again (ut_activate { s with toCore := core, links } thread))

def sem_post (fuel : Nat) (s : State E S) (sem : S) (units : Int32) : Option (State E S) :=
  whileLoop
    (fun s => (s.sem sem).units > 0 ∧ s.links.next (.waiters (.sem sem)) ≠ .waiters (.sem sem))
    (sem_post_pass sem) fuel { s with toCore := add_units s.toCore sem units }

/-- A call, its loops run for at most `fuel` tests of their conditions. -/
def perform (fuel : Nat) (s : State E S) : Call E S → Option (State E S)
  | .ut_create block stack => some (ut_create s block stack)
  | .ut_run => ut_run s
  | .ut_run_resumed => ut_run_resumed s
  | .ut_yield => ut_yield s
  | .ut_exit => ut_exit s
  | .event_wait event wblock => event_wait s event wblock
  | .event_set event => event_set fuel s event
  | .sem_wait sem units wblock => sem_wait s sem units wblock
  | .sem_post sem units => sem_post fuel s sem units

/-- One step of a program: an allowed call that comes to its end. -/
def Step (s : State E S) (call : Call E S) (s' : State E S) : Prop :=
  Allowed s.toCore call ∧ ∃ fuel, perform fuel s call = some s'

/-- A state as `ut_init`, `event_init` and `sem_init` leave it, before the first
    thread is created. Everything these do not write is arbitrary. -/
structure Initial (s : State E S) : Prop where
  lists : ∀ list, Ring s.links (sentinel list) []
  number_of_threads : s.number_of_threads = 0
  running_thread : s.running_thread = none
  main_thread : s.main_thread = none
  live : s.live = ∅
  signaled : ∀ event, s.signaled event = false
  frame : ∀ thread, s.frame thread = none
  trace : s.trace = []
  activations : s.activations = []

end oslabs.uthread
