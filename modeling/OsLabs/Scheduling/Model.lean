import OsLabs.IntrusiveList
import OsLabs.Lib.Run
import OsLabs.UThread.State

open oslabs.ring oslabs.run
open oslabs.uthread (Thread Obs)

namespace oslabs.scheduling

section List

variable {α : Type*} [DecidableEq α]

/-- The list of this scheduler names its links `flink` (`next`) and `blink` (`prev`). -/
def init_list_head (m : Links α) (listhead : α) : Links α :=
  (m.setPrev listhead listhead).setNext listhead listhead

def is_list_empty (m : Links α) (listhead : α) : Bool :=
  m.next listhead = listhead

def remove_entry_list (m : Links α) (entry : α) : Bool × Links α :=
  let flink := m.next entry
  let blink := m.prev entry
  let m := m.setNext blink flink
  let m := m.setPrev flink blink
  (flink = blink, m)

def remove_head_list (m : Links α) (listhead : α) : α × Links α :=
  let entry := m.next listhead
  let flink := m.next entry
  let m := m.setNext listhead flink
  let m := m.setPrev flink listhead
  (entry, m)

def remove_tail_list (m : Links α) (listhead : α) : α × Links α :=
  let entry := m.prev listhead
  let blink := m.prev entry
  let m := m.setPrev listhead blink
  let m := m.setNext blink listhead
  (entry, m)

def insert_tail_list (m : Links α) (listhead entry : α) : Links α :=
  let blink := m.prev listhead
  let m := m.setNext entry listhead
  let m := m.setPrev entry blink
  let m := m.setNext blink entry
  m.setPrev listhead entry

def insert_head_list (m : Links α) (listhead entry : α) : Links α :=
  let flink := m.next listhead
  let m := m.setNext entry flink
  let m := m.setPrev entry listhead
  let m := m.setPrev flink entry
  m.setNext listhead entry

end List

/-- The address of a `list_entry_t`: the sentinel of the ready queue, or the entry
    in a thread descriptor. -/
inductive Entry where
  | ready_queue
  | thread (thread : Thread)
  deriving DecidableEq, Repr

/-- `container_of(entry, uthread_t, entry)`, undefined on the sentinel. -/
def container_of : Entry → Option Thread
  | .thread t => some t
  | .ready_queue => none

/-- All of the scheduler's state but the links. `live` holds the blocks that `mmap`
    returned and `munmap` did not take back, each with a descriptor and a stack.
    `trace` is a history no operation reads. -/
structure Core where
  running_thread : Option Thread
  main_thread : Option Thread
  live : Finset Nat
  trace : List (Obs Empty)

structure State extends Core where
  links : Links Entry

/-- `context_switch`: from here on `nextThread` runs. -/
def context_switch (c : Core) (nextThread : Thread) : Core :=
  { c with running_thread := some nextThread, trace := c.trace ++ [.dispatch nextThread] }

/-- `cleanup_thread`: unmaps the thread's block. The main thread is in none. -/
def cleanup_thread (c : Core) : Thread → Option Core
  | .user block => some { c with live := c.live.erase block }
  | .main => none

/-- `internal_exit`: switches to `nextThread` and frees `currThread`. -/
def internal_exit (s : State) (currThread nextThread : Thread) : Option State := do
  let core ← cleanup_thread (context_switch s.toCore nextThread) currThread
  some { s with toCore := core }

/-- `extract_next_ready_thread`, undefined where it would hand out a null pointer. -/
def extract_next_ready_thread (s : State) : Option (Thread × State) :=
  if is_list_empty s.links .ready_queue then do
    let next ← s.main_thread
    some (next, s)
  else do
    let (entry, links) := remove_head_list s.links .ready_queue
    let next ← container_of entry
    some (next, { s with links })

def schedule (s : State) : Option State := do
  let (next_thread, s) ← extract_next_ready_thread s
  some { s with toCore := context_switch s.toCore next_thread }

def ut_init (s : State) : State :=
  { s with links := init_list_head s.links .ready_queue }

/-- `ut_run`. It returns once the calling thread is dispatched again. -/
def ut_run (s : State) : Option State :=
  schedule { s with main_thread := some .main, running_thread := some .main }

/-- `ut_create`, with the block that `mmap` returned. -/
def ut_create (s : State) (puthread : Nat) : State :=
  { s with
    live := insert puthread s.live
    links := insert_tail_list s.links .ready_queue (.thread (.user puthread))
    trace := s.trace ++ [.ready (.user puthread)] }

def ut_yield (s : State) : Option State :=
  if is_list_empty s.links .ready_queue then some s
  else do
    let curr ← s.running_thread
    schedule { s with
      links := insert_tail_list s.links .ready_queue (.thread curr)
      trace := s.trace ++ [.ready curr] }

def ut_exit (s : State) : Option State := do
  let curr ← s.running_thread
  let (next, s) ← extract_next_ready_thread s
  internal_exit s curr next

/-- The calls a program makes. -/
inductive Call where
  | ut_create (block : Nat)
  | ut_run
  | ut_yield
  | ut_exit

/-- Who may make which call. `mmap` returns a block that is not in use. The program
    that calls `ut_run` runs before the first thread is dispatched and whenever the
    main thread is. -/
def Allowed (c : Core) : Call → Prop
  | .ut_create block => block ∉ c.live
  | .ut_run => c.running_thread = none ∨ c.running_thread = some .main
  | .ut_yield | .ut_exit => ∃ block, c.running_thread = some (.user block)

def perform (s : State) : Call → Option State
  | .ut_create block => some (ut_create s block)
  | .ut_run => ut_run s
  | .ut_yield => ut_yield s
  | .ut_exit => ut_exit s

/-- One step of a program: an allowed call that comes to its end. -/
def Step (s : State) (call : Call) (s' : State) : Prop :=
  Allowed s.toCore call ∧ perform s call = some s'

/-- A state as `ut_init` leaves it, before the first thread is created. -/
structure Initial (s : State) : Prop where
  ready_queue : Ring s.links .ready_queue []
  running_thread : s.running_thread = none
  main_thread : s.main_thread = none
  live : s.live = ∅
  trace : s.trace = []

end oslabs.scheduling
