import Mathlib.Algebra.Order.Ring.Nat
import Mathlib.Data.Finset.Card
import OsLabs.IntrusiveList

open oslabs.ring oslabs.list

namespace oslabs.uthread

/-- The fixed stack size of a user thread. -/
def STACK_SIZE : Nat := 8 * 4096

/-- The first address past the user half of an x86-64 address space. -/
def USER_SPACE_END : Nat := 2 ^ 47

/-- A `uthread_t *`: the proxy of the operating system thread, which lives on
    the frame of `ut_run`, or a block returned by `malloc`. -/
inductive Thread where
  | main
  | user (block : Nat)
  deriving DecidableEq, Repr

/-- The objects threads wait on, named by their addresses. -/
inductive Sync (E S : Type) where
  | event (event : E)
  | sem (sem : S)
  deriving DecidableEq, Repr

/-- The address of a `list_entry_t`: the sentinel of the ready queue, the entry
    inside a thread descriptor, the sentinel inside an event or a semaphore, or
    the entry inside a wait block on some stack. -/
inductive Entry (E S : Type) where
  | ready_queue
  | thread (thread : Thread)
  | waiters (sync : Sync E S)
  | wblock (wblock : Nat)
  deriving DecidableEq, Repr

/-- `container_of(entry, uthread_t, entry)`, undefined on any other entry. -/
def container_of_thread {E S : Type} : Entry E S → Option Thread
  | .thread t => some t
  | _ => none

/-- `container_of(entry, waitblock_t, entry)`, undefined on any other entry. -/
def container_of_waitblock {E S : Type} : Entry E S → Option Nat
  | .wblock w => some w
  | _ => none

structure semaphore where
  units : Int32
  limit : Int32
  deriving DecidableEq, Repr

/-- What a run shows of the ready queue and of the semaphores. -/
inductive Obs (S : Type) where
  | ready (thread : Thread)
  | dispatch (thread : Thread)
  | request (sem : S) (thread : Thread) (units : Int32)
  | grant (sem : S) (thread : Thread) (units : Int32)
  deriving DecidableEq, Repr

/-- All of the library's state but the links of its lists.

    `live` holds the thread blocks that `malloc` returned and `free` did not
    take back; `frame` gives the wait block in the frame of the blocking call a
    thread has not yet returned from. `trace` is a history no operation reads. -/
structure Core (E S : Type) where
  number_of_threads : UInt32
  running_thread : Option Thread
  main_thread : Option Thread
  live : Finset Nat
  stack : Nat → Nat
  signaled : E → Bool
  sem : S → semaphore
  wblock_thread : Nat → Thread
  wblock_units : Nat → Int32
  frame : Thread → Option Nat
  trace : List (Obs S)

/-- The library's memory. `activations` records, for every call of `ut_activate`,
    its argument and the links as the call found them. No operation reads it. -/
structure State (E S : Type) extends Core E S where
  links : Links (Entry E S)
  activations : List (Thread × Links (Entry E S))

variable {E S : Type}

/-- The calls a program makes. `ut_run_resumed` is the part of `ut_run` behind
    its call of `schedule`. `ut_create` comes with the two blocks `malloc`
    returns in it, and the blocking calls with the place of their wait block. -/
inductive Call (E S : Type) where
  | ut_create (block stack : Nat)
  | ut_run
  | ut_run_resumed
  | ut_yield
  | ut_exit
  | event_wait (event : E) (wblock : Nat)
  | event_set (event : E)
  | sem_wait (sem : S) (units : Int32) (wblock : Nat)
  | sem_post (sem : S) (units : Int32)

/-- `malloc` returns blocks in user space that overlap no block in use. -/
structure MallocFresh (c : Core E S) (block stack : Nat) : Prop where
  block_fresh : block ∉ c.live
  stack_pos : 0 < stack
  stack_end : stack + STACK_SIZE ≤ USER_SPACE_END
  stack_disjoint : ∀ other ∈ c.live,
    stack + STACK_SIZE ≤ c.stack other ∨ c.stack other + STACK_SIZE ≤ stack

/-- Who may make which call. User threads make every call but `ut_run`. The
    program that calls `ut_run` may create threads before it does. Storage of a
    wait block is distinct from that of every wait block still on a frame. -/
def Allowed (c : Core E S) : Call E S → Prop
  | .ut_create block stack => c.running_thread ≠ some .main ∧ MallocFresh c block stack
  | .ut_run => c.running_thread = none
  | .ut_run_resumed => c.running_thread = some .main
  | .event_wait _ wblock | .sem_wait _ _ wblock =>
    (∃ block, c.running_thread = some (.user block)) ∧ ∀ t, c.frame t ≠ some wblock
  | .ut_yield | .ut_exit | .event_set _ | .sem_post _ _ =>
    ∃ block, c.running_thread = some (.user block)

/-- The sentinels of all lists: of the ready queue and of every waiters list. -/
def sentinel : Option (Sync E S) → Entry E S
  | none => .ready_queue
  | some sync => .waiters sync

end oslabs.uthread
