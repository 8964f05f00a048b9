import Mathlib.Data.Fintype.Card
import OsLabs.IntrusiveList
import OsLabs.Lib.Run

open oslabs.ring oslabs.list oslabs.run

namespace oslabs.queue

/-- The address of a `list_entry_t`: the queue's `head`, or the entry in a node. -/
inductive Entry where
  | head
  | node (pnode : UInt64)
  deriving DecidableEq, Repr

/-- `container_of(pentry, queue_node_t, entry)`, undefined on the queue's head. -/
def container_of : Entry → Option UInt64
  | .node pnode => some pnode
  | .head => none

/-- Where a thread is. In `put_ready` it has filled its node and is about to enter
    the monitor. In `get_enter` it is about to enter for the first time, in
    `waiting` it sleeps on the condition variable, in `woken` it sleeps no more
    and competes for the lock, and in `got` it has left with a node, which held
    `item` when it was unlinked. -/
inductive Pc (I : Type) where
  | idle
  | put_ready (pnode : UInt64)
  | get_enter
  | waiting
  | woken
  | got (pnode : UInt64) (item : I)

/-- The node a thread owns. -/
def Pc.node? {I : Type} : Pc I → Option UInt64
  | .put_ready pnode | .got pnode _ => some pnode
  | _ => none

def Pc.isWaiting {I : Type} : Pc I → Bool
  | .waiting => true
  | _ => false

def Pc.isWoken {I : Type} : Pc I → Bool
  | .woken => true
  | _ => false

/-- The loop guard of `queue_get`: on the counter, or on the list. -/
inductive Guard where
  | size
  | list
  deriving DecidableEq

/-- A queue, its nodes, and the threads that use it. `puts` and `taken` are the
    items linked and unlinked so far, as they stood in the nodes at that moment. -/
structure State (T I : Type) where
  links : Links Entry
  size : UInt64
  item : UInt64 → I
  allocated : Finset UInt64
  pc : T → Pc I
  puts : List I
  taken : List I

variable {T I : Type}

/-- `queue_init`. -/
def queue_init (s : State T I) : State T I :=
  { s with links := init_list_head s.links .head, size := 0 }

/-- What the loop of `queue_get` tests. -/
def Guard.waits (guard : Guard) (s : State T I) : Bool :=
  match guard with
  | .size => s.size = 0
  | .list => is_list_empty s.links .head

/-- A signal wakes waiting threads only, and at least one if there is any. -/
def Signals (pc : T → Pc I) (woken : Finset T) : Prop :=
  (∀ t ∈ woken, (pc t).isWaiting) ∧ ((∃ t, (pc t).isWaiting) → woken.Nonempty)

instance [Fintype T] (pc : T → Pc I) (woken : Finset T) : Decidable (Signals pc woken) :=
  inferInstanceAs (Decidable (_ ∧ (_ → _)))

variable [DecidableEq T]

/-- `pthread_cond_signal`, with the threads it wakes. -/
def pthread_cond_signal (pc : T → Pc I) (woken : Finset T) : T → Pc I :=
  fun t => if t ∈ woken then .woken else pc t

/-- `queue_put` up to the monitor: the node `malloc` returned gets its item. -/
def queue_put_begin (s : State T I) (t : T) (pnode : UInt64) (item : I) : State T I :=
  { s with
    allocated := insert pnode s.allocated
    item := Function.update s.item pnode item
    pc := Function.update s.pc t (.put_ready pnode) }

/-- The section of `queue_put` in the monitor. -/
def queue_put_section (s : State T I) (t : T) (pnode : UInt64) (woken : Finset T) : State T I :=
  { s with
    links := insert_list_last s.links .head (.node pnode)
    size := s.size + 1
    pc := Function.update (pthread_cond_signal s.pc woken) t .idle
    puts := s.puts ++ [s.item pnode] }

/-- The section of `queue_get` from one test of its guard to the release of the
    lock, in `pthread_cond_wait` or at its end. -/
def queue_get_section (guard : Guard) (s : State T I) (t : T) : Option (State T I) :=
  if guard.waits s then some { s with pc := Function.update s.pc t .waiting }
  else do
    let (pentry, links) := remove_list_first s.links .head
    let pnode ← container_of pentry
    some { s with
      links
      size := s.size - 1
      pc := Function.update s.pc t (.got pnode (s.item pnode))
      taken := s.taken ++ [s.item pnode] }

/-- `queue_get` behind the monitor: it reads the item and frees the node. -/
def queue_get_end (s : State T I) (t : T) (pnode : UInt64) : I × State T I :=
  (s.item pnode,
    { s with allocated := s.allocated.erase pnode, pc := Function.update s.pc t .idle })

/-- The steps of the threads. A step in the monitor is a section during which
    the thread holds the lock, so between steps the lock is free. -/
inductive Label (T I : Type) where
  | put_begin (t : T) (pnode : UInt64) (item : I)
  | put_section (t : T) (woken : Finset T)
  | get_begin (t : T)
  | get_section (t : T)
  | spurious (t : T)
  | get_end (t : T)

/-- One step. `malloc` returns a non-null block that is not in use. -/
def step [Fintype T] (guard : Guard) (s : State T I) : Label T I → Option (State T I)
  | .put_begin t pnode item =>
    match s.pc t with
    | .idle =>
      if pnode ≠ 0 ∧ pnode ∉ s.allocated then some (queue_put_begin s t pnode item) else none
    | _ => none
  | .put_section t woken =>
    match s.pc t with
    | .put_ready pnode =>
      if Signals s.pc woken then some (queue_put_section s t pnode woken) else none
    | _ => none
  | .get_begin t =>
    match s.pc t with
    | .idle => some { s with pc := Function.update s.pc t .get_enter }
    | _ => none
  | .get_section t =>
    match s.pc t with
    | .get_enter | .woken => queue_get_section guard s t
    | _ => none
  | .spurious t =>
    match s.pc t with
    | .waiting => some { s with pc := Function.update s.pc t .woken }
    | _ => none
  | .get_end t =>
    match s.pc t with
    | .got pnode _ => some (queue_get_end s t pnode).2
    | _ => none

/-- What a step does, case by case. -/
inductive Move (guard : Guard) (s : State T I) : Label T I → State T I → Prop where
  | put_begin {t : T} {pnode : UInt64} {item : I} (hpc : s.pc t = .idle) (hnull : pnode ≠ 0)
      (hfresh : pnode ∉ s.allocated) :
      Move guard s (.put_begin t pnode item) (queue_put_begin s t pnode item)
  | put_section {t : T} {pnode : UInt64} {woken : Finset T} (hpc : s.pc t = .put_ready pnode)
      (hsignals : Signals s.pc woken) :
      Move guard s (.put_section t woken) (queue_put_section s t pnode woken)
  | get_begin {t : T} (hpc : s.pc t = .idle) :
      Move guard s (.get_begin t) { s with pc := Function.update s.pc t .get_enter }
  | wait {t : T} (hpc : s.pc t = .get_enter ∨ s.pc t = .woken) (hguard : guard.waits s = true) :
      Move guard s (.get_section t) { s with pc := Function.update s.pc t .waiting }
  | take {t : T} {s' : State T I} (hpc : s.pc t = .get_enter ∨ s.pc t = .woken)
      (hguard : guard.waits s = false) (hsection : queue_get_section guard s t = some s') :
      Move guard s (.get_section t) s'
  | spurious {t : T} (hpc : s.pc t = .waiting) :
      Move guard s (.spurious t) { s with pc := Function.update s.pc t .woken }
  | get_end {t : T} {pnode : UInt64} {item : I} (hpc : s.pc t = .got pnode item) :
      Move guard s (.get_end t) (queue_get_end s t pnode).2

theorem move_of_step [Fintype T] {guard : Guard} {s s' : State T I} {label : Label T I}
    (h : step guard s label = some s') : Move guard s label s' := by
  cases label with
  | put_begin t pnode item =>
    simp only [step] at h
    split at h
    · split at h
      · obtain ⟨hnull, hfresh⟩ := ‹_ ∧ _›
        obtain rfl := Option.some.inj h
        exact .put_begin ‹_› hnull hfresh
      · cases h
    · cases h
  | put_section t woken =>
    simp only [step] at h
    split at h
    · split at h
      · obtain rfl := Option.some.inj h
        exact .put_section ‹_› ‹_›
      · cases h
    · cases h
  | get_begin t =>
    simp only [step] at h
    split at h
    · obtain rfl := Option.some.inj h
      exact .get_begin ‹_›
    · cases h
  | get_section t =>
    have hentering : s.pc t = .get_enter ∨ s.pc t = .woken := by
      simp only [step] at h
      split at h
      · exact .inl ‹_›
      · exact .inr ‹_›
      · cases h
    have hsection : queue_get_section guard s t = some s' := by
      obtain hpc | hpc := hentering <;> simpa only [step, hpc] using h
    cases hguard : guard.waits s with
    | true =>
      simp only [queue_get_section, hguard, if_true] at hsection
      obtain rfl := Option.some.inj hsection
      exact .wait hentering hguard
    | false => exact .take hentering hguard hsection
  | spurious t =>
    simp only [step] at h
    split at h
    · obtain rfl := Option.some.inj h
      exact .spurious ‹_›
    · cases h
  | get_end t =>
    simp only [step] at h
    split at h
    · obtain rfl := Option.some.inj h
      exact .get_end ‹_›
    · cases h

/-- A queue as `queue_init` leaves it, no node in use and no thread in a call. -/
structure Initial (s : State T I) : Prop where
  head : Ring s.links .head []
  size : s.size = 0
  allocated : s.allocated = ∅
  pc : ∀ t, s.pc t = .idle
  puts : s.puts = []
  taken : s.taken = []

omit [DecidableEq T] in
theorem queue_init_initial {s : State T I} (hallocated : s.allocated = ∅) (hpc : ∀ t, s.pc t = .idle)
    (hputs : s.puts = []) (htaken : s.taken = []) : Initial (queue_init s) where
  head := init_list_head_ring s.links .head
  size := rfl
  allocated := hallocated
  pc := hpc
  puts := hputs
  taken := htaken

/-- A queue just initialised, in a memory whose blocks hold `item`. -/
def initialised (item : I) : State T I :=
  queue_init {
    links := { next := id, prev := id }
    size := 0
    item := fun _ => item
    allocated := ∅
    pc := fun _ => .idle
    puts := []
    taken := [] }

omit [DecidableEq T] in
theorem initialised_initial (item : I) : Initial (initialised item : State T I) :=
  queue_init_initial rfl (fun _ => rfl) rfl rfl

end oslabs.queue
