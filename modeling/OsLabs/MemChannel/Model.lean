import Mathlib.Algebra.Order.Ring.Nat
import Mathlib.Logic.Function.Basic
import OsLabs.Lib.Memory
import OsLabs.Lib.Run

open oslabs.memory oslabs.run

namespace oslabs.memchannel

/-- The largest value of a POSIX semaphore. -/
def SEM_VALUE_MAX : Nat := 2 ^ 31 - 1

/-- `sem_init` in a zero-filled memory. A value too large is refused. -/
def sem_init (value : UInt32) : Nat :=
  if value.toNat ≤ SEM_VALUE_MAX then value.toNat else 0

/-- `sem_wait`, which does not return while the value is zero. -/
def sem_wait (value : Nat) : Option Nat :=
  if 0 < value then some (value - 1) else none

/-- `sem_post`, which fails on the largest value. -/
def sem_post (value : Nat) : Nat :=
  if value < SEM_VALUE_MAX then value + 1 else value

/-- The channel in its shared segment, its two semaphores as their values. The
    name and the lock are left out; who holds the lock shows in the steps. -/
structure memch_t where
  elem_size : UInt64
  capacity : UInt64
  total_size : UInt64
  iput : UInt64
  iget : UInt64
  has_space : Nat
  has_items : Nat
  items : Memory

/-- `offsetof(memch_t, items)` on x86-64 Linux: three sizes, a name of 128 bytes,
    two counters, a `pthread_mutex_t` of 40 bytes and two `sem_t` of 32 bytes. -/
def offsetof_items : UInt64 := 272

/-- What `mc_create` leaves in the zero-filled segment that `shmem_create` maps. -/
def mc_create (elem_size capacity : UInt64) : memch_t :=
  let items_size := elem_size * capacity
  let total_size := offsetof_items + items_size
  { elem_size
    capacity
    total_size
    iput := 0
    iget := 0
    has_items := sem_init 0
    has_space := sem_init capacity.toUInt32
    items := fun _ => 0 }

/-- A range of the items area lies in the `total_size` bytes mapped. -/
def memch_t.mapped (mc : memch_t) (offset : UInt64) : Prop :=
  offsetof_items.toNat + offset.toNat + mc.elem_size.toNat ≤ mc.total_size.toNat

instance (mc : memch_t) (offset : UInt64) : Decidable (mc.mapped offset) :=
  inferInstanceAs (Decidable (_ ≤ _))

/-- The section of `mc_put` under the lock. It is undefined where it would take a
    remainder by zero or copy to a place that is not mapped. -/
def mc_put_section (mc : memch_t) (item : List UInt8) : Option memch_t :=
  if mc.capacity = 0 then none
  else
    let iput := mc.iput % mc.capacity
    let mc := { mc with iput := mc.iput + 1 }
    let offset := iput * mc.elem_size
    if mc.mapped offset then some { mc with items := mc.items.store offset.toNat item } else none

/-- The section of `mc_get` under the lock, with the item it copies out. -/
def mc_get_section (mc : memch_t) : Option (List UInt8 × memch_t) :=
  if mc.capacity = 0 then none
  else
    let iget := mc.iget % mc.capacity
    let mc := { mc with iget := mc.iget + 1 }
    let offset := iget * mc.elem_size
    if mc.mapped offset then some (mc.items.load offset.toNat mc.elem_size.toNat, mc) else none

/-- Where a process is: outside the channel's functions, between its `sem_wait` and
    the lock, or between the lock and its `sem_post`. -/
inductive Pc where
  | idle
  | put_waited (item : List UInt8)
  | put_copied
  | get_waited
  | get_copied
  deriving DecidableEq, Repr

/-- A channel and the processes that use it. `copied_in` and `copied_out` are
    histories of the items copied under the lock, in the order of the lock. -/
structure State (P : Type) where
  mc : memch_t
  pc : P → Pc
  copied_in : List (List UInt8)
  copied_out : List (List UInt8)

variable {P : Type} [DecidableEq P]

inductive Label (P : Type) where
  | put_wait (p : P) (item : List UInt8)
  | put_copy (p : P)
  | put_post (p : P)
  | get_wait (p : P)
  | get_copy (p : P)
  | get_post (p : P)

/-- The atomic steps of `mc_put` and `mc_get`. An item has `elem_size` bytes. -/
def step (s : State P) : Label P → Option (State P)
  | .put_wait p item =>
    match s.pc p with
    | .idle =>
      if item.length = s.mc.elem_size.toNat then do
        let has_space ← sem_wait s.mc.has_space
        some { s with mc := { s.mc with has_space }, pc := Function.update s.pc p (.put_waited item) }
      else none
    | _ => none
  | .put_copy p =>
    match s.pc p with
    | .put_waited item => do
      let mc ← mc_put_section s.mc item
      some { s with
        mc
        pc := Function.update s.pc p .put_copied
        copied_in := s.copied_in ++ [item] }
    | _ => none
  | .put_post p =>
    match s.pc p with
    | .put_copied =>
      some { s with
        mc := { s.mc with has_items := sem_post s.mc.has_items }
        pc := Function.update s.pc p .idle }
    | _ => none
  | .get_wait p =>
    match s.pc p with
    | .idle => do
      let has_items ← sem_wait s.mc.has_items
      some { s with mc := { s.mc with has_items }, pc := Function.update s.pc p .get_waited }
    | _ => none
  | .get_copy p =>
    match s.pc p with
    | .get_waited => do
      let (item, mc) ← mc_get_section s.mc
      some { s with
        mc
        pc := Function.update s.pc p .get_copied
        copied_out := s.copied_out ++ [item] }
    | _ => none
  | .get_post p =>
    match s.pc p with
    | .get_copied =>
      some { s with
        mc := { s.mc with has_space := sem_post s.mc.has_space }
        pc := Function.update s.pc p .idle }
    | _ => none

/-- A channel that has just been created. -/
def created (elem_size capacity : UInt64) : State P where
  mc := mc_create elem_size capacity
  pc _ := .idle
  copied_in := []
  copied_out := []

/-- What a step does, case by case. -/
inductive Move (s : State P) : Label P → State P → Prop where
  | put_wait {p : P} {item : List UInt8} (hpc : s.pc p = .idle)
      (hlength : item.length = s.mc.elem_size.toNat) (hpos : 0 < s.mc.has_space) :
      Move s (.put_wait p item) { s with
        mc := { s.mc with has_space := s.mc.has_space - 1 }
        pc := Function.update s.pc p (.put_waited item) }
  | put_copy {p : P} {item : List UInt8} {mc : memch_t} (hpc : s.pc p = .put_waited item)
      (hsection : mc_put_section s.mc item = some mc) :
      Move s (.put_copy p) { s with
        mc
        pc := Function.update s.pc p .put_copied
        copied_in := s.copied_in ++ [item] }
  | put_post {p : P} (hpc : s.pc p = .put_copied) :
      Move s (.put_post p) { s with
        mc := { s.mc with has_items := sem_post s.mc.has_items }
        pc := Function.update s.pc p .idle }
  | get_wait {p : P} (hpc : s.pc p = .idle) (hpos : 0 < s.mc.has_items) :
      Move s (.get_wait p) { s with
        mc := { s.mc with has_items := s.mc.has_items - 1 }
        pc := Function.update s.pc p .get_waited }
  | get_copy {p : P} {item : List UInt8} {mc : memch_t} (hpc : s.pc p = .get_waited)
      (hsection : mc_get_section s.mc = some (item, mc)) :
      Move s (.get_copy p) { s with
        mc
        pc := Function.update s.pc p .get_copied
        copied_out := s.copied_out ++ [item] }
  | get_post {p : P} (hpc : s.pc p = .get_copied) :
      Move s (.get_post p) { s with
        mc := { s.mc with has_space := sem_post s.mc.has_space }
        pc := Function.update s.pc p .idle }

theorem move_of_step {s s' : State P} {label : Label P} (h : step s label = some s') :
    Move s label s' := by
  cases label with
  | put_wait p item =>
    simp only [step] at h
    split at h
    · split at h
      · unfold sem_wait at h
        split at h
        · obtain rfl := Option.some.inj h
          exact .put_wait ‹_› ‹_› ‹_›
        · cases h
      · cases h
    · cases h
  | put_copy p =>
    simp only [step] at h
    split at h
    · rename_i item hpc
      cases hsection : mc_put_section s.mc item with
      | none => simp [hsection] at h
      | some mc =>
        rw [hsection] at h
        obtain rfl := Option.some.inj h
        exact .put_copy hpc hsection
    · cases h
  | put_post p =>
    simp only [step] at h
    split at h
    · obtain rfl := Option.some.inj h
      exact .put_post ‹_›
    · cases h
  | get_wait p =>
    simp only [step] at h
    split at h
    · unfold sem_wait at h
      split at h
      · obtain rfl := Option.some.inj h
        exact .get_wait ‹_› ‹_›
      · cases h
    · cases h
  | get_copy p =>
    simp only [step] at h
    split at h
    · rename_i hpc
      cases hsection : mc_get_section s.mc with
      | none => simp [hsection] at h
      | some result =>
        obtain ⟨item, mc⟩ := result
        rw [hsection] at h
        obtain rfl := Option.some.inj h
        exact .get_copy hpc hsection
    · cases h
  | get_post p =>
    simp only [step] at h
    split at h
    · obtain rfl := Option.some.inj h
      exact .get_post ‹_›
    · cases h

end oslabs.memchannel
