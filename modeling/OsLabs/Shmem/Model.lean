import Mathlib.Logic.Function.Basic
import OsLabs.Lib.Stores
import OsLabs.MemChannel.Model

open oslabs.stores

namespace oslabs.shmem

def MEMCH_MAX_NAME_LEN : Nat := 128

/-- The header of a channel in its segment. What no initialisation has touched of the lock
    and the semaphores is `none`. -/
structure memch_t where
  elem_size : UInt64
  capacity : UInt64
  total_size : UInt64
  name : List UInt8
  iput : UInt64
  iget : UInt64
  /-- Whether the mutex is shared between processes. -/
  lock : Option Bool
  has_space : Option Nat
  has_items : Option Nat
  deriving DecidableEq

/-- The header in a segment that is filled with zeros. -/
def zeroed : memch_t where
  elem_size := 0
  capacity := 0
  total_size := 0
  name := List.replicate MEMCH_MAX_NAME_LEN 0
  iput := 0
  iget := 0
  lock := none
  has_space := none
  has_items := none

def total_size (elem_size capacity : UInt64) : UInt64 :=
  let items_size := elem_size * capacity
  memchannel.offsetof_items + items_size

def store_name (i : Nat) (b : UInt8) (mc : memch_t) : memch_t :=
  { mc with name := mc.name.set i b }

/-- `strncpy(mc->name, name, n)`, character by character. Behind the end of the name it
    writes zeros. -/
def strncpy_name (name : List UInt8) (n : Nat) : List (memch_t → memch_t) :=
  (List.range n).map fun i => store_name i (name.getD i 0)

/-- The stores of `mc_create` to the segment that it has mapped, in their order. -/
def mc_create_stores (elem_size capacity : UInt64) (name : List UInt8) : List (memch_t → memch_t) :=
  [fun mc => { mc with elem_size },
    fun mc => { mc with capacity },
    fun mc => { mc with total_size := total_size elem_size capacity }] ++
  strncpy_name name MEMCH_MAX_NAME_LEN ++
  [store_name (MEMCH_MAX_NAME_LEN - 1) 0,
    fun mc => { mc with iget := 0 },
    fun mc => { mc with iput := 0 },
    fun mc => { mc with lock := some true },
    fun mc => { mc with has_items := some (memchannel.sem_init 0) },
    fun mc => { mc with has_space := some (memchannel.sem_init capacity.toUInt32) }]

/-- The header that `mc_create` leaves. -/
def initialised (elem_size capacity : UInt64) (name : List UInt8) : memch_t :=
  build (mc_create_stores elem_size capacity name) zeroed

theorem build_strncpy_name (name : List UInt8) (n : Nat) (mc : memch_t) :
    build (strncpy_name name n) mc = { mc with
      name := build ((List.range n).map fun i chars => chars.set i (name.getD i 0)) mc.name } := by
  induction n with
  | zero => rfl
  | succ n ih =>
    simp only [strncpy_name, List.range_succ, List.map_append, build_append] at ih ⊢
    rw [ih]
    rfl

/-- The characters of a name in its field: a terminating zero stands in the last place,
    whatever `strncpy` has left there. -/
def name_field (name : List UInt8) : List UInt8 :=
  ((List.range MEMCH_MAX_NAME_LEN).map fun i => name.getD i 0).set (MEMCH_MAX_NAME_LEN - 1) 0

theorem initialised_eq (elem_size capacity : UInt64) (name : List UInt8) :
    initialised elem_size capacity name =
      { elem_size
        capacity
        total_size := total_size elem_size capacity
        name := name_field name
        iput := 0
        iget := 0
        lock := some true
        has_space := some (memchannel.sem_init capacity.toUInt32)
        has_items := some (memchannel.sem_init 0) } := by
  have hlength : MEMCH_MAX_NAME_LEN ≤ zeroed.name.length := Nat.le_of_eq List.length_replicate.symm
  have hdrop : zeroed.name.drop MEMCH_MAX_NAME_LEN = [] :=
    List.drop_eq_nil_of_le (Nat.le_of_eq List.length_replicate)
  unfold initialised mc_create_stores
  rw [build_append, build_append, build_strncpy_name]
  simp only [build_cons, build_nil, store_name, build_set_range _ _ hlength, hdrop, List.append_nil,
    name_field]

/-- A channel that has just been created, with the name and the lock left out. -/
theorem mc_create_eq_initialised (elem_size capacity : UInt64) (name : List UInt8) :
    memchannel.mc_create elem_size capacity =
      { elem_size := (initialised elem_size capacity name).elem_size
        capacity := (initialised elem_size capacity name).capacity
        total_size := (initialised elem_size capacity name).total_size
        iput := (initialised elem_size capacity name).iput
        iget := (initialised elem_size capacity name).iget
        has_space := (initialised elem_size capacity name).has_space.getD 0
        has_items := (initialised elem_size capacity name).has_items.getD 0
        items := fun _ => 0 } := by
  rw [initialised_eq]
  rfl

/-- A shared memory object. -/
structure Object where
  size : UInt64
  mc : memch_t

/-- The file name of a shared memory object: the slashes in front of a name do not count. -/
def object_name (name : List UInt8) : List UInt8 :=
  name.dropWhile (· = 47)

/-- The namespace of shared memory, by file names, and the objects by a number. An object
    outlives its name for those that have it open or mapped. -/
structure Shm where
  names : List UInt8 → Option Nat
  objects : Nat → Object
  next : Nat

def NAME_MAX : Nat := 255

/-- The names that `shm_open` takes, which are strings. Behind any number of slashes stand
    one to 255 characters without a slash, and not only the one or two dots of a directory. -/
def Accepted (name : List UInt8) : Prop :=
  0 ∉ name ∧ object_name name ∉ [[], [46], [46, 46]] ∧ (object_name name).length ≤ NAME_MAX ∧
    47 ∉ object_name name

instance (name : List UInt8) : Decidable (Accepted name) := inferInstanceAs (Decidable (_ ∧ _))

/-- `shm_open` with `O_CREAT | O_EXCL`. A new object is empty. -/
def shm_open_excl (name : List UInt8) (shm : Shm) : Option (Nat × Shm) :=
  if Accepted name ∧ shm.names (object_name name) = none then
    some (shm.next, {
      names := Function.update shm.names (object_name name) (some shm.next)
      objects := Function.update shm.objects shm.next { size := 0, mc := zeroed }
      next := shm.next + 1 })
  else none

/-- `shm_open` of an object that exists. -/
def shm_open (name : List UInt8) (shm : Shm) : Option Nat :=
  if Accepted name then shm.names (object_name name) else none

def shm_unlink (name : List UInt8) (shm : Shm) : Shm :=
  if Accepted name then { shm with names := Function.update shm.names (object_name name) none }
  else shm

/-- `ftruncate`, which fails on a size that is negative as an `off_t`. -/
def ftruncate (object : Nat) (size : UInt64) (shm : Shm) : Option Shm :=
  if size.toNat < 2 ^ 63 then
    some { shm with
      objects := Function.update shm.objects object { shm.objects object with size } }
  else none

/-- A mapping: the object, and how many bytes of it. -/
structure Mapping where
  object : Nat
  size : UInt64
  deriving DecidableEq, Repr

/-- `mmap`, which fails on an empty range. -/
def mmap (object : Nat) (size : UInt64) : Option Mapping :=
  if size = 0 then none else some { object, size }

def Shm.store (shm : Shm) (object : Nat) (f : memch_t → memch_t) : Shm :=
  { shm with
    objects := Function.update shm.objects object
      { shm.objects object with mc := f (shm.objects object).mc } }

end oslabs.shmem
