import OsLabs.Lib.Run
import OsLabs.Shmem.Model

open oslabs.run oslabs.stores

namespace oslabs.shmem

/-- Where the process in `mc_create` is: before `shm_open`, before `ftruncate`, before
    `mmap`, among its stores with their number so far, before `shm_unlink` after a failure,
    or at an end without a channel. -/
inductive CreatorPc where
  | start
  | opened (object : Nat)
  | sized (object : Nat)
  | storing (mc : Mapping) (done : Nat)
  | unlinking
  | failed
  deriving DecidableEq, Repr

/-- Where a process in `mc_open` is: before `shm_open`, before `fstat`, before `mmap`, or
    at the end with its result. -/
inductive OpenerPc where
  | start
  | opened (object : Nat)
  | statted (object : Nat) (st_size : UInt64)
  | returned (mc : Option Mapping)
  deriving DecidableEq, Repr

inductive CreatorLabel where
  | shm_open (ok : Bool)
  | ftruncate (ok : Bool)
  | mmap (ok : Bool)
  | store
  | shm_unlink

inductive OpenerLabel where
  | shm_open (ok : Bool)
  | fstat (ok : Bool)
  | mmap (ok : Bool)

/-- A call that can fail for want of resources too. -/
def attempt {α : Type} (ok : Bool) (result : Option α) : Option α :=
  if ok then result else none

/-- `mc_create` with `shmem_create`, from one effect on shared memory to the next. -/
def creator_step (elem_size capacity : UInt64) (name : List UInt8) (shm : Shm) :
    CreatorPc → CreatorLabel → Option (Shm × CreatorPc)
  | .start, .shm_open ok =>
    match attempt ok (shm_open_excl name shm) with
    | some (object, shm) => some (shm, .opened object)
    | none => some (shm, .failed)
  | .opened object, .ftruncate ok =>
    match attempt ok (ftruncate object (total_size elem_size capacity) shm) with
    | some shm => some (shm, .sized object)
    | none => some (shm, .unlinking)
  | .sized object, .mmap ok =>
    match attempt ok (mmap object (total_size elem_size capacity)) with
    | some mc => some (shm, .storing mc 0)
    | none => some (shm, .unlinking)
  | .storing mc done, .store => do
    let store ← (mc_create_stores elem_size capacity name)[done]?
    some (shm.store mc.object store, .storing mc (done + 1))
  | .unlinking, .shm_unlink => some (shm_unlink name shm, .failed)
  | _, _ => none

/-- `mc_open` with `shmem_open`. It changes no shared memory. -/
def opener_step (name : List UInt8) (shm : Shm) : OpenerPc → OpenerLabel → Option OpenerPc
  | .start, .shm_open ok =>
    match attempt ok (shm_open name shm) with
    | some object => some (.opened object)
    | none => some (.returned none)
  | .opened object, .fstat ok =>
    if ok then some (.statted object (shm.objects object).size) else some (.returned none)
  | .statted object st_size, .mmap ok => some (.returned (attempt ok (mmap object st_size)))
  | _, _ => none

/-- One call of `mc_create`, and any calls of `mc_open`. -/
structure State (P : Type) where
  shm : Shm
  creator : CreatorPc
  openers : P → OpenerPc

inductive Label (P : Type) where
  | creator (label : CreatorLabel)
  | opener (p : P) (label : OpenerLabel)

section Steps

variable {P : Type} [DecidableEq P]

def step (elem_size capacity : UInt64) (name : List UInt8) (s : State P) : Label P → Option (State P)
  | .creator label => do
    let (shm, creator) ← creator_step elem_size capacity name s.shm s.creator label
    some { s with shm, creator }
  | .opener p label => do
    let opener ← opener_step name s.shm (s.openers p) label
    some { s with openers := Function.update s.openers p opener }

end Steps

/-- All calls before their first step. -/
def start {P : Type} (shm : Shm) : State P where
  shm := shm
  creator := .start
  openers _ := .start

/-- How many of the stores of `mc_create` are made. -/
def CreatorPc.done : CreatorPc → Nat
  | .storing _ done => done
  | _ => 0

section Stores

variable {elem_size capacity : UInt64} {name : List UInt8}

theorem has_space_strncpy_name (n : Nat) {store : memch_t → memch_t}
    (h : store ∈ strncpy_name name n) (mc : memch_t) : (store mc).has_space = mc.has_space := by
  obtain ⟨i, _, rfl⟩ := List.mem_map.1 h
  rfl

/-- The last store of `mc_create` is the initialisation of `has_space`, which no other one
    touches. -/
theorem mc_create_stores_last (elem_size capacity : UInt64) (name : List UInt8) :
    ∃ stores : List (memch_t → memch_t), mc_create_stores elem_size capacity name = stores ++
      [fun mc => { mc with has_space := some (memchannel.sem_init capacity.toUInt32) }] ∧
    ∀ store ∈ stores, ∀ mc, (store mc).has_space = mc.has_space := by
  refine ⟨[fun mc => { mc with elem_size }, fun mc => { mc with capacity },
      fun mc => { mc with total_size := total_size elem_size capacity }] ++
    strncpy_name name MEMCH_MAX_NAME_LEN ++
    [store_name (MEMCH_MAX_NAME_LEN - 1) 0, fun mc => { mc with iget := 0 }, fun mc => { mc with iput := 0 },
      fun mc => { mc with lock := some true },
      fun mc => { mc with has_items := some (memchannel.sem_init 0) }], by simp [mc_create_stores], ?_⟩
  intro store hstore mc
  rcases List.mem_append.1 hstore with hstore | hstore
  · rcases List.mem_append.1 hstore with hstore | hstore
    · simp only [List.mem_cons, List.not_mem_nil, or_false] at hstore
      rcases hstore with rfl | rfl | rfl <;> rfl
    · exact has_space_strncpy_name _ hstore mc
  · simp only [List.mem_cons, List.not_mem_nil, or_false] at hstore
    rcases hstore with rfl | rfl | rfl | rfl | rfl <;> rfl

/-- The header is what `mc_create` leaves only when all stores are made. -/
theorem build_take_eq_initialised_iff {k : Nat}
    (hk : k ≤ (mc_create_stores elem_size capacity name).length) :
    build ((mc_create_stores elem_size capacity name).take k) zeroed = initialised elem_size capacity name ↔
      k = (mc_create_stores elem_size capacity name).length := by
  constructor
  · intro heq
    obtain ⟨stores, hstores, hframe⟩ := mc_create_stores_last elem_size capacity name
    by_contra hne
    have hshort : k ≤ stores.length := by
      rw [hstores, List.length_append, List.length_singleton] at hk hne
      omega
    have hspace := congrArg memch_t.has_space heq
    rw [initialised, hstores, List.take_append_of_le_length hshort, build_append,
      build_frame memch_t.has_space fun store hstore => hframe store (List.mem_of_mem_take hstore)]
      at hspace
    cases hspace
  · rintro rfl
    rw [List.take_length, initialised]

end Stores

section Calls

variable {name : List UInt8} {shm shm' : Shm}

theorem attempt_eq_some {α : Type} {ok : Bool} {result : Option α} {x : α}
    (h : attempt ok result = some x) : result = some x := by
  cases ok with
  | false => cases h
  | true => exact h

theorem shm_open_excl_eq_some {object : Nat} (h : shm_open_excl name shm = some (object, shm')) :
    Accepted name ∧ shm.names (object_name name) = none ∧ object = shm.next ∧
      shm'.names = Function.update shm.names (object_name name) (some shm.next) ∧
      shm'.objects = Function.update shm.objects shm.next { size := 0, mc := zeroed } ∧
      shm'.next = shm.next + 1 := by
  unfold shm_open_excl at h
  split at h
  · rename_i hname
    obtain ⟨rfl, rfl⟩ := Prod.mk.inj (Option.some.inj h)
    exact ⟨hname.1, hname.2, rfl, rfl, rfl, rfl⟩
  · cases h

theorem shm_open_eq_some {object : Nat} (h : shm_open name shm = some object) :
    shm.names (object_name name) = some object := by
  unfold shm_open at h
  split at h
  · exact h
  · cases h

theorem ftruncate_eq_some {object : Nat} {size : UInt64} (h : ftruncate object size shm = some shm') :
    shm' = { shm with
      objects := Function.update shm.objects object { shm.objects object with size } } := by
  unfold ftruncate at h
  split at h
  · exact (Option.some.inj h).symm
  · cases h

theorem mmap_eq_some {object : Nat} {size : UInt64} {mc : Mapping} (h : mmap object size = some mc) :
    size ≠ 0 ∧ mc = { object, size } := by
  unfold mmap at h
  split at h
  · cases h
  · exact ⟨‹_›, (Option.some.inj h).symm⟩

/-- `shm_unlink` binds no name. -/
theorem names_shm_unlink {other : List UInt8} {object : Nat}
    (h : (shm_unlink name shm).names other = some object) : shm.names other = some object := by
  unfold shm_unlink at h
  split at h
  · by_cases hother : other = object_name name
    · simp [hother] at h
    · simpa only [Function.update_of_ne hother] using h
  · exact h

theorem objects_shm_unlink (name : List UInt8) (shm : Shm) :
    (shm_unlink name shm).objects = shm.objects := by
  unfold shm_unlink
  split <;> rfl

theorem next_shm_unlink (name : List UInt8) (shm : Shm) : (shm_unlink name shm).next = shm.next := by
  unfold shm_unlink
  split <;> rfl

end Calls

section Exposed

variable {elem_size capacity : UInt64} {name : List UInt8} {o : Nat} {shm shm' : Shm}
  {creator creator' : CreatorPc}

/-- The object that the process in `mc_create` has open or mapped. -/
def CreatorPc.object : CreatorPc → Option Nat
  | .opened object | .sized object => some object
  | .storing mc _ => some mc.object
  | _ => none

/-- The name leads to the object number `o` only, which is the one that `mc_create` makes.
    Its header holds the stores so far. -/
structure CreatorOk (elem_size capacity : UInt64) (name : List UInt8) (o : Nat) (shm : Shm)
    (creator : CreatorPc) : Prop where
  unborn : creator = .start → shm.next = o
  named : ∀ object, shm.names (object_name name) = some object → object = o ∧ shm.next = o + 1
  held : ∀ object, creator.object = some object → object = o ∧ shm.next = o + 1
  done : creator.done ≤ (mc_create_stores elem_size capacity name).length
  content : shm.next = o + 1 → (shm.objects o).mc =
    build ((mc_create_stores elem_size capacity name).take creator.done) zeroed
  size : shm.next = o + 1 → (shm.objects o).size = 0 ∨ (shm.objects o).size = total_size elem_size capacity

/-- What a process in `mc_open` knows of the object. -/
def OpenerOk (elem_size capacity : UInt64) (o : Nat) (shm : Shm) : OpenerPc → Prop
  | .start | .returned none => True
  | .opened object => object = o ∧ shm.next = o + 1
  | .statted object st_size => object = o ∧ shm.next = o + 1 ∧
    (st_size = 0 ∨ st_size = total_size elem_size capacity ∧ (shm.objects o).size = st_size)
  | .returned (some mc) => mc.object = o ∧ shm.next = o + 1 ∧
    mc.size = total_size elem_size capacity ∧ (shm.objects o).size = mc.size

/-- The object is neither lost nor made smaller. -/
def Grows (elem_size capacity : UInt64) (o : Nat) (shm shm' : Shm) : Prop :=
  shm.next = o + 1 → shm'.next = o + 1 ∧
    ((shm.objects o).size = total_size elem_size capacity →
      (shm'.objects o).size = total_size elem_size capacity)

theorem Grows.refl : Grows elem_size capacity o shm shm :=
  fun h => ⟨h, id⟩

theorem OpenerOk.of_grows {opener : OpenerPc} (h : OpenerOk elem_size capacity o shm opener)
    (hgrows : Grows elem_size capacity o shm shm') : OpenerOk elem_size capacity o shm' opener := by
  cases opener with
  | start => trivial
  | opened object => exact ⟨h.1, (hgrows h.2).1⟩
  | statted object st_size =>
    obtain ⟨hobject, hnext, hsize⟩ := h
    obtain ⟨hnext', hkeep⟩ := hgrows hnext
    refine ⟨hobject, hnext', hsize.imp_right ?_⟩
    rintro ⟨rfl, hcurrent⟩
    exact ⟨rfl, hkeep hcurrent⟩
  | returned mc =>
    cases mc with
    | none => trivial
    | some mc =>
      obtain ⟨hobject, hnext, hsize, hcurrent⟩ := h
      obtain ⟨hnext', hkeep⟩ := hgrows hnext
      rw [hsize] at hcurrent
      refine ⟨hobject, hnext', hsize, ?_⟩
      rw [hsize]
      exact hkeep hcurrent

/-- A step of `mc_create` that leaves the object as it is. -/
theorem CreatorOk.move (h : CreatorOk elem_size capacity name o shm creator)
    (hstart : creator' ≠ .start)
    (hheld : ∀ object, creator'.object = some object → object = o ∧ shm.next = o + 1)
    (hdone : creator'.done = creator.done) : CreatorOk elem_size capacity name o shm creator' where
  unborn hpc := absurd hpc hstart
  named := h.named
  held := hheld
  done := hdone ▸ h.done
  content := hdone ▸ h.content
  size := h.size

theorem CreatorOk.unlink (h : CreatorOk elem_size capacity name o shm .unlinking) :
    CreatorOk elem_size capacity name o (shm_unlink name shm) .failed where
  unborn := nofun
  named object hobject := by
    rw [next_shm_unlink]
    exact h.named object (names_shm_unlink hobject)
  held := nofun
  done := Nat.zero_le _
  content hnext := by
    rw [next_shm_unlink] at hnext
    rw [objects_shm_unlink]
    exact h.content hnext
  size hnext := by
    rw [next_shm_unlink] at hnext
    rw [objects_shm_unlink]
    exact h.size hnext

theorem CreatorOk.create {object : Nat} (h : CreatorOk elem_size capacity name o shm .start)
    (hopen : shm_open_excl name shm = some (object, shm')) :
    CreatorOk elem_size capacity name o shm' (.opened object) := by
  have hnext := h.unborn rfl
  obtain ⟨_, _, hobject, hnames, hobjects, hnext'⟩ := shm_open_excl_eq_some hopen
  rw [hnext] at hobject hnames hobjects hnext'
  refine ⟨nofun, ?_, ?_, Nat.zero_le _, fun _ => ?_, fun _ => .inl ?_⟩
  · intro i hi
    rw [hnames, Function.update_self] at hi
    exact ⟨(Option.some.inj hi).symm, hnext'⟩
  · intro i hi
    exact ⟨(Option.some.inj hi).symm.trans hobject, hnext'⟩
  · rw [hobjects, Function.update_self]
    rfl
  · rw [hobjects, Function.update_self]

theorem CreatorOk.ftruncate {object : Nat} (h : CreatorOk elem_size capacity name o shm (.opened object))
    (hsize : ftruncate object (total_size elem_size capacity) shm = some shm') :
    CreatorOk elem_size capacity name o shm' (.sized object) := by
  obtain rfl := ftruncate_eq_some hsize
  obtain ⟨rfl, hnext⟩ := h.held object rfl
  refine ⟨nofun, h.named, fun i hi => h.held i hi, Nat.zero_le _, fun _ => ?_, fun _ => .inr ?_⟩
  · simp only [Function.update_self]
    exact h.content hnext
  · simp only [Function.update_self]

theorem CreatorOk.mmap {object : Nat} {mc : Mapping}
    (h : CreatorOk elem_size capacity name o shm (.sized object))
    (hmap : mmap object (total_size elem_size capacity) = some mc) :
    CreatorOk elem_size capacity name o shm (.storing mc 0) := by
  obtain ⟨_, rfl⟩ := mmap_eq_some hmap
  exact h.move nofun (fun i hi => h.held i hi) rfl

theorem CreatorOk.store {mc : Mapping} {k : Nat} {store : memch_t → memch_t}
    (h : CreatorOk elem_size capacity name o shm (.storing mc k))
    (hstore : (mc_create_stores elem_size capacity name)[k]? = some store) :
    CreatorOk elem_size capacity name o (shm.store mc.object store) (.storing mc (k + 1)) := by
  obtain ⟨hobject, hnext⟩ := h.held _ rfl
  refine ⟨nofun, h.named, fun i hi => h.held i hi, ?_, fun _ => ?_, fun _ => ?_⟩
  · obtain ⟨hk, _⟩ := List.getElem?_eq_some_iff.1 hstore
    exact hk
  · simp only [Shm.store, hobject, Function.update_self, h.content hnext]
    exact (build_take_succ zeroed hstore).symm
  · simp only [Shm.store, hobject, Function.update_self]
    exact h.size hnext

theorem Grows.ftruncate {object : Nat} (hobject : object = o)
    (hsize : ftruncate object (total_size elem_size capacity) shm = some shm') :
    Grows elem_size capacity o shm shm' := by
  obtain rfl := ftruncate_eq_some hsize
  intro hnext
  refine ⟨hnext, fun _ => ?_⟩
  simp only [hobject, Function.update_self]

theorem Grows.store {object : Nat} (hobject : object = o) (store : memch_t → memch_t) :
    Grows elem_size capacity o shm (shm.store object store) := by
  intro hnext
  refine ⟨hnext, fun hcurrent => ?_⟩
  simp only [Shm.store, hobject, Function.update_self]
  exact hcurrent

theorem CreatorOk.step {label : CreatorLabel} (h : CreatorOk elem_size capacity name o shm creator)
    (hstep : creator_step elem_size capacity name shm creator label = some (shm', creator')) :
    CreatorOk elem_size capacity name o shm' creator' ∧ Grows elem_size capacity o shm shm' := by
  unfold creator_step at hstep
  split at hstep
  · split at hstep
    · rename_i hopen
      obtain ⟨rfl, rfl⟩ := Prod.mk.inj (Option.some.inj hstep)
      refine ⟨h.create (attempt_eq_some hopen), fun hnext => ?_⟩
      have := h.unborn rfl
      omega
    · obtain ⟨rfl, rfl⟩ := Prod.mk.inj (Option.some.inj hstep)
      exact ⟨h.move nofun nofun rfl, .refl⟩
  · split at hstep
    · rename_i hsize
      obtain ⟨rfl, rfl⟩ := Prod.mk.inj (Option.some.inj hstep)
      exact ⟨h.ftruncate (attempt_eq_some hsize), .ftruncate (h.held _ rfl).1 (attempt_eq_some hsize)⟩
    · obtain ⟨rfl, rfl⟩ := Prod.mk.inj (Option.some.inj hstep)
      exact ⟨h.move nofun nofun rfl, .refl⟩
  · split at hstep
    · rename_i hmap
      obtain ⟨rfl, rfl⟩ := Prod.mk.inj (Option.some.inj hstep)
      exact ⟨h.mmap (attempt_eq_some hmap), .refl⟩
    · obtain ⟨rfl, rfl⟩ := Prod.mk.inj (Option.some.inj hstep)
      exact ⟨h.move nofun nofun rfl, .refl⟩
  · obtain ⟨store, hstore, hstep⟩ := Option.bind_eq_some_iff.1 hstep
    obtain ⟨rfl, rfl⟩ := Prod.mk.inj (Option.some.inj hstep)
    exact ⟨h.store hstore, .store (h.held _ rfl).1 store⟩
  · obtain ⟨rfl, rfl⟩ := Prod.mk.inj (Option.some.inj hstep)
    refine ⟨h.unlink, fun hnext => ?_⟩
    rw [next_shm_unlink, objects_shm_unlink]
    exact ⟨hnext, id⟩
  · cases hstep

/-- A process in `mc_open` learns of the object by its name, and of its size by `fstat`. -/
theorem OpenerOk.step {opener opener' : OpenerPc} {label : OpenerLabel}
    (h : OpenerOk elem_size capacity o shm opener)
    (hcreator : CreatorOk elem_size capacity name o shm creator)
    (hstep : opener_step name shm opener label = some opener') :
    OpenerOk elem_size capacity o shm opener' := by
  unfold opener_step at hstep
  split at hstep
  · split at hstep
    · rename_i hopen
      obtain rfl := Option.some.inj hstep
      exact hcreator.named _ (shm_open_eq_some (attempt_eq_some hopen))
    · obtain rfl := Option.some.inj hstep
      trivial
  · split at hstep
    · obtain rfl := Option.some.inj hstep
      obtain ⟨rfl, hnext⟩ := h
      exact ⟨rfl, hnext, (hcreator.size hnext).imp_right fun hsize => ⟨hsize, rfl⟩⟩
    · obtain rfl := Option.some.inj hstep
      trivial
  · rename_i object st_size ok
    obtain rfl := Option.some.inj hstep
    obtain ⟨hobject, hnext, hsize⟩ := h
    cases hmap : attempt ok (mmap object st_size) with
    | none => trivial
    | some mc =>
      obtain ⟨hne, rfl⟩ := mmap_eq_some (attempt_eq_some hmap)
      obtain ⟨htotal, hcurrent⟩ := hsize.resolve_left hne
      exact ⟨hobject, hnext, htotal, hcurrent⟩
  · cases hstep

end Exposed

section Run

variable {P : Type} [DecidableEq P] {elem_size capacity : UInt64} {name : List UInt8} {o : Nat}
  {s s' : State P} {label : Label P}

structure Exposed (elem_size capacity : UInt64) (name : List UInt8) (o : Nat) (s : State P) : Prop where
  creator : CreatorOk elem_size capacity name o s.shm s.creator
  openers : ∀ p, OpenerOk elem_size capacity o s.shm (s.openers p)

theorem Exposed.step (h : Exposed elem_size capacity name o s)
    (hstep : step elem_size capacity name s label = some s') :
    Exposed elem_size capacity name o s' := by
  cases label with
  | creator label =>
    obtain ⟨⟨shm, creator⟩, hcreator, hstep⟩ := Option.bind_eq_some_iff.1 hstep
    obtain rfl := Option.some.inj hstep
    obtain ⟨hok, hgrows⟩ := h.creator.step hcreator
    exact ⟨hok, fun p => (h.openers p).of_grows hgrows⟩
  | opener p label =>
    obtain ⟨opener, hopener, hstep⟩ := Option.bind_eq_some_iff.1 hstep
    obtain rfl := Option.some.inj hstep
    refine ⟨h.creator, fun q => ?_⟩
    by_cases hqp : q = p
    · subst hqp
      simp only [Function.update_self]
      exact (h.openers q).step h.creator hopener
    · simp only [Function.update_of_ne hqp]
      exact h.openers q

theorem exposed_of_run {shm : Shm} {labels : List (Label P)} (hname : shm.names (object_name name) = none)
    (hrun : Run (StepOf (step elem_size capacity name)) (start shm) labels s) :
    Exposed elem_size capacity name shm.next s := by
  refine hrun.invariant _ ⟨⟨fun _ => rfl, ?_, nofun, Nat.zero_le _, ?_, ?_⟩, fun _ => trivial⟩
    fun _ _ _ h hstep => h.step hstep
  · intro object hobject
    simp [start, hname] at hobject
  · intro hnext
    exact absurd hnext (Nat.ne_of_lt (Nat.lt_succ_self _))
  · intro hnext
    exact absurd hnext (Nat.ne_of_lt (Nat.lt_succ_self _))

/-- A channel that `mc_open` returns has its full size, and its header holds the stores that
    `mc_create` has made so far. They are all there only when `mc_create` has made its last one. -/
theorem mc_open_of_run {shm : Shm} {labels : List (Label P)} (hname : shm.names (object_name name) = none)
    (hrun : Run (StepOf (step elem_size capacity name)) (start shm) labels s) {p : P} {mc : Mapping}
    (hreturned : s.openers p = .returned (some mc)) :
    mc.size = total_size elem_size capacity ∧ (s.shm.objects mc.object).size = mc.size ∧
      (s.shm.objects mc.object).mc =
        build ((mc_create_stores elem_size capacity name).take s.creator.done) zeroed ∧
      ((s.shm.objects mc.object).mc = initialised elem_size capacity name ↔
        s.creator.done = (mc_create_stores elem_size capacity name).length) := by
  have h := exposed_of_run hname hrun
  have hopener := h.openers p
  rw [hreturned] at hopener
  obtain ⟨hobject, hnext, hsize, hcurrent⟩ := hopener
  have hcontent := h.creator.content hnext
  rw [← hobject] at hcontent hcurrent
  refine ⟨hsize, hcurrent, hcontent, ?_⟩
  rw [hcontent]
  exact build_take_eq_initialised_iff h.creator.done

end Run

/-- A process that opens the channel right behind `ftruncate` gets a header full of zeros. -/
theorem mc_open_half_built : ∃ (labels : List (Label Unit)) (s : State Unit) (mc : Mapping),
    Run (StepOf (step 260 8 [47, 109])) (start ⟨fun _ => none, fun _ => ⟨0, zeroed⟩, 0⟩) labels s ∧
      s.openers () = .returned (some mc) ∧
      (s.shm.objects mc.object).mc.elem_size ≠ (initialised 260 8 [47, 109]).elem_size ∧
      (s.shm.objects mc.object).mc.capacity ≠ (initialised 260 8 [47, 109]).capacity ∧
      (s.shm.objects mc.object).mc.lock ≠ (initialised 260 8 [47, 109]).lock ∧
      (s.shm.objects mc.object).mc.has_space ≠ (initialised 260 8 [47, 109]).has_space := by
  obtain ⟨s, hexec, hreturned, hmc⟩ : ∃ s, exec (step 260 8 [47, 109])
      (start ⟨fun _ => none, fun _ => ⟨0, zeroed⟩, 0⟩ : State Unit)
      [.creator (.shm_open true), .creator (.ftruncate true), .opener () (.shm_open true),
        .opener () (.fstat true), .opener () (.mmap true)] = some s ∧
      s.openers () = .returned (some ⟨0, 2352⟩) ∧ (s.shm.objects 0).mc = zeroed := ⟨_, rfl, rfl, rfl⟩
  refine ⟨_, s, _, run_stepOf_iff.2 hexec, hreturned, ?_⟩
  rw [hmc, initialised_eq]
  decide

/-- A process that opens the channel among the stores sees those that are made. -/
theorem mc_open_of_run_storing : ∃ (labels : List (Label Unit)) (s : State Unit) (mc : Mapping),
    Run (StepOf (step 260 8 [47, 109])) (start ⟨fun _ => none, fun _ => ⟨0, zeroed⟩, 0⟩) labels s ∧
      s.openers () = .returned (some mc) ∧ mc.size = total_size 260 8 ∧
      (s.shm.objects mc.object).mc ≠ initialised 260 8 [47, 109] := by
  obtain ⟨s, hexec, hreturned, hdone⟩ : ∃ s, exec (step 260 8 [47, 109])
      (start ⟨fun _ => none, fun _ => ⟨0, zeroed⟩, 0⟩ : State Unit)
      [.creator (.shm_open true), .creator (.ftruncate true), .creator (.mmap true), .creator .store,
        .opener () (.shm_open true), .creator .store, .opener () (.fstat true),
        .opener () (.mmap true)] = some s ∧
      s.openers () = .returned (some ⟨0, 2352⟩) ∧ s.creator.done = 2 := ⟨_, rfl, rfl, rfl⟩
  have hrun := run_stepOf_iff.2 hexec
  obtain ⟨hsize, _, _, hbuilt⟩ := mc_open_of_run rfl hrun hreturned
  refine ⟨_, s, _, hrun, hreturned, hsize, ?_⟩
  rw [ne_eq, hbuilt, hdone]
  simp [mc_create_stores]

end oslabs.shmem
