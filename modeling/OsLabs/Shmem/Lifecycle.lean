import OsLabs.Lib.CString
import OsLabs.Shmem.Creation

open oslabs.memory oslabs.stores

namespace oslabs.shmem

/-- What the system decides in a call of `mc_create`: the descriptor that `shm_open` gives,
    if it gives one, and whether `ftruncate` and `mmap` have the resources that they need. -/
structure Resources where
  fd : Option Nat
  ftruncate : Bool
  mmap : Bool

/-- Shared memory, and the table of open descriptors of a process. -/
structure Process where
  shm : Shm
  fds : Nat → Option Nat

def close (fd : Nat) (p : Process) : Process :=
  { p with fds := Function.update p.fds fd none }

def Process.unlink (p : Process) (name : List UInt8) : Process :=
  { p with shm := shm_unlink name p.shm }

/-- `shm_open(name, O_CREAT | O_EXCL | O_RDWR, 0666)`, on a descriptor that is free. -/
def Process.shm_open (p : Process) (resources : Resources) (name : List UInt8) :
    Option (Nat × Process) := do
  let fd ← resources.fd
  if p.fds fd = none then
    let (object, shm) ← shm_open_excl name p.shm
    some (fd, { shm, fds := Function.update p.fds fd (some object) })
  else none

def Process.ftruncate (p : Process) (ok : Bool) (fd : Nat) (size : UInt64) : Option Process := do
  let object ← p.fds fd
  let shm ← attempt ok (shmem.ftruncate object size p.shm)
  some { p with shm }

def shmem_internal_map (p : Process) (ok : Bool) (fd : Nat) (size : UInt64) : Option Mapping := do
  let object ← p.fds fd
  attempt ok (mmap object size)

def shmem_create (resources : Resources) (name : List UInt8) (size : UInt64) (p : Process) :
    Option Mapping × Process :=
  match p.shm_open resources name with
  | none => (none, p)
  | some (fd, p) =>
    match p.ftruncate resources.ftruncate fd size with
    | none => (none, (close fd p).unlink name)
    | some p =>
      match shmem_internal_map p resources.mmap fd size with
      | none => (none, close fd (p.unlink name))
      | some base => (some base, close fd p)

def shmem_destroy (name : List UInt8) (p : Process) : Process := p.unlink name

def mc_create (resources : Resources) (elem_size capacity : UInt64) (name : List UInt8) (p : Process) :
    Option Mapping × Process :=
  match shmem_create resources name (total_size elem_size capacity) p with
  | (none, p) => (none, p)
  | (some mc, p) =>
    (some mc, { p with
      shm := p.shm.store mc.object (build (mc_create_stores elem_size capacity name)) })

/-- `mc_destroy`, with the name that `strcpy` takes out of the segment. -/
def mc_destroy (mc : Mapping) (p : Process) : Process :=
  let name := (p.shm.objects mc.object).mc.name.takeWhile (· ≠ 0)
  let p := { p with
    shm := p.shm.store mc.object fun header =>
      { header with has_items := none, has_space := none, lock := none } }
  shmem_destroy name p

variable {resources : Resources} {elem_size capacity : UInt64} {name : List UInt8} {p p' : Process}
  {mc : Mapping}

/-- Nothing that `mc_create` needs is refused: the name is accepted and free, there is a
    descriptor, the size is one that `ftruncate` and `mmap` take, and neither of them fails. -/
structure Granted (resources : Resources) (elem_size capacity : UInt64) (name : List UInt8)
    (p : Process) : Prop where
  accepted : Accepted name
  free : p.shm.names (object_name name) = none
  descriptor : ∃ fd, resources.fd = some fd ∧ p.fds fd = none
  fits : (total_size elem_size capacity).toNat < 2 ^ 63
  nonzero : total_size elem_size capacity ≠ 0
  ftruncate : resources.ftruncate = true
  mmap : resources.mmap = true

/-- The name field holds the first 127 characters, and zeros behind them. -/
theorem name_field_eq (name : List UInt8) :
    name_field name = name.take (MEMCH_MAX_NAME_LEN - 1) ++
      0 :: List.replicate (MEMCH_MAX_NAME_LEN - 1 - name.length) 0 := by
  rw [← List.replicate_succ]
  apply List.ext_getElem
  · simp [name_field, MEMCH_MAX_NAME_LEN]
    omega
  · intro i hi _
    simp only [name_field, List.length_set, List.length_map, List.length_range] at hi
    simp only [name_field, List.getElem_set, List.getElem_map, List.getElem_range,
      List.getD_eq_getElem?_getD]
    split
    · rw [List.getElem_append_right (by simp; omega), List.getElem_replicate]
    · by_cases hname : i < name.length
      · rw [List.getElem_append_left (by simp; omega), List.getElem_take, List.getElem?_eq_getElem hname]
        rfl
      · rw [List.getElem_append_right (by simp; omega), List.getElem_replicate,
          List.getElem?_eq_none (Nat.le_of_not_lt hname)]
        rfl

/-- `strcpy` takes out of the segment no more than 127 characters of the name. -/
theorem takeWhile_name_field (hname : 0 ∉ name) :
    (name_field name).takeWhile (· ≠ 0) = name.take (MEMCH_MAX_NAME_LEN - 1) := by
  rw [name_field_eq]
  exact takeWhile_append_zero _ fun h => hname (List.mem_of_mem_take h)

section Calls

variable {fd : Nat}

/-- A process that has `name` open as a new object, on a descriptor that was free. -/
structure Opened (name : List UInt8) (fd : Nat) (p p' : Process) : Prop where
  accepted : Accepted name
  free : p.shm.names (object_name name) = none
  descriptor : p.fds fd = none
  names : p'.shm.names = Function.update p.shm.names (object_name name) (some p.shm.next)
  fds : p'.fds = Function.update p.fds fd (some p.shm.next)
  content : (p'.shm.objects p.shm.next).mc = zeroed

theorem Process.shm_open_eq_some (h : p.shm_open resources name = some (fd, p')) :
    resources.fd = some fd ∧ Opened name fd p p' := by
  obtain ⟨fd', hfd, h⟩ := Option.bind_eq_some_iff.1 h
  obtain ⟨hfree, h⟩ := Option.ite_none_right_eq_some.1 h
  obtain ⟨⟨object, shm⟩, hopen, h⟩ := Option.bind_eq_some_iff.1 h
  obtain ⟨rfl, rfl⟩ := Prod.mk.inj (Option.some.inj h)
  obtain ⟨haccepted, hname, rfl, hnames, hobjects, _⟩ := shm_open_excl_eq_some hopen
  refine ⟨hfd, haccepted, hname, hfree, hnames, rfl, ?_⟩
  rw [hobjects, Function.update_self]

theorem Process.shm_open_isSome (hfd : resources.fd = some fd) (hfree : p.fds fd = none)
    (haccepted : Accepted name) (hname : p.shm.names (object_name name) = none) :
    (p.shm_open resources name).isSome := by
  simp [Process.shm_open, hfd, hfree, shm_open_excl, haccepted, hname]

/-- `close` makes the descriptor free again. -/
theorem Opened.fds_close (h : Opened name fd p p') : (close fd p').fds = p.fds := by
  simp only [close, h.fds, Function.update_idem]
  rw [← h.descriptor, Function.update_eq_self]

/-- `shm_unlink` makes the name free again. -/
theorem Opened.names_unlink (h : Opened name fd p p') :
    (p'.unlink name).shm.names = p.shm.names := by
  simp only [Process.unlink, shm_unlink, if_pos h.accepted, h.names, Function.update_idem]
  rw [← h.free, Function.update_eq_self]

theorem Opened.ftruncate_eq_some {ok : Bool} {size : UInt64} {q : Process} (h : Opened name fd p p')
    (hsize : p'.ftruncate ok fd size = some q) :
    ok = true ∧ size.toNat < 2 ^ 63 ∧ Opened name fd p q := by
  obtain ⟨object, hobject, hrest⟩ := Option.bind_eq_some_iff.1 hsize
  rw [h.fds, Function.update_self] at hobject
  obtain rfl := Option.some.inj hobject
  obtain ⟨shm, hattempt, hq⟩ := Option.bind_eq_some_iff.1 hrest
  obtain rfl := Option.some.inj hq
  obtain ⟨hok, htruncate⟩ := Option.ite_none_right_eq_some.1 hattempt
  obtain ⟨hfits, hshm⟩ := Option.ite_none_right_eq_some.1 htruncate
  obtain rfl := Option.some.inj hshm
  refine ⟨hok, hfits, h.accepted, h.free, h.descriptor, h.names, h.fds, ?_⟩
  simp only [Function.update_self]
  exact h.content

theorem Opened.ftruncate_eq_none {ok : Bool} {size : UInt64} (h : Opened name fd p p')
    (hsize : p'.ftruncate ok fd size = none) (hok : ok = true) : ¬ size.toNat < 2 ^ 63 := by
  intro hfits
  simp only [Process.ftruncate, h.fds, Function.update_self, attempt, if_pos hok, shmem.ftruncate,
    if_pos hfits] at hsize
  cases hsize

theorem Opened.map_eq (h : Opened name fd p p') (ok : Bool) (size : UInt64) :
    shmem_internal_map p' ok fd size = attempt ok (shmem.mmap p.shm.next size) := by
  simp [shmem_internal_map, h.fds]

end Calls

/-- What a call of `mc_create` comes to when something that it needs is refused, and what
    otherwise. -/
theorem mc_create_cases (resources : Resources) (elem_size capacity : UInt64) (name : List UInt8)
    (p : Process) :
    (¬ Granted resources elem_size capacity name p ∧ ∃ p',
      mc_create resources elem_size capacity name p = (none, p') ∧
        p'.shm.names = p.shm.names ∧ p'.fds = p.fds) ∨
    (Granted resources elem_size capacity name p ∧ ∃ mc p',
      mc_create resources elem_size capacity name p = (some mc, p') ∧
        p'.shm.names = Function.update p.shm.names (object_name name) (some mc.object) ∧
        p'.fds = p.fds ∧
        (p'.shm.objects mc.object).mc = initialised elem_size capacity name) := by
  cases hopen : p.shm_open resources name with
  | none =>
    refine .inl ⟨fun hgranted => ?_, p, by simp [mc_create, shmem_create, hopen], rfl, rfl⟩
    obtain ⟨fd, hfd, hfree⟩ := hgranted.descriptor
    have := Process.shm_open_isSome hfd hfree hgranted.accepted hgranted.free
    simp [hopen] at this
  | some result =>
    obtain ⟨fd, q⟩ := result
    obtain ⟨hfd, hopened⟩ := Process.shm_open_eq_some hopen
    cases hsize : q.ftruncate resources.ftruncate fd (total_size elem_size capacity) with
    | none =>
      refine .inl ⟨fun hgranted => hopened.ftruncate_eq_none hsize hgranted.ftruncate hgranted.fits,
        (close fd q).unlink name, by simp [mc_create, shmem_create, hopen, hsize], hopened.names_unlink,
        hopened.fds_close⟩
    | some q =>
      obtain ⟨hok, hfits, hopened⟩ := hopened.ftruncate_eq_some hsize
      cases hmap : shmem_internal_map q resources.mmap fd (total_size elem_size capacity) with
      | none =>
        refine .inl ⟨fun hgranted => ?_, close fd (q.unlink name),
          by simp [mc_create, shmem_create, hopen, hsize, hmap], hopened.names_unlink, hopened.fds_close⟩
        rw [hopened.map_eq, attempt, if_pos hgranted.mmap, mmap, if_neg hgranted.nonzero] at hmap
        cases hmap
      | some mc =>
        have hattempt := hmap
        rw [hopened.map_eq] at hattempt
        obtain ⟨hmmap, _⟩ := Option.ite_none_right_eq_some.1 hattempt
        obtain ⟨hnonzero, rfl⟩ := mmap_eq_some (attempt_eq_some hattempt)
        have hcreate : mc_create resources elem_size capacity name p =
            (some ⟨p.shm.next, total_size elem_size capacity⟩, { close fd q with
              shm := (close fd q).shm.store p.shm.next (build (mc_create_stores elem_size capacity name)) }) := by
          simp only [mc_create, shmem_create, hopen, hsize, hmap]
        refine .inr ⟨⟨hopened.accepted, hopened.free, ⟨fd, hfd, hopened.descriptor⟩, hfits, hnonzero,
          hok, hmmap⟩, _, _, hcreate, hopened.names, hopened.fds_close, ?_⟩
        simp only [Shm.store, close, Function.update_self, hopened.content, initialised]

/-- What a call of `mc_create` that has come to some result promises. Without a channel, it
    has changed no name and no descriptor. With one, `mc_destroy` removes the name and no
    other one, at any later time at which the name in the segment is still there. Then the
    name can be used again. -/
def Lifecycle (elem_size capacity : UInt64) (name : List UInt8) (p : Process) :
    Option Mapping × Process → Prop
  | (none, p') => p'.shm.names = p.shm.names ∧ p'.fds = p.fds
  | (some mc, p') => ∀ later : Process,
    (later.shm.objects mc.object).mc.name = (p'.shm.objects mc.object).mc.name →
      (mc_destroy mc later).shm.names = Function.update later.shm.names (object_name name) none ∧
        (later.shm.names = p'.shm.names → (mc_destroy mc later).shm.names = p.shm.names) ∧
        ∀ resources : Resources, resources.ftruncate = true → resources.mmap = true →
          (∃ fd, resources.fd = some fd ∧ later.fds fd = none) →
          (mc_create resources elem_size capacity name (mc_destroy mc later)).1.isSome

section Names

/-- A name that fits the field is all there in the copy. -/
theorem take_of_fits (h : name.length < MEMCH_MAX_NAME_LEN) : name.take (MEMCH_MAX_NAME_LEN - 1) = name :=
  List.take_of_length_le (Nat.le_sub_one_of_lt h)

/-- The copy of a name that does not fit the field is the name of another object, or of none:
    what is cut off are characters behind the slashes. -/
theorem object_name_take_ne (haccepted : Accepted name) (hlong : MEMCH_MAX_NAME_LEN ≤ name.length) :
    object_name (name.take (MEMCH_MAX_NAME_LEN - 1)) ≠ object_name name := by
  obtain ⟨_, hnonempty, _, hslash⟩ := haccepted
  have hsplit : name.take (MEMCH_MAX_NAME_LEN - 1) ++ name.drop (MEMCH_MAX_NAME_LEN - 1) = name :=
    List.take_append_drop _ _
  have hcut : name.drop (MEMCH_MAX_NAME_LEN - 1) ≠ [] := by
    rw [ne_eq, List.drop_eq_nil_iff]
    exact Nat.not_le.2 (Nat.lt_of_lt_of_le (by decide) hlong)
  intro heq
  unfold object_name at heq hnonempty
  cases hcopy : (name.take (MEMCH_MAX_NAME_LEN - 1)).dropWhile (· = 47) with
  | nil =>
    rw [← heq, hcopy] at hnonempty
    simp at hnonempty
  | cons c rest =>
    have hname := congrArg (List.dropWhile (· = 47)) hsplit
    rw [List.dropWhile_append, hcopy, ← heq, hcopy] at hname
    exact hcut (List.append_right_eq_self.1 hname)

/-- `mc_destroy` unlinks the copy of the name in the segment. -/
theorem shm_names_mc_destroy {mc : Mapping} {later : Process} (hname : 0 ∉ name)
    (hfield : (later.shm.objects mc.object).mc.name = name_field name) :
    (mc_destroy mc later).shm.names =
      (shm_unlink (name.take (MEMCH_MAX_NAME_LEN - 1)) later.shm).names := by
  simp only [mc_destroy, shmem_destroy, Process.unlink, hfield, takeWhile_name_field hname, shm_unlink,
    Shm.store]
  split <;> rfl

/-- `mc_destroy` removes a name that fits the field. -/
theorem names_mc_destroy {mc : Mapping} {later : Process} (haccepted : Accepted name)
    (hfits : name.length < MEMCH_MAX_NAME_LEN)
    (hfield : (later.shm.objects mc.object).mc.name = name_field name) :
    (mc_destroy mc later).shm.names = Function.update later.shm.names (object_name name) none := by
  rw [shm_names_mc_destroy haccepted.1 hfield, take_of_fits hfits, shm_unlink, if_pos haccepted]

/-- `mc_destroy` leaves the object of a longer name bound. -/
theorem names_mc_destroy_of_long {mc : Mapping} {later : Process} (haccepted : Accepted name)
    (hlong : MEMCH_MAX_NAME_LEN ≤ name.length)
    (hfield : (later.shm.objects mc.object).mc.name = name_field name) :
    (mc_destroy mc later).shm.names (object_name name) = later.shm.names (object_name name) := by
  rw [shm_names_mc_destroy haccepted.1 hfield, shm_unlink]
  split
  · exact Function.update_of_ne (object_name_take_ne haccepted hlong).symm _ _
  · rfl

end Names

/-- The life cycle of a name is as it should be exactly when the channel is not created at
    all or its name fits the field in the segment. -/
theorem mc_lifecycle_iff (resources : Resources) (elem_size capacity : UInt64) (name : List UInt8)
    (p : Process) :
    Lifecycle elem_size capacity name p (mc_create resources elem_size capacity name p) ↔
      ¬ Granted resources elem_size capacity name p ∨ name.length < MEMCH_MAX_NAME_LEN := by
  rcases mc_create_cases resources elem_size capacity name p with
    ⟨hrefused, p', hcreate, hnames, hfds⟩ | ⟨hgranted, mc, p', hcreate, hnames, _, hheader⟩
  · rw [hcreate]
    exact ⟨fun _ => .inl hrefused, fun _ => ⟨hnames, hfds⟩⟩
  · have hfield : (p'.shm.objects mc.object).mc.name = name_field name := by
      rw [hheader, initialised_eq]
    rw [hcreate]
    constructor
    · intro hcycle
      refine .inr (Nat.lt_of_not_le fun hlong => ?_)
      have hrestored := (hcycle p' rfl).2.1 rfl
      have hbound := congrFun hrestored (object_name name)
      rw [names_mc_destroy_of_long hgranted.accepted hlong hfield, hnames, Function.update_self,
        hgranted.free] at hbound
      cases hbound
    · intro hfits later hkept
      have hshort := hfits.resolve_left (not_not_intro hgranted)
      have hdestroy := names_mc_destroy hgranted.accepted hshort (hkept.trans hfield)
      refine ⟨hdestroy, ?_, ?_⟩
      · intro hsame
        rw [hdestroy, hsame, hnames, Function.update_idem, ← hgranted.free, Function.update_eq_self]
      · intro again hftruncate hmmap hfd
        have hfree : (mc_destroy mc later).shm.names (object_name name) = none := by
          rw [hdestroy, Function.update_self]
        rcases mc_create_cases again elem_size capacity name (mc_destroy mc later) with
          ⟨hrefused, _⟩ | ⟨_, mc', _, hcreate', _⟩
        · exact absurd ⟨hgranted.accepted, hfree, hfd, hgranted.fits, hgranted.nonzero, hftruncate,
            hmmap⟩ hrefused
        · rw [hcreate']
          rfl

/-- The channel of a name with 128 characters keeps its name when it is destroyed, and a
    channel that others have under the first 127 of them loses its own. No slash is needed. -/
theorem mc_destroy_long_name : ∃ (p p' : Process) (mc : Mapping),
    mc_create ⟨some 3, true, true⟩ 260 8 (List.replicate 128 97) p = (some mc, p') ∧
      (mc_destroy mc p').shm.names (List.replicate 128 97) ≠ none ∧
      p.shm.names (List.replicate 127 97) = some 5 ∧
      (mc_destroy mc p').shm.names (List.replicate 127 97) = none ∧
      ¬ Lifecycle 260 8 (List.replicate 128 97) p (some mc, p') := by
  have hobject : object_name (List.replicate 128 97) = List.replicate 128 97 := by decide +kernel
  have hcopy : object_name ((List.replicate 128 97).take (MEMCH_MAX_NAME_LEN - 1)) =
      List.replicate 127 97 := by decide +kernel
  have haccepted : Accepted (List.replicate 128 97) := by decide +kernel
  let p : Process := {
    shm := {
      names := fun name => if name = List.replicate 127 97 then some 5 else none
      objects := fun _ => ⟨0, zeroed⟩
      next := 6 }
    fds := fun _ => none }
  have hgranted : Granted ⟨some 3, true, true⟩ 260 8 (List.replicate 128 97) p :=
    ⟨haccepted, by decide +kernel, ⟨3, rfl, rfl⟩, by decide, by decide, rfl, rfl⟩
  rcases mc_create_cases ⟨some 3, true, true⟩ 260 8 (List.replicate 128 97) p with
    ⟨hrefused, _⟩ | ⟨_, mc, p', hcreate, hnames, _, hheader⟩
  · exact absurd hgranted hrefused
  · rw [initialised_eq] at hheader
    have hfield := congrArg memch_t.name hheader
    have hbound := names_mc_destroy_of_long haccepted (by simp [MEMCH_MAX_NAME_LEN]) hfield
    rw [hnames, Function.update_self, hobject] at hbound
    refine ⟨p, p', mc, hcreate, ?_, rfl, ?_, fun hcycle => ?_⟩
    · rw [hbound]
      nofun
    · rw [shm_names_mc_destroy haccepted.1 hfield, shm_unlink, if_pos (by decide +kernel)]
      simp only [hcopy, Function.update_self]
    · have hgone := congrFun (hcycle p' rfl).1 (object_name (List.replicate 128 97))
      rw [Function.update_self, hobject, hbound] at hgone
      cases hgone

end oslabs.shmem
