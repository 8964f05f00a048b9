import OsLabs.Lib.Tally
import OsLabs.MemChannel.Model

open oslabs.memory oslabs.run oslabs.census

namespace oslabs.memchannel

variable {P : Type} {s s' : State P} {elem_size capacity : UInt64} {mc mc' : memch_t} {item : List UInt8}

/-- What the section of `mc_put` does where it is defined. -/
theorem mc_put_section_eq_some (h : mc_put_section mc item = some mc') :
    mc.capacity ≠ 0 ∧
      mc' = { mc with
        iput := mc.iput + 1
        items := mc.items.store (mc.iput % mc.capacity * mc.elem_size).toNat item } := by
  unfold mc_put_section at h
  split at h
  · cases h
  · simp only at h
    split at h
    · exact ⟨‹_›, (Option.some.inj h).symm⟩
    · cases h

/-- What the section of `mc_get` does where it is defined. -/
theorem mc_get_section_eq_some (h : mc_get_section mc = some (item, mc')) :
    mc.capacity ≠ 0 ∧
      item = mc.items.load (mc.iget % mc.capacity * mc.elem_size).toNat mc.elem_size.toNat ∧
      mc' = { mc with iget := mc.iget + 1 } := by
  unfold mc_get_section at h
  split at h
  · cases h
  · simp only at h
    split at h
    · obtain ⟨rfl, rfl⟩ := Prod.mk.inj (Option.some.inj h)
      exact ⟨‹_›, rfl, rfl⟩
    · cases h

/-- The sections are defined where there is a place and it is mapped. -/
theorem mc_put_section_of_mapped (hne : mc.capacity ≠ 0)
    (hmapped : mc.mapped (mc.iput % mc.capacity * mc.elem_size)) :
    mc_put_section mc item = some { mc with
      iput := mc.iput + 1
      items := mc.items.store (mc.iput % mc.capacity * mc.elem_size).toNat item } := by
  unfold mc_put_section
  rw [if_neg hne]
  exact if_pos hmapped

theorem mc_get_section_of_mapped (hne : mc.capacity ≠ 0)
    (hmapped : mc.mapped (mc.iget % mc.capacity * mc.elem_size)) :
    mc_get_section mc =
      some (mc.items.load (mc.iget % mc.capacity * mc.elem_size).toNat mc.elem_size.toNat,
        { mc with iget := mc.iget + 1 }) := by
  unfold mc_get_section
  rw [if_neg hne]
  exact if_pos hmapped

/-- A process holds a place that `has_space` no longer counts and no item is in. -/
def Pc.space : Pc → Nat
  | .put_waited _ => 1
  | .get_copied => 1
  | _ => 0

/-- A process answers for an item in the channel that `has_items` does not count. -/
def Pc.items : Pc → Nat
  | .put_copied => 1
  | .get_waited => 1
  | _ => 0

/-- The items that are copied in and not yet out. -/
def State.unread (s : State P) : Nat :=
  s.copied_in.length - s.copied_out.length

/-- Both semaphores are exact once the processes under way are counted with them. The
    counters are the lengths of the histories, up to the wrap of a `size_t`. -/
structure Counted [Fintype P] (elem_size capacity : UInt64) (s : State P) : Prop where
  elem_size_eq : s.mc.elem_size = elem_size
  capacity_eq : s.mc.capacity = capacity
  total_size : s.mc.total_size = offsetof_items + elem_size * capacity
  iput : s.mc.iput = UInt64.ofNat s.copied_in.length
  iget : s.mc.iget = UInt64.ofNat s.copied_out.length
  le : s.copied_out.length ≤ s.copied_in.length
  has_space : s.mc.has_space + tally Pc.space s.pc + s.unread = capacity.toNat
  has_items : s.mc.has_items + tally Pc.items s.pc = s.unread

/-- A process past its wait in `mc_put` holds a place of its own. -/
theorem Counted.put_waited [Fintype P] (h : Counted elem_size capacity s) {p : P}
    (hpc : s.pc p = .put_waited item) : s.unread < capacity.toNat := by
  have hspace := h.has_space
  have hweight := weight_le_tally Pc.space s.pc p
  rw [hpc] at hweight
  simp only [Pc.space] at hweight
  omega

/-- A process past its wait in `mc_get` has an item of its own to read. -/
theorem Counted.get_waited [Fintype P] (h : Counted elem_size capacity s) {p : P}
    (hpc : s.pc p = .get_waited) : s.copied_out.length < s.copied_in.length := by
  have hitems := h.has_items
  have hweight := weight_le_tally Pc.items s.pc p
  rw [hpc] at hweight
  simp only [Pc.items, State.unread] at hweight hitems
  omega

theorem sem_post_eq {value : Nat} (h : value < SEM_VALUE_MAX) : sem_post value = value + 1 := by
  unfold sem_post
  rw [if_pos h]

/-- A semaphore and the weight of a process that is about to post it stay below the
    capacity, so that the post does not fail. -/
theorem Counted.sem_post_has_items [Fintype P] (h : Counted elem_size capacity s)
    (hcapacity : capacity.toNat ≤ SEM_VALUE_MAX) {p : P} (hpc : s.pc p = .put_copied) :
    sem_post s.mc.has_items = s.mc.has_items + 1 := by
  have hspace := h.has_space
  have hitems := h.has_items
  have hweight := weight_le_tally Pc.items s.pc p
  rw [hpc] at hweight
  simp only [Pc.items] at hweight
  exact sem_post_eq (by omega)

theorem Counted.sem_post_has_space [Fintype P] (h : Counted elem_size capacity s)
    (hcapacity : capacity.toNat ≤ SEM_VALUE_MAX) {p : P} (hpc : s.pc p = .get_copied) :
    sem_post s.mc.has_space = s.mc.has_space + 1 := by
  have hspace := h.has_space
  have hweight := weight_le_tally Pc.space s.pc p
  rw [hpc] at hweight
  simp only [Pc.space] at hweight
  exact sem_post_eq (by omega)

theorem created_counted [Fintype P] (hcapacity : capacity.toNat ≤ SEM_VALUE_MAX) :
    Counted elem_size capacity (created elem_size capacity : State P) where
  elem_size_eq := rfl
  capacity_eq := rfl
  total_size := rfl
  iput := rfl
  iget := rfl
  le := Nat.le_refl _
  has_space := by
    have hsmall : capacity.toUInt32.toNat = capacity.toNat := by
      rw [UInt64.toNat_toUInt32]
      unfold SEM_VALUE_MAX at hcapacity
      omega
    simp [created, mc_create, sem_init, hsmall, hcapacity, tally_const, Pc.space, State.unread]
  has_items := by
    simp [created, mc_create, sem_init, tally_const, Pc.items, State.unread]

variable [DecidableEq P] [Fintype P]

/-- A process that moves on hands over between a semaphore, its own weight and the
    items not yet read what it takes from another of the three. -/
theorem Counted.move (h : Counted elem_size capacity s) {p : P} {next : Pc}
    (hpc : s'.pc = Function.update s.pc p next)
    (hspace : s'.mc.has_space + next.space + s'.unread = s.mc.has_space + (s.pc p).space + s.unread)
    (hitems : s'.mc.has_items + next.items + s.unread = s.mc.has_items + (s.pc p).items + s'.unread)
    (hiput : s'.mc.iput = UInt64.ofNat s'.copied_in.length)
    (higet : s'.mc.iget = UInt64.ofNat s'.copied_out.length)
    (hle : s'.copied_out.length ≤ s'.copied_in.length)
    (hfixed : s'.mc.elem_size = s.mc.elem_size ∧ s'.mc.capacity = s.mc.capacity ∧
      s'.mc.total_size = s.mc.total_size := by exact ⟨rfl, rfl, rfl⟩) :
    Counted elem_size capacity s' where
  elem_size_eq := hfixed.1.trans h.elem_size_eq
  capacity_eq := hfixed.2.1.trans h.capacity_eq
  total_size := hfixed.2.2.trans h.total_size
  iput := hiput
  iget := higet
  le := hle
  has_space := by
    have hbefore := h.has_space
    have htally := tally_update Pc.space s.pc p next
    rw [hpc]
    omega
  has_items := by
    have hbefore := h.has_items
    have htally := tally_update Pc.items s.pc p next
    rw [hpc]
    omega

theorem Counted.step (h : Counted elem_size capacity s) (hcapacity : capacity.toNat ≤ SEM_VALUE_MAX)
    {label : Label P} (hmove : Move s label s') : Counted elem_size capacity s' := by
  have hle := h.le
  cases hmove with
  | put_wait hpc _ hpos =>
    refine h.move rfl ?_ ?_ h.iput h.iget hle
    · simp only [hpc, Pc.space, State.unread]
      omega
    · simp only [hpc, Pc.items, State.unread]
  | put_copy hpc hsection =>
    obtain ⟨_, rfl⟩ := mc_put_section_eq_some hsection
    refine h.move rfl ?_ ?_ ?_ h.iget ?_
    · simp only [hpc, Pc.space, State.unread, List.length_append, List.length_singleton]
      omega
    · simp only [hpc, Pc.items, State.unread, List.length_append, List.length_singleton]
      omega
    · rw [h.iput, List.length_append, UInt64.ofNat_add]
      rfl
    · simp only [List.length_append]
      omega
  | put_post hpc =>
    have hpost := h.sem_post_has_items hcapacity hpc
    refine h.move rfl ?_ ?_ h.iput h.iget hle
    · simp only [hpc, Pc.space, State.unread]
    · simp only [hpc, Pc.items, State.unread, hpost]
  | get_wait hpc hpos =>
    refine h.move rfl ?_ ?_ h.iput h.iget hle
    · simp only [hpc, Pc.space, State.unread]
    · simp only [hpc, Pc.items, State.unread]
      omega
  | get_copy hpc hsection =>
    obtain ⟨_, _, rfl⟩ := mc_get_section_eq_some hsection
    have hlt := h.get_waited hpc
    refine h.move rfl ?_ ?_ h.iput ?_ ?_
    · simp only [hpc, Pc.space, State.unread, List.length_append, List.length_singleton]
      omega
    · simp only [hpc, Pc.items, State.unread, List.length_append, List.length_singleton]
      omega
    · rw [h.iget, List.length_append, UInt64.ofNat_add]
      rfl
    · simp only [List.length_append, List.length_singleton]
      omega
  | get_post hpc =>
    have hpost := h.sem_post_has_space hcapacity hpc
    refine h.move rfl ?_ ?_ h.iput h.iget hle
    · simp only [hpc, Pc.space, State.unread, hpost]
    · simp only [hpc, Pc.items, State.unread]

end oslabs.memchannel
