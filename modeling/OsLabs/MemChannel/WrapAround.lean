import Mathlib.Data.Nat.Prime.Basic
import OsLabs.MemChannel.BoundedFifo

open oslabs.memory oslabs.run oslabs.census

namespace oslabs.memchannel

variable {P : Type} [DecidableEq P] {s s' : State P} {elem_size capacity : UInt64}
  {p : P} {item : List UInt8} {n m : Nat}

/-- Process `p` is about to copy its item to the place of an item not yet read. Item
    number `k` was copied to the place that `iput` named when it was `k`. -/
def Overwrites (s : State P) (p : P) : Prop :=
  ∃ item k, s.pc p = .put_waited item ∧ (step s (.put_copy p)).isSome ∧
    s.copied_out.length ≤ k ∧ k < s.copied_in.length ∧
      s.mc.iput % s.mc.capacity = UInt64.ofNat k % s.mc.capacity

/-- A run leads to a state in which all processes are outside the channel's functions,
    and `n` items have been copied in and `m` copied out. -/
def Reaches (P : Type) [DecidableEq P] (elem_size capacity : UInt64) (n m : Nat) : Prop :=
  ∃ labels, ∃ s : State P, Run (StepOf step) (created elem_size capacity) labels s ∧
    s.pc = (fun _ => .idle) ∧ s.copied_in.length = n ∧ s.copied_out.length = m

theorem step_put_post (hpc : s.pc p = .put_copied) : step s (.put_post p) = some { s with
    mc := { s.mc with has_items := sem_post s.mc.has_items }
    pc := Function.update s.pc p .idle } := by
  simp only [step, hpc]

theorem step_get_post (hpc : s.pc p = .get_copied) : step s (.get_post p) = some { s with
    mc := { s.mc with has_space := sem_post s.mc.has_space }
    pc := Function.update s.pc p .idle } := by
  simp only [step, hpc]

variable [Fintype P]

omit [DecidableEq P] in
/-- With all processes outside, the semaphores count all places and all items. -/
theorem Counted.idle (h : Counted elem_size capacity s) (hidle : s.pc = fun _ => .idle) :
    s.mc.has_space + s.unread = capacity.toNat ∧ s.mc.has_items = s.unread := by
  have hspace := h.has_space
  have hitems := h.has_items
  simp only [hidle, tally_const, Pc.space, Pc.items, Nat.mul_zero, Nat.add_zero] at hspace hitems
  exact ⟨hspace, hitems⟩

section Fits

variable (hcapacity : capacity.toNat ≤ SEM_VALUE_MAX)
  (hfit : offsetof_items.toNat + elem_size.toNat * capacity.toNat < 2 ^ 64)
include hfit

/-- A process that holds a place copies its item there, and one that holds an item reads it. -/
theorem Counted.put_copy (h : Counted elem_size capacity s) (hpc : s.pc p = .put_waited item) :
    ∃ mc, memchannel.step s (.put_copy p) = some { s with
      mc
      pc := Function.update s.pc p .put_copied
      copied_in := s.copied_in ++ [item] } := by
  have hroom := h.put_waited hpc
  have hne : capacity ≠ 0 := by
    rintro rfl
    simp at hroom
  obtain ⟨mc, hsection⟩ : ∃ mc, mc_put_section s.mc item = some mc :=
    ⟨_, mc_put_section_of_mapped (by rwa [h.capacity_eq]) (h.mapped hfit hne s.mc.iput)⟩
  exact ⟨mc, by simp [memchannel.step, hpc, hsection]⟩

theorem Counted.get_copy (h : Counted elem_size capacity s) (hne : capacity ≠ 0)
    (hpc : s.pc p = .get_waited) :
    ∃ mc item, memchannel.step s (.get_copy p) = some { s with
      mc
      pc := Function.update s.pc p .get_copied
      copied_out := s.copied_out ++ [item] } := by
  obtain ⟨item, mc, hsection⟩ : ∃ item mc, mc_get_section s.mc = some (item, mc) :=
    ⟨_, _, mc_get_section_of_mapped (by rwa [h.capacity_eq]) (h.mapped hfit hne s.mc.iget)⟩
  exact ⟨mc, item, by simp [memchannel.step, hpc, hsection]⟩

include hcapacity

theorem Reaches.put_wait (h : Reaches P elem_size capacity n m) (hroom : n - m < capacity.toNat) (p : P) :
    ∃ labels, ∃ s : State P, Run (StepOf step) (created elem_size capacity) labels s ∧
      s.pc = Function.update (fun _ => .idle) p (.put_waited (List.replicate elem_size.toNat 0)) ∧
      s.copied_in.length = n ∧ s.copied_out.length = m := by
  obtain ⟨labels, s, hrun, hidle, rfl, rfl⟩ := h
  obtain ⟨hcounted, _⟩ := run_stored hcapacity hfit hrun
  have hpos : 0 < s.mc.has_space := by
    have hspace := (hcounted.idle hidle).1
    unfold State.unread at hspace
    omega
  have hwait : step s (.put_wait p (List.replicate elem_size.toNat 0)) = some { s with
      mc := { s.mc with has_space := s.mc.has_space - 1 }
      pc := Function.update s.pc p (.put_waited (List.replicate elem_size.toNat 0)) } := by
    simp [step, hidle, sem_wait, hpos, hcounted.elem_size_eq]
  exact ⟨_, _, hrun.snoc hwait, by rw [hidle], rfl, rfl⟩

/-- One process puts an item. -/
theorem Reaches.put [Nonempty P] (h : Reaches P elem_size capacity n m) (hroom : n - m < capacity.toNat) :
    Reaches P elem_size capacity (n + 1) m := by
  obtain ⟨p⟩ := ‹Nonempty P›
  obtain ⟨labels, s, hrun, hpc, rfl, rfl⟩ := h.put_wait hcapacity hfit hroom p
  obtain ⟨hcounted, _⟩ := run_stored hcapacity hfit hrun
  obtain ⟨mc, hcopy⟩ := hcounted.put_copy hfit (p := p) (by rw [hpc, Function.update_self])
  refine ⟨_, _, (hrun.snoc hcopy).snoc (step_put_post (Function.update_self ..)), ?_, ?_, rfl⟩
  · simp [hpc]
  · simp

/-- One process gets an item. -/
theorem Reaches.get [Nonempty P] (h : Reaches P elem_size capacity n m) (hlt : m < n)
    (hne : capacity ≠ 0) : Reaches P elem_size capacity n (m + 1) := by
  obtain ⟨p⟩ := ‹Nonempty P›
  obtain ⟨labels, s, hrun, hidle, rfl, rfl⟩ := h
  obtain ⟨hcounted, _⟩ := run_stored hcapacity hfit hrun
  have hpos : 0 < s.mc.has_items := by
    rw [(hcounted.idle hidle).2]
    unfold State.unread
    omega
  have hwait : step s (.get_wait p) = some { s with
      mc := { s.mc with has_items := s.mc.has_items - 1 }
      pc := Function.update s.pc p .get_waited } := by
    simp [step, hidle, sem_wait, hpos]
  have hwaited := hrun.snoc hwait
  obtain ⟨hcounted', _⟩ := run_stored hcapacity hfit hwaited
  obtain ⟨mc, item, hcopy⟩ := hcounted'.get_copy hfit hne (p := p) (by simp)
  refine ⟨_, _, (hwaited.snoc hcopy).snoc (step_get_post (Function.update_self ..)), ?_, rfl, ?_⟩
  · simp [hidle]
  · simp

/-- Items put and got one by one, as many as one likes. -/
theorem reaches_diagonal [Nonempty P] (hne : capacity ≠ 0) (n : Nat) : Reaches P elem_size capacity n n := by
  induction n with
  | zero => exact ⟨[], _, .nil, rfl, rfl, rfl⟩
  | succ n ih =>
    have hpos := toNat_pos hne
    exact (ih.put hcapacity hfit (by omega)).get hcapacity hfit (Nat.lt_succ_self n) hne

/-- Items put on top of those until the channel is full. -/
theorem reaches_filled [Nonempty P] (hne : capacity ≠ 0) (n : Nat) {k : Nat} (hk : k ≤ capacity.toNat) :
    Reaches P elem_size capacity (n + k) n := by
  induction k with
  | zero => exact reaches_diagonal hcapacity hfit hne n
  | succ k ih =>
    have hroom : n + k - n < capacity.toNat := by omega
    exact (ih (by omega)).put hcapacity hfit hroom

end Fits

theorem toNat_mod_eq_iff {x y capacity : UInt64} :
    x % capacity = y % capacity ↔ x.toNat % capacity.toNat = y.toNat % capacity.toNat := by
  rw [← UInt64.toNat_inj, UInt64.toNat_mod, UInt64.toNat_mod]

/-- Where the turns of the channel make up the wrap of its counters, the counters of the
    items not yet read all name different places. -/
theorem Counted.not_overwrites (h : Counted elem_size capacity s) (hdvd : capacity.toNat ∣ 2 ^ 64) :
    ¬ Overwrites s p := by
  rintro ⟨item, k, hpc, _, hlow, hhigh, hplace⟩
  have hroom := h.put_waited hpc
  unfold State.unread at hroom
  rw [toNat_mod_eq_iff, h.iput, h.capacity_eq, UInt64.toNat_ofNat', UInt64.toNat_ofNat'] at hplace
  exact wrapped_mod_ne hdvd hhigh (by omega) hplace

/-- Otherwise the channel is filled from the first count of the last turn on, up to the wrap. -/
theorem exists_overwrites [Nonempty P] (hcapacity : capacity.toNat ≤ SEM_VALUE_MAX)
    (hfit : offsetof_items.toNat + elem_size.toNat * capacity.toNat < 2 ^ 64)
    (hne : capacity ≠ 0) (hdvd : ¬ capacity.toNat ∣ 2 ^ 64) :
    ∃ labels, ∃ s : State P, ∃ p, Run (StepOf step) (created elem_size capacity) labels s ∧
      Overwrites s p := by
  obtain ⟨p⟩ := ‹Nonempty P›
  obtain ⟨hpos, hplace⟩ := wrapped_mod_eq hdvd
  have hlt : 2 ^ 64 % capacity.toNat < capacity.toNat := Nat.mod_lt _ (toNat_pos hne)
  have hle : 2 ^ 64 % capacity.toNat ≤ 2 ^ 64 := Nat.mod_le _ _
  have hfilled := reaches_filled (P := P) hcapacity hfit hne (2 ^ 64 - 2 ^ 64 % capacity.toNat)
    (Nat.le_of_lt hlt)
  rw [Nat.sub_add_cancel hle] at hfilled
  obtain ⟨labels, s, hrun, hpc, hin, hout⟩ := hfilled.put_wait hcapacity hfit (by omega) p
  obtain ⟨hcounted, _⟩ := run_stored hcapacity hfit hrun
  have hwaited : s.pc p = .put_waited (List.replicate elem_size.toNat 0) := by
    rw [hpc, Function.update_self]
  obtain ⟨mc, hcopy⟩ := hcounted.put_copy hfit hwaited
  refine ⟨labels, s, p, hrun, _, 2 ^ 64 - 2 ^ 64 % capacity.toNat, hwaited, ?_, ?_, ?_, ?_⟩
  · rw [hcopy]
    rfl
  · rw [hout]
  · rw [hin]
    omega
  · rw [toNat_mod_eq_iff, hcounted.iput, hcounted.capacity_eq, hin, UInt64.toNat_ofNat',
      UInt64.toNat_ofNat']
    exact hplace.symm

/-- Over all runs, also those whose counters wrap around, an item not yet read can be
    overwritten exactly if the capacity is not a power of two. -/
theorem memch_overwrites_iff [Nonempty P] (hpos : 1 ≤ capacity.toNat)
    (hcapacity : capacity.toNat ≤ SEM_VALUE_MAX)
    (hfit : offsetof_items.toNat + elem_size.toNat * capacity.toNat < 2 ^ 64) :
    (∃ labels, ∃ s : State P, ∃ p, Run (StepOf step) (created elem_size capacity) labels s ∧
        Overwrites s p) ↔ ¬ ∃ k, capacity.toNat = 2 ^ k := by
  have hpower : capacity.toNat ∣ 2 ^ 64 ↔ ∃ k, capacity.toNat = 2 ^ k := by
    rw [Nat.dvd_prime_pow Nat.prime_two]
    constructor
    · rintro ⟨k, _, hk⟩
      exact ⟨k, hk⟩
    · rintro ⟨k, hk⟩
      refine ⟨k, ?_, hk⟩
      rw [← Nat.pow_le_pow_iff_right (Nat.lt_succ_self 1), ← hk]
      exact Nat.le_of_lt capacity.toNat_lt
  rw [← hpower]
  constructor
  · rintro ⟨labels, s, p, hrun, hoverwrites⟩ hdvd
    exact (run_stored hcapacity hfit hrun).1.not_overwrites hdvd hoverwrites
  · intro hdvd
    apply exists_overwrites hcapacity hfit _ hdvd
    rintro rfl
    simp at hpos

/-- One process and a channel of three places. -/
theorem memch_overwrites_iff_three : ∃ labels, ∃ s : State Unit,
    Run (StepOf step) (created 1 3) labels s ∧ Overwrites s () := by
  obtain ⟨labels, s, _, hrun, hoverwrites⟩ :=
    (@memch_overwrites_iff Unit _ 1 3 _ _ (by decide) (by decide) (by decide)).2 (by
      rintro ⟨k, hk⟩
      rw [show (3 : UInt64).toNat = 3 from rfl] at hk
      cases k with
      | zero => omega
      | succ k => omega)
  exact ⟨labels, s, hrun, hoverwrites⟩

end oslabs.memchannel
