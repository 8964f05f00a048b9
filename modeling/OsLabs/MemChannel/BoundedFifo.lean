import OsLabs.Lib.Fifo
import OsLabs.MemChannel.Slots

open oslabs.memory oslabs.run oslabs.census oslabs.fifo

namespace oslabs.memchannel

variable {P : Type} [DecidableEq P] [Fintype P] {s : State P} {elem_size capacity : UInt64}
  {labels : List (Label P)}

/-- What the lock finds in `mc_put`: fewer items than places, a place for the next item
    inside the items area, and a section that is defined. -/
structure PutReady (s : State P) (item : List UInt8) : Prop where
  capacity : s.mc.capacity ≠ 0
  counters : s.mc.iget ≤ s.mc.iput ∧ s.mc.iput - s.mc.iget < s.mc.capacity
  inside : (s.mc.iput % s.mc.capacity * s.mc.elem_size).toNat + s.mc.elem_size.toNat ≤
    s.mc.elem_size.toNat * s.mc.capacity.toNat
  length : item.length = s.mc.elem_size.toNat
  defined : (mc_put_section s.mc item).isSome

/-- What the lock finds in `mc_get`: an item not yet read, its place inside the items
    area, and a section that copies out the oldest such item. -/
structure GetReady (s : State P) : Prop where
  capacity : s.mc.capacity ≠ 0
  counters : s.mc.iget < s.mc.iput
  inside : (s.mc.iget % s.mc.capacity * s.mc.elem_size).toNat + s.mc.elem_size.toNat ≤
    s.mc.elem_size.toNat * s.mc.capacity.toNat
  defined : ∃ item mc, mc_get_section s.mc = some (item, mc) ∧
    s.copied_in[s.copied_out.length]? = some item

/-- Everywhere in a run the counts hold, and the slots as long as `iput` has not wrapped. -/
theorem run_stored (hcapacity : capacity.toNat ≤ SEM_VALUE_MAX)
    (hfit : offsetof_items.toNat + elem_size.toNat * capacity.toNat < 2 ^ 64)
    (hrun : Run (StepOf step) (created elem_size capacity) labels s) :
    Counted elem_size capacity s ∧ (s.copied_in.length < 2 ^ 64 → Stored s) := by
  refine hrun.invariant (fun s => Counted elem_size capacity s ∧ (s.copied_in.length < 2 ^ 64 → Stored s))
    ⟨created_counted hcapacity, fun _ => created_stored⟩ ?_
  rintro s label s' ⟨hcounted, hstored⟩ hstep
  have hmove := move_of_step hstep
  refine ⟨hcounted.step hcapacity hmove, fun hputs => ?_⟩
  have hbefore : s.copied_in.length < 2 ^ 64 := Nat.lt_of_le_of_lt hmove.copied_in_le hputs
  exact (hstored hbefore).step hcounted hfit hbefore hmove

omit [DecidableEq P] in
/-- Without a wrap the counters are the lengths of the histories. -/
theorem Counted.toNat_counters (h : Counted elem_size capacity s) (hputs : s.copied_in.length < 2 ^ 64) :
    s.mc.iput.toNat = s.copied_in.length ∧ s.mc.iget.toNat = s.copied_out.length := by
  have hle := h.le
  rw [h.iput, h.iget, UInt64.toNat_ofNat_of_lt' hputs,
    UInt64.toNat_ofNat_of_lt' (show s.copied_out.length < 2 ^ 64 by omega)]
  exact ⟨rfl, rfl⟩

omit [DecidableEq P] in
theorem Counted.mapped (h : Counted elem_size capacity s)
    (hfit : offsetof_items.toNat + elem_size.toNat * capacity.toNat < 2 ^ 64) (hne : capacity ≠ 0)
    (count : UInt64) : s.mc.mapped (count % s.mc.capacity * s.mc.elem_size) :=
  mapped_of_fit h.elem_size_eq h.capacity_eq h.total_size hfit hne count

omit [DecidableEq P] in
theorem Counted.put_ready (h : Counted elem_size capacity s) (hstored : Stored s)
    (hfit : offsetof_items.toNat + elem_size.toNat * capacity.toNat < 2 ^ 64)
    (hputs : s.copied_in.length < 2 ^ 64) {p : P} {item : List UInt8}
    (hpc : s.pc p = .put_waited item) : PutReady s item := by
  have hroom := h.put_waited hpc
  have hle := h.le
  obtain ⟨hiput, higet⟩ := h.toNat_counters hputs
  have hne : capacity ≠ 0 := by
    rintro rfl
    simp at hroom
  have hcounters : s.mc.iget ≤ s.mc.iput := by
    rw [UInt64.le_iff_toNat_le]
    omega
  refine ⟨?_, ⟨hcounters, ?_⟩, ?_, hstored.length p item hpc, ?_⟩
  · rwa [h.capacity_eq]
  · rw [UInt64.lt_iff_toNat_lt, UInt64.toNat_sub_of_le _ _ hcounters, h.capacity_eq]
    unfold State.unread at hroom
    omega
  · rw [h.elem_size_eq, h.capacity_eq]
    exact offset_inside hne hfit _
  · rw [mc_put_section_of_mapped (by rwa [h.capacity_eq]) (h.mapped hfit hne s.mc.iput)]
    rfl

omit [DecidableEq P] in
theorem Counted.get_ready (h : Counted elem_size capacity s) (hstored : Stored s)
    (hfit : offsetof_items.toNat + elem_size.toNat * capacity.toNat < 2 ^ 64)
    (hputs : s.copied_in.length < 2 ^ 64) {p : P} (hpc : s.pc p = .get_waited) : GetReady s := by
  have hlt := h.get_waited hpc
  have hspace := h.has_space
  obtain ⟨hiput, higet⟩ := h.toNat_counters hputs
  have hne : capacity ≠ 0 := by
    rintro rfl
    simp only [State.unread, UInt64.toNat_zero] at hspace
    omega
  refine ⟨?_, ?_, ?_, ?_⟩
  · rwa [h.capacity_eq]
  · rw [UInt64.lt_iff_toNat_lt]
    omega
  · rw [h.elem_size_eq, h.capacity_eq]
    exact offset_inside hne hfit _
  · have hsection := mc_get_section_of_mapped (by rwa [h.capacity_eq]) (h.mapped hfit hne s.mc.iget)
    exact ⟨_, _, hsection, hstored.get_copy h hfit hputs hpc hsection⟩

/-- Each step of a process is one step of an abstract queue, or none. -/
theorem Stored.serves (h : Stored s) (hcounted : Counted elem_size capacity s)
    (hfit : offsetof_items.toNat + elem_size.toNat * capacity.toNat < 2 ^ 64)
    (hputs : s.copied_in.length < 2 ^ 64) {s' : State P} {label : Label P} (hmove : Move s label s')
    {q : Fifo (List UInt8)} (hq : q.Records s.copied_in s.copied_out) :
    ∃ q', Fifo.Served q q' ∧ q'.Records s'.copied_in s'.copied_out := by
  cases hmove with
  | put_wait | put_post | get_wait | get_post => exact ⟨q, .stay, hq⟩
  | put_copy => exact hq.enqueue _
  | get_copy hpc hsection => exact hq.dequeue (h.get_copy hcounted hfit hputs hpc hsection)

/-- The channel refines the abstract queue. -/
theorem run_refines_fifo (hcapacity : capacity.toNat ≤ SEM_VALUE_MAX)
    (hfit : offsetof_items.toNat + elem_size.toNat * capacity.toNat < 2 ^ 64)
    (hrun : Run (StepOf step) (created elem_size capacity) labels s)
    (hputs : s.copied_in.length < 2 ^ 64) :
    ∃ q : Fifo (List UInt8), Run (fun q _ q' => Fifo.Served q q') .empty labels q ∧
      q.Records s.copied_in s.copied_out := by
  induction hrun with
  | nil => exact ⟨.empty, .nil, Fifo.empty_records⟩
  | snoc hrun hstep ih =>
    have hmove := move_of_step hstep
    have hbefore := Nat.lt_of_le_of_lt hmove.copied_in_le hputs
    obtain ⟨hcounted, hslots⟩ := run_stored hcapacity hfit hrun
    obtain ⟨q, habstract, hq⟩ := ih hbefore
    obtain ⟨q', hserved, hq'⟩ := (hslots hbefore).serves hcounted hfit hbefore hmove hq
    exact ⟨q', .snoc habstract hserved, hq'⟩

/-- The channel is a bounded first-in first-out queue. -/
theorem memch_bounded_fifo (hcapacity : capacity.toNat ≤ SEM_VALUE_MAX)
    (hfit : offsetof_items.toNat + elem_size.toNat * capacity.toNat < 2 ^ 64)
    (hrun : Run (StepOf step) (created elem_size capacity) labels s)
    (hputs : s.copied_in.length < 2 ^ 64) :
    s.copied_out <+: s.copied_in ∧
      (∀ k, s.copied_out.length ≤ k → k < s.copied_in.length → s.copied_in[k]? =
        some (s.mc.items.slot s.mc.elem_size.toNat (k % s.mc.capacity.toNat))) ∧
      (∀ p item, s.pc p = .put_waited item → PutReady s item) ∧
      ∀ p, s.pc p = .get_waited → GetReady s := by
  obtain ⟨hcounted, hslots⟩ := run_stored hcapacity hfit hrun
  have hstored := hslots hputs
  refine ⟨hstored.order, hstored.unread, ?_, ?_⟩
  · intro p item hpc
    exact hcounted.put_ready hstored hfit hputs hpc
  · intro p hpc
    exact hcounted.get_ready hstored hfit hputs hpc

/-- Two processes in a channel of one place: the second item can go in only because
    the first is out, and it takes the same place. -/
theorem memch_bounded_fifo_two :
    ∃ s : State Bool, s.copied_out = [[7]] ∧ s.copied_in = [[7], [9]] ∧ s.mc.items.slot 1 0 = [9] ∧
      (s.copied_out <+: s.copied_in ∧
      (∀ k, s.copied_out.length ≤ k → k < s.copied_in.length → s.copied_in[k]? =
        some (s.mc.items.slot s.mc.elem_size.toNat (k % s.mc.capacity.toNat))) ∧
      (∀ p item, s.pc p = .put_waited item → PutReady s item) ∧
      ∀ p, s.pc p = .get_waited → GetReady s) :=
  ⟨_, rfl, rfl, rfl,
    @memch_bounded_fifo Bool _ _ _ 1 1
      [.put_wait true [7], .put_copy true, .put_post true, .get_wait false, .get_copy false,
        .get_post false, .put_wait true [9], .put_copy true, .put_post true, .get_wait false]
      (by decide) (by decide) (run_stepOf_iff.mpr rfl) (by decide)⟩

end oslabs.memchannel
