import Mathlib.Data.UInt
import OsLabs.MemChannel.WrapAround
import OsLabs.Shmem.Lifecycle

open oslabs.memory oslabs.run oslabs.shmem

namespace oslabs.memchannel

/-- A range of bytes in the segment. -/
structure Range where
  offset : Nat
  len : Nat
  deriving DecidableEq, Repr

namespace field

-- the fields of the header that `mc_put` and `mc_get` use, which `items` follows

def elem_size : Range := ⟨0, 8⟩
def capacity : Range := ⟨8, 8⟩
def iput : Range := ⟨152, 8⟩
def iget : Range := ⟨160, 8⟩
def lock : Range := ⟨168, 40⟩
def has_space : Range := ⟨208, 32⟩
def has_items : Range := ⟨240, 32⟩

end field

/-- The place in `items` that a counter names. -/
def memch_t.place (mc : memch_t) (count : UInt64) : Range :=
  ⟨offsetof_items.toNat + (count % mc.capacity * mc.elem_size).toNat, mc.elem_size.toNat⟩

variable {P : Type}

/-- What a process uses of the segment before the next place where another one may get in its
    way: up to its `sem_wait`, whichever function it calls, under the lock, and behind it. -/
def uses (s : State P) (p : P) : List Range :=
  match s.pc p with
  | .idle => [field.has_space, field.has_items]
  | .put_waited _ => [field.lock, field.iput, field.capacity, field.elem_size, s.mc.place s.mc.iput]
  | .put_copied => [field.lock, field.has_items]
  | .get_waited => [field.lock, field.iget, field.capacity, field.elem_size, s.mc.place s.mc.iget]
  | .get_copied => [field.lock, field.has_space]

/-- Everything that the processes are about to use is mapped. -/
def Covered (base : Mapping) (s : State P) : Prop :=
  ∀ p, ∀ range ∈ uses s p, range.offset + range.len ≤ base.size.toNat

/-- No `mc_put` gets past its `sem_wait`: what is left of the capacity in 32 bits is zero, or
    too large for a semaphore. -/
def NoSpace (capacity : UInt64) : Prop :=
  capacity.toNat % 2 ^ 32 = 0 ∨ SEM_VALUE_MAX < capacity.toNat % 2 ^ 32

variable [DecidableEq P] {s s' : State P} {elem_size capacity : UInt64} {labels : List (Label P)}
  {resources : Resources} {name : List UInt8} {before after : Process} {base : Mapping}

theorem noSpace_iff : NoSpace capacity ↔ sem_init capacity.toUInt32 = 0 := by
  have hvalue : capacity.toUInt32.toNat = capacity.toNat % 2 ^ 32 := UInt64.toNat_toUInt32 capacity
  unfold NoSpace sem_init
  rw [hvalue]
  split <;> omega

theorem ne_zero_of_not_noSpace (h : ¬ NoSpace capacity) : capacity ≠ 0 := by
  rintro rfl
  exact h (.inl rfl)

/-- The total size is computed modulo 2^64. -/
theorem toNat_total_size (elem_size capacity : UInt64) : (offsetof_items + elem_size * capacity).toNat =
    (offsetof_items.toNat + elem_size.toNat * capacity.toNat) % 2 ^ 64 := by
  rw [UInt64.toNat_add, UInt64.toNat_mul, Nat.add_mod_mod]

/-- `mc_create` has mapped `total_size` bytes. -/
theorem size_of_created (hcreate : shmem.mc_create resources elem_size capacity name before = (some base, after)) :
    base.size.toNat = (offsetof_items.toNat + elem_size.toNat * capacity.toNat) % 2 ^ 64 := by
  have hsize : base.size = shmem.total_size elem_size capacity := by
    unfold shmem.mc_create at hcreate
    split at hcreate
    · cases hcreate
    · rename_i hshmem
      obtain ⟨hmc, _⟩ := Prod.mk.inj hcreate
      obtain rfl := Option.some.inj hmc
      unfold shmem_create at hshmem
      split at hshmem
      · cases hshmem
      · split at hshmem
        · cases hshmem
        · split at hshmem
          · cases hshmem
          · rename_i hmap
            obtain ⟨hmapped, _⟩ := Prod.mk.inj hshmem
            obtain ⟨object, _, hattempt⟩ := Option.bind_eq_some_iff.1 hmap
            obtain ⟨_, hbase⟩ := mmap_eq_some (attempt_eq_some hattempt)
            rw [← Option.some.inj hmapped, hbase]
  rw [hsize]
  exact toNat_total_size elem_size capacity

/-- Without space for an item every call waits for ever. -/
theorem run_noSpace (h : NoSpace capacity) (hrun : Run (StepOf step) (created elem_size capacity) labels s) :
    s = created elem_size capacity := by
  refine hrun.invariant (fun s => s = created elem_size capacity) rfl ?_
  rintro s label s' rfl hstep
  cases move_of_step hstep with
  | put_wait _ _ hpos => exact absurd (noSpace_iff.1 h) (Nat.ne_of_gt hpos)
  | get_wait _ hpos => exact absurd hpos (Nat.lt_irrefl 0)
  | put_copy hpc _ | put_post hpc | get_copy hpc _ | get_post hpc => cases hpc

/-- The sizes never change. -/
theorem run_sizes (hrun : Run (StepOf step) (created elem_size capacity) labels s) :
    s.mc.elem_size = elem_size ∧ s.mc.capacity = capacity ∧
      s.mc.total_size = offsetof_items + elem_size * capacity := by
  refine hrun.invariant (fun s => s.mc.elem_size = elem_size ∧ s.mc.capacity = capacity ∧
    s.mc.total_size = offsetof_items + elem_size * capacity) ⟨rfl, rfl, rfl⟩ ?_
  intro s label s' hsizes hstep
  cases move_of_step hstep with
  | put_wait _ _ _ | put_post _ | get_wait _ _ | get_post _ => exact hsizes
  | put_copy _ hsection =>
    obtain ⟨_, rfl⟩ := mc_put_section_eq_some hsection
    exact hsizes
  | get_copy _ hsection =>
    obtain ⟨_, _, rfl⟩ := mc_get_section_eq_some hsection
    exact hsizes

section Pair

variable {p : P} {item : List UInt8}

theorem step_put_wait (hpc : s.pc p = .idle) (hlength : item.length = s.mc.elem_size.toNat)
    (hpos : 0 < s.mc.has_space) : step s (.put_wait p item) = some { s with
      mc := { s.mc with has_space := s.mc.has_space - 1 }
      pc := Function.update s.pc p (.put_waited item) } := by
  simp [step, hpc, hlength, sem_wait, hpos]

theorem step_get_wait (hpc : s.pc p = .idle) (hpos : 0 < s.mc.has_items) :
    step s (.get_wait p) = some { s with
      mc := { s.mc with has_items := s.mc.has_items - 1 }
      pc := Function.update s.pc p .get_waited } := by
  simp [step, hpc, sem_wait, hpos]

theorem step_put_copy (hpc : s.pc p = .put_waited item) (hne : s.mc.capacity ≠ 0)
    (hmapped : s.mc.mapped (s.mc.iput % s.mc.capacity * s.mc.elem_size)) :
    step s (.put_copy p) = some { s with
      mc := { s.mc with
        iput := s.mc.iput + 1
        items := s.mc.items.store (s.mc.iput % s.mc.capacity * s.mc.elem_size).toNat item }
      pc := Function.update s.pc p .put_copied
      copied_in := s.copied_in ++ [item] } := by
  simp [step, hpc, mc_put_section_of_mapped hne hmapped]

theorem step_get_copy (hpc : s.pc p = .get_waited) (hne : s.mc.capacity ≠ 0)
    (hmapped : s.mc.mapped (s.mc.iget % s.mc.capacity * s.mc.elem_size)) :
    step s (.get_copy p) = some { s with
      mc := { s.mc with iget := s.mc.iget + 1 }
      pc := Function.update s.pc p .get_copied
      copied_out := s.copied_out ++
        [s.mc.items.load (s.mc.iget % s.mc.capacity * s.mc.elem_size).toNat s.mc.elem_size.toNat] } := by
  simp [step, hpc, mc_get_section_of_mapped hne hmapped]

/-- One process puts an item and gets it again, where the place that it uses is mapped. -/
theorem run_pair [Nonempty P] (hidle : s.pc = fun _ => .idle) (hne : s.mc.capacity ≠ 0)
    (hspace : 0 < s.mc.has_space) (hmax : s.mc.has_space ≤ SEM_VALUE_MAX) (hitems : s.mc.has_items = 0)
    (hcounters : s.mc.iget = s.mc.iput)
    (hmapped : s.mc.mapped (s.mc.iput % s.mc.capacity * s.mc.elem_size)) :
    ∃ labels, ∃ s' : State P, Run (StepOf step) s labels s' ∧ s'.pc = s.pc ∧
      s'.mc = { s.mc with iput := s.mc.iput + 1, iget := s.mc.iput + 1, items := s'.mc.items } := by
  obtain ⟨p⟩ := ‹Nonempty P›
  have hput : step s (.put_wait p (List.replicate s.mc.elem_size.toNat 0)) = some _ :=
    step_put_wait (by rw [hidle]) List.length_replicate hspace
  have hget : s.mc.mapped (s.mc.iget % s.mc.capacity * s.mc.elem_size) := by
    rw [hcounters]
    exact hmapped
  have hitem : sem_post s.mc.has_items - 1 = s.mc.has_items := by
    rw [hitems]
    rfl
  have hplace : sem_post (s.mc.has_space - 1) = s.mc.has_space := by
    rw [sem_post, if_pos (by omega)]
    omega
  have hwaiting : Run (StepOf step) s _ _ := Run.nil.snoc hput
  have hcopied := hwaiting.snoc (step_put_copy (Function.update_self ..) hne hmapped)
  have hposted := hcopied.snoc (step_put_post (Function.update_self ..))
  have hsignalled : 0 < sem_post s.mc.has_items := by simp [sem_post, hitems, SEM_VALUE_MAX]
  have hwaited := hposted.snoc (step_get_wait (Function.update_self ..) hsignalled)
  have hgot := hwaited.snoc (step_get_copy (Function.update_self ..) hne hget)
  have hdone := hgot.snoc (step_get_post (Function.update_self ..))
  refine ⟨_, _, hdone, ?_, ?_⟩
  · simp [hidle]
  · simp only [hcounters, hitem, hplace]

end Pair

/-- As long as the places are mapped, one process can put and get items one by one. -/
theorem exists_run_pairs [Nonempty P] (hspace : ¬ NoSpace capacity) (n : Nat)
    (hmapped : ∀ i < n, (mc_create elem_size capacity).mapped (UInt64.ofNat i % capacity * elem_size)) :
    ∃ labels, ∃ s : State P, Run (StepOf step) (created elem_size capacity) labels s ∧
      s.pc = (fun _ => .idle) ∧
      s.mc = { mc_create elem_size capacity with
        iput := UInt64.ofNat n
        iget := UInt64.ofNat n
        items := s.mc.items } := by
  induction n with
  | zero => exact ⟨[], _, .nil, rfl, rfl⟩
  | succ n ih =>
    obtain ⟨labels, s, hrun, hidle, hmc⟩ := ih fun i hi => hmapped i (by omega)
    have hvalue : 0 < sem_init capacity.toUInt32 := by
      rw [noSpace_iff] at hspace
      omega
    have hmax : sem_init capacity.toUInt32 ≤ SEM_VALUE_MAX := by
      unfold sem_init
      split <;> omega
    obtain ⟨more, last, hpair, hpc, hlast⟩ := run_pair (s := s) hidle
      (by rw [hmc]; exact ne_zero_of_not_noSpace hspace) (by rw [hmc]; exact hvalue) (by rw [hmc]; exact hmax)
      (by rw [hmc]; rfl) (by rw [hmc]) (by rw [hmc]; exact hmapped n (Nat.lt_succ_self n))
    refine ⟨labels ++ more, last, hrun.append hpair, hpc.trans hidle, ?_⟩
    rw [hlast, hmc, UInt64.ofNat_add]
    rfl

/-- Where the total size is wrapped, some place is not mapped. -/
theorem exists_not_mapped (hwrap : ¬ offsetof_items.toNat + elem_size.toNat * capacity.toNat < 2 ^ 64) :
    ∃ n, ¬ (mc_create elem_size capacity).mapped (UInt64.ofNat n % capacity * elem_size) := by
  have htotal := toNat_total_size elem_size capacity
  have hlt := Nat.mod_lt (offsetof_items.toNat + elem_size.toNat * capacity.toNat) (Nat.two_pow_pos 64)
  have hheader : offsetof_items.toNat = 272 := rfl
  have hpos : 0 < elem_size.toNat := by
    rw [Nat.pos_iff_ne_zero]
    intro hzero
    rw [hzero] at hwrap
    omega
  -- the first place that the wrapped size does not hold
  let n := ((offsetof_items + elem_size * capacity).toNat - offsetof_items.toNat) / elem_size.toNat
  have hbelow : n * elem_size.toNat ≤ (offsetof_items + elem_size * capacity).toNat - offsetof_items.toNat :=
    Nat.div_mul_le_self _ _
  have habove : (offsetof_items + elem_size * capacity).toNat - offsetof_items.toNat <
      n * elem_size.toNat + elem_size.toNat :=
    Nat.lt_div_mul_add hpos
  have hplace : n < capacity.toNat := by
    rw [← Nat.mul_lt_mul_left hpos, Nat.mul_comm]
    omega
  have hcapacity := capacity.toNat_lt
  refine ⟨n, ?_⟩
  unfold memch_t.mapped
  have hoffset : (UInt64.ofNat n % capacity * elem_size).toNat = n * elem_size.toNat := by
    rw [UInt64.toNat_mul, UInt64.toNat_mod, UInt64.toNat_ofNat_of_lt' (show n < 2 ^ 64 by omega),
      Nat.mod_eq_of_lt hplace, Nat.mod_eq_of_lt (by omega)]
  rw [hoffset]
  show ¬ (_ + _ + elem_size.toNat ≤ (offsetof_items + elem_size * capacity).toNat)
  omega

/-- A process that waits for the lock in `mc_put` is about to write to a place that is not
    mapped. -/
theorem exists_not_covered [Nonempty P] (hspace : ¬ NoSpace capacity)
    (hwrap : ¬ offsetof_items.toNat + elem_size.toNat * capacity.toNat < 2 ^ 64)
    (hsize : base.size.toNat = (offsetof_items.toNat + elem_size.toNat * capacity.toNat) % 2 ^ 64) :
    ∃ labels, ∃ s : State P, Run (StepOf step) (created elem_size capacity) labels s ∧ ¬ Covered base s := by
  classical
  obtain ⟨p⟩ := ‹Nonempty P›
  have hfirst := exists_not_mapped hwrap
  obtain ⟨labels, s, hrun, hidle, hmc⟩ := exists_run_pairs (P := P) hspace (Nat.find hfirst)
    fun i hi => not_not.1 (Nat.find_min hfirst hi)
  have hpos : 0 < s.mc.has_space := by
    rw [hmc]
    exact Nat.pos_of_ne_zero fun hzero => hspace (noSpace_iff.2 hzero)
  have hwait : step s (.put_wait p (List.replicate s.mc.elem_size.toNat 0)) = some _ :=
    step_put_wait (by rw [hidle]) List.length_replicate hpos
  refine ⟨_, _, hrun.snoc hwait, fun hcovered => Nat.find_spec hfirst ?_⟩
  have hinside := hcovered p (s.mc.place s.mc.iput) (by simp [uses, memch_t.place])
  rw [hsize, ← toNat_total_size, hmc] at hinside
  exact hinside

omit [DecidableEq P] in
/-- Where the header is mapped, what is left to see to are the places in `items`. -/
theorem covered_of_mapped (hheader : offsetof_items.toNat ≤ base.size.toNat)
    (hput : ∀ p item, s.pc p = .put_waited item →
      (s.mc.place s.mc.iput).offset + (s.mc.place s.mc.iput).len ≤ base.size.toNat)
    (hget : ∀ p, s.pc p = .get_waited →
      (s.mc.place s.mc.iget).offset + (s.mc.place s.mc.iget).len ≤ base.size.toNat) : Covered base s := by
  have hfield : ∀ range ∈ [field.elem_size, field.capacity, field.iput, field.iget, field.lock,
      field.has_space, field.has_items], range.offset + range.len ≤ base.size.toNat := by
    intro range hmem
    have hin : range.offset + range.len ≤ offsetof_items.toNat := by
      revert range
      decide
    exact Nat.le_trans hin hheader
  simp only [List.forall_mem_cons] at hfield
  obtain ⟨helem_size, hcapacity, hiput, higet, hlock, hspace, hitems, hnone⟩ := hfield
  intro p
  cases hpc : s.pc p with
  | idle =>
    rw [uses, hpc]
    exact List.forall_mem_cons.2 ⟨hspace, List.forall_mem_singleton.2 hitems⟩
  | put_waited item =>
    rw [uses, hpc]
    simp only [List.forall_mem_cons]
    exact ⟨hlock, hiput, hcapacity, helem_size, hput p item hpc, hnone⟩
  | put_copied =>
    rw [uses, hpc]
    exact List.forall_mem_cons.2 ⟨hlock, List.forall_mem_singleton.2 hitems⟩
  | get_waited =>
    rw [uses, hpc]
    simp only [List.forall_mem_cons]
    exact ⟨hlock, higet, hcapacity, helem_size, hget p hpc, hnone⟩
  | get_copied =>
    rw [uses, hpc]
    exact List.forall_mem_cons.2 ⟨hlock, List.forall_mem_singleton.2 hspace⟩

/-- A process that is past its `sem_wait` has found a channel with space. -/
theorem ne_zero_of_waited (hrun : Run (StepOf step) (created elem_size capacity) labels s) {p : P}
    (hpc : s.pc p ≠ .idle) : capacity ≠ 0 := by
  refine ne_zero_of_not_noSpace fun hnone => hpc ?_
  rw [run_noSpace hnone hrun]
  rfl

/-- In every run all that `mc_put` and `mc_get` use lies in the bytes that are mapped, if and
    only if the size of the channel is computed without a wrap, or no item ever gets in and the
    header at least is mapped. -/
theorem covered_iff [Nonempty P]
    (hcreate : shmem.mc_create resources elem_size capacity name before = (some base, after)) :
    (∀ labels, ∀ s : State P, Run (StepOf step) (created elem_size capacity) labels s → Covered base s) ↔
      offsetof_items.toNat + elem_size.toNat * capacity.toNat < 2 ^ 64 ∨
        (NoSpace capacity ∧ offsetof_items.toNat ≤
          (offsetof_items.toNat + elem_size.toNat * capacity.toNat) % 2 ^ 64) := by
  have hsize := size_of_created hcreate
  constructor
  · intro h
    by_cases hwrap : offsetof_items.toNat + elem_size.toNat * capacity.toNat < 2 ^ 64
    · exact .inl hwrap
    · by_cases hspace : NoSpace capacity
      · refine .inr ⟨hspace, ?_⟩
        obtain ⟨p⟩ := ‹Nonempty P›
        have hitems := h [] _ .nil p field.has_items (by simp [uses, created])
        rw [hsize] at hitems
        exact hitems
      · obtain ⟨labels, s, hrun, hnot⟩ := exists_not_covered (P := P) hspace hwrap hsize
        exact absurd (h labels s hrun) hnot
  · rintro (hfit | ⟨hspace, hheader⟩) labels s hrun
    · rw [Nat.mod_eq_of_lt hfit] at hsize
      obtain ⟨helem_size, hcapacity, htotal⟩ := run_sizes hrun
      have hplace : capacity ≠ 0 → ∀ count,
          (s.mc.place count).offset + (s.mc.place count).len ≤ base.size.toNat := by
        intro hne count
        have hmapped := mapped_of_fit helem_size hcapacity htotal hfit hne count
        rw [memch_t.mapped, htotal, toNat_total_size, Nat.mod_eq_of_lt hfit, ← hsize] at hmapped
        exact hmapped
      refine covered_of_mapped (by omega) (fun p item hpc => ?_) fun p hpc => ?_
      · exact hplace (ne_zero_of_waited hrun (p := p) (by simp [hpc])) _
      · exact hplace (ne_zero_of_waited hrun (p := p) (by simp [hpc])) _
    · rw [← hsize] at hheader
      rw [run_noSpace hspace hrun]
      exact covered_of_mapped hheader (fun p item hpc => by cases hpc) fun p hpc => by cases hpc

/-- A channel of four places for eight bytes each. -/
theorem covered_iff_small : ∃ (before after : Process) (base : Mapping),
    shmem.mc_create ⟨some 3, true, true⟩ 8 4 [47, 99] before = (some base, after) ∧
      ∀ labels, ∀ s : State Unit, Run (StepOf step) (created 8 4) labels s → Covered base s := by
  let before : Process := {
    shm := { names := fun _ => none, objects := fun _ => ⟨0, zeroed⟩, next := 0 }
    fds := fun _ => none }
  obtain ⟨base, after, hcreate⟩ : ∃ base after,
      shmem.mc_create ⟨some 3, true, true⟩ 8 4 [47, 99] before = (some base, after) := ⟨_, _, rfl⟩
  exact ⟨before, after, base, hcreate, (covered_iff hcreate).2 (.inl (by decide))⟩

/-- A channel of 2^30 places for 2^34 bytes each has no more than its header mapped, and the
    first item is written behind it. -/
theorem not_covered_wrapped : ∃ (before after : Process) (base : Mapping) (s : State Unit),
    shmem.mc_create ⟨some 3, true, true⟩ (2 ^ 34) (2 ^ 30) [47, 99] before = (some base, after) ∧
      Run (StepOf step) (created (2 ^ 34) (2 ^ 30)) [.put_wait () (List.replicate (2 ^ 34) 0)] s ∧
      base.size = 272 ∧ ¬ Covered base s := by
  let before : Process := {
    shm := { names := fun _ => none, objects := fun _ => ⟨0, zeroed⟩, next := 0 }
    fds := fun _ => none }
  have hwait : step (created (2 ^ 34) (2 ^ 30)) (.put_wait () (List.replicate (2 ^ 34) 0)) = some _ :=
    step_put_wait rfl List.length_replicate (by decide)
  refine ⟨before, _, _, _, rfl, .snoc .nil hwait, rfl, fun hcovered => ?_⟩
  have hinside := hcovered () ⟨272, 2 ^ 34⟩ (by decide)
  exact absurd hinside (by decide)

end oslabs.memchannel
