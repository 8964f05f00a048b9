import OsLabs.Lib.Workload
import OsLabs.MemChannel.BoundedFifo

open oslabs.memory oslabs.run oslabs.census oslabs.workload

namespace oslabs.memchannel

variable {P : Type} {elem_size capacity : UInt64}

/-- The wait with which a task begins. -/
def begins : Label P → Option (P × Errand (List UInt8))
  | .put_wait p item => some (p, .put item)
  | .get_wait p => some (p, .get)
  | _ => none

/-- How many steps a process has still to make in the call it is in. -/
def Pc.steps : Pc → Nat
  | .idle => 0
  | .put_waited _ | .get_waited => 2
  | .put_copied | .get_copied => 1

/-- A process between the wait and the copy of `mc_put`, or of `mc_get`. -/
def Pc.putting : Pc → Nat
  | .put_waited _ => 1
  | _ => 0

def Pc.getting : Pc → Nat
  | .get_waited => 1
  | _ => 0

/-- Each process is a producer or a consumer, and each item has the size of an element. -/
structure Traffic (elem_size : UInt64) (tasks : P → List (Errand (List UInt8))) : Prop where
  one_way : OneWay tasks
  size : ∀ p item, .put item ∈ tasks p → item.length = elem_size.toNat

variable [DecidableEq P] [Fintype P]

/-- The processes, each with the puts or the gets that it has still to begin. -/
abbrev System (P : Type) := Loaded (State P) P (Errand (List UInt8))

def Steps : System P → Label P → System P → Prop :=
  Step (StepOf step) begins

/-- The items still to be copied in, by tasks begun and not begun, and those still to be
    copied out. -/
def System.puts (s : System P) : Nat :=
  remaining Errand.isPut s.tasks + tally Pc.putting s.state.pc

def System.gets (s : System P) : Nat :=
  remaining Errand.isGet s.tasks + tally Pc.getting s.state.pc

section Moves

variable {s s' : State P} {label : Label P}

omit [Fintype P] in
/-- A step of a process in its call: what it brings for the steps and the items to come. -/
theorem Move.exists_update (hmove : Move s label s') : ∃ p next, s'.pc = Function.update s.pc p next ∧
    next.steps + 1 = (s.pc p).steps + 3 * begun (fun _ => true) (begins label) ∧
    next.putting + s'.copied_in.length =
      (s.pc p).putting + s.copied_in.length + begun Errand.isPut (begins label) ∧
    next.getting + s'.copied_out.length =
      (s.pc p).getting + s.copied_out.length + begun Errand.isGet (begins label) := by
  cases hmove with
  | put_wait hpc | put_copy hpc | put_post hpc | get_wait hpc | get_copy hpc | get_post hpc =>
    refine ⟨_, _, rfl, ?_⟩
    simp [hpc, Pc.steps, Pc.putting, Pc.getting, begun, begins, Errand.isPut, Errand.isGet, Nat.add_comm]

end Moves

variable {s s' : System P} {label : Label P}

/-- Each task takes three steps, and a step takes one off them. -/
theorem Steps.work_lt (hstep : Steps s label s') :
    work 3 (fun s => tally Pc.steps s.pc) s' < work 3 (fun s => tally Pc.steps s.pc) s := by
  apply Step.work_lt hstep
  obtain ⟨p, next, hpc, hsteps, _⟩ := (move_of_step hstep.base).exists_update
  have htally := tally_update Pc.steps s.state.pc p next
  rw [hpc]
  omega

/-- The items to come and those copied are all the time the same, both in and out. -/
theorem Steps.puts (hstep : Steps s label s') :
    s'.puts + s'.state.copied_in.length = s.puts + s.state.copied_in.length := by
  obtain ⟨p, next, hpc, _, hputting, _⟩ := (move_of_step hstep.base).exists_update
  have htally := tally_update Pc.putting s.state.pc p next
  have hremaining := hstep.remaining_add Errand.isPut
  rw [System.puts, System.puts, hpc]
  omega

theorem Steps.gets (hstep : Steps s label s') :
    s'.gets + s'.state.copied_out.length = s.gets + s.state.copied_out.length := by
  obtain ⟨p, next, hpc, _, _, hgetting⟩ := (move_of_step hstep.base).exists_update
  have htally := tally_update Pc.getting s.state.pc p next
  have hremaining := hstep.remaining_add Errand.isGet
  rw [System.gets, System.gets, hpc]
  omega

/-- What holds of the processes and the channel all the time. -/
structure Sound (elem_size capacity : UInt64) (puts gets : Nat) (s : System P) : Prop where
  traffic : Traffic elem_size s.tasks
  counted : Counted elem_size capacity s.state
  puts : s.puts + s.state.copied_in.length = puts
  gets : s.gets + s.state.copied_out.length = gets

variable {puts gets : Nat}

omit [Fintype P] in
theorem Traffic.step (h : Traffic elem_size s.tasks) (hstep : Steps s label s') :
    Traffic elem_size s'.tasks where
  one_way := h.one_way.step hstep
  size p item hmem := h.size p item (hstep.mem_tasks hmem)

theorem Sound.step (h : Sound elem_size capacity puts gets s) (hcapacity : capacity.toNat ≤ SEM_VALUE_MAX)
    (hstep : Steps s label s') : Sound elem_size capacity puts gets s' where
  traffic := h.traffic.step hstep
  counted := h.counted.step hcapacity (move_of_step hstep.base)
  puts := hstep.puts.trans h.puts
  gets := hstep.gets.trans h.gets

section End

variable (hend : ∀ label s', ¬ Steps s label s')
include hend

/-- Where no step is left, all calls have returned: there is a place for every item that is about
    to be copied, and an item for every process about to copy one. -/
theorem Sound.idle_of_end (h : Sound elem_size capacity puts gets s) (hpos : capacity ≠ 0)
    (hfit : offsetof_items.toNat + elem_size.toNat * capacity.toNat < 2 ^ 64) (p : P) :
    s.state.pc p = .idle := by
  have hnone : ∀ label, begins label = none → memchannel.step s.state label = none :=
    fun _ => eq_none_of_go_on hend
  have hne : s.state.mc.capacity ≠ 0 := by rwa [h.counted.capacity_eq]
  cases hpc : s.state.pc p with
  | idle => rfl
  | put_waited item =>
    have hsection : mc_put_section s.state.mc item = _ :=
      mc_put_section_of_mapped hne (h.counted.mapped hfit hpos _)
    have hcopy := hnone (.put_copy p) rfl
    simp [memchannel.step, hpc, hsection] at hcopy
  | put_copied =>
    have hpost := hnone (.put_post p) rfl
    simp [memchannel.step, hpc] at hpost
  | get_waited =>
    have hsection := mc_get_section_of_mapped hne (h.counted.mapped hfit hpos _)
    have hcopy := hnone (.get_copy p) rfl
    simp [memchannel.step, hpc, hsection] at hcopy
  | get_copied =>
    have hpost := hnone (.get_post p) rfl
    simp [memchannel.step, hpc] at hpost

/-- Where puts are left and nobody can begin one, the channel is full. -/
theorem Sound.full_of_end (h : Sound elem_size capacity puts gets s) (hidle : ∀ p, s.state.pc p = .idle)
    (hleft : 0 < remaining Errand.isPut s.tasks) : s.state.mc.has_space = 0 := by
  obtain ⟨p, item, rest, htasks⟩ := h.traffic.one_way.exists_put hleft
  have hnone : memchannel.step s.state (.put_wait p item) = none := eq_none_of_begin hend htasks rfl
  have hlength := h.traffic.size p item (htasks ▸ List.mem_cons_self)
  rw [← h.counted.elem_size_eq] at hlength
  simpa [memchannel.step, hidle p, hlength, sem_wait] using hnone

/-- Where gets are left and nobody can begin one, the channel is empty. -/
theorem Sound.empty_of_end (h : Sound elem_size capacity puts gets s) (hidle : ∀ p, s.state.pc p = .idle)
    (hleft : 0 < remaining Errand.isGet s.tasks) : s.state.mc.has_items = 0 := by
  obtain ⟨p, rest, htasks⟩ := h.traffic.one_way.exists_get hleft
  have hnone : memchannel.step s.state (.get_wait p) = none := eq_none_of_begin hend htasks rfl
  simpa [memchannel.step, hidle p, sem_wait] using hnone

end End

/-- Producers and consumers come to their end in every interleaving, after three steps for each
    put and each get that can be made: as many gets as there are puts, and as many puts as there
    are gets and places in the channel. -/
theorem channel_traffic_settles {tasks : P → List (Errand (List UInt8))} {labels : List (Label P)}
    (htraffic : Traffic elem_size tasks) (hpos : capacity ≠ 0) (hcapacity : capacity.toNat ≤ SEM_VALUE_MAX)
    (hfit : offsetof_items.toNat + elem_size.toNat * capacity.toNat < 2 ^ 64)
    (hrun : Run Steps ⟨created elem_size capacity, tasks⟩ labels s) :
    Settles Steps (fun last => (∀ p, last.state.pc p = .idle) ∧
      last.state.copied_in.length =
        min (remaining Errand.isPut tasks) (remaining Errand.isGet tasks + capacity.toNat) ∧
      last.state.copied_out.length = min (remaining Errand.isPut tasks) (remaining Errand.isGet tasks))
      s (work 3 (fun s => tally Pc.steps s.pc) s) := by
  have hstart : Sound elem_size capacity (remaining Errand.isPut tasks) (remaining Errand.isGet tasks)
      (⟨created elem_size capacity, tasks⟩ : System P) := by
    refine ⟨htraffic, created_counted hcapacity, ?_, ?_⟩
    · simp [System.puts, created, tally_const, Pc.putting]
    · simp [System.gets, created, tally_const, Pc.getting]
  have hsound := hrun.invariant _ hstart fun _ _ _ h hstep => h.step hcapacity hstep
  refine settles_of_measure _ _ (fun _ _ _ h hstep => ⟨h.step hcapacity hstep, hstep.work_lt⟩) ?_ hsound
  intro last h hend
  have hidle := h.idle_of_end hend hpos hfit
  have hpc : last.state.pc = fun _ => .idle := funext hidle
  have hputs := h.puts
  have hgets := h.gets
  have hspace := h.counted.has_space
  have hitems := h.counted.has_items
  have hle := h.counted.le
  simp only [System.puts, System.gets, State.unread, hpc, tally_const, Pc.putting, Pc.getting, Pc.space,
    Pc.items, Nat.mul_zero, Nat.add_zero] at hputs hgets hspace hitems
  have hplaces : 0 < capacity.toNat := toNat_pos hpos
  have hfull := h.full_of_end hend hidle
  have hempty := h.empty_of_end hend hidle
  refine ⟨hidle, ?_, ?_⟩
  · omega
  · omega

/-- Two items for a consumer that gets one, in a channel of one place: both go in and one comes out. -/
theorem channel_traffic_settles_two : ∃ s : System Bool,
    Run Steps ⟨created 1 1, fun p => if p then [.put [7], .put [9]] else [.get]⟩
      [.put_wait true [7], .put_copy true] s ∧
    work 3 (fun s => tally Pc.steps s.pc) s = 7 ∧
    Settles Steps (fun last => (∀ p, last.state.pc p = .idle) ∧
      last.state.copied_in.length = min 2 (1 + 1) ∧ last.state.copied_out.length = min 2 1)
      s (work 3 (fun s => tally Pc.steps s.pc) s) := by
  have hwait : Steps ⟨created 1 1, fun p => if p then [.put [7], .put [9]] else [.get]⟩
      (.put_wait true [7]) _ := .begin rfl rfl rfl
  have htraffic : Traffic 1 fun p : Bool => if p then [.put [7], .put [9]] else [.get] := by
    refine ⟨?_, ?_⟩
    · intro p
      cases p with
      | true => exact .inl (by decide)
      | false => exact .inr (by decide)
    · intro p item hmem
      cases p with
      | true =>
        obtain rfl | rfl : item = [7] ∨ item = [9] := by simpa using hmem
        · rfl
        · rfl
      | false => simp at hmem
  have hrun : Run Steps ⟨created 1 1, fun p : Bool => if p then [.put [7], .put [9]] else [.get]⟩
    [.put_wait true [7], .put_copy true] _ := .snoc (.snoc .nil hwait) (.go_on rfl rfl)
  exact ⟨_, hrun, by decide, channel_traffic_settles htraffic (by decide) (by decide) (by decide) hrun⟩

end oslabs.memchannel
