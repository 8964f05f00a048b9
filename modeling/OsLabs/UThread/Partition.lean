import OsLabs.UThread.Runs

open oslabs.ring oslabs.list oslabs.loop oslabs.run

namespace oslabs.uthread

variable {E S : Type} {a : Queues E S} {t : Thread}

/-- Where a thread can be found: on the processor, or at a position in a list. -/
inductive Slot (E S : Type) where
  | running
  | ready (i : Nat)
  | waiting (sync : Sync E S) (i : Nat)
  deriving DecidableEq

/-- The thread runs, its entry is linked at that position of the ready queue, or
    the wait block linked at that position of the waiters list names it. -/
def Queues.Occupies (a : Queues E S) (t : Thread) : Slot E S → Prop
  | .running => a.running_thread = some t
  | .ready i => a.ready[i]? = some t
  | .waiting sync i => ∃ wblock, (a.waiters sync)[i]? = some wblock ∧ a.wblock_thread wblock = t

/-- The place of the threads found in a slot. -/
def Slot.place : Slot E S → Place E S
  | .running => .running
  | .ready _ => .ready
  | .waiting sync _ => .blocked sync

theorem Queues.occupies_waiting_iff {sync : Sync E S} {i : Nat} :
    a.Occupies t (.waiting sync i) ↔ (a.blocked sync)[i]? = some t := by
  simp [Queues.Occupies, Queues.blocked]

variable {place : Thread → Place E S}

theorem Located.place_of_occupies (h : Located a place) {slot : Slot E S}
    (hslot : a.Occupies t slot) : place t = slot.place := by
  cases slot with
  | running => exact (h.running t).mpr hslot
  | ready i => exact (h.mem_ready t).mp (List.mem_of_getElem? hslot)
  | waiting sync i =>
    exact (h.mem_blocked sync t).mp (List.mem_of_getElem? (Queues.occupies_waiting_iff.mp hslot))

theorem Located.exists_slot (h : Located a place) (hplace : place t ≠ .gone) :
    ∃ slot, a.Occupies t slot := by
  cases hcase : place t with
  | running => exact ⟨.running, (h.running t).mp hcase⟩
  | ready =>
    obtain ⟨i, hi⟩ := List.mem_iff_getElem?.mp ((h.mem_ready t).mpr hcase)
    exact ⟨.ready i, hi⟩
  | blocked sync =>
    obtain ⟨i, hi⟩ := List.mem_iff_getElem?.mp ((h.mem_blocked sync t).mpr hcase)
    exact ⟨.waiting sync i, Queues.occupies_waiting_iff.mpr hi⟩
  | gone => exact absurd hcase hplace

private theorem index_unique {l : List Thread} (hnodup : l.Nodup) {i j : Nat} (hi : l[i]? = some t)
    (hj : l[j]? = some t) : i = j := by
  obtain ⟨hlt, _⟩ := List.getElem?_eq_some_iff.mp hi
  exact (List.getElem?_inj hlt hnodup).mp (hi.trans hj.symm)

theorem Located.slot_unique (h : Located a place) {slot other : Slot E S}
    (hslot : a.Occupies t slot) (hother : a.Occupies t other) : slot = other := by
  have hplace : slot.place = other.place :=
    (h.place_of_occupies hslot).symm.trans (h.place_of_occupies hother)
  cases slot with
  | running =>
    cases other with
    | running => rfl
    | ready j => cases hplace
    | waiting sync j => cases hplace
  | ready i =>
    cases other with
    | ready j => rw [index_unique h.ready_nodup hslot hother]
    | running => cases hplace
    | waiting sync j => cases hplace
  | waiting sync i =>
    cases other with
    | waiting sync' j =>
      cases hplace
      rw [Queues.occupies_waiting_iff] at hslot hother
      rw [index_unique (h.blocked_nodup sync) hslot hother]
    | running => cases hplace
    | ready j => cases hplace

/-- A thread that is gone is found nowhere. -/
theorem Located.not_occupies (h : Located a place) (hplace : place t = .gone) (slot : Slot E S) :
    ¬ a.Occupies t slot := by
  intro hslot
  have hgone := (h.place_of_occupies hslot).symm.trans hplace
  cases slot <;> cases hgone

/-- The partition of the threads. Every thread created and not yet exited is in
    one slot, all other threads and the main thread are in none, and the library
    counts the threads that are left. -/
structure Partitioned (a : Queues E S) : Prop where
  live_once : ∀ block ∈ a.live, ∃! slot, a.Occupies (.user block) slot
  exited_nowhere : ∀ block ∉ a.live, ∀ slot, ¬ a.Occupies (.user block) slot
  main_nowhere : ∀ slot, ¬ a.Occupies .main slot
  count : a.number_of_threads.toNat = a.live.card

theorem Located.partitioned (h : Located a place) (hrunning : a.running_thread ≠ some .main) :
    Partitioned a where
  live_once block hlive := by
    obtain ⟨slot, hslot⟩ := h.exists_slot ((h.live block).mp hlive)
    exact ⟨slot, hslot, fun other hother => h.slot_unique hother hslot⟩
  exited_nowhere block hlive := by
    have hgone : place (.user block) = .gone := by
      by_contra hplace
      exact hlive ((h.live block).mpr hplace)
    exact h.not_occupies hgone
  main_nowhere := by
    have hgone : place .main = .gone := by
      rcases h.main with hrun | hgone
      · exact absurd ((h.running _).mp hrun) hrunning
      · exact hgone
    exact h.not_occupies hgone
  count := h.count

variable [DecidableEq E] [DecidableEq S]

/-- While a user thread runs, the links in memory spell out queues that
    partition the threads. No call of `ut_activate` in the run was made on an
    entry that was linked. -/
theorem scheduler_partition {s₀ s : State E S} {calls : List (Call E S)} (hinitial : Initial s₀)
    (hrun : Run Step s₀ calls s) {block : Nat} (hrunning : s.running_thread = some (.user block)) :
    ∃ a : Queues E S, s.toCore = a.toCore ∧ Rings s.links sentinel a.entries ∧ Partitioned a ∧
      ∀ activation ∈ s.activations, NotLinked activation.2 activation.1 := by
  obtain ⟨a, place, _, href, hlocated⟩ := run_refines hinitial hrun
  refine ⟨a, href.core, href.rings, hlocated.partitioned ?_, href.activations⟩
  rw [show a.running_thread = s.running_thread by rw [href.core], hrunning]
  simp

/-- One of three threads waits for an event, one runs and one is ready. -/
def oneEach : List (Option Thread × Call Unit Unit) :=
  [(none, .ut_create 1 4096), (none, .ut_create 2 40960), (none, .ut_create 3 77824), (none, .ut_run),
    (some (.user 1), .event_wait () 0)]

theorem scheduler_partition_started : ∃ (s : State Unit Unit) (a : Queues Unit Unit),
    Run Step (booted fun _ => ⟨0, 1⟩) (oneEach.map Prod.snd) s ∧ s.running_thread = some (.user 2) ∧
      a.ready = [.user 3] ∧ a.waiters (.event ()) = [0] ∧ s.wblock_thread 0 = .user 1 ∧
      s.toCore = a.toCore ∧ Rings s.links sentinel a.entries ∧ Partitioned a ∧
      ∀ activation ∈ s.activations, NotLinked activation.2 activation.1 := by
  have hrun := run_of_stepBy (stepBy_of_plays (fun _ => ⟨0, 1⟩) (show plays _ _ [] oneEach = true by decide +kernel))
  have hrunning : (after (booted fun _ : Unit => ⟨0, 1⟩) (oneEach.map Prod.snd)).running_thread =
      some (.user 2) := by decide +kernel
  have hready : Ring (after (booted fun _ : Unit => ⟨0, 1⟩) (oneEach.map Prod.snd)).links .ready_queue
      [.thread (.user 3)] := by decide +kernel
  have hwaiters : Ring (after (booted fun _ : Unit => ⟨0, 1⟩) (oneEach.map Prod.snd)).links
      (.waiters (.event ())) [.wblock 0] := by decide +kernel
  have hthread : (after (booted fun _ : Unit => ⟨0, 1⟩) (oneEach.map Prod.snd)).wblock_thread 0 = .user 1 := by
    decide +kernel
  obtain ⟨a, hcore, hrings, hpartitioned, hactivations⟩ :=
    scheduler_partition (booted_initial _) hrun hrunning
  have hready' := (hrings.each none).entries_unique hready
  have hwaiters' := (hrings.each (some (.event ()))).entries_unique hwaiters
  refine ⟨_, a, hrun, hrunning, ?_, ?_, hthread, hcore, hrings, hpartitioned, hactivations⟩
  · exact List.map_injective_iff.mpr (fun _ _ heq => Entry.thread.inj heq) hready'
  · exact List.map_injective_iff.mpr (fun _ _ heq => Entry.wblock.inj heq) hwaiters'

end oslabs.uthread
