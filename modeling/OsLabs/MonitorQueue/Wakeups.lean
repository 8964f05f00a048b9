import OsLabs.Lib.Tally
import OsLabs.MonitorQueue.Order

open oslabs.ring oslabs.list oslabs.run oslabs.census

namespace oslabs.queue

variable {T I : Type} [Fintype T] {s s' : State T I} {nodes : List UInt64} {guard : Guard}

/-- The number of threads that are woken and have not got the lock again. -/
def wokenCount (pc : T → Pc I) : Nat :=
  tally (fun p => if p.isWoken then 1 else 0) pc

/-- While a thread sleeps, every item has a woken thread on its way to it. -/
def Attended (s : State T I) : Prop :=
  (∃ t, (s.pc t).isWaiting) → s.size.toNat ≤ wokenCount s.pc

theorem wokenCount_eq_card (pc : T → Pc I) :
    wokenCount pc = (Finset.univ.filter fun t => (pc t).isWoken).card :=
  tally_indicator (fun p : Pc I => p.isWoken) pc

variable [DecidableEq T]

/-- One thread that moves changes the count by its own part. -/
theorem wokenCount_update (pc : T → Pc I) (t : T) (p : Pc I) :
    wokenCount (Function.update pc t p) + (if (pc t).isWoken then 1 else 0) =
      wokenCount pc + if p.isWoken then 1 else 0 :=
  tally_update _ pc t p

/-- A signal adds the threads it wakes, which slept before. -/
theorem wokenCount_signal (pc : T → Pc I) {woken : Finset T} (h : Signals pc woken) :
    wokenCount (pthread_cond_signal pc woken) = wokenCount pc + woken.card := by
  have hslept : ∑ t ∈ woken, (if (pc t).isWoken then 1 else 0) = 0 := by
    refine Finset.sum_eq_zero fun t ht => ?_
    have hwaiting := h.1 t ht
    cases hpc : pc t <;> simp_all [Pc.isWaiting, Pc.isWoken]
  have hmoved := tally_piecewise (fun p : Pc I => if p.isWoken then 1 else 0) pc woken .woken
  unfold wokenCount pthread_cond_signal
  simp only [hslept] at hmoved
  simpa [Pc.isWoken] using hmoved

omit [Fintype T] in
/-- A thread that sleeps after one thread's move slept before, or has moved. -/
theorem waiting_of_update {pc : T → Pc I} {t : T} {p : Pc I}
    (h : ∃ u, (Function.update pc t p u).isWaiting) :
    p.isWaiting ∨ ∃ u, (pc u).isWaiting := by
  obtain ⟨u, hu⟩ := h
  by_cases heq : u = t
  · subst heq
    rw [Function.update_self] at hu
    exact .inl hu
  · rw [Function.update_of_ne heq] at hu
    exact .inr ⟨u, hu⟩

omit [DecidableEq T] in
theorem Initial.attended (h : Initial s) : Attended s := by
  rintro ⟨t, ht⟩
  simp [h.pc, Pc.isWaiting] at ht

/-- A step of one thread that does not put it to sleep keeps the items attended,
    if it takes no woken thread without an item. -/
theorem Attended.move (h : Attended s) {t : T} {p : Pc I} (hpc : s'.pc = Function.update s.pc t p)
    (hwaiting : p.isWaiting = false)
    (hsize : s'.size.toNat + (if (s.pc t).isWoken then 1 else 0) ≤
      s.size.toNat + if p.isWoken then 1 else 0) : Attended s' := by
  intro hsleeps
  rw [hpc] at hsleeps ⊢
  obtain hself | hother := waiting_of_update hsleeps
  · rw [hwaiting] at hself
    cases hself
  · have hbound := h hother
    have hcount := wokenCount_update s.pc t p
    omega

/-- A put wakes a thread for its item, if any thread sleeps. -/
theorem Attended.put_section (h : Attended s) (hordered : Ordered s nodes) {t : T} {pnode : UInt64}
    {woken : Finset T} (hpc : s.pc t = .put_ready pnode) (hsignals : Signals s.pc woken) :
    Attended (queue_put_section s t pnode woken) := by
  have hsize : (queue_put_section s t pnode woken).size.toNat = s.size.toNat + 1 := by
    rw [(hordered.put_section woken hpc).size, hordered.size, List.length_append,
      List.length_singleton]
  intro hsleeps
  have hslept : ∃ u, (s.pc u).isWaiting := by
    obtain hself | ⟨u, hu⟩ := waiting_of_update hsleeps
    · cases hself
    · refine ⟨u, ?_⟩
      unfold pthread_cond_signal at hu
      split at hu
      · cases hu
      · exact hu
  have hnot : t ∉ woken := by
    intro hmem
    have hwaiting := hsignals.1 t hmem
    rw [hpc] at hwaiting
    cases hwaiting
  have hcount := wokenCount_update (pthread_cond_signal s.pc woken) t .idle
  have hsignal := wokenCount_signal s.pc hsignals
  have hwoken := Finset.card_pos.mpr (hsignals.2 hslept)
  have hbound := h hslept
  have hcalm : (pthread_cond_signal s.pc woken t).isWoken = false := by
    rw [pthread_cond_signal, if_neg hnot, hpc]
    rfl
  rw [hcalm] at hcount
  simp only [Pc.isWoken, Bool.false_eq_true, if_false] at hcount
  rw [hsize]
  simp only [queue_put_section]
  omega

/-- Every step keeps the items attended. -/
theorem Attended.step {label : Label T I} (h : Attended s) (hordered : Ordered s nodes)
    (hmove : Move guard s label s') : Attended s' := by
  cases hmove with
  | put_begin hpc hnull hfresh => exact h.move rfl rfl (by simp [queue_put_begin, hpc, Pc.isWoken])
  | put_section hpc hsignals => exact h.put_section hordered hpc hsignals
  | get_begin hpc => exact h.move rfl rfl (by simp [hpc, Pc.isWoken])
  | wait hpc hguard =>
    intro _
    have hempty := hordered.size
    rw [hordered.waits_iff.mp hguard, List.length_nil] at hempty
    simp [hempty]
  | @take t _ hpc hguard hsection =>
    cases nodes with
    | nil => simp [hordered.waits_iff.mpr rfl] at hguard
    | cons pnode rest =>
      have hnone : (s.pc t).node? = none := by obtain hpc | hpc := hpc <;> rw [hpc] <;> rfl
      have htaken := (hordered.take hnone).size
      have hsize := hordered.size
      rw [List.length_cons] at hsize
      rw [hordered.queue_get_section_eq] at hsection
      obtain rfl := Option.some.inj hsection
      apply h.move (t := t) rfl rfl
      rw [htaken, hsize]
      split <;> omega
  | spurious hpc => exact h.move rfl rfl (by simp [hpc, Pc.isWoken])
  | get_end hpc => exact h.move rfl rfl (by simp [queue_get_end, hpc, Pc.isWoken])

/-- No wake-up is lost. While a thread sleeps, there are at most as many items in
    the queue as woken threads that have not got the lock again. So the queue is
    never non-empty with all threads that wait for items asleep. -/
theorem queue_no_lost_wakeup {s₀ : State T I} {labels : List (Label T I)} (hinitial : Initial s₀)
    (hrun : Run (StepOf (step guard)) s₀ labels s) :
    ∃ nodes : List UInt64, Ring s.links .head (nodes.map .node) ∧
      ((∃ t, s.pc t = .waiting) →
        nodes.length ≤ (Finset.univ.filter fun t => (s.pc t).isWoken).card) ∧
      (nodes ≠ [] → (∃ t, s.pc t = .waiting) → ∃ u, s.pc u = .woken) := by
  obtain ⟨nodes, hordered, hattended⟩ : ∃ nodes, Ordered s nodes ∧ Attended s := by
    apply hrun.invariant (fun s => ∃ nodes, Ordered s nodes ∧ Attended s)
    · exact ⟨[], hinitial.ordered, hinitial.attended⟩
    · rintro s label s' ⟨nodes, hordered, hattended⟩ hstep
      have hmove := move_of_step hstep
      obtain ⟨nodes', hordered'⟩ := hordered.step hmove
      exact ⟨nodes', hordered', hattended.step hordered hmove⟩
  have hbound : (∃ t, s.pc t = .waiting) → nodes.length ≤ wokenCount s.pc := by
    rintro ⟨t, ht⟩
    rw [← hordered.size]
    exact hattended ⟨t, by rw [ht]; rfl⟩
  refine ⟨nodes, hordered.ring, ?_, ?_⟩
  · rwa [← wokenCount_eq_card]
  · intro hitems hsleeps
    have hpos : 0 < wokenCount s.pc := by
      have hlength := List.length_pos_of_ne_nil hitems
      have hle := hbound hsleeps
      omega
    obtain ⟨u, hu⟩ := exists_of_tally_pos hpos
    refine ⟨u, ?_⟩
    cases hpc : s.pc u <;> simp_all [Pc.isWoken]

/-- Two threads fall asleep, and a third puts an item and wakes one of them. -/
theorem queue_no_lost_wakeup_signalled : ∃ s : State (Fin 3) Nat,
    Run (StepOf (step .list)) (initialised 0)
      [.get_begin 0, .get_section 0, .get_begin 1, .get_section 1, .put_begin 2 1 7,
        .put_section 2 {0}] s ∧
    ∃ nodes : List UInt64, Ring s.links .head (nodes.map .node) ∧
      ((∃ t, s.pc t = .waiting) →
        nodes.length ≤ (Finset.univ.filter fun t => (s.pc t).isWoken).card) ∧
      (nodes ≠ [] → (∃ t, s.pc t = .waiting) → ∃ u, s.pc u = .woken) := by
  have hrun := run_stepOf_iff.mpr (show exec (step .list) (initialised 0 : State (Fin 3) Nat)
    [.get_begin 0, .get_section 0, .get_begin 1, .get_section 1, .put_begin 2 1 7,
      .put_section 2 {0}] = some _ from rfl)
  exact ⟨_, hrun, queue_no_lost_wakeup (initialised_initial 0) hrun⟩

end oslabs.queue
