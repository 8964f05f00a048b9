import OsLabs.Lib.Workload
import OsLabs.MonitorQueue.Wakeups

open oslabs.ring oslabs.list oslabs.run oslabs.census oslabs.workload

namespace oslabs.queue

variable {T I : Type} [DecidableEq T] [Fintype T]

/-- The step with which a call begins. -/
def begins : Label T I → Option (T × Errand I)
  | .put_begin t _ item => some (t, .put item)
  | .get_begin t => some (t, .get)
  | _ => none

/-- The steps but for the wake-ups that nobody has called for. -/
def prompted (guard : Guard) (s : State T I) : Label T I → Option (State T I)
  | .spurious _ => none
  | label => step guard s label

/-- Threads, each with the puts or the gets that it has still to begin. -/
abbrev System (T I : Type) := Loaded (State T I) T (Errand I)

def Steps (guard : Guard) : System T I → Label T I → System T I → Prop :=
  Step (StepOf (prompted guard)) begins

/-- How many steps a thread has still to make, at most. A put wakes sleepers, which find an item
    or go to sleep again. -/
def Pc.steps (threads : Nat) : Pc I → Nat
  | .idle | .waiting => 0
  | .put_ready _ => 2 * threads + 1
  | .get_enter | .woken => 2
  | .got _ _ => 1

/-- A thread before the section of `queue_put`, or before the end of the loop of `queue_get`. -/
def Pc.putting : Pc I → Nat
  | .put_ready _ => 1
  | _ => 0

def Pc.getting : Pc I → Nat
  | .get_enter | .waiting | .woken => 1
  | _ => 0

/-- The items still to be linked, and those still to be unlinked. -/
def System.puts (s : System T I) : Nat :=
  remaining Errand.isPut s.tasks + tally Pc.putting s.state.pc

def System.gets (s : System T I) : Nat :=
  remaining Errand.isGet s.tasks + tally Pc.getting s.state.pc

section Signal

variable (pc : T → Pc I) (woken : Finset T) (weight : Pc I → Nat)

/-- Threads that are woken change a weight by no more than their own. -/
theorem tally_signal_le {c : Nat} (hwoken : weight .woken ≤ c) :
    tally weight (pthread_cond_signal pc woken) ≤ tally weight pc + woken.card * c := by
  have hmoved := tally_piecewise weight pc woken .woken
  have hmul := Nat.mul_le_mul_left woken.card hwoken
  unfold pthread_cond_signal
  omega

/-- A weight that is the same asleep and woken is not changed by a signal. -/
theorem tally_signal_eq {woken : Finset T} (hsame : weight .woken = weight .waiting)
    (hsignals : Signals pc woken) : tally weight (pthread_cond_signal pc woken) = tally weight pc := by
  unfold tally
  refine Finset.sum_congr rfl fun t _ => ?_
  unfold pthread_cond_signal
  split
  · rename_i hmem
    have hwaiting := hsignals.1 t hmem
    cases hpc : pc t with
    | waiting => rw [hsame]
    | _ => simp [hpc, Pc.isWaiting] at hwaiting
  · rfl

end Signal

section Moves

variable {guard : Guard} {s s' : State T I} {label : Label T I}

theorem prompted_eq_some (h : prompted guard s label = some s') : step guard s label = some s' := by
  cases label with
  | spurious => cases h
  | put_begin | put_section | get_begin | get_section | get_end => exact h

omit [Fintype T] in
/-- What the section of `queue_get` does when there is something to take. -/
theorem taken_of_section {t : T} (hguard : guard.waits s = false)
    (hsection : queue_get_section guard s t = some s') :
    ∃ pnode, s'.pc = Function.update s.pc t (.got pnode (s.item pnode)) ∧
      s'.taken = s.taken ++ [s.item pnode] ∧ s'.puts = s.puts ∧ s'.allocated = s.allocated := by
  rw [queue_get_section, hguard, if_neg Bool.false_ne_true] at hsection
  obtain ⟨pnode, _, hs'⟩ := Option.bind_eq_some_iff.1 hsection
  obtain rfl := Option.some.inj hs'
  exact ⟨pnode, rfl, rfl, rfl, rfl⟩

/-- A thread takes a step alone, or wakes others with its item. -/
inductive Turn (s : State T I) (s' : State T I) (task? : Option (T × Errand I)) : Prop where
  | alone {t : T} {next : Pc I} (hpc : s'.pc = Function.update s.pc t next)
      (hsteps : next.steps (Fintype.card T) <
        (s.pc t).steps (Fintype.card T) + (2 * Fintype.card T + 2) * begun (fun _ => true) task?)
      (hputs : next.putting + s'.puts.length =
        (s.pc t).putting + s.puts.length + begun Errand.isPut task?)
      (hgets : next.getting + s'.taken.length =
        (s.pc t).getting + s.taken.length + begun Errand.isGet task?)
      (hallocated : s'.allocated.card ≤ s.allocated.card + begun Errand.isPut task?)
      (hengaged : next.getting = 1 → (s.pc t).getting = 1 ∨ task? = some (t, .get))
  | wakes {t : T} {pnode : UInt64} {woken : Finset T} (hpc : s.pc t = .put_ready pnode)
      (hsignals : Signals s.pc woken) (htask : task? = none) (hs' : s' = queue_put_section s t pnode woken)

theorem turn_of_step (h : prompted guard s label = some s') : Turn s s' (begins label) := by
  have hmove := move_of_step (prompted_eq_some h)
  cases hmove with
  | spurious => cases h
  | put_begin hpc =>
    refine .alone rfl ?_ ?_ ?_ ?_ ?_
    · simp [hpc, Pc.steps, begun, begins]
    · simp [hpc, Pc.putting, begun, begins, Errand.isPut, queue_put_begin, Nat.add_comm]
    · simp [hpc, Pc.getting, begun, begins, Errand.isGet, queue_put_begin]
    · simp [begun, begins, Errand.isPut, queue_put_begin, Finset.card_insert_le]
    · simp [Pc.getting]
  | put_section hpc hsignals => exact .wakes hpc hsignals rfl rfl
  | @get_begin t hpc =>
    have hthreads : 0 < Fintype.card T := Fintype.card_pos_iff.2 ⟨t⟩
    refine .alone rfl ?_ ?_ ?_ ?_ ?_
    · simp [hpc, Pc.steps, begun, begins]
      omega
    · simp [hpc, Pc.putting, begun, begins, Errand.isPut]
    · simp [hpc, Pc.getting, begun, begins, Errand.isGet, Nat.add_comm]
    · simp
    · exact fun _ => .inr rfl
  | wait hpc hguard =>
    refine .alone rfl ?_ ?_ ?_ ?_ ?_
    · rcases hpc with hpc | hpc <;> simp [hpc, Pc.steps]
    · rcases hpc with hpc | hpc <;> simp [hpc, Pc.putting, begun, begins]
    · rcases hpc with hpc | hpc <;> simp [hpc, Pc.getting, begun, begins]
    · simp
    · rcases hpc with hpc | hpc <;> simp [hpc, Pc.getting]
  | take hpc hguard hsection =>
    obtain ⟨pnode, hupdate, htaken, hputs, hallocated⟩ := taken_of_section hguard hsection
    refine .alone hupdate ?_ ?_ ?_ ?_ ?_
    · rcases hpc with hpc | hpc <;> simp [hpc, Pc.steps, begun, begins]
    · rcases hpc with hpc | hpc <;> simp [hpc, hputs, Pc.putting, begun, begins]
    · rcases hpc with hpc | hpc <;> simp [hpc, htaken, Pc.getting, begun, begins, Nat.add_comm]
    · simp [hallocated]
    · simp [Pc.getting]
  | get_end hpc =>
    refine .alone rfl ?_ ?_ ?_ ?_ ?_
    · simp [hpc, Pc.steps]
    · simp [hpc, Pc.putting, begun, begins, queue_get_end]
    · simp [hpc, Pc.getting, begun, begins, queue_get_end]
    · simp [queue_get_end, Nat.le_add_right_of_le, Finset.card_erase_le]
    · simp [Pc.getting]

/-- The thread that puts an item wakes others, and not itself. -/
theorem tally_put_section (weight : Pc I → Nat) {t : T} {pnode : UInt64} {woken : Finset T}
    (hpc : s.pc t = .put_ready pnode) (hsignals : Signals s.pc woken) :
    tally weight (queue_put_section s t pnode woken).pc + weight (.put_ready pnode) =
      tally weight (pthread_cond_signal s.pc woken) + weight .idle := by
  have htally := tally_update weight (pthread_cond_signal s.pc woken) t .idle
  have hnot : t ∉ woken := by
    intro hmem
    have hwaiting := hsignals.1 t hmem
    rw [hpc] at hwaiting
    cases hwaiting
  have hsame : pthread_cond_signal s.pc woken t = .put_ready pnode := by
    rw [pthread_cond_signal, if_neg hnot, hpc]
  rwa [hsame] at htally

end Moves

variable {guard : Guard} {s s' : System T I} {label : Label T I}

/-- So much for each task that is to be begun: its steps, and those of the threads that it wakes. -/
def cost (T : Type) [Fintype T] : Nat := 2 * Fintype.card T + 2

theorem Steps.work_lt (hstep : Steps guard s label s') :
    work (cost T) (fun s => tally (Pc.steps (Fintype.card T)) s.pc) s' <
      work (cost T) (fun s => tally (Pc.steps (Fintype.card T)) s.pc) s := by
  apply Step.work_lt hstep
  cases turn_of_step hstep.base with
  | @alone t next hpc hsteps =>
    have htally := tally_update (Pc.steps (Fintype.card T)) s.state.pc t next
    rw [hpc, cost]
    omega
  | @wakes t pnode woken hpc hsignals htask hs' =>
    have htally := tally_put_section (Pc.steps (Fintype.card T)) hpc hsignals
    have hsignal := tally_signal_le s.state.pc woken (Pc.steps (Fintype.card T)) (Nat.le_refl 2)
    have hwoken : woken.card ≤ Fintype.card T := Finset.card_le_univ woken
    simp only [Pc.steps] at htally
    rw [hs']
    omega

theorem Steps.puts (hstep : Steps guard s label s') :
    s'.puts + s'.state.puts.length = s.puts + s.state.puts.length := by
  have hremaining := hstep.remaining_add Errand.isPut
  rw [System.puts, System.puts]
  cases turn_of_step hstep.base with
  | @alone t next hpc _ hputs =>
    have htally := tally_update Pc.putting s.state.pc t next
    rw [hpc]
    omega
  | wakes hpc hsignals htask hs' =>
    have htally := tally_put_section Pc.putting hpc hsignals
    rw [tally_signal_eq s.state.pc _ rfl hsignals] at htally
    simp only [Pc.putting] at htally
    simp only [htask, begun, Option.any_none, Bool.false_eq_true, if_false] at hremaining
    have hlength : s'.state.puts.length = s.state.puts.length + 1 := by
      rw [hs']
      simp [queue_put_section]
    rw [hlength, hs']
    omega

theorem Steps.gets (hstep : Steps guard s label s') :
    s'.gets + s'.state.taken.length = s.gets + s.state.taken.length := by
  have hremaining := hstep.remaining_add Errand.isGet
  rw [System.gets, System.gets]
  cases turn_of_step hstep.base with
  | @alone t next hpc _ _ hgets =>
    have htally := tally_update Pc.getting s.state.pc t next
    rw [hpc]
    omega
  | wakes hpc hsignals htask hs' =>
    have htally := tally_put_section Pc.getting hpc hsignals
    rw [tally_signal_eq s.state.pc _ rfl hsignals] at htally
    simp only [Pc.getting] at htally
    simp only [htask, begun, Option.any_none, Bool.false_eq_true, if_false] at hremaining
    have htaken : s'.state.taken = s.state.taken := by rw [hs']; rfl
    rw [htaken, hs']
    omega

/-- What holds of the threads and the queue all the time. -/
structure Sound (puts gets : Nat) (s : System T I) : Prop where
  one_way : OneWay s.tasks
  engaged : ∀ t, (s.state.pc t).getting = 1 → ∀ task ∈ s.tasks t, task.isGet = true
  ordered : ∃ nodes, Ordered s.state nodes
  attended : Attended s.state
  allocated : s.state.allocated.card + remaining Errand.isPut s.tasks ≤ puts
  gets : s.gets + s.state.taken.length = gets
  puts : s.puts + s.state.puts.length = puts

variable {puts gets : Nat}

theorem Sound.engaged_step (h : Sound puts gets s) (hstep : Steps guard s label s') (t : T)
    (hgetting : (s'.state.pc t).getting = 1) (task : Errand I) (hmem : task ∈ s'.tasks t) :
    task.isGet = true := by
  have hbefore := hstep.mem_tasks hmem
  cases turn_of_step hstep.base with
  | @alone u next hpc _ _ _ _ hengaged =>
    rw [hpc] at hgetting
    by_cases htu : t = u
    · subst htu
      rw [Function.update_self] at hgetting
      rcases hengaged hgetting with hold | hbegins
      · exact h.engaged t hold task hbefore
      · exact h.one_way.gets_of_mem (hstep.mem_of_begins hbegins) hbefore
    · rw [Function.update_of_ne htu] at hgetting
      exact h.engaged t hgetting task hbefore
  | @wakes u pnode woken hpc hsignals _ hs' =>
    refine h.engaged t ?_ task hbefore
    rw [hs'] at hgetting
    by_cases htu : t = u
    · subst htu
      simp [queue_put_section, Pc.getting] at hgetting
    · simp only [queue_put_section, Function.update_of_ne htu, pthread_cond_signal] at hgetting
      split at hgetting
      · rename_i hwoken
        have hwaiting := hsignals.1 t hwoken
        cases hpc : s.state.pc t with
        | waiting => rfl
        | _ => simp [hpc, Pc.isWaiting] at hwaiting
      · exact hgetting

theorem Sound.step (h : Sound puts gets s) (hstep : Steps guard s label s') : Sound puts gets s' := by
  obtain ⟨nodes, hordered⟩ := h.ordered
  have hmove := move_of_step (prompted_eq_some hstep.base)
  refine ⟨h.one_way.step hstep, h.engaged_step hstep, hordered.step hmove, h.attended.step hordered hmove, ?_,
    hstep.gets.trans h.gets, hstep.puts.trans h.puts⟩
  have hremaining := hstep.remaining_add Errand.isPut
  have hbound := h.allocated
  cases turn_of_step hstep.base with
  | alone _ _ _ _ hallocated => omega
  | wakes _ _ htask hs' =>
    have hsame : s'.state.allocated = s.state.allocated := by rw [hs']; rfl
    rw [hsame]
    omega

/-- As long as there are addresses, `malloc` has a block that is not in use. -/
theorem exists_fresh {allocated : Finset UInt64} (h : allocated.card + 1 < 2 ^ 64) :
    ∃ pnode, pnode ≠ 0 ∧ pnode ∉ allocated := by
  have haddresses : ((Finset.range (allocated.card + 2)).image UInt64.ofNat).card = allocated.card + 2 := by
    rw [Finset.card_image_of_injOn, Finset.card_range]
    intro m hm n hn hmn
    have hm' : m < allocated.card + 2 := by simpa using hm
    have hn' : n < allocated.card + 2 := by simpa using hn
    have htoNat := congrArg UInt64.toNat hmn
    rwa [UInt64.toNat_ofNat_of_lt' (show m < 2 ^ 64 by omega),
      UInt64.toNat_ofNat_of_lt' (show n < 2 ^ 64 by omega)] at htoNat
  have hcard : (insert 0 allocated).card < ((Finset.range (allocated.card + 2)).image UInt64.ofNat).card := by
    rw [haddresses]
    have hinsert := Finset.card_insert_le 0 allocated
    omega
  obtain ⟨pnode, _, hnot⟩ := Finset.exists_mem_notMem_of_card_lt_card hcard
  rw [Finset.mem_insert, not_or] at hnot
  exact ⟨pnode, hnot⟩

section End

variable (hend : ∀ label s', ¬ Steps guard s label s')
include hend

/-- Where no step is left, each thread is in no call or waits for an item. -/
theorem Sound.pc_of_end (h : Sound puts gets s) (t : T) : s.state.pc t = .idle ∨ s.state.pc t = .waiting := by
  have hnone : ∀ label, begins label = none → prompted guard s.state label = none :=
    fun _ => eq_none_of_go_on hend
  obtain ⟨nodes, hordered⟩ := h.ordered
  have hsection : ∃ state, queue_get_section guard s.state t = some state := by
    cases nodes with
    | nil => exact ⟨_, by rw [queue_get_section, if_pos (hordered.waits_iff.2 rfl)]⟩
    | cons pnode rest => exact ⟨_, hordered.queue_get_section_eq guard t⟩
  obtain ⟨state, hsection⟩ := hsection
  cases hpc : s.state.pc t with
  | idle => exact .inl rfl
  | waiting => exact .inr rfl
  | put_ready pnode =>
    have hput := hnone (.put_section t (Finset.univ.filter fun u => (s.state.pc u).isWaiting)) rfl
    have hsignals : Signals s.state.pc (Finset.univ.filter fun u => (s.state.pc u).isWaiting) := by
      refine ⟨by simp, ?_⟩
      rintro ⟨u, hu⟩
      exact ⟨u, by simpa using hu⟩
    simp [prompted, queue.step, hpc, hsignals] at hput
  | get_enter | woken =>
    have hget := hnone (.get_section t) rfl
    simp [prompted, queue.step, hpc, hsection] at hget
  | got pnode item =>
    have hgot := hnone (.get_end t) rfl
    simp [prompted, queue.step, hpc] at hgot

/-- Where no step is left, all puts are done: a producer does not wait, and finds a block. -/
theorem Sound.no_puts_of_end (h : Sound puts gets s) (hputs : puts < 2 ^ 64) :
    remaining Errand.isPut s.tasks = 0 := by
  by_contra hleft
  obtain ⟨t, item, rest, htasks⟩ := h.one_way.exists_put (Nat.pos_of_ne_zero hleft)
  have hbound := h.allocated
  obtain ⟨pnode, hnull, hfresh⟩ :=
    exists_fresh (show s.state.allocated.card + 1 < 2 ^ 64 by omega)
  have hnone : prompted guard s.state (.put_begin t pnode item) = none := eq_none_of_begin hend htasks rfl
  obtain hidle | hwaiting := h.pc_of_end hend t
  · simp [prompted, queue.step, hidle, hnull, hfresh] at hnone
  · have hget := h.engaged t (by rw [hwaiting]; rfl) (.put item) (htasks ▸ List.mem_cons_self)
    cases hget

/-- Where no step is left, gets that are not done wait, and the queue is empty. -/
theorem Sound.empty_of_end (h : Sound puts gets s) (hgets : 0 < s.gets) : s.state.puts = s.state.taken := by
  obtain ⟨t, hwaiting⟩ : ∃ t, s.state.pc t = .waiting := by
    by_cases hleft : remaining Errand.isGet s.tasks = 0
    · rw [System.gets, hleft, Nat.zero_add] at hgets
      obtain ⟨t, ht⟩ := exists_of_tally_pos hgets
      refine ⟨t, (h.pc_of_end hend t).resolve_left fun hidle => ?_⟩
      rw [hidle] at ht
      cases ht
    · obtain ⟨t, rest, htasks⟩ := h.one_way.exists_get (Nat.pos_of_ne_zero hleft)
      have hnone : prompted guard s.state (.get_begin t) = none := eq_none_of_begin hend htasks rfl
      refine ⟨t, (h.pc_of_end hend t).resolve_left fun hidle => ?_⟩
      simp [prompted, queue.step, hidle] at hnone
  obtain ⟨nodes, hordered⟩ := h.ordered
  have hwoken : wokenCount s.state.pc = 0 := by
    refine (tally_eq_zero_iff _ _).2 fun u => ?_
    obtain hidle | hwaits := h.pc_of_end hend u
    · rw [hidle]
      rfl
    · rw [hwaits]
      rfl
  have hattended := h.attended ⟨t, by rw [hwaiting]; rfl⟩
  rw [hwoken, hordered.size] at hattended
  have horder := hordered.order
  rw [List.eq_nil_of_length_eq_zero (Nat.le_zero.1 hattended)] at horder
  simpa using horder

end End

/-- Producers and consumers of a queue come to their end in every interleaving, when no thread is
    woken that nobody has called for: all items are put, as many are taken as there are gets for,
    and the threads that wait then are those that there is no item for. -/
theorem queue_traffic_settles {tasks : T → List (Errand I)} {s₀ : State T I} {labels : List (Label T I)}
    (hinitial : Initial s₀) (hone_way : OneWay tasks) (hputs : remaining Errand.isPut tasks < 2 ^ 64)
    (hrun : Run (Steps guard) ⟨s₀, tasks⟩ labels s) :
    Settles (Steps guard) (fun last =>
      (∀ t, last.state.pc t = .idle ∨ last.state.pc t = .waiting) ∧
      last.state.puts.length = remaining Errand.isPut tasks ∧
      last.state.taken.length = min (remaining Errand.isPut tasks) (remaining Errand.isGet tasks) ∧
      (remaining Errand.isGet tasks ≤ remaining Errand.isPut tasks → ∀ t, last.state.pc t = .idle))
      s (work (cost T) (fun s => tally (Pc.steps (Fintype.card T)) s.pc) s) := by
  have hpc : s₀.pc = fun _ => .idle := funext hinitial.pc
  have hstart : Sound (remaining Errand.isPut tasks) (remaining Errand.isGet tasks)
      (⟨s₀, tasks⟩ : System T I) := by
    refine ⟨hone_way, ?_, ⟨[], hinitial.ordered⟩, hinitial.attended, ?_, ?_, ?_⟩
    · intro t hgetting
      simp [hinitial.pc, Pc.getting] at hgetting
    · simp [hinitial.allocated]
    · simp [System.gets, hinitial.taken, hpc, tally_const, Pc.getting]
    · simp [System.puts, hinitial.puts, hpc, tally_const, Pc.putting]
  have hsound := hrun.invariant _ hstart fun _ _ _ h hstep => h.step hstep
  refine settles_of_measure _ _ (fun _ _ _ h hstep => ⟨h.step hstep, hstep.work_lt⟩) ?_ hsound
  intro last h hend
  have hends := h.pc_of_end hend
  have hnone := h.no_puts_of_end hend hputs
  have hputting : tally Pc.putting last.state.pc = 0 := by
    refine (tally_eq_zero_iff _ _).2 fun t => ?_
    obtain hidle | hwaiting := hends t
    · rw [hidle]
      rfl
    · rw [hwaiting]
      rfl
  have hall := h.puts
  rw [System.puts, hnone, hputting, Nat.zero_add] at hall
  have hgets := h.gets
  obtain ⟨nodes, hordered⟩ := h.ordered
  have hle : last.state.taken.length ≤ last.state.puts.length := by
    rw [hordered.order, List.length_append]
    exact Nat.le_add_right _ _
  have hempty : 0 < last.gets → last.state.puts.length = last.state.taken.length :=
    fun hleft => congrArg List.length (h.empty_of_end hend hleft)
  refine ⟨hends, by omega, by omega, fun henough t => (hends t).resolve_right fun hwaiting => ?_⟩
  have hweight := weight_le_tally Pc.getting last.state.pc t
  rw [hwaiting] at hweight
  have hleft : 0 < last.gets := Nat.lt_of_lt_of_le hweight (Nat.le_add_left _ _)
  have hsame := hempty hleft
  omega

/-- One item for two threads that wait: the signal wakes both, and one goes back to sleep. -/
theorem queue_traffic_settles_both : ∃ s : System (Fin 3) Nat,
    Run (Steps .size) ⟨initialised 0, fun t => if t = 2 then [.put 7] else [.get]⟩
      [.get_begin 0, .get_section 0, .get_begin 1, .get_section 1, .put_begin 2 1 7, .put_section 2 {0, 1}] s ∧
    s.state.pc 0 = .woken ∧ s.state.pc 1 = .woken ∧
    Settles (Steps .size) (fun last =>
      (∀ t, last.state.pc t = .idle ∨ last.state.pc t = .waiting) ∧
      last.state.puts.length = 1 ∧ last.state.taken.length = min 1 2 ∧
      (2 ≤ 1 → ∀ t, last.state.pc t = .idle))
      s (work (cost (Fin 3)) (fun s => tally (Pc.steps (Fintype.card (Fin 3))) s.pc) s) := by
  have hone_way : OneWay fun t : Fin 3 => if t = 2 then [.put 7] else [.get] := by
    intro t
    by_cases ht : t = 2
    · exact .inl (by simp [ht, Errand.isPut])
    · exact .inr (by simp [ht, Errand.isGet])
  have hrun : Run (Steps .size) ⟨initialised 0, fun t => if t = 2 then [.put 7] else [.get]⟩
      [.get_begin 0, .get_section 0, .get_begin 1, .get_section 1, .put_begin 2 1 7,
        .put_section 2 {0, 1}] (_ : System (Fin 3) Nat) :=
    .snoc (.snoc (.snoc (.snoc (.snoc (.snoc .nil (.begin rfl rfl rfl)) (.go_on rfl rfl)) (.begin rfl rfl rfl))
      (.go_on rfl rfl)) (.begin rfl rfl rfl)) (.go_on rfl (by rfl))
  exact ⟨_, hrun, rfl, rfl, queue_traffic_settles (initialised_initial 0) hone_way (by decide) hrun⟩

end oslabs.queue
