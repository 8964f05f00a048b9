import OsLabs.MonitorQueue.Order

open oslabs.ring oslabs.list oslabs.run

namespace oslabs.queue

/-- What the calls of a run did, as their callers see it: the item of each `queue_put`
    under way, the items of those that have been in the monitor, which thread left the
    monitor with which item, and what each thread's calls of `queue_get` returned. -/
structure Log (T I : Type) where
  putting : T → Option I
  put : List I
  taken : List (T × I)
  returned : T → List I

def Log.empty {T I : Type} : Log T I where
  putting _ := none
  put := []
  taken := []
  returned _ := []

variable {T I : Type} [DecidableEq T] {s s' : State T I} {log : Log T I} {nodes : List UInt64} {guard : Guard}

/-- What is noted of a step from `s` to `s'`. -/
def Log.note (log : Log T I) (s s' : State T I) : Label T I → Log T I
  | .put_begin t _ item => { log with putting := Function.update log.putting t (some item) }
  | .put_section t _ => { log with put := log.put ++ (log.putting t).toList }
  | .get_section t =>
    match s'.pc t with
    | .got pnode _ => { log with taken := log.taken ++ [(t, s'.item pnode)] }
    | _ => log
  | .get_end t =>
    match s.pc t with
    | .got pnode _ =>
      { log with returned := Function.update log.returned t (log.returned t ++ [(queue_get_end s t pnode).1]) }
    | _ => log
  | _ => log

/-- A step of the queue with its note. -/
def logged [Fintype T] (guard : Guard) (p : State T I × Log T I) (label : Label T I) :
    Option (State T I × Log T I) :=
  (step guard p.1 label).map fun s' => (s', p.2.note p.1 s' label)

/-- The item a thread has taken out and not yet returned. -/
def State.inHand (s : State T I) (t : T) : List I :=
  match s.pc t with
  | .got pnode _ => [s.item pnode]
  | _ => []

omit [DecidableEq T] in
theorem State.inHand_eq_nil {t : T} (h : (s.pc t).node? = none) : s.inHand t = [] := by
  unfold State.inHand
  split
  · rename_i pnode item heq
    rw [heq] at h
    cases h
  · rfl

/-- The log agrees with the memory: every node about to be linked holds its item, and what a
    thread took out is what its calls returned, and what it has in hand. -/
structure Logged (s : State T I) (log : Log T I) : Prop where
  putting : ∀ t pnode, s.pc t = .put_ready pnode → log.putting t = some (s.item pnode)
  put : s.puts = log.put
  taken : s.taken = log.taken.map Prod.snd
  returned : ∀ t, (log.taken.filter (·.1 = t)).map Prod.snd = log.returned t ++ s.inHand t

theorem Initial.logged (h : Initial s) : Logged s .empty where
  putting t pnode hpc := by simp [h.pc] at hpc
  put := h.puts
  taken := h.taken
  returned t := by simp [State.inHand, h.pc, Log.empty]

/-- A thread that has no node before and after moves. -/
theorem Logged.update (h : Logged s log) {t : T} {p : Pc I} (hbefore : (s.pc t).node? = none)
    (hafter : p.node? = none) : Logged { s with pc := Function.update s.pc t p } log where
  putting u pnode hpc := by
    by_cases heq : u = t
    · subst heq
      rw [show p = .put_ready pnode by simpa using hpc] at hafter
      cases hafter
    · exact h.putting u pnode (by simpa [heq] using hpc)
  put := h.put
  taken := h.taken
  returned u := by
    rw [h.returned u]
    by_cases heq : u = t
    · subst heq
      rw [State.inHand_eq_nil hbefore, State.inHand_eq_nil (by simpa using hafter)]
    · simp [State.inHand, heq]

/-- A fresh block gets the item of the call. -/
theorem Logged.put_begin (h : Logged s log) (hordered : Ordered s nodes) {t : T} {pnode : UInt64} {item : I}
    (hpc : s.pc t = .idle) (hfresh : pnode ∉ s.allocated) :
    Logged (queue_put_begin s t pnode item) (log.note s (queue_put_begin s t pnode item) (.put_begin t pnode item)) where
  putting u other hu := by
    by_cases heq : u = t
    · subst heq
      obtain rfl : pnode = other := by simpa [queue_put_begin] using hu
      simp [queue_put_begin, Log.note]
    · have hold : s.pc u = .put_ready other := by simpa [queue_put_begin, heq] using hu
      have hne : other ≠ pnode := by
        rintro rfl
        exact hfresh (hordered.owned u other (by rw [hold]; rfl)).1
      simpa [queue_put_begin, Log.note, heq, hne] using h.putting u other hold
  put := h.put
  taken := h.taken
  returned u := by
    have hinHand : (queue_put_begin s t pnode item).inHand u = s.inHand u := by
      by_cases heq : u = t
      · subst heq
        simp [State.inHand, queue_put_begin, hpc]
      · cases hu : s.pc u with
        | got other i =>
          have hne : other ≠ pnode := by
            rintro rfl
            exact hfresh (hordered.owned u other (by rw [hu]; rfl)).1
          simp [State.inHand, queue_put_begin, heq, hu, hne]
        | _ => simp [State.inHand, queue_put_begin, heq, hu]
    rw [hinHand]
    exact h.returned u

/-- A thread links the item of its call. -/
theorem Logged.put_section (h : Logged s log) {t : T} {pnode : UInt64} {woken : Finset T}
    (hpc : s.pc t = .put_ready pnode) (hsignals : Signals s.pc woken) :
    Logged (queue_put_section s t pnode woken)
      (log.note s (queue_put_section s t pnode woken) (.put_section t woken)) where
  putting u other hu := by
    have hold : s.pc u = .put_ready other := by
      by_cases heq : u = t
      · simp [queue_put_section, heq] at hu
      · simp only [queue_put_section, Function.update_of_ne heq, pthread_cond_signal] at hu
        split at hu
        · cases hu
        · exact hu
    exact h.putting u other hold
  put := by simp [queue_put_section, Log.note, h.put, h.putting t pnode hpc]
  taken := h.taken
  returned u := by
    have hinHand : (queue_put_section s t pnode woken).inHand u = s.inHand u := by
      by_cases heq : u = t
      · subst heq
        simp [State.inHand, queue_put_section, hpc]
      · by_cases hwoken : u ∈ woken
        · have hwaiting := hsignals.1 u hwoken
          cases hu : s.pc u with
          | waiting => simp [State.inHand, queue_put_section, pthread_cond_signal, heq, hwoken, hu]
          | _ => simp [hu, Pc.isWaiting] at hwaiting
        · simp [State.inHand, queue_put_section, pthread_cond_signal, heq, hwoken]
    rw [hinHand]
    exact h.returned u

/-- A thread takes out the first item. -/
theorem Logged.take (h : Logged s log) {pnode : UInt64} {links : oslabs.ring.Links Entry} {t : T}
    (hpc : (s.pc t).node? = none) (hsection : s' = { s with
      links
      size := s.size - 1
      pc := Function.update s.pc t (.got pnode (s.item pnode))
      taken := s.taken ++ [s.item pnode] }) : Logged s' (log.note s s' (.get_section t)) := by
  have hnote : log.note s s' (.get_section t) = { log with taken := log.taken ++ [(t, s.item pnode)] } := by
    subst hsection
    simp [Log.note]
  rw [hnote]
  subst hsection
  refine ⟨?_, h.put, by simp [h.taken], fun u => ?_⟩
  · intro u other hu
    by_cases heq : u = t
    · simp [heq] at hu
    · exact h.putting u other (by simpa [heq] using hu)
  · have hreturned := h.returned u
    by_cases heq : u = t
    · subst heq
      rw [State.inHand_eq_nil hpc, List.append_nil] at hreturned
      simp [hreturned, State.inHand]
    · simp [hreturned, State.inHand, heq, Ne.symm heq]

/-- A thread returns what it has in hand. -/
theorem Logged.get_end (h : Logged s log) {t : T} {pnode : UInt64} {item : I} (hpc : s.pc t = .got pnode item) :
    Logged (queue_get_end s t pnode).2 (log.note s (queue_get_end s t pnode).2 (.get_end t)) := by
  have hnote : log.note s (queue_get_end s t pnode).2 (.get_end t) =
      { log with returned := Function.update log.returned t (log.returned t ++ [s.item pnode]) } := by
    simp [Log.note, hpc, queue_get_end]
  rw [hnote]
  refine ⟨?_, h.put, h.taken, fun u => ?_⟩
  · intro u other hu
    by_cases heq : u = t
    · simp [queue_get_end, heq] at hu
    · exact h.putting u other (by simpa [queue_get_end, heq] using hu)
  · have hreturned := h.returned u
    by_cases heq : u = t
    · subst heq
      simpa [State.inHand, queue_get_end, hpc] using hreturned
    · simpa [State.inHand, queue_get_end, heq] using hreturned

/-- Every step keeps the log in agreement with the memory. -/
theorem Logged.step {label : Label T I} (h : Logged s log) (hordered : Ordered s nodes)
    (hmove : Move guard s label s') : Logged s' (log.note s s' label) := by
  cases hmove with
  | put_begin hpc _ hfresh => exact h.put_begin hordered hpc hfresh
  | put_section hpc hsignals => exact h.put_section hpc hsignals
  | get_begin hpc => exact h.update (by rw [hpc]; rfl) rfl
  | @wait t hpc _ =>
    have hnone : (s.pc t).node? = none := by obtain hpc | hpc := hpc <;> rw [hpc] <;> rfl
    simpa [Log.note] using h.update hnone (p := .waiting) rfl
  | @take t _ hpc hguard hsection =>
    have hnone : (s.pc t).node? = none := by obtain hpc | hpc := hpc <;> rw [hpc] <;> rfl
    cases nodes with
    | nil => simp [hordered.waits_iff.mpr rfl] at hguard
    | cons pnode rest =>
      rw [hordered.queue_get_section_eq] at hsection
      exact h.take hnone (Option.some.inj hsection).symm
  | spurious hpc => exact h.update (by rw [hpc]; rfl) rfl
  | get_end hpc => exact h.get_end hpc

variable [Fintype T] {s₀ : State T I} {labels : List (Label T I)}

/-- Every run has a log that agrees with the memory at its end. -/
theorem run_logged (hinitial : Initial s₀) (hrun : Run (StepOf (step guard)) s₀ labels s) :
    ∃ log, Run (StepOf (logged guard)) (s₀, .empty) labels (s, log) ∧
      ∃ nodes, Ordered s nodes ∧ Logged s log := by
  have hmatch : ∀ (s : State T I) (p : State T I × Log T I) label s',
      (p.1 = s ∧ ∃ nodes, Ordered s nodes ∧ Logged s p.2) → StepOf (step guard) s label s' →
      ∃ p', StepOf (logged guard) p label p' ∧ p'.1 = s' ∧ ∃ nodes, Ordered s' nodes ∧ Logged s' p'.2 := by
    rintro s ⟨_, log⟩ label s' ⟨rfl, nodes, hordered, hlogged⟩ hstep
    obtain ⟨nodes', hordered'⟩ := hordered.step (move_of_step hstep)
    refine ⟨(s', log.note _ s' label), ?_, rfl, nodes', hordered', hlogged.step hordered (move_of_step hstep)⟩
    rw [StepOf, logged, show step guard _ label = some s' from hstep]
    rfl
  have hstart : (s₀, (Log.empty : Log T I)).1 = s₀ ∧ ∃ nodes, Ordered s₀ nodes ∧ Logged s₀ Log.empty :=
    ⟨rfl, [], hinitial.ordered, hinitial.logged⟩
  obtain ⟨⟨_, log⟩, hrun', rfl, hagrees⟩ := hrun.simulates hstart hmatch
  exact ⟨log, hrun', hagrees⟩

/-- The queue is a FIFO without loss or duplication, under either loop guard. The items of
    the calls of `queue_put`, in the order of their sections, are those taken out followed
    by those linked, and every thread's calls of `queue_get` return what it took out. The
    two guards agree, and neither lets a thread remove from an empty list. -/
theorem queue_fifo (hinitial : Initial s₀) (hrun : Run (StepOf (step guard)) s₀ labels s) :
    ∃ log, Run (StepOf (logged guard)) (s₀, .empty) labels (s, log) ∧
      ∃ nodes : List UInt64, Ring s.links .head (nodes.map .node) ∧ s.size.toNat = nodes.length ∧
        log.put = log.taken.map Prod.snd ++ nodes.map s.item ∧
        (∀ t, (log.taken.filter (·.1 = t)).map Prod.snd = log.returned t ++ s.inHand t) ∧
        Guard.size.waits s = Guard.list.waits s ∧
        (guard.waits s = false → is_list_empty s.links .head = false) ∧
        (∀ t, ∃ s', queue_get_section guard s t = some s') ∧
        ∀ t pnode item, s.pc t = .got pnode item → (queue_get_end s t pnode).1 = item := by
  obtain ⟨log, hrun', nodes, h, hlogged⟩ := run_logged hinitial hrun
  have hagree : ∀ guard' : Guard, guard.waits s = guard'.waits s := by
    intro guard'
    rw [Bool.eq_iff_iff, h.waits_iff, h.waits_iff]
  refine ⟨log, hrun', nodes, h.ring, h.size, ?_, hlogged.returned, ?_, ?_, ?_, h.got⟩
  · rw [← hlogged.put, ← hlogged.taken, h.order]
  · exact (hagree .size).symm.trans (hagree .list)
  · intro hguard
    rwa [hagree .list] at hguard
  · intro t
    cases hnodes : nodes with
    | nil =>
      rw [queue_get_section, if_pos (h.waits_iff.mpr hnodes)]
      exact ⟨_, rfl⟩
    | cons pnode rest =>
      subst hnodes
      exact ⟨_, h.queue_get_section_eq guard t⟩

/-- A thread waits for an item, another one puts two, and the first takes one of them. -/
def oneOfTwo : List (Label Bool Nat) :=
  [.get_begin false, .get_section false, .put_begin true 1 7, .put_section true {false},
    .put_begin true 2 8, .put_section true ∅, .get_section false, .get_end false]

theorem queue_fifo_taken : ∃ (s : State Bool Nat) (log : Log Bool Nat),
    Run (StepOf (step .size)) (initialised 0) oneOfTwo s ∧
      Run (StepOf (logged .size)) (initialised 0, .empty) oneOfTwo (s, log) ∧
      log.put = [7, 8] ∧ log.taken = [(false, 7)] ∧ log.returned false = [7] ∧
      ∃ nodes : List UInt64, Ring s.links .head (nodes.map .node) ∧ nodes.map s.item = [8] := by
  have hrun := run_stepOf_iff.mpr
    (show exec (step .size) (initialised 0 : State Bool Nat) oneOfTwo = some _ from rfl)
  obtain ⟨log, hrun', nodes, hring, _, hput, _⟩ := queue_fifo (initialised_initial 0) hrun
  have hlog := run_stepOf_iff.mp hrun'
  rw [show exec (logged .size) ((initialised 0 : State Bool Nat), Log.empty) oneOfTwo = some _ from rfl,
    Option.some.injEq, Prod.mk.injEq] at hlog
  have hputs : log.put = [7, 8] := by rw [← hlog.2]; rfl
  have htaken : log.taken = [(false, 7)] := by rw [← hlog.2]; rfl
  have hreturned : log.returned false = [7] := by rw [← hlog.2]; rfl
  rw [hputs, htaken] at hput
  exact ⟨_, log, hrun, hrun', hputs, htaken, hreturned, nodes, hring, (List.cons.inj hput).2.symm⟩

end oslabs.queue
