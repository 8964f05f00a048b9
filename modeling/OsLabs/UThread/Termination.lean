import Mathlib.Algebra.Order.BigOperators.Group.Finset
import OsLabs.Lib.Settle
import OsLabs.UThread.Return

open oslabs.ring oslabs.list oslabs.run

namespace oslabs.uthread

variable {E S : Type}

/-- The threads that are there in place of the running thread once it has made a call. -/
def Call.heirs (block : Nat) : Call E S → Finset Nat
  | .ut_create new _ => {block, new}
  | .ut_exit => ∅
  | _ => {block}

/-- A call uses up part of what its thread has left to do, and leaves no other thread with
    more. What is left of it, `ut_create` shares between the two threads. -/
structure Spends (block : Nat) (call : Call E S) (left left' : Nat → Nat) : Prop where
  less : ∑ heir ∈ call.heirs block, left' heir < left block
  others : ∀ other, other ≠ block → other ∉ call.heirs block → left' other ≤ left other

/-- The code of the threads: the calls that a thread may make in the program's own memory,
    and what becomes of that memory. No thread makes calls for ever. -/
structure Program (E S : Type) where
  Memory : Type
  acts : Memory → Nat → Call E S → Memory → Prop
  left : Memory → Nat → Nat
  spends : ∀ m block call m', acts m block call m' → Spends block call (left m) (left m')

/-- What the threads in use have left to do. -/
def Program.work (program : Program E S) (c : Core E S) (m : program.Memory) : Nat :=
  ∑ block ∈ c.live, program.left m block

theorem Spends.sum_lt {block : Nat} {call : Call E S} {left left' : Nat → Nat} {live : Finset Nat}
    (h : Spends block call left left') (hlive : block ∈ live)
    (hdisjoint : Disjoint (live.erase block) (call.heirs block)) :
    ∑ b ∈ live.erase block ∪ call.heirs block, left' b < ∑ b ∈ live, left b := by
  have hothers : ∑ b ∈ live.erase block, left' b ≤ ∑ b ∈ live.erase block, left b := by
    apply Finset.sum_le_sum
    intro b hb
    exact h.others b (Finset.ne_of_mem_erase hb) (Finset.disjoint_left.mp hdisjoint hb)
  have hless := h.less
  rw [Finset.sum_union hdisjoint, ← Finset.add_sum_erase live left hlive]
  omega

theorem Located.running_live {a : Queues E S} {place : Thread → Place E S} {block : Nat}
    (h : Located a place) (hrunning : a.running_thread = some (.user block)) : block ∈ a.live := by
  rw [h.live, (h.running _).mpr hrunning]
  simp

/-- Only the main thread resumes `ut_run`. -/
theorem not_resumed_of_allowed {c : Core E S} {call : Call E S} {block : Nat}
    (hrunning : c.running_thread = some (.user block)) (hallowed : Allowed c call) : call ≠ .ut_run_resumed := by
  rintro rfl
  rw [Allowed, hrunning] at hallowed
  cases hallowed

section Running

variable [DecidableEq E] [DecidableEq S] {a b : Queues E S} {place : Thread → Place E S} {call : Call E S}
  {block : Nat}

theorem Queues.live_release (a : Queues E S) (sem : S) : (a.release sem).live = a.live := by
  apply Queues.release_induction (P := fun a b => b.live = a.live)
  · exact fun _ _ => rfl
  · intro a wblock rest hwaiters _ _ ih
    simpa [Queues.grant, Queues.wake, Queues.activate, hwaiters, take_units] using ih

omit [DecidableEq E] [DecidableEq S] in
theorem Queues.main_of_dispatch (hdispatch : a.dispatch = some b) (hmain : a.main_thread = some .main) :
    b.main_thread = some .main := by
  rw [Queues.eq_of_dispatch hdispatch hmain]
  exact hmain

/-- Which threads are in use after a call. -/
theorem Queues.Move.live (hmove : a.Move call b) :
    match call with
    | .ut_create new _ => b.live = insert new a.live
    | .ut_exit => ∃ block, a.running_thread = some (.user block) ∧ b.live = a.live.erase block
    | _ => b.live = a.live := by
  cases hmove with
  | run hdispatch | yield _ hdispatch | event_wait _ _ _ hdispatch | sem_wait _ _ _ hdispatch =>
    exact (Queues.live_of_dispatch hdispatch).trans rfl
  | exit hrunning hdispatch => exact ⟨_, hrunning, Queues.live_of_dispatch hdispatch⟩
  | sem_post => exact Queues.live_release _ _
  | _ => rfl

/-- A call of a user thread changes the set of threads in use by its heirs only. -/
theorem Queues.Move.live_eq (hmove : a.Move call b) (hrunning : a.running_thread = some (.user block))
    (hlive : block ∈ a.live) : b.live = a.live.erase block ∪ call.heirs block := by
  have hmoved := hmove.live
  have hback : a.live = a.live.erase block ∪ {block} := by
    rw [Finset.union_singleton, Finset.insert_erase hlive]
  cases call with
  | ut_create new stack =>
    rw [hmoved, Call.heirs, Finset.union_insert, Finset.union_singleton, Finset.insert_comm,
      Finset.insert_erase hlive]
  | ut_exit =>
    obtain ⟨other, hother, heq⟩ := hmoved
    obtain rfl : other = block := Thread.user.inj (Option.some.inj (hother.symm.trans hrunning))
    rw [heq, Call.heirs, Finset.union_empty]
  | _ =>
    have hsame : b.live = a.live := hmoved
    exact hsame.trans hback

/-- `ut_run` stays under way until it is resumed. -/
theorem Queues.Move.main_thread (hmove : a.Move call b) (hmain : a.main_thread = some .main)
    (hcall : call ≠ .ut_run_resumed) : b.main_thread = some .main := by
  cases hmove with
  | run hdispatch => exact Queues.main_of_dispatch hdispatch rfl
  | resumed => exact absurd rfl hcall
  | yield _ hdispatch | exit _ hdispatch | event_wait _ _ _ hdispatch | sem_wait _ _ _ hdispatch =>
    exact Queues.main_of_dispatch hdispatch hmain
  | sem_post => exact (Queues.release_running _ _).2.trans hmain
  | _ => exact hmain

/-- After a call of a user thread somebody runs, and the threads in use are its heirs and the
    threads that were there besides it. -/
theorem Located.handed_on (h : Located a place) (hrunning : a.running_thread = some (.user block))
    (hstep : a.Step call b) {place' : Thread → Place E S} (hlocated : Located b place') :
    block ∈ a.live ∧ Disjoint (a.live.erase block) (call.heirs block) ∧
      b.live = a.live.erase block ∪ call.heirs block ∧ b.running_thread ≠ none := by
  obtain ⟨hallowed, hperform⟩ := hstep
  have hmove := Queues.move_of_perform hallowed hperform
  have hlive := h.running_live hrunning
  have hresumed := not_resumed_of_allowed hrunning hallowed
  have hmain := hmove.main_thread (h.main_of_running hrunning) hresumed
  refine ⟨hlive, ?_, hmove.live_eq hrunning hlive, ?_⟩
  · rw [Finset.disjoint_left]
    intro other hother hheir
    obtain ⟨hne, hmem⟩ := Finset.mem_erase.mp hother
    cases call with
    | ut_create new stack =>
      rcases Finset.mem_insert.mp hheir with heq | heq
      · exact hne heq
      · exact hallowed.2.block_fresh (Finset.mem_singleton.mp heq ▸ hmem)
    | ut_exit => cases hheir
    | _ => exact hne (Finset.mem_singleton.mp hheir)
  · intro hnone
    rw [hlocated.main_thread, hnone] at hmain
    cases hmain

/-- A step of a program: the thread that runs makes a call it may make. -/
def Program.Step (program : Program E S) (p : State E S × program.Memory) (call : Call E S)
    (p' : State E S × program.Memory) : Prop :=
  ∃ block, p.1.running_thread = some (.user block) ∧ program.acts p.2 block call p'.2 ∧
    uthread.Step p.1 call p'.1

variable {s₀ s : State E S} {calls : List (Call E S)} {program : Program E S}

theorem Program.run_step {p p' : State E S × program.Memory} (hrun : Run program.Step p calls p') :
    Run uthread.Step p.1 calls p'.1 := by
  have hmatch : ∀ (q : State E S × program.Memory) (t : State E S) call (q' : State E S × program.Memory),
      q.1 = t → program.Step q call q' → ∃ t', uthread.Step t call t' ∧ q'.1 = t' := by
    rintro q _ call q' rfl ⟨_, _, _, hstep⟩
    exact ⟨_, hstep, rfl⟩
  obtain ⟨_, hrun', rfl⟩ := hrun.simulates (R := fun q t => q.1 = t) rfl hmatch
  exact hrun'

/-- A call that a program makes while `ut_run` is under way leaves less to do, and `ut_run` under way. -/
theorem Program.work_lt {p p' : State E S × program.Memory} {call : Call E S} (hinitial : Initial s₀)
    (hrun : Run uthread.Step s₀ calls p.1) (hstep : program.Step p call p') :
    program.work p'.1.toCore p'.2 < program.work p.1.toCore p.2 ∧ p'.1.running_thread ≠ none := by
  obtain ⟨block, hrunning, hacts, hstep⟩ := hstep
  obtain ⟨a, place, _, href, hlocated⟩ := run_refines hinitial hrun
  obtain ⟨b, place', hstep', href', hlocated'⟩ := href.step hlocated hstep
  rw [href.core] at hrunning
  obtain ⟨hlive, hdisjoint, heirs, hsome⟩ := hlocated.handed_on hrunning hstep' hlocated'
  have hless := (program.spends _ _ _ _ hacts).sum_lt hlive hdisjoint
  rw [Program.work, Program.work, href.core, href'.core, heirs]
  exact ⟨hless, hsome⟩

/-- Control is back in `ut_run` for good. The threads left are those that wait for an event or
    a semaphore, and the assertions of `ut_run` hold if there are none. -/
structure Back (s : State E S) : Prop where
  running_thread : s.running_thread = some .main
  ready_queue : is_list_empty s.links .ready_queue = true
  waiting : ∃ a, Refines s a ∧ a.blockedThreads = Thread.user '' (s.live : Set Nat)
  returns_iff : (∃ s', ut_run_resumed s = some s') ↔ s.live = ∅

theorem back_of_run (hinitial : Initial s₀) (hrun : Run uthread.Step s₀ calls s)
    (hmain : s.running_thread = some .main) : Back s := by
  obtain ⟨a, place, _, href, hlocated⟩ := run_refines hinitial hrun
  have hlive : s.live = a.live := by rw [href.core]
  have hmain' : a.running_thread = some .main := by rw [← hmain, href.core]
  refine ⟨hmain, href.is_list_empty_ready.mpr (hlocated.idle hmain'), ⟨a, href, ?_⟩, ?_⟩
  · rw [hlive]
    exact hlocated.blockedThreads_eq hmain'
  · rw [hlive]
    exact hlocated.ut_run_resumed_iff href hmain

/-- Once `ut_run` has started the threads of a program, control is back in it after no more
    calls than they have left, if the running thread always has a call to make and the storage
    for it. -/
theorem ut_run_settles (hinitial : Initial s₀) (hrun : Run uthread.Step s₀ calls s)
    (hrunning : s.running_thread ≠ none) (program : Program E S) (m : program.Memory)
    (hacts : ∀ calls p block, Run program.Step (s, m) calls p → p.1.running_thread = some (.user block) →
      ∃ call m', program.acts p.2 block call m' ∧ Allowed p.1.toCore call) :
    Settles program.Step (fun p => Back p.1) (s, m) (program.work s.toCore m) := by
  refine settles_of_measure
    (fun p => (∃ calls, Run program.Step (s, m) calls p) ∧ p.1.running_thread ≠ none)
    (fun p => program.work p.1.toCore p.2) ?_ ?_ ⟨⟨[], .nil⟩, hrunning⟩
  · rintro p call p' ⟨⟨labels, hlabels⟩, _⟩ hstep
    obtain ⟨hless, hsome⟩ := Program.work_lt hinitial (hrun.append (Program.run_step hlabels)) hstep
    exact ⟨⟨⟨_, hlabels.snoc hstep⟩, hsome⟩, hless⟩
  · rintro p ⟨⟨labels, hlabels⟩, hsome⟩ hend
    have hreached := hrun.append (Program.run_step hlabels)
    obtain ⟨t, ht⟩ := Option.ne_none_iff_exists'.mp hsome
    cases t with
    | main => exact back_of_run hinitial hreached ht
    | user block =>
      obtain ⟨call, m', hact, hallowed⟩ := hacts labels p block hlabels ht
      obtain ⟨s', hstep⟩ := run_progress hinitial hreached hallowed (not_resumed_of_allowed ht hallowed)
      exact absurd ⟨block, ht, hact, hstep⟩ (hend call (s', m'))

end Running

/-- Threads that yield a number of times each, and then exit. -/
def yielding : Program E S where
  Memory := Nat → Nat
  acts m block call m' := (m block = 0 ∧ call = .ut_exit ∧ m' = m) ∨
    ∃ n, m block = n + 1 ∧ call = .ut_yield ∧ m' = Function.update m block n
  left m block := m block + 1
  spends := by
    rintro m block call m' (⟨_, rfl, rfl⟩ | ⟨n, hn, rfl, rfl⟩)
    · exact ⟨by simp [Call.heirs], fun other _ _ => Nat.le_refl _⟩
    · refine ⟨by simp [Call.heirs, hn], fun other hne _ => ?_⟩
      rw [Function.update_of_ne hne]

theorem yielding_acts {c : Core E S} (m : Nat → Nat) {block : Nat}
    (hrunning : c.running_thread = some (.user block)) :
    ∃ call m', (yielding : Program E S).acts m block call m' ∧ Allowed c call := by
  cases hleft : m block with
  | zero => exact ⟨.ut_exit, m, .inl ⟨hleft, rfl, rfl⟩, block, hrunning⟩
  | succ n => exact ⟨.ut_yield, _, .inr ⟨n, hleft, rfl, rfl⟩, block, hrunning⟩

/-- One thread yields twice. -/
theorem ut_run_settles_yielding : ∃ s : State Unit Unit,
    Run uthread.Step (booted fun _ => ⟨0, 1⟩) [.ut_create 1 4096, .ut_run] s ∧
      s.running_thread = some (.user 1) ∧
      (yielding : Program Unit Unit).work s.toCore (fun _ => (2 : Nat)) = 3 ∧
      Settles (yielding : Program Unit Unit).Step (fun p => Back p.1) (s, fun _ => (2 : Nat))
        ((yielding : Program Unit Unit).work s.toCore fun _ => (2 : Nat)) := by
  have hrunning : (started fun _ => ⟨0, 1⟩ : State Unit Unit).running_thread = some (.user 1) := rfl
  refine ⟨_, run_started _, hrunning, rfl, ?_⟩
  apply ut_run_settles (booted_initial _) (run_started _) (by simp [hrunning])
  intro calls p block _ hrunning
  exact yielding_acts p.2 hrunning

end oslabs.uthread
