import Mathlib.Data.Finset.Basic
import Mathlib.Algebra.BigOperators.Group.Finset.Basic
import Mathlib.Algebra.Group.Action.Defs
import Mathlib.Algebra.Order.BigOperators.Group.Finset
import Mathlib.Order.Interval.Finset.Nat
import OsLabs.UThread.Queues

namespace oslabs.uthread

variable {E S : Type} {a : Queues E S}

/-- Where a thread is. `running` is also the place of a thread that the running
    thread has just taken from one list and not yet put into another. A thread is
    `gone` before its creation and after its exit, and so is the main thread while
    it is switched out. -/
inductive Place (E S : Type) where
  | running
  | ready
  | blocked (sync : Sync E S)
  | gone
  deriving DecidableEq

/-- The stacks of the threads in use lie in user space and do not overlap. -/
structure Stacks (live : Finset Nat) (stack : Nat → Nat) : Prop where
  pos : ∀ b ∈ live, 0 < stack b
  le_end : ∀ b ∈ live, stack b + STACK_SIZE ≤ USER_SPACE_END
  disjoint : ∀ b ∈ live, ∀ c ∈ live, b ≠ c →
    stack b + STACK_SIZE ≤ stack c ∨ stack c + STACK_SIZE ≤ stack b

/-- The stacks in use cover only part of user space, so there are fewer threads
    than an `unsigned int` can count. -/
theorem Stacks.card_lt {live : Finset Nat} {stack : Nat → Nat} (h : Stacks live stack) :
    live.card < 2 ^ 32 := by
  have hdisjoint : Set.PairwiseDisjoint (live : Set Nat)
      fun b => Finset.Ico (stack b) (stack b + STACK_SIZE) := by
    intro b hb c hc hne
    rw [Function.onFun, Finset.disjoint_left]
    intro x hx hx'
    rw [Finset.mem_Ico] at hx hx'
    have hapart := h.disjoint b hb c hc hne
    omega
  have hsubset : live.biUnion (fun b => Finset.Ico (stack b) (stack b + STACK_SIZE)) ⊆
      Finset.Ico 1 USER_SPACE_END := by
    intro x hx
    obtain ⟨b, hb, hx⟩ := Finset.mem_biUnion.mp hx
    rw [Finset.mem_Ico] at hx ⊢
    have hpos := h.pos b hb
    have hend := h.le_end b hb
    omega
  have hcard := Finset.card_le_card hsubset
  rw [Finset.card_biUnion hdisjoint] at hcard
  simp only [Nat.card_Ico, Nat.add_sub_cancel_left, Finset.sum_const, smul_eq_mul, STACK_SIZE,
    USER_SPACE_END] at hcard
  omega

theorem Stacks.insert {c : Core E S} {block stack : Nat} (h : Stacks c.live c.stack)
    (hfresh : MallocFresh c block stack) :
    Stacks (insert block c.live) (Function.update c.stack block stack) := by
  have hother : ∀ b ∈ c.live, Function.update c.stack block stack b = c.stack b := by
    intro b hb
    have hne : b ≠ block := fun heq => hfresh.block_fresh (heq ▸ hb)
    exact Function.update_of_ne hne _ _
  have hnew := Function.update_self block stack c.stack
  constructor
  · intro b hb
    rcases Finset.mem_insert.mp hb with rfl | hb
    · rw [hnew]
      exact hfresh.stack_pos
    · rw [hother b hb]
      exact h.pos b hb
  · intro b hb
    rcases Finset.mem_insert.mp hb with rfl | hb
    · rw [hnew]
      exact hfresh.stack_end
    · rw [hother b hb]
      exact h.le_end b hb
  · intro b hb d hd hne
    rw [Finset.mem_insert] at hb hd
    rcases hb with rfl | hb <;> rcases hd with rfl | hd
    · exact absurd rfl hne
    · rw [hnew, hother d hd]
      exact hfresh.stack_disjoint d hd
    · rw [hnew, hother b hb]
      exact (hfresh.stack_disjoint b hb).symm
    · rw [hother b hb, hother d hd]
      exact h.disjoint b hb d hd hne

theorem Stacks.erase {live : Finset Nat} {stack : Nat → Nat} (h : Stacks live stack) (block : Nat) :
    Stacks (live.erase block) stack where
  pos b hb := h.pos b (Finset.mem_of_mem_erase hb)
  le_end b hb := h.le_end b (Finset.mem_of_mem_erase hb)
  disjoint b hb c hc := h.disjoint b (Finset.mem_of_mem_erase hb) c (Finset.mem_of_mem_erase hc)

/-- The queues hold exactly the threads placed in them, each of them once, and
    the threads in use are exactly those that have a place. Since a thread has
    one place, no thread is in two queues. -/
structure Queued (a : Queues E S) (place : Thread → Place E S) : Prop where
  ready_nodup : a.ready.Nodup
  mem_ready : ∀ t, t ∈ a.ready ↔ place t = .ready
  blocked_nodup : ∀ sync, (a.blocked sync).Nodup
  mem_blocked : ∀ sync t, t ∈ a.blocked sync ↔ place t = .blocked sync
  live : ∀ block, block ∈ a.live ↔ place (.user block) ≠ .gone
  main : place .main = .running ∨ place .main = .gone
  frame : ∀ sync, ∀ wblock ∈ a.waiters sync, a.frame (a.wblock_thread wblock) = some wblock
  stack : Stacks a.live a.stack
  count : a.number_of_threads.toNat = a.live.card

/-- All threads are placed, and the running one is the only one running. Once
    the main thread is back, nobody is ready. -/
structure Located (a : Queues E S) (place : Thread → Place E S) : Prop extends Queued a place where
  running : ∀ t, place t = .running ↔ a.running_thread = some t
  main_thread : a.main_thread = a.running_thread.map fun _ => .main
  idle : a.running_thread = some .main → a.ready = []

theorem Queued.not_main_ready {place : Thread → Place E S} (h : Queued a place) : .main ∉ a.ready := by
  rw [h.mem_ready]
  rcases h.main with hmain | hmain <;> simp [hmain]

theorem Queued.not_main_blocked {place : Thread → Place E S} (h : Queued a place)
    (sync : Sync E S) : .main ∉ a.blocked sync := by
  rw [h.mem_blocked]
  rcases h.main with hmain | hmain <;> simp [hmain]

theorem mem_blocked_of_mem_waiters {sync : Sync E S} {wblock : Nat}
    (h : wblock ∈ a.waiters sync) : a.wblock_thread wblock ∈ a.blocked sync :=
  List.mem_map_of_mem h

/-- Storage that is on no frame is in no queue. -/
theorem Queued.wblock_fresh {place : Thread → Place E S} (h : Queued a place) {wblock : Nat}
    (hfresh : ∀ t, a.frame t ≠ some wblock) (sync : Sync E S) : wblock ∉ a.waiters sync :=
  fun hmem => hfresh _ (h.frame sync wblock hmem)

end oslabs.uthread
