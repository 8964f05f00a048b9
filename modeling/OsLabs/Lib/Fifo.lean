import Mathlib.Data.List.Infix

namespace oslabs.fifo

variable {α : Type*}

/-- A first-in first-out queue with its history: everything that ever entered
    it and everything that ever left it. What is in the queue is the difference,
    so no element can get lost, be duplicated or overtake another. -/
structure Fifo (α : Type*) where
  entered : List α
  left : List α
  left_prefix : left <+: entered

namespace Fifo

/-- The queue nothing has entered yet. -/
def empty : Fifo α := ⟨[], [], List.prefix_rfl⟩

/-- What is in the queue, the oldest element first. -/
def items (q : Fifo α) : List α :=
  q.entered.drop q.left.length

theorem left_append_items (q : Fifo α) : q.left ++ q.items = q.entered :=
  List.prefix_iff_eq_append.mp q.left_prefix

def enqueue (q : Fifo α) (x : α) : Fifo α :=
  ⟨q.entered ++ [x], q.left, q.left_prefix.trans (List.prefix_append _ _)⟩

/-- Take out the oldest element, if there is one. -/
def dequeue (q : Fifo α) : Option (α × Fifo α) :=
  match h : q.items with
  | [] => none
  | x :: rest =>
    some (x, ⟨q.entered, q.left ++ [x], rest, by rw [← q.left_append_items, h]; simp⟩)

@[simp] theorem empty_entered : (empty : Fifo α).entered = [] := rfl

@[simp] theorem empty_left : (empty : Fifo α).left = [] := rfl

@[simp] theorem enqueue_entered (q : Fifo α) (x : α) : (q.enqueue x).entered = q.entered ++ [x] := rfl

@[simp] theorem enqueue_left (q : Fifo α) (x : α) : (q.enqueue x).left = q.left := rfl

@[simp] theorem enqueue_items (q : Fifo α) (x : α) : (q.enqueue x).items = q.items ++ [x] := by
  have hle := q.left_prefix.length_le
  simp only [items, enqueue, List.drop_append_of_le_length hle]

/-- What a removal does: it moves the oldest element over. -/
theorem dequeue_eq_some {q q' : Fifo α} {x : α} (h : q.dequeue = some (x, q')) :
    q'.entered = q.entered ∧ q'.left = q.left ++ [x] ∧ q.items = x :: q'.items := by
  unfold dequeue at h
  split at h
  · cases h
  · rename_i y rest hitems
    obtain ⟨rfl, rfl⟩ := Prod.mk.inj (Option.some.inj h)
    refine ⟨rfl, rfl, ?_⟩
    have hrest : q.entered = q.left ++ [y] ++ rest := by
      rw [← q.left_append_items, hitems]
      simp
    simp only [items, hrest, List.drop_left]
    rw [List.append_assoc, List.drop_left]
    rfl

theorem dequeue_eq_none_iff (q : Fifo α) : q.dequeue = none ↔ q.items = [] := by
  unfold dequeue
  split <;> simp_all

theorem dequeue_of_items_eq_cons {q : Fifo α} {x : α} {rest : List α} (h : q.items = x :: rest) :
    ∃ q', q.dequeue = some (x, q') ∧ q'.entered = q.entered ∧ q'.left = q.left ++ [x] := by
  cases hdequeue : q.dequeue with
  | none =>
    rw [q.dequeue_eq_none_iff.mp hdequeue] at h
    cases h
  | some result =>
    obtain ⟨y, q'⟩ := result
    obtain ⟨hentered, hleft, hitems⟩ := dequeue_eq_some hdequeue
    rw [h] at hitems
    obtain ⟨rfl, _⟩ := List.cons.inj hitems
    exact ⟨q', rfl, hentered, hleft⟩

/-- What an atomic step of some implementation does to the queue it implements. -/
inductive Served (q : Fifo α) : Fifo α → Prop where
  | stay : Served q q
  | enqueue (x : α) : Served q (q.enqueue x)
  | dequeue {x : α} {q' : Fifo α} (hdequeue : q.dequeue = some (x, q')) : Served q q'

/-- A state with these histories stands for the queue. -/
structure Records (q : Fifo α) (entered left : List α) : Prop where
  entered : q.entered = entered
  left : q.left = left

theorem empty_records : (empty : Fifo α).Records [] [] := ⟨rfl, rfl⟩

theorem Records.enqueue {q : Fifo α} {entered left : List α} (h : q.Records entered left) (x : α) :
    ∃ q', Served q q' ∧ q'.Records (entered ++ [x]) left :=
  ⟨q.enqueue x, .enqueue x, by rw [enqueue_entered, h.entered], by rw [enqueue_left, h.left]⟩

/-- The element that leaves is the oldest one recorded as entered and not yet out. -/
theorem Records.dequeue {q : Fifo α} {entered left : List α} {x : α} (h : q.Records entered left)
    (holdest : entered[left.length]? = some x) :
    ∃ q', Served q q' ∧ q'.Records entered (left ++ [x]) := by
  have hitems : q.items = x :: q.entered.drop (q.left.length + 1) := by
    rw [← h.entered, ← h.left] at holdest
    obtain ⟨hlt, hget⟩ := List.getElem?_eq_some_iff.mp holdest
    unfold items
    rw [List.drop_eq_getElem_cons hlt, hget]
  obtain ⟨q', hdequeue, hentered, hleft⟩ := dequeue_of_items_eq_cons hitems
  exact ⟨q', .dequeue hdequeue, by rw [hentered, h.entered], by rw [hleft, h.left]⟩

/-- The element at a position has left exactly when the position is behind. -/
theorem entered_eq_left {q : Fifo α} {i : Nat} (h : i < q.left.length) :
    q.entered[i]? = q.left[i]? := by
  rw [← q.left_append_items, List.getElem?_append_left h]

end Fifo

end oslabs.fifo
