import Mathlib.Data.List.Induction

namespace oslabs.oneshot

variable {α : Type*}

/-- An event that is set once and for all. Nobody waits for it when it is set. -/
structure OneShot (α : Type*) where
  isSet : Bool
  waiting : List α
  released : isSet = true → waiting = []

inductive Op (α : Type*) where
  | wait (waiter : α)
  | set
  deriving DecidableEq

def OneShot.fresh : OneShot α where
  isSet := false
  waiting := []
  released _ := rfl

/-- Wait for the event. This comes to an end at once when it is set. -/
def OneShot.wait (e : OneShot α) (waiter : α) : OneShot α :=
  if e.isSet then e
  else
    { isSet := false
      waiting := e.waiting ++ [waiter]
      released := fun hset => absurd hset Bool.false_ne_true }

/-- Set the event, which lets go the ones that wait. -/
def OneShot.set (_ : OneShot α) : OneShot α where
  isSet := true
  waiting := []
  released _ := rfl

def OneShot.apply (e : OneShot α) : Op α → OneShot α
  | .wait waiter => e.wait waiter
  | .set => e.set

/-- The event after some operations, the first of which finds it fresh. -/
def replay (ops : List (Op α)) : OneShot α :=
  ops.foldl OneShot.apply .fresh

/-- The ones that have called for the event, in order. -/
def waits (ops : List (Op α)) : List α :=
  ops.filterMap fun
    | .wait waiter => some waiter
    | .set => none

@[simp] theorem replay_nil : replay ([] : List (Op α)) = .fresh := rfl

@[simp] theorem replay_append_singleton (ops : List (Op α)) (op : Op α) :
    replay (ops ++ [op]) = (replay ops).apply op := by
  rw [replay, List.foldl_append]
  rfl

theorem replay_append_toList (ops : List (Op α)) (op : Option (Op α)) :
    replay (ops ++ op.toList) = op.elim (replay ops) (replay ops).apply := by
  cases op with
  | none => rw [Option.toList_none, List.append_nil, Option.elim_none]
  | some op => exact replay_append_singleton ops op

@[simp] theorem waits_append (ops more : List (Op α)) : waits (ops ++ more) = waits ops ++ waits more :=
  List.filterMap_append

theorem mem_waits {ops : List (Op α)} {waiter : α} : waiter ∈ waits ops ↔ .wait waiter ∈ ops := by
  rw [waits, List.mem_filterMap]
  constructor
  · rintro ⟨op, hop, hsome⟩
    cases op with
    | wait other =>
      obtain rfl := Option.some.inj hsome
      exact hop
    | set => cases hsome
  · exact fun h => ⟨_, h, rfl⟩

theorem OneShot.isSet_wait (e : OneShot α) (waiter : α) : (e.wait waiter).isSet = e.isSet := by
  unfold OneShot.wait
  split
  · rfl
  · rename_i h
    exact (Bool.eq_false_iff.2 h).symm

theorem OneShot.waiting_wait {e : OneShot α} (h : ¬ e.isSet = true) (waiter : α) :
    (e.wait waiter).waiting = e.waiting ++ [waiter] := by
  rw [OneShot.wait, if_neg h]

theorem isSet_replay (ops : List (Op α)) : (replay ops).isSet = true ↔ .set ∈ ops := by
  induction ops using List.reverseRecOn with
  | nil => simp [OneShot.fresh]
  | append_singleton ops op ih =>
    rw [replay_append_singleton]
    cases op with
    | wait waiter => simp [OneShot.apply, OneShot.isSet_wait, ih]
    | set => simp [OneShot.apply, OneShot.set]

/-- Until the event is set, all that have called for it wait, in the order they came. -/
theorem waiting_replay {ops : List (Op α)} (hset : .set ∉ ops) : (replay ops).waiting = waits ops := by
  induction ops using List.reverseRecOn with
  | nil => rfl
  | append_singleton ops op ih =>
    simp only [List.mem_append, List.mem_singleton, not_or] at hset
    have hunset : ¬ (replay ops).isSet = true := fun h => hset.1 ((isSet_replay ops).1 h)
    cases op with
    | wait waiter =>
      rw [replay_append_singleton, OneShot.apply, OneShot.waiting_wait hunset, waits_append, ih hset.1]
      rfl
    | set => exact absurd rfl hset.2

/-- What setting the event lets go: all that have called for it when it was not set
    before, and nobody after that. -/
theorem released_replay (ops : List (Op α)) [Decidable (.set ∈ ops)] :
    (replay ops).waiting = if .set ∈ ops then [] else waits ops := by
  split
  · exact (replay ops).released ((isSet_replay ops).2 ‹_›)
  · exact waiting_replay ‹_›

end oslabs.oneshot
