import Mathlib.Data.List.Infix
import Mathlib.Data.List.Nodup

namespace oslabs.roundrobin

variable {α : Type*}

/-- What a scheduler does with its queue: it inserts at the end, it takes the
    first element out, and it goes idle when there is nothing to take. -/
inductive Event (α : Type*) where
  | insert (x : α)
  | take (x : α)
  | idle
  deriving DecidableEq, Repr

/-- The elements inserted, in order. -/
def insertions (events : List (Event α)) : List α :=
  events.filterMap fun
    | .insert x => some x
    | _ => none

/-- The elements taken, in order. -/
def takes (events : List (Event α)) : List α :=
  events.filterMap fun
    | .take x => some x
    | _ => none

section Histories

variable (x : α) (events more : List (Event α))

@[simp] theorem insertions_nil : insertions ([] : List (Event α)) = [] := rfl
@[simp] theorem takes_nil : takes ([] : List (Event α)) = [] := rfl

@[simp] theorem insertions_append : insertions (events ++ more) = insertions events ++ insertions more :=
  List.filterMap_append

@[simp] theorem takes_append : takes (events ++ more) = takes events ++ takes more :=
  List.filterMap_append

@[simp] theorem insertions_cons_insert : insertions (.insert x :: events) = x :: insertions events := rfl
@[simp] theorem insertions_cons_take : insertions (.take x :: events) = insertions events := rfl
@[simp] theorem insertions_cons_idle : insertions (.idle :: events) = insertions events := rfl
@[simp] theorem takes_cons_insert : takes (.insert x :: events) = takes events := rfl
@[simp] theorem takes_cons_take : takes (.take x :: events) = x :: takes events := rfl
@[simp] theorem takes_cons_idle : takes (.idle :: events) = takes events := rfl

end Histories

/-- Two lists cut at the first occurrence of an element have the same part in front. -/
theorem eq_of_append_cons_eq {x : α} {first second rest rest' : List α}
    (h : first ++ x :: rest = second ++ x :: rest') (hfirst : x ∉ first) (hsecond : x ∉ second) :
    first = second := by
  induction first generalizing second with
  | nil =>
    cases second with
    | nil => rfl
    | cons y second => exact absurd (List.cons.inj h).1 (List.ne_of_not_mem_cons hsecond)
  | cons y first ih =>
    cases second with
    | nil => exact absurd (List.cons.inj h).1.symm (List.ne_of_not_mem_cons hfirst)
    | cons z second =>
      obtain ⟨rfl, htail⟩ := List.cons.inj h
      rw [ih htail (List.not_mem_of_not_mem_cons hfirst) (List.not_mem_of_not_mem_cons hsecond)]

variable [DecidableEq α]

/-- The queue after some events, if they are those of a round robin: nothing is
    inserted twice, only the head is taken, and idling is for an empty queue. -/
def replay : List α → List (Event α) → Option (List α)
  | queue, [] => some queue
  | queue, .insert x :: events => if x ∈ queue then none else replay (queue ++ [x]) events
  | [], .take _ :: _ => none
  | head :: rest, .take x :: events => if head = x then replay rest events else none
  | [], .idle :: events => replay [] events
  | _ :: _, .idle :: _ => none

theorem replay_append (queue : List α) (events more : List (Event α)) :
    replay queue (events ++ more) = (replay queue events).bind fun next => replay next more := by
  fun_induction replay queue events with
  | case1 => simp
  | case2 => simp [replay, *]
  | case3 => simp [replay, *]
  | case4 => simp [replay]
  | case5 => simp [replay, *]
  | case6 => simp [replay, *]
  | case7 => simp [replay, *]
  | case8 => simp [replay]

/-- A replay of two pieces stops at a queue in between. -/
theorem exists_of_replay_append {queue last : List α} {events more : List (Event α)}
    (h : replay queue (events ++ more) = some last) :
    ∃ next, replay queue events = some next ∧ replay next more = some last := by
  rw [replay_append] at h
  exact Option.bind_eq_some_iff.mp h

/-- Nothing is lost and nothing overtakes: what is taken and what is left, in this
    order, is what was there and what was inserted. -/
theorem takes_append_eq {queue last : List α} {events : List (Event α)}
    (h : replay queue events = some last) : takes events ++ last = queue ++ insertions events := by
  fun_induction replay queue events with
  | case1 queue => simpa using h.symm
  | case2 => cases h
  | case3 queue x events hnew ih => simpa using ih h
  | case4 => cases h
  | case5 rest x events ih => simpa using ih h
  | case6 => cases h
  | case7 events ih => simpa using ih h
  | case8 => cases h

/-- The order in which a round robin serves: the k-th element taken is the k-th
    inserted, and when it goes idle everything inserted has been taken. -/
structure InOrder (events : List (Event α)) : Prop where
  kth : ∀ (k : Nat) (x : α), (takes events)[k]? = some x → (insertions events)[k]? = some x
  idle : ∀ before after, events = before ++ .idle :: after → takes before = insertions before

theorem inOrder_of_replay {last : List α} {events : List (Event α)}
    (h : replay [] events = some last) : InOrder events where
  kth k x hx := by
    have hall := takes_append_eq h
    rw [List.nil_append] at hall
    rw [← hall, List.getElem?_append_left (List.getElem?_eq_some_iff.mp hx).1, hx]
  idle before after hsplit := by
    subst hsplit
    obtain ⟨queue, hbefore, hidle⟩ := exists_of_replay_append h
    cases queue with
    | nil => simpa using takes_append_eq hbefore
    | cons head rest => simp [replay] at hidle

/-- Between an insertion and the next time the element is taken, the elements that
    were in the queue are taken, and no others. -/
theorem takes_until_next {queue last : List α} {x : α} {between after : List (Event α)}
    (h : replay queue (.insert x :: (between ++ .take x :: after)) = some last)
    (hfirst : x ∉ takes between) : takes between = queue := by
  have hnew : x ∉ queue := by
    intro hmem
    simp [replay, hmem] at h
  rw [← List.cons_append] at h
  obtain ⟨next, hbetween, htake⟩ := exists_of_replay_append h
  cases next with
  | nil => simp [replay] at htake
  | cons head rest =>
    have hhead : head = x := by
      by_contra hne
      simp [replay, hne] at htake
    subst hhead
    have hall := takes_append_eq hbetween
    rw [takes_cons_insert, insertions_cons_insert] at hall
    exact eq_of_append_cons_eq hall hfirst hnew

end oslabs.roundrobin
