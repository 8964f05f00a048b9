import OsLabs.UThread.Semaphore

open oslabs.ring oslabs.list oslabs.loop oslabs.run

namespace oslabs.uthread

variable {E S : Type} [DecidableEq S]

/-- The units of a semaphore are between 0 and its limit. -/
def InRange (sem : S) (c : Core E S) : Prop :=
  0 ≤ (c.sem sem).units ∧ (c.sem sem).units ≤ (c.sem sem).limit

/-- The call is no `sem_post` to the semaphore, or its addition gives the lesser one of
    the limit and the sum. -/
def Saturates (sem : S) (c : Core E S) : Call E S → Prop
  | .sem_post other units => other = sem →
    ((add_units c other units).sem sem).units.toInt =
      min (c.sem sem).limit.toInt ((c.sem sem).units.toInt + units.toInt)
  | _ => True

/-- The call is no `sem_post` to the semaphore, or its sum is in the range of an `int`. -/
def Representable (sem : S) (c : Core E S) : Call E S → Prop
  | .sem_post other units => other = sem → (c.sem sem).units.toInt + units.toInt < 2 ^ 31
  | _ => True

/-- The amount of units of the call is not negative. -/
def NonNegative (sem : S) : Call E S → Prop
  | .sem_wait other units _ | .sem_post other units => other = sem → 0 ≤ units
  | _ => True

/-- The units of a semaphore are in range, and no request in its queue asks for less
    than nothing. -/
structure Bounded (sem : S) (a : Queues E S) : Prop where
  range : InRange sem a.toCore
  demands : ∀ request ∈ a.queued sem, 0 ≤ request.2

section Arithmetic

variable {x y limit : Int32}

/-- The addition of `sem_post` saturates exactly when its sum does not wrap around. -/
theorem saturating_iff (hx : 0 ≤ x) (hlimit : x ≤ limit) (hy : 0 ≤ y) :
    (if x + y > limit then limit else x + y).toInt = min limit.toInt (x.toInt + y.toInt) ↔
      x.toInt + y.toInt < 2 ^ 31 := by
  have hmax := limit.toInt_lt
  have hxmax := x.toInt_lt
  have hymax := y.toInt_lt
  constructor
  · intro hsaturates
    by_contra hwraps
    rw [nonneg_iff] at hx hy
    rw [Int32.le_iff_toInt_le] at hlimit
    have hsum : (x + y).toInt = x.toInt + y.toInt - 2 ^ 32 := by
      rw [Int32.toInt_add, Int.bmod_def]
      split <;> omega
    have hlow : ¬ x + y > limit := by
      rw [gt_iff_lt, Int32.lt_iff_toInt_lt]
      omega
    rw [if_neg hlow, min_eq_left (by omega)] at hsaturates
    omega
  · intro hfits
    have hsum := toInt_add_of_lt hx hy hfits
    split
    · rename_i hover
      rw [gt_iff_lt, Int32.lt_iff_toInt_lt] at hover
      exact (min_eq_left (by omega)).symm
    · rename_i hunder
      rw [gt_iff_lt, Int32.lt_iff_toInt_lt] at hunder
      exact hsum.trans (min_eq_right (by omega)).symm

end Arithmetic

variable {sem : S} {a b : Queues E S}

theorem saturates_iff {c : Core E S} {call : Call E S} (hrange : InRange sem c)
    (hamount : NonNegative sem call) : Saturates sem c call ↔ Representable sem c call := by
  cases call with
  | sem_post other units =>
    apply forall_congr'
    rintro rfl
    rw [← saturating_iff hrange.1 hrange.2 (hamount rfl)]
    simp [add_units]
  | _ => exact Iff.rfl

theorem Bounded.congr (h : Bounded sem a) (hsame : SameSem sem a b) : Bounded sem b where
  range := by
    rw [InRange, hsame.sem_eq]
    exact h.range
  demands := by
    rw [hsame.queued_eq]
    exact h.demands

variable [DecidableEq E]

theorem Bounded.await (h : Bounded sem a) (thread : Thread) {units : Int32} {wblock : Nat}
    (hunits : 0 ≤ units) (hnew : wblock ∉ a.waiters (.sem sem)) :
    Bounded sem (a.await sem thread units wblock) := by
  refine ⟨h.range, ?_⟩
  rw [a.queued_await thread units hnew]
  simp only [List.mem_append, List.mem_singleton]
  rintro request (hold | rfl)
  · exact h.demands request hold
  · exact hunits

theorem Bounded.grant (h : Bounded sem a) {wblock : Nat} {rest : List Nat}
    (hwaiters : a.waiters (.sem sem) = wblock :: rest)
    (hfits : a.wblock_units wblock ≤ (a.sem sem).units) : Bounded sem (a.grant sem) := by
  have hqueued := a.queued_grant hwaiters
  have hdemands := h.demands
  rw [hqueued] at hdemands
  have hrange := sub_mem_range (hdemands _ List.mem_cons_self) hfits h.range.2
  refine ⟨⟨?_, ?_⟩, fun request hmem => hdemands request (List.mem_cons_of_mem _ hmem)⟩
  · simpa [Queues.grant, Queues.wake, Queues.activate, hwaiters, take_units] using hrange.1
  · simpa [Queues.grant, Queues.wake, Queues.activate, hwaiters, take_units] using hrange.2

/-- Every pass through the loop of `sem_post` takes no more than there is. -/
theorem Bounded.release (h : Bounded sem a) : Bounded sem (a.release sem) := by
  apply Queues.release_induction (P := fun a b => Bounded sem a → Bounded sem b)
  · exact fun _ _ h => h
  · intro a wblock rest hwaiters _ hfits ih h
    exact ih (h.grant hwaiters (Int32.not_lt.mp hfits))
  · exact h

/-- Every call keeps the units in range, but for a `sem_post` whose sum wraps around. -/
theorem Bounded.perform {place : Thread → Place E S} {call : Call E S} (h : Bounded sem a)
    (hlocated : Located a place) (hallowed : Allowed a.toCore call) (hamount : NonNegative sem call)
    (hfits : Representable sem a.toCore call) (hperform : a.perform call = some b) : Bounded sem b := by
  cases Queues.semMove sem hlocated hallowed hperform with
  | frame hsame => exact h.congr hsame
  | fast hempty hunits =>
    have hrange := sub_mem_range (hamount rfl) hunits h.range.2
    refine ⟨⟨by simpa using hrange.1, by simpa using hrange.2⟩, ?_⟩
    simp [Queues.queued, hempty]
  | await hnew _ hsame => exact (h.await _ (hamount rfl) hnew).congr hsame
  | @post units =>
    have hrange := saturate_mem_range h.range.1 h.range.2 (hamount rfl) (hfits rfl)
    have hadded : Bounded sem { a with toCore := add_units a.toCore sem units } :=
      ⟨⟨by simpa [add_units] using hrange.1, by simpa [add_units] using hrange.2⟩, h.demands⟩
    exact hadded.release

/-- As long as no `sem_post` wraps around, the units stay in range. -/
theorem bounded_of_run {s₀ s : State E S} {calls : List (Call E S)} (hinitial : Initial s₀)
    (hstart : InRange sem s₀.toCore) (hrun : Run Step s₀ calls s)
    (hamounts : ∀ call ∈ calls, NonNegative sem call)
    (hfits : Along Step (fun s call => Representable sem s.toCore call) s₀ calls) :
    ∃ a place, Refines s a ∧ Located a place ∧ Bounded sem a := by
  induction hrun with
  | nil =>
    refine ⟨_, _, hinitial.refines, hinitial.located, hstart, ?_⟩
    simp [Queues.queued, Queues.initial]
  | snoc hrun hstep ih =>
    obtain ⟨a, place, href, hlocated, hbounded⟩ :=
      ih (fun call hcall => hamounts call (List.mem_append_left _ hcall)) hfits.of_append
    obtain ⟨a', place', hstep', href', hlocated'⟩ := href.step hlocated hstep
    have hamount := hamounts _ (List.mem_append_right _ List.mem_cons_self)
    have hlast := hfits.last hrun
    rw [href.core] at hlast
    exact ⟨a', place', href', hlocated',
      hbounded.perform hlocated hstep'.1 hamount hlast hstep'.2⟩

/-- In a run whose amounts are not negative, the units of a semaphore stay between 0 and
    its limit and every `sem_post` saturates, exactly when no `sem_post` has a sum that
    an `int` does not hold. -/
theorem units_within_limit_iff {s₀ s : State E S} {calls : List (Call E S)} (sem : S)
    (hinitial : Initial s₀) (hstart : InRange sem s₀.toCore) (hrun : Run Step s₀ calls s)
    (hamounts : ∀ call ∈ calls, NonNegative sem call) :
    (Along Step (fun s call => InRange sem s.toCore ∧ Saturates sem s.toCore call) s₀ calls ∧
        InRange sem s.toCore) ↔
      Along Step (fun s call => Representable sem s.toCore call) s₀ calls := by
  constructor
  · rintro ⟨hall, _⟩ before call after state hsplit hbefore
    obtain ⟨hrange, hsaturates⟩ := hall before call after state hsplit hbefore
    exact (saturates_iff hrange (hamounts call (by simp [hsplit]))).1 hsaturates
  · intro hfits
    have hrange {labels more state} (hlabels : calls = labels ++ more)
        (hrun : Run Step s₀ labels state) : InRange sem state.toCore := by
      obtain ⟨a, _, href, _, hbounded⟩ := bounded_of_run hinitial hstart hrun
        (fun call hcall => hamounts call (by simp [hlabels, hcall]))
        (Along.of_append (hlabels ▸ hfits))
      rw [href.core]
      exact hbounded.range
    refine ⟨?_, hrange (List.append_nil _).symm hrun⟩
    intro before call after state hsplit hbefore
    have hin := hrange hsplit hbefore
    refine ⟨hin, (saturates_iff hin (hamounts call (by simp [hsplit]))).2 ?_⟩
    exact hfits before call after state hsplit hbefore

/-- A thread posts three units to a semaphore that has one and room for another. -/
theorem units_within_limit_iff_none : ∃ s s' : State Unit Unit,
    Run Step (booted fun _ => ⟨1, 2⟩) [.ut_create 1 4096, .ut_run] s ∧ Step s (.sem_post () 3) s' ∧
      InRange () s'.toCore ∧ (s'.sem ()).units.toInt = min 2 (1 + 3) := by
  have hpost : Step (started fun _ => ⟨1, 2⟩ : State Unit Unit) (.sem_post () 3)
      ((perform 1 (started fun _ => ⟨1, 2⟩) (.sem_post () 3)).getD (started fun _ => ⟨1, 2⟩)) :=
    ⟨⟨1, rfl⟩, 1, rfl⟩
  have hrun := (run_started _).snoc hpost
  have hfits : Along Step (fun (s : State Unit Unit) call => Representable () s.toCore call)
      (booted fun _ => ⟨1, 2⟩) ([.ut_create 1 4096, .ut_run] ++ [.sem_post () 3]) := by
    rintro before call rest state hsplit hbefore
    rcases List.eq_nil_or_concat rest with rfl | ⟨rest, last, rfl⟩
    · obtain ⟨rfl, hcall⟩ := List.append_inj' hsplit rfl
      obtain rfl := List.singleton_inj.1 hcall
      obtain rfl := run_unique hbefore (run_started _)
      exact fun _ => by decide +kernel
    · have hcall : call ∈ [Call.ut_create 1 4096, .ut_run] := by
        rw [List.concat_eq_append, ← List.cons_append, ← List.append_assoc] at hsplit
        rw [(List.append_inj' hsplit rfl).1]
        simp
      simp only [List.mem_cons, List.not_mem_nil, or_false] at hcall
      rcases hcall with rfl | rfl <;> trivial
  exact ⟨_, _, run_started _, hpost, ((units_within_limit_iff () (booted_initial _) ⟨by decide, by decide⟩ hrun
    (by simp [NonNegative])).2 hfits).2, by decide +kernel⟩

/-- A thread posts the largest amount to a semaphore that has one unit already. -/
theorem units_within_limit_fails :
    ¬ ∀ (s₀ s : State Unit Unit) calls, Initial s₀ → InRange () s₀.toCore → Run Step s₀ calls s →
      (∀ call ∈ calls, NonNegative () call) → InRange () s.toCore := by
  intro h
  have hpost : Step (started fun _ => ⟨1, 2147483647⟩ : State Unit Unit)
      (.sem_post () 2147483647) _ := ⟨⟨1, rfl⟩, 1, rfl⟩
  have hrange := h _ _ _ (booted_initial fun _ => ⟨1, 2147483647⟩) ⟨by decide, by decide⟩
    ((run_started _).snoc hpost) (by simp [NonNegative])
  exact absurd hrange.1 (by decide)

end oslabs.uthread
