import Mathlib.Data.List.Perm.Basic

namespace oslabs.sweep

variable {α : Type*}

/-- What is left of a row when its first entry is removed and the last one moves to
    the place of the first. The list has what stands behind the first. -/
def moveLast (rest : List α) : List α :=
  match rest.getLast? with
  | none => []
  | some last => last :: rest.dropLast

@[simp] theorem moveLast_nil : moveLast ([] : List α) = [] := rfl

@[simp] theorem moveLast_append_singleton (rest : List α) (last : α) :
    moveLast (rest ++ [last]) = last :: rest := by
  simp [moveLast]

theorem moveLast_perm (rest : List α) : (moveLast rest).Perm rest := by
  rcases List.eq_nil_or_concat rest with rfl | ⟨init, last, rfl⟩
  · exact .nil
  · rw [List.concat_eq_append, moveLast_append_singleton]
    exact (List.perm_append_singleton last init).symm

@[simp] theorem length_moveLast (rest : List α) : (moveLast rest).length = rest.length :=
  (moveLast_perm rest).length_eq

/-- Removing an entry of an array that uses its first `n` places, by moving the last
    entry in use to it. -/
theorem take_set_moveLast {array front rest : List α} {x last : α} {n : Nat}
    (hsplit : array.take n = front ++ x :: rest) (hlast : array[n - 1]? = some last) :
    (array.set front.length last).take (n - 1) = front ++ moveLast rest := by
  obtain ⟨more, rfl⟩ : ∃ more, array = front ++ x :: rest ++ more :=
    ⟨array.drop n, by rw [← hsplit, List.take_append_drop]⟩
  have hn : n = front.length + rest.length + 1 := by
    have hlength := congrArg List.length hsplit
    obtain ⟨hlt, _⟩ := List.getElem?_eq_some_iff.1 hlast
    simp only [List.length_take, List.length_append, List.length_cons] at hlength hlt
    omega
  subst hn
  rcases List.eq_nil_or_concat rest with rfl | ⟨init, z, rfl⟩
  · simp
  · rw [List.concat_eq_append] at hlast ⊢
    obtain rfl : z = last := by
      have hplace : front.length + (init ++ [z]).length + 1 - 1 = (front ++ x :: init).length := by
        simp [Nat.add_assoc]
      rw [hplace] at hlast
      simpa using hlast
    have hrow : (front ++ x :: (init ++ [z]) ++ more).set front.length z =
        (front ++ z :: init) ++ z :: more := by simp
    have hplace : front.length + (init ++ [z]).length + 1 - 1 = (front ++ z :: init).length := by
      simp [Nat.add_assoc]
    rw [hrow, hplace, List.take_left, moveLast_append_singleton]

/-- A scan over a row of entries that visits the ones that are ready and stops when
    it has visited as many as its budget allows. An entry may leave when it is
    visited, and then the last one moves to its place, where the scan goes on.
    The lists are the row from the scan on, the entries that are visited in it, and
    the ones that it leaves in the row. -/
inductive Sweep (ready leaves : α → Prop) : Nat → List α → List α → List α → Prop where
  | spent {rest : List α} : Sweep ready leaves 0 rest [] rest
  | finished {budget : Nat} : Sweep ready leaves budget [] [] []
  | pass {budget : Nat} {x : α} {rest visited kept : List α} (hidle : ¬ ready x)
      (hrest : Sweep ready leaves (budget + 1) rest visited kept) :
      Sweep ready leaves (budget + 1) (x :: rest) visited (x :: kept)
  | stay {budget : Nat} {x : α} {rest visited kept : List α} (hready : ready x) (hstays : ¬ leaves x)
      (hrest : Sweep ready leaves budget rest visited kept) :
      Sweep ready leaves (budget + 1) (x :: rest) (x :: visited) (x :: kept)
  | drop {budget : Nat} {x : α} {rest visited kept : List α} (hready : ready x) (hleaves : leaves x)
      (hrest : Sweep ready leaves budget (moveLast rest) visited kept) :
      Sweep ready leaves (budget + 1) (x :: rest) (x :: visited) kept

variable {ready leaves : α → Prop} {budget : Nat} {rest visited kept : List α}

theorem Sweep.visited_of_spent (h : Sweep ready leaves 0 rest visited kept) : visited = [] := by
  cases h <;> rfl

/-- The entries that were visited and left are the ones that are gone from the row. -/
theorem Sweep.perm [DecidablePred leaves] (h : Sweep ready leaves budget rest visited kept) :
    (kept ++ visited.filter leaves).Perm rest := by
  induction h with
  | spent => simp
  | finished => simp
  | pass _ _ ih => exact ih.cons _
  | stay _ hstays _ ih => simpa [hstays] using ih
  | @drop _ x rest visited kept _ hleaves _ ih =>
    rw [List.filter_cons_of_pos (by simpa using hleaves)]
    have hmoved := ih.trans (moveLast_perm rest)
    exact List.perm_middle.trans (hmoved.cons x)

/-- No entry is visited twice. -/
theorem Sweep.visited_subperm (h : Sweep ready leaves budget rest visited kept) : visited.Subperm rest := by
  induction h with
  | spent => exact List.nil_subperm
  | finished => exact List.nil_subperm
  | pass _ _ ih => exact ih.trans (List.sublist_cons_self _ _).subperm
  | stay _ _ _ ih => exact (List.subperm_cons _).2 ih
  | drop _ _ _ ih => exact (List.subperm_cons _).2 (ih.trans (moveLast_perm _).subperm)

variable [DecidablePred ready]

/-- With a budget for all that are ready, exactly these are visited. -/
theorem Sweep.visited_perm (h : Sweep ready leaves budget rest visited kept)
    (hbudget : (rest.filter ready).length ≤ budget) : visited.Perm (rest.filter ready) := by
  induction h with
  | spent =>
    rw [List.length_eq_zero_iff.1 (Nat.le_zero.1 hbudget)]
  | finished => simp
  | pass hidle _ ih => simpa [hidle] using ih (by simpa [hidle] using hbudget)
  | stay hready _ _ ih =>
    rw [List.filter_cons_of_pos (by simpa using hready)] at hbudget ⊢
    exact (ih (by simpa using hbudget)).cons _
  | @drop _ x rest _ _ hready _ _ ih =>
    rw [List.filter_cons_of_pos (by simpa using hready)] at hbudget ⊢
    have hmoved := (moveLast_perm rest).filter ready
    apply List.Perm.cons
    exact (ih (by simpa [hmoved.length_eq] using hbudget)).trans hmoved

/-- With a budget for the entries before the last one, the last one is not visited
    as long as none of them leaves before the budget is used up. -/
theorem Sweep.visited_eq {real : List α} {last : α}
    (h : Sweep ready leaves (real.filter ready).length (real ++ [last]) visited kept)
    (hstay : ∀ x ∈ (real.filter ready).dropLast, ¬ leaves x) : visited = real.filter ready := by
  induction real generalizing visited kept with
  | nil => exact h.visited_of_spent
  | cons x real ih =>
    by_cases hready : ready x
    · rw [List.filter_cons_of_pos (by simpa using hready)] at h hstay ⊢
      simp only [List.length_cons, List.cons_append] at h
      cases h with
      | pass hidle => exact absurd hready hidle
      | stay _ _ hrest =>
        rw [ih hrest]
        intro y hy
        apply hstay y
        rw [List.dropLast_cons_of_ne_nil (List.ne_nil_of_mem (List.dropLast_subset _ hy))]
        exact List.mem_cons_of_mem _ hy
      | drop _ hleaves hrest =>
        have hnone : real.filter ready = [] := by
          by_contra hsome
          apply hstay x _ hleaves
          rw [List.dropLast_cons_of_ne_nil hsome]
          exact List.mem_cons_self
        rw [hnone] at hrest ⊢
        rw [hrest.visited_of_spent]
    · rw [List.filter_cons_of_neg (by simpa using hready)] at h hstay ⊢
      generalize hbudget : (real.filter ready).length = budget at h
      cases h with
      | spent => exact (List.length_eq_zero_iff.1 hbudget).symm
      | pass _ hrest => exact ih (hbudget ▸ hrest) hstay
      | stay hyes => exact absurd hyes hready
      | drop hyes => exact absurd hyes hready

/-- A ready last entry is visited when one leaves early. -/
theorem Sweep.last_mem_visited {real : List α} {last : α}
    (h : Sweep ready leaves (real.filter ready).length (real ++ [last]) visited kept)
    (hlast : ready last) (hleave : ∃ x ∈ (real.filter ready).dropLast, leaves x) : last ∈ visited := by
  induction real generalizing visited kept with
  | nil => simp at hleave
  | cons x real ih =>
    by_cases hready : ready x
    · rw [List.filter_cons_of_pos (by simpa using hready)] at h hleave
      have hmore : real.filter ready ≠ [] := by
        intro hnone
        simp [hnone] at hleave
      rw [List.dropLast_cons_of_ne_nil hmore] at hleave
      simp only [List.length_cons, List.cons_append] at h
      cases h with
      | pass hidle => exact absurd hready hidle
      | stay _ hstays hrest =>
        apply List.mem_cons_of_mem
        obtain ⟨y, hy, hleaves⟩ := hleave
        rcases List.mem_cons.1 hy with rfl | hy
        · exact absurd hleaves hstays
        · exact ih hrest ⟨y, hy, hleaves⟩
      | drop _ _ hrest =>
        apply List.mem_cons_of_mem
        rw [moveLast_append_singleton] at hrest
        generalize hbudget : (real.filter ready).length = budget at hrest
        cases hrest with
        | spent => exact absurd (List.length_eq_zero_iff.1 hbudget) hmore
        | pass hidle => exact absurd hlast hidle
        | stay => exact List.mem_cons_self
        | drop => exact List.mem_cons_self
    · rw [List.filter_cons_of_neg (by simpa using hready)] at h hleave
      generalize hbudget : (real.filter ready).length = budget at h
      cases h with
      | spent => simp [List.length_eq_zero_iff.1 hbudget] at hleave
      | pass _ hrest => exact ih (hbudget ▸ hrest) hleave
      | stay hyes => exact absurd hyes hready
      | drop hyes => exact absurd hyes hready

end oslabs.sweep
