import Mathlib.Algebra.BigOperators.Group.Finset.Piecewise
import Mathlib.Algebra.Order.BigOperators.Group.Finset
import Mathlib.Data.Finset.Max

namespace oslabs.lending

variable {T R L : Type*}

/-- Where each party waits for something that ranks above all it holds, there is one that waits
    for something nobody holds. -/
theorem exists_unheld [LinearOrder L] {waiting : Finset T} (hne : waiting.Nonempty) {Holds : T → R → Prop}
    {wants : T → R} {rank : R → L} (horder : ∀ t ∈ waiting, ∀ r, Holds t r → rank r < rank (wants t)) :
    ∃ t ∈ waiting, ∀ u ∈ waiting, ¬ Holds u (wants t) := by
  obtain ⟨t, ht, hmax⟩ := waiting.exists_max_image (fun t => rank (wants t)) hne
  refine ⟨t, ht, fun u hu hholds => ?_⟩
  exact (horder u hu _ hholds).not_ge (hmax u hu)

/-- Of a total amount, some is free, and the rest is held by some parties. -/
structure Lends (total free : Int) (held : T → Int) (parties : Finset T) : Prop where
  nonneg : ∀ t, 0 ≤ held t
  outside : ∀ t ∉ parties, held t = 0
  balance : free + ∑ t ∈ parties, held t = total

variable {total free amount : Int} {held : T → Int} {parties : Finset T} {t : T}

/-- When nobody holds anything, everything is free. -/
theorem Lends.free_eq (h : Lends total free held parties) (hheld : ∀ t ∈ parties, held t = 0) :
    free = total := by
  rw [← h.balance, Finset.sum_eq_zero hheld, add_zero]

theorem Lends.of_total (hheld : ∀ t, held t = 0) : Lends total total held parties where
  nonneg t := (hheld t).ge
  outside t _ := hheld t
  balance := by rw [Finset.sum_eq_zero fun t _ => hheld t, add_zero]

/-- Parties that hold nothing come and go. -/
theorem Lends.widen (h : Lends total free held parties) {more : Finset T} (hmore : parties ⊆ more) :
    Lends total free held more where
  nonneg := h.nonneg
  outside t ht := h.outside t fun hmem => ht (hmore hmem)
  balance := by
    rw [← Finset.sum_subset hmore fun t _ ht => h.outside t ht]
    exact h.balance

theorem Lends.held_le (h : Lends total free held parties) (t : T) : held t + free ≤ total := by
  have hbalance := h.balance
  by_cases ht : t ∈ parties
  · have hle := Finset.single_le_sum (fun u _ => h.nonneg u) ht
    omega
  · have hsum := Finset.sum_nonneg fun u (_ : u ∈ parties) => h.nonneg u
    rw [h.outside t ht]
    omega

variable [DecidableEq T]

theorem Lends.erase (h : Lends total free held parties) (ht : held t = 0) :
    Lends total free held (parties.erase t) where
  nonneg := h.nonneg
  outside u hu := by
    by_cases heq : u = t
    · rw [heq, ht]
    · exact h.outside u fun hmem => hu (Finset.mem_erase.mpr ⟨heq, hmem⟩)
  balance := by rw [Finset.sum_erase parties ht, h.balance]

/-- What two parties hold together is no more than the total, less what is free. -/
theorem Lends.add_le (h : Lends total free held parties) {u : T} (hne : t ≠ u) :
    held t + held u + free ≤ total := by
  have hmore : Lends total free held ({t, u} ∪ parties) := h.widen Finset.subset_union_right
  have hbalance := hmore.balance
  have hpair : ∑ v ∈ {t, u}, held v ≤ ∑ v ∈ {t, u} ∪ parties, held v :=
    Finset.sum_le_sum_of_subset_of_nonneg Finset.subset_union_left fun v _ _ => h.nonneg v
  rw [Finset.sum_pair hne] at hpair
  omega

/-- What is set aside for a party, out of what is free or back into it, leaves the balance. -/
theorem Lends.update (h : Lends total free held parties) (ht : t ∈ parties) {value : Int}
    (hvalue : 0 ≤ value) :
    Lends total (free - (value - held t)) (Function.update held t value) parties where
  nonneg u := by
    rw [Function.update_apply]
    split
    · exact hvalue
    · exact h.nonneg u
  outside u hu := by
    rw [Function.update_of_ne (ne_of_mem_of_not_mem ht hu).symm]
    exact h.outside u hu
  balance := by
    have hbalance := h.balance
    rw [← Finset.add_sum_erase parties held ht] at hbalance
    rw [Finset.sum_update_of_mem ht, Finset.sdiff_singleton_eq_erase]
    omega

theorem Lends.lend (h : Lends total free held parties) (ht : t ∈ parties) (hamount : 0 ≤ amount) :
    Lends total (free - amount) (Function.update held t (held t + amount)) parties := by
  have hnonneg := h.nonneg t
  have hupdate := h.update ht (show 0 ≤ held t + amount by omega)
  rwa [add_sub_cancel_left] at hupdate

theorem Lends.give_back (h : Lends total free held parties) (ht : t ∈ parties) (hamount : amount ≤ held t) :
    Lends total (free + amount) (Function.update held t (held t - amount)) parties := by
  have hupdate := h.update ht (show 0 ≤ held t - amount by omega)
  rwa [sub_sub_cancel_left, sub_neg_eq_add] at hupdate

end oslabs.lending
