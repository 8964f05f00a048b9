import Mathlib.Algebra.Order.BigOperators.Group.List
import Mathlib.Algebra.Order.Group.Basic

namespace oslabs.greedy

variable {α : Type*} [AddCommGroup α] [LinearOrder α] [IsOrderedAddMonoid α]

/-- How many demands a stock serves when they are taken in order, up to the first
    one that asks for more than is left or that finds nothing left. -/
def served (stock : α) : List α → Nat
  | [] => 0
  | demand :: demands =>
    if 0 < stock ∧ demand ≤ stock then served (stock - demand) demands + 1 else 0

variable {stock demand : α} {demands : List α}

omit [IsOrderedAddMonoid α] in
theorem served_cons_pos (hstock : 0 < stock) (hfits : demand ≤ stock) :
    served stock (demand :: demands) = served (stock - demand) demands + 1 := by
  rw [served, if_pos ⟨hstock, hfits⟩]

omit [IsOrderedAddMonoid α] in
theorem served_cons_neg (hstop : 0 < stock → stock < demand) :
    served stock (demand :: demands) = 0 := by
  rw [served, if_neg]
  rintro ⟨hstock, hfits⟩
  exact absurd hfits (not_le.2 (hstop hstock))

omit [IsOrderedAddMonoid α] in
theorem served_le_length (stock : α) (demands : List α) : served stock demands ≤ demands.length := by
  induction demands generalizing stock with
  | nil => exact Nat.le_refl 0
  | cons demand demands ih =>
    rw [served]
    split
    · exact Nat.succ_le_succ (ih (stock - demand))
    · exact Nat.zero_le _

/-- No more is served than there is. -/
theorem sum_served_le (hstock : 0 ≤ stock) (demands : List α) :
    (demands.take (served stock demands)).sum ≤ stock := by
  induction demands generalizing stock with
  | nil => simpa using hstock
  | cons demand demands ih =>
    by_cases hgo : 0 < stock ∧ demand ≤ stock
    · rw [served_cons_pos hgo.1 hgo.2, List.take_succ_cons, List.sum_cons]
      have hrest := ih (sub_nonneg.2 hgo.2)
      rwa [le_sub_iff_add_le'] at hrest
    · rw [served, if_neg hgo]
      simpa using hstock

private theorem eq_zero_of_sum_nonpos (hdemands : ∀ d ∈ demands, 0 ≤ d) (hsum : demands.sum ≤ 0) :
    ∀ d ∈ demands, d = 0 := by
  intro d hd
  exact le_antisymm ((List.single_le_sum hdemands d hd).trans hsum) (hdemands d hd)

/-- What is served is the longest part that fits, unless it uses up the stock. -/
theorem le_served_or_used_up (hstock : 0 ≤ stock) (hdemands : ∀ d ∈ demands, 0 ≤ d) {k : Nat}
    (hlength : k ≤ demands.length) (hfits : (demands.take k).sum ≤ stock) :
    k ≤ served stock demands ∨ (demands.take (served stock demands)).sum = stock := by
  induction demands generalizing stock k with
  | nil => exact .inl hlength
  | cons demand demands ih =>
    have hrest : ∀ d ∈ demands, 0 ≤ d := fun d hd => hdemands d (List.mem_cons_of_mem _ hd)
    cases k with
    | zero => exact .inl (Nat.zero_le _)
    | succ k =>
      rw [List.take_succ_cons, List.sum_cons] at hfits
      have htail : 0 ≤ (demands.take k).sum :=
        List.sum_nonneg fun d hd => hrest d (List.mem_of_mem_take hd)
      have hle : demand ≤ stock := (le_add_of_nonneg_right htail).trans hfits
      rcases hstock.eq_or_lt with rfl | hpos
      · right
        rw [served_cons_neg fun habsurd => absurd habsurd (lt_irrefl 0)]
        rfl
      · rw [served_cons_pos hpos hle, List.take_succ_cons, List.sum_cons]
        rcases ih (sub_nonneg.2 hle) hrest (Nat.le_of_succ_le_succ hlength)
          (le_sub_iff_add_le'.2 hfits) with hmost | hused
        · exact .inl (Nat.succ_le_succ hmost)
        · exact .inr (by rw [hused, add_sub_cancel])

/-- The demands that are served are as many as the stock is enough for. Only
    demands of nothing are left out, once the stock is used up. -/
theorem eq_zero_of_fits (hstock : 0 ≤ stock) (hdemands : ∀ d ∈ demands, 0 ≤ d) {k : Nat}
    (hfits : (demands.take k).sum ≤ stock) :
    ∀ d ∈ (demands.take k).drop (served stock demands), d = 0 := by
  have hleft : ∀ d ∈ (demands.take k).drop (served stock demands), 0 ≤ d :=
    fun d hd => hdemands d (List.mem_of_mem_take (List.mem_of_mem_drop hd))
  apply eq_zero_of_sum_nonpos hleft
  have hlength : (demands.take k).length = min k demands.length := List.length_take
  have hall : demands.take (min k demands.length) = demands.take k := by
    rw [← List.take_take, List.take_length]
  obtain hmost | hused := le_served_or_used_up hstock hdemands (Nat.min_le_right k _) (hall.symm ▸ hfits)
  · rw [List.drop_eq_nil_of_le (hlength ▸ hmost), List.sum_nil]
  obtain hk | hk := Nat.le_total k (served stock demands)
  · rw [List.drop_eq_nil_of_le (hlength ▸ (Nat.min_le_left _ _).trans hk), List.sum_nil]
  · -- the demands that are served have taken all there is
    have hparts := List.sum_take_add_sum_drop (demands.take k) (served stock demands)
    rw [List.take_take, Nat.min_eq_left hk, hused] at hparts
    rwa [← hparts, add_le_iff_nonpos_right] at hfits

/-- Where every demand is of something, the longest part that fits is served. -/
theorem le_served (hstock : 0 ≤ stock) (hdemands : ∀ d ∈ demands, 0 < d) {k : Nat}
    (hlength : k ≤ demands.length) (hfits : (demands.take k).sum ≤ stock) :
    k ≤ served stock demands := by
  by_contra hmore
  have hleft : (demands.take k).drop (served stock demands) ≠ [] := by
    rw [ne_eq, List.drop_eq_nil_iff, List.length_take, Nat.min_eq_left hlength]
    exact hmore
  obtain ⟨d, hd⟩ := List.exists_mem_of_ne_nil _ hleft
  have hzero := eq_zero_of_fits hstock (fun d hd => (hdemands d hd).le) hfits d hd
  exact (hdemands d (List.mem_of_mem_take (List.mem_of_mem_drop hd))).ne' hzero

end oslabs.greedy
