import Mathlib.Algebra.BigOperators.Group.Finset.Piecewise
import Mathlib.Algebra.Order.BigOperators.Group.Finset
import Mathlib.Data.Fintype.BigOperators

open scoped BigOperators

namespace oslabs.census

variable {T P : Type*} [Fintype T]

/-- The total weight of the phases in which a finite set of threads stands. With
    weights 0 and 1 it counts the threads in the phases of weight 1. -/
def tally (weight : P → Nat) (phase : T → P) : Nat :=
  ∑ t, weight (phase t)

/-- When one thread changes its phase, the tally gives up the weight of the old
    phase and takes on the weight of the new one. -/
theorem tally_update [DecidableEq T] (weight : P → Nat) (phase : T → P) (t : T) (p : P) :
    tally weight (Function.update phase t p) + weight (phase t) = tally weight phase + weight p := by
  have hrest : ∑ x ∈ Finset.univ.erase t, weight (Function.update phase t p x) =
      ∑ x ∈ Finset.univ.erase t, weight (phase x) := by
    refine Finset.sum_congr rfl fun x hx => ?_
    rw [Function.update_of_ne (Finset.ne_of_mem_erase hx)]
  have hbefore := Finset.add_sum_erase Finset.univ (fun x => weight (phase x)) (Finset.mem_univ t)
  have hafter := Finset.add_sum_erase Finset.univ (fun x => weight (Function.update phase t p x))
    (Finset.mem_univ t)
  simp only [Function.update_self] at hafter
  rw [hrest] at hafter
  simp only [tally]
  omega

/-- No thread weighs more than all of them together. -/
theorem weight_le_tally (weight : P → Nat) (phase : T → P) (t : T) :
    weight (phase t) ≤ tally weight phase :=
  Finset.single_le_sum (f := fun x => weight (phase x)) (fun _ _ => Nat.zero_le _) (Finset.mem_univ t)

theorem tally_eq_zero_iff (weight : P → Nat) (phase : T → P) :
    tally weight phase = 0 ↔ ∀ t, weight (phase t) = 0 := by
  simp [tally]

theorem tally_const (weight : P → Nat) (p : P) : tally weight (fun _ : T => p) = Fintype.card T * weight p := by
  simp [tally]

/-- A tally of zero-one weights is the number of threads of weight one. -/
theorem tally_indicator (p : P → Prop) [DecidablePred p] (phase : T → P) :
    tally (fun x => if p x then 1 else 0) phase = (Finset.univ.filter fun t => p (phase t)).card := by
  simp only [tally, Finset.card_filter]

/-- When a set of threads changes over to one phase, the tally gives up their
    old weights and takes on the new one for each of them. -/
theorem tally_piecewise [DecidableEq T] (weight : P → Nat) (phase : T → P) (moved : Finset T) (p : P) :
    tally weight (fun t => if t ∈ moved then p else phase t) + ∑ t ∈ moved, weight (phase t) =
      tally weight phase + moved.card * weight p := by
  have hsplit : ∀ f : T → Nat, ∑ t, f t = ∑ t ∈ moved, f t + ∑ t ∈ movedᶜ, f t :=
    fun f => (Finset.sum_add_sum_compl moved f).symm
  have hmoved : ∑ t ∈ moved, weight (if t ∈ moved then p else phase t) = moved.card * weight p :=
    Finset.sum_const_nat fun t ht => by rw [if_pos ht]
  have hrest : ∑ t ∈ movedᶜ, weight (if t ∈ moved then p else phase t) =
      ∑ t ∈ movedᶜ, weight (phase t) :=
    Finset.sum_congr rfl fun t ht => by rw [if_neg (Finset.mem_compl.mp ht)]
  unfold tally
  rw [hsplit, hsplit fun t => weight (phase t), hmoved, hrest]
  omega

/-- A positive tally of weights is due to some thread. -/
theorem exists_of_tally_pos {weight : P → Nat} {phase : T → P} (h : 0 < tally weight phase) :
    ∃ t, 0 < weight (phase t) := by
  by_contra hnone
  push Not at hnone
  have hzero : tally weight phase = 0 :=
    (tally_eq_zero_iff weight phase).mpr fun t => Nat.le_zero.mp (hnone t)
  omega

end oslabs.census
