import Mathlib.Data.Fintype.Card
import Mathlib.Data.Nat.Count
import Mathlib.Logic.Function.Basic

namespace oslabs.crew

/-- Workers that take jobs in the order of their numbers: how many were taken, and the job that
    each worker is at. -/
structure Crew (W : Type*) where
  taken : Nat
  job : W → Option Nat

variable {W : Type*} [DecidableEq W]

/-- A worker that is at no job takes the next one, or ends the job it is at, unless that one is
    endless. -/
inductive Turn (endless : Nat → Prop) (c : Crew W) : Crew W → Prop where
  | stay : Turn endless c c
  | take {w : W} (hidle : c.job w = none) :
      Turn endless c ⟨c.taken + 1, Function.update c.job w (some c.taken)⟩
  | finish {w : W} {j : Nat} (hjob : c.job w = some j) (hends : ¬ endless j) :
      Turn endless c ⟨c.taken, Function.update c.job w none⟩

/-- Each job has one worker at most, and an endless one that was taken has one for ever. -/
structure Busy (endless : Nat → Prop) (c : Crew W) : Prop where
  below : ∀ w j, c.job w = some j → j < c.taken
  alone : ∀ w w' j, c.job w = some j → c.job w' = some j → w = w'
  held : ∀ j < c.taken, endless j → ∃ w, c.job w = some j

variable {endless : Nat → Prop} {c c' : Crew W} {w : W} {j : Nat}

theorem Busy.take (h : Busy endless c) (hidle : c.job w = none) :
    Busy endless ⟨c.taken + 1, Function.update c.job w (some c.taken)⟩ := by
  have hjob : ∀ v i, Function.update c.job w (some c.taken) v = some i →
      v = w ∧ i = c.taken ∨ v ≠ w ∧ c.job v = some i := by
    intro v i hv
    by_cases hvw : v = w
    · subst hvw
      rw [Function.update_self] at hv
      exact .inl ⟨rfl, (Option.some.inj hv).symm⟩
    · rw [Function.update_of_ne hvw] at hv
      exact .inr ⟨hvw, hv⟩
  refine ⟨?_, ?_, ?_⟩
  · intro v i hv
    rcases hjob v i hv with ⟨_, rfl⟩ | ⟨_, hold⟩
    · exact Nat.lt_succ_self _
    · exact Nat.lt_succ_of_lt (h.below v i hold)
  · intro v v' i hv hv'
    rcases hjob v i hv with ⟨rfl, rfl⟩ | ⟨_, hold⟩
    · rcases hjob v' _ hv' with ⟨rfl, _⟩ | ⟨_, hold'⟩
      · rfl
      · exact absurd (h.below v' _ hold') (Nat.lt_irrefl _)
    · rcases hjob v' i hv' with ⟨rfl, rfl⟩ | ⟨_, hold'⟩
      · exact absurd (h.below v _ hold) (Nat.lt_irrefl _)
      · exact h.alone v v' i hold hold'
  · intro i hi hendless
    rcases Nat.lt_succ_iff_lt_or_eq.1 hi with hlt | rfl
    · obtain ⟨v, hv⟩ := h.held i hlt hendless
      have hvw : v ≠ w := by
        rintro rfl
        rw [hidle] at hv
        cases hv
      exact ⟨v, (Function.update_of_ne hvw ..).trans hv⟩
    · exact ⟨w, Function.update_self ..⟩

theorem Busy.finish (h : Busy endless c) (hjob : c.job w = some j) (hends : ¬ endless j) :
    Busy endless ⟨c.taken, Function.update c.job w none⟩ := by
  have hkept : ∀ v i, Function.update c.job w none v = some i → c.job v = some i := by
    intro v i hv
    by_cases hvw : v = w
    · rw [hvw, Function.update_self] at hv
      cases hv
    · rwa [Function.update_of_ne hvw] at hv
  refine ⟨fun v i hv => h.below v i (hkept v i hv), ?_, ?_⟩
  · intro v v' i hv hv'
    exact h.alone v v' i (hkept v i hv) (hkept v' i hv')
  · intro i hi hendless
    obtain ⟨v, hv⟩ := h.held i hi hendless
    have hvw : v ≠ w := by
      rintro rfl
      rw [hjob] at hv
      obtain rfl := Option.some.inj hv
      exact hends hendless
    exact ⟨v, (Function.update_of_ne hvw ..).trans hv⟩

theorem Busy.turn (h : Busy endless c) (hturn : Turn endless c c') : Busy endless c' := by
  cases hturn with
  | stay => exact h
  | take hidle => exact h.take hidle
  | finish hjob hends => exact h.finish hjob hends

variable [Fintype W] [DecidablePred endless]

/-- When a worker is at no job, the others are at all endless jobs. -/
theorem Busy.count_lt (h : Busy endless c) (hidle : c.job w = none) :
    Nat.count endless c.taken < Fintype.card W := by
  have hsubset : ((Finset.range c.taken).filter endless).image some ⊆ (Finset.univ.erase w).image c.job := by
    intro job hjob
    obtain ⟨i, hi, rfl⟩ := Finset.mem_image.1 hjob
    obtain ⟨hlt, hendless⟩ := Finset.mem_filter.1 hi
    obtain ⟨v, hv⟩ := h.held i (Finset.mem_range.1 hlt) hendless
    refine Finset.mem_image.2 ⟨v, Finset.mem_erase.2 ⟨?_, Finset.mem_univ v⟩, hv⟩
    rintro rfl
    rw [hidle] at hv
    cases hv
  calc Nat.count endless c.taken
      = (((Finset.range c.taken).filter endless).image some).card := by
        rw [Nat.count_eq_card_filter_range, Finset.card_image_of_injective _ (Option.some_injective _)]
    _ ≤ ((Finset.univ.erase w).image c.job).card := Finset.card_le_card hsubset
    _ ≤ (Finset.univ.erase w).card := Finset.card_image_le
    _ < Fintype.card W := Finset.card_erase_lt_of_mem (Finset.mem_univ w)

omit [DecidableEq W] in
/-- When there are fewer endless jobs than workers, a worker is at no job or at one that ends. -/
theorem Busy.exists_free (h : Busy endless c) (hcount : Nat.count endless c.taken < Fintype.card W) :
    ∃ w, ∀ j, c.job w = some j → ¬ endless j := by
  by_contra hnone
  simp only [not_exists, not_forall, not_not] at hnone
  choose job hjob hendless using hnone
  have hle : (Finset.univ : Finset W).card ≤ ((Finset.range c.taken).filter endless).card := by
    apply Finset.card_le_card_of_injOn job
    · intro w _
      exact Finset.mem_coe.2 (Finset.mem_filter.2 ⟨Finset.mem_range.2 (h.below w _ (hjob w)), hendless w⟩)
    · intro w _ w' _ hsame
      exact h.alone w w' _ (hjob w) (hsame ▸ hjob w')
  rw [← Nat.count_eq_card_filter_range] at hle
  exact absurd hcount (Nat.not_lt.2 hle)

/-- No job was taken behind as many endless ones as there are workers. -/
def Bounded (endless : Nat → Prop) [DecidablePred endless] (c : Crew W) : Prop :=
  ∀ j < c.taken, Nat.count endless j < Fintype.card W

theorem Busy.bounded (h : Busy endless c) (hbounded : Bounded endless c) (hturn : Turn endless c c') :
    Bounded endless c' := by
  cases hturn with
  | stay => exact hbounded
  | finish => exact hbounded
  | take hidle =>
    intro i hi
    rcases Nat.lt_succ_iff_lt_or_eq.1 hi with hlt | rfl
    · exact hbounded i hlt
    · exact h.count_lt hidle

end oslabs.crew
