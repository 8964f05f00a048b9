import Mathlib.Logic.Function.Basic
import OsLabs.Lib.Run

open oslabs.run

namespace oslabs.ledger

variable {ρ ω : Type*} [DecidableEq ρ]

/-- What has become of a resource that passes from owner to owner until it is freed. -/
inductive Stage (ω : Type*) where
  | fresh
  | held (owner : ω)
  | freed
  | lost

/-- A resource gets its first owner or another one, is freed by its owner, or is lost when
    its owner forgets it. -/
inductive Move (ρ ω : Type*) where
  | acquire (r : ρ) (owner : ω)
  | pass (r : ρ) (owner : ω)
  | free (r : ρ)
  | drop (r : ρ)

/-- Only what is fresh is acquired, and only what has an owner is moved. -/
inductive Book (stage : ρ → Stage ω) : Move ρ ω → (ρ → Stage ω) → Prop where
  | acquire {r : ρ} {owner : ω} (h : stage r = .fresh) :
      Book stage (.acquire r owner) (Function.update stage r (.held owner))
  | pass {r : ρ} {before owner : ω} (h : stage r = .held before) :
      Book stage (.pass r owner) (Function.update stage r (.held owner))
  | free {r : ρ} {owner : ω} (h : stage r = .held owner) :
      Book stage (.free r) (Function.update stage r .freed)
  | drop {r : ρ} {owner : ω} (h : stage r = .held owner) :
      Book stage (.drop r) (Function.update stage r .lost)

variable {stage last : ρ → Stage ω} {move : Move ρ ω} {moves : List (Move ρ ω)}

/-- What is lost stays lost, and nothing is lost but what is dropped. -/
theorem Book.lost_iff (h : Book stage move last) (r : ρ) :
    last r = .lost ↔ stage r = .lost ∨ .drop r = move := by
  have hupdate : ∀ {other : ρ} {after : Stage ω}, stage other ≠ .lost →
      (Function.update stage other after r = .lost ↔ stage r = .lost ∨ after = .lost ∧ r = other) := by
    intro other after hne
    by_cases hr : r = other
    · subst hr
      simp [hne]
    · simp [hr]
  cases h with
  | acquire h | pass h | free h | drop h =>
    rw [hupdate (by rw [h]; simp)]
    simp

section Holding

variable [DecidableEq ω] {holds : ω → Option ρ} {r : ρ} {owner next : ω} {after : Stage ω}

omit [DecidableEq ρ] [DecidableEq ω] in
/-- What an owner holds is what the ledger says that it holds, one resource at most. -/
def Holding (holds : ω → Option ρ) (stage : ρ → Stage ω) : Prop :=
  ∀ owner r, holds owner = some r ↔ stage r = .held owner

theorem Holding.acquire (h : Holding holds stage) (hfresh : stage r = .fresh) (hnone : holds owner = none) :
    Holding (Function.update holds owner (some r)) (Function.update stage r (.held owner)) := by
  intro other x
  by_cases hx : x = r
  · subst hx
    by_cases hother : other = owner
    · simp [hother]
    · simp [hother, Ne.symm hother, h other x, hfresh]
  · by_cases hother : other = owner
    · subst hother
      simp [hx, Ne.symm hx, ← h other x, hnone]
    · simp [hx, hother, h other x]

/-- The owner is rid of a resource that is not held any more. -/
theorem Holding.dispose (h : Holding holds stage) (hheld : holds owner = some r)
    (hafter : ∀ other, after ≠ .held other) :
    Holding (Function.update holds owner none) (Function.update stage r after) := by
  intro other x
  by_cases hother : other = owner
  · subst hother
    by_cases hx : x = r
    · simp [hx, hafter]
    · simp [hx, ← h other x, hheld, Ne.symm hx]
  · by_cases hx : x = r
    · subst hx
      simp [hother, hafter, h other x, (h owner x).1 hheld, Ne.symm hother]
    · simp [hother, hx, h other x]

theorem Holding.pass (h : Holding holds stage) (hheld : holds owner = some r) (hnone : holds next = none) :
    Holding (Function.update (Function.update holds owner none) next (some r))
      (Function.update stage r (.held next)) := by
  have hrid : Holding (Function.update holds owner none) (Function.update stage r .fresh) :=
    h.dispose hheld fun other => by simp
  have hfree : Function.update holds owner none next = none := by simp [Function.update_apply, hnone]
  have hacquired := hrid.acquire (r := r) (by simp) hfree
  rwa [Function.update_idem] at hacquired

end Holding

/-- In a run the resources that are dropped are the ones that get lost. -/
theorem lost_iff_of_run (hrun : Run Book stage moves last) (r : ρ) :
    last r = .lost ↔ stage r = .lost ∨ .drop r ∈ moves := by
  induction hrun with
  | nil => simp
  | snoc _ hstep ih => rw [hstep.lost_iff, ih, List.mem_append, List.mem_singleton, or_assoc]

end oslabs.ledger
