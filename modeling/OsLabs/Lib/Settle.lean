import OsLabs.Lib.Run

namespace oslabs.run

variable {σ α : Type*}

/-- However a system goes on from a state, it comes to a state with some property: it can make
    no more than so many steps, and where it can make none it has the property. -/
structure Settles (Step : σ → α → σ → Prop) (Goal : σ → Prop) (start : σ) (bound : Nat) : Prop where
  bounded : ∀ labels last, Run Step start labels last → labels.length ≤ bound
  settled : ∀ labels last, Run Step start labels last → (∀ label s', ¬ Step last label s') → Goal last

variable {Step : σ → α → σ → Prop} {Goal : σ → Prop} {start : σ}

/-- A system settles when every step lowers a measure, from states with an invariant, and the
    invariant leaves it a step to make as long as it has not come to its goal. -/
theorem settles_of_measure (P : σ → Prop) (measure : σ → Nat)
    (hlower : ∀ s label s', P s → Step s label s' → P s' ∧ measure s' < measure s)
    (hgoal : ∀ s, P s → (∀ label s', ¬ Step s label s') → Goal s) (hstart : P start) :
    Settles Step Goal start (measure start) where
  bounded labels last hrun := by
    have hle := hrun.length_add_le P measure hlower hstart
    omega
  settled labels last hrun hend := by
    refine hgoal last ?_ hend
    exact hrun.invariant P hstart fun s label s' hs hstep => (hlower s label s' hs hstep).1

/-- When some steps bring a goal nearer and no step takes it further away, there is no room for
    more of these steps than the measure says, unless the goal is reached and stays. -/
theorem countP_add_le_or (P Done : σ → Prop) (counted : α → Bool) (measure : σ → Nat)
    (hkeep : ∀ s label s', P s → Step s label s' → P s')
    (hnearer : ∀ s label s', P s → Step s label s' →
      Done s' ∨ ¬ Done s ∧ measure s' + (if counted label then 1 else 0) ≤ measure s)
    (hstart : P start) {labels : List α} {last : σ} (hrun : Run Step start labels last) :
    Done last ∨ labels.countP counted + measure last ≤ measure start := by
  have hboth : P last ∧ (Done last ∨ labels.countP counted + measure last ≤ measure start) := by
    induction hrun with
    | nil => exact ⟨hstart, .inr (by simp)⟩
    | snoc _ hstep ih =>
      obtain ⟨hstate, hbefore⟩ := ih
      refine ⟨hkeep _ _ _ hstate hstep, ?_⟩
      obtain hdone | ⟨hundone, hle⟩ := hnearer _ _ _ hstate hstep
      · exact .inl hdone
      · have hcount := hbefore.resolve_left hundone
        rw [List.countP_append, List.countP_singleton]
        exact .inr (by omega)
  exact hboth.2

/-- A run whose labels all have a property is one of the steps that have it. -/
theorem Run.restrict {p : α → Prop} {labels : List α} {last : σ} (hrun : Run Step start labels last)
    (h : ∀ label ∈ labels, p label) : Run (fun s label s' => p label ∧ Step s label s') start labels last := by
  induction hrun with
  | nil => exact .nil
  | snoc _ hstep ih =>
    refine .snoc (ih fun label hlabel => h label (List.mem_append_left _ hlabel)) ⟨?_, hstep⟩
    exact h _ (List.mem_append_right _ (List.mem_singleton_self _))

end oslabs.run
