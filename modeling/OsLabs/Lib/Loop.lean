import Mathlib.Logic.Basic

namespace oslabs.loop

variable {σ τ : Type*}

/-- How one pass through a loop's body ends: with another test of the condition,
    or with a `break`. -/
inductive Flow (σ : Type*) where
  | again (s : σ)
  | leave (s : σ)

/-- `while (cond) body`, for at most `fuel` tests of the condition. The body is
    undefined (`none`) where the program it models has no defined behaviour. -/
def whileLoop (cond : σ → Bool) (body : σ → Option (Flow σ)) : Nat → σ → Option σ
  | 0, _ => none
  | fuel + 1, s =>
    if cond s then
      match body s with
      | none => none
      | some (.again s') => whileLoop cond body fuel s'
      | some (.leave s') => some s'
    else some s

/-- A loop that ends at all ends in one state, whatever the fuel. -/
theorem whileLoop_unique {cond : σ → Bool} {body : σ → Option (Flow σ)} {s s₁ s₂ : σ}
    {fuel₁ fuel₂ : Nat} (h₁ : whileLoop cond body fuel₁ s = some s₁)
    (h₂ : whileLoop cond body fuel₂ s = some s₂) : s₁ = s₂ := by
  induction fuel₁ generalizing s fuel₂ with
  | zero => simp [whileLoop] at h₁
  | succ fuel₁ ih =>
    cases fuel₂ with
    | zero => simp [whileLoop] at h₂
    | succ fuel₂ =>
      simp only [whileLoop] at h₁ h₂
      by_cases hcond : cond s
      · simp only [hcond, if_true] at h₁ h₂
        cases hbody : body s with
        | none => simp [hbody] at h₁
        | some flow =>
          simp only [hbody] at h₁ h₂
          cases flow with
          | again s' => exact ih h₁ h₂
          | leave s' => exact Option.some.inj (h₁.symm.trans h₂)
      · simp only [hcond] at h₁ h₂
        exact Option.some.inj (h₁.symm.trans h₂)

/-- Loop refinement. A loop over concrete states computes the function `f` of the
    abstract state when each pass leaves `f` of the abstract state as it was,
    shrinks a measure, and may only stop where `f` has nothing left to do. The
    measure also bounds the fuel the loop needs, so it terminates. -/
theorem whileLoop_refines {cond : σ → Bool} {body : σ → Option (Flow σ)} (R : σ → τ → Prop)
    (f : τ → τ) (measure : τ → Nat)
    (hexit : ∀ s a, R s a → cond s = false → f a = a)
    (hbody : ∀ s a, R s a → cond s = true →
      (∃ s' a', body s = some (.again s') ∧ R s' a' ∧ f a' = f a ∧ measure a' < measure a) ∨
      (∃ s', body s = some (.leave s') ∧ R s' (f a)))
    {s : σ} {a : τ} (hrel : R s a) {fuel : Nat} (hfuel : measure a < fuel) :
    ∃ s', whileLoop cond body fuel s = some s' ∧ R s' (f a) := by
  induction fuel generalizing s a with
  | zero => omega
  | succ fuel ih =>
    simp only [whileLoop]
    by_cases hcond : cond s = true
    · rw [if_pos hcond]
      rcases hbody s a hrel hcond with ⟨s', a', hrun, hrel', hf, hsmaller⟩ | ⟨s', hrun, hrel'⟩
      · obtain ⟨last, hlast, hend⟩ := ih hrel' (by omega)
        rw [hrun]
        exact ⟨last, hlast, hf ▸ hend⟩
      · rw [hrun]
        exact ⟨s', rfl, hrel'⟩
    · rw [if_neg hcond]
      have hdone := hexit s a hrel (by simpa using hcond)
      exact ⟨s, rfl, hdone.symm ▸ hrel⟩

/-- A loop on a changed state. When the body does the same to a state `s` as to `g s`, for
    as long as the loop on `s` goes on, then the loop on `g s` comes by the end of the loop
    on `s`, and goes on from there. -/
theorem whileLoop_resume {cond : σ → Bool} {body : σ → Option (Flow σ)} (P : σ → Prop) (g : σ → σ)
    (hbody : ∀ s s', P s → cond s = true → body s = some (.again s') →
      cond (g s) = true ∧ body (g s) = some (.again (g s')) ∧ P s')
    (hleave : ∀ s s', body s = some (.leave s') → s' = s) {s last : σ} (hstart : P s) {fuel : Nat}
    (hloop : whileLoop cond body fuel s = some last) :
    P last ∧ ∃ more, ∀ fuel',
      whileLoop cond body (fuel' + more) (g s) = whileLoop cond body fuel' (g last) := by
  induction fuel generalizing s with
  | zero => simp [whileLoop] at hloop
  | succ fuel ih =>
    rw [whileLoop] at hloop
    by_cases hcond : cond s = true
    · rw [if_pos hcond] at hloop
      cases hpass : body s with
      | none => simp [hpass] at hloop
      | some flow =>
        cases flow with
        | again s' =>
          simp only [hpass] at hloop
          obtain ⟨hcond', hpass', hkept⟩ := hbody s s' hstart hcond hpass
          obtain ⟨hlast, more, hmore⟩ := ih hkept hloop
          refine ⟨hlast, more + 1, fun fuel' => ?_⟩
          rw [← Nat.add_assoc, whileLoop, if_pos hcond', hpass']
          exact hmore fuel'
        | leave s' =>
          simp only [hpass, Option.some.injEq] at hloop
          rw [← hloop, hleave s s' hpass]
          exact ⟨hstart, 0, fun _ => rfl⟩
    · rw [if_neg hcond, Option.some.injEq] at hloop
      rw [← hloop]
      exact ⟨hstart, 0, fun _ => rfl⟩

/-- `for (;;) body`, for at most `n` passes: how the last pass has ended. -/
def forLoop (body : σ → Flow σ) : Nat → σ → Flow σ
  | 0, s => .again s
  | n + 1, s =>
    match body s with
    | .again s' => forLoop body n s'
    | .leave s' => .leave s'

theorem forLoop_succ_of_again {body : σ → Flow σ} {n : Nat} {s s' : σ} (h : forLoop body n s = .again s') :
    forLoop body (n + 1) s = body s' := by
  induction n generalizing s with
  | zero =>
    cases h
    rw [forLoop]
    cases body s' <;> rfl
  | succ n ih =>
    rw [forLoop] at h ⊢
    cases hpass : body s with
    | again next =>
      rw [hpass] at h
      exact ih h
    | leave last =>
      rw [hpass] at h
      cases h

/-- A loop that has been left stays where it is. -/
theorem forLoop_of_leave {body : σ → Flow σ} {n : Nat} {s s' : σ} (h : forLoop body n s = .leave s') (more : Nat) :
    forLoop body (n + more) s = .leave s' := by
  induction n generalizing s with
  | zero => cases h
  | succ n ih =>
    rw [Nat.add_right_comm, forLoop]
    rw [forLoop] at h
    cases hpass : body s with
    | again next =>
      rw [hpass] at h
      exact ih h
    | leave last =>
      rw [hpass] at h
      exact h

/-- A loop that a system runs a pass at a time. When the system can make each pass that
    does not leave the loop, or that leaves it where the whole loop ends, then it can bring
    the loop from any of its passes to that end. -/
theorem forLoop_driven {body : σ → Flow σ} (R : τ → Flow σ → Prop) (Leads : τ → τ → Prop) {last : σ}
    (hrefl : ∀ p flow, R p flow → Leads p p) (htrans : ∀ p q r, Leads p q → Leads q r → Leads p r)
    (hpass : ∀ p s, R p (.again s) → (∀ s', body s = .leave s' → s' = last) →
      ∃ q, Leads p q ∧ R q (body s))
    {p : τ} {flow : Flow σ} {s : σ} {n m : Nat} (hrel : R p flow) (hflow : flow = forLoop body n s)
    (hend : forLoop body (n + m) s = .leave last) : ∃ q, Leads p q ∧ R q (.leave last) := by
  induction m generalizing p n flow with
  | zero =>
    rw [Nat.add_zero, ← hflow] at hend
    rw [hend] at hrel
    exact ⟨p, hrefl p _ hrel, hrel⟩
  | succ m ih =>
    cases flow with
    | leave s' =>
      have hsame := forLoop_of_leave hflow.symm (m + 1)
      obtain rfl := Flow.leave.inj (hend.symm.trans hsame)
      exact ⟨p, hrefl p _ hrel, hrel⟩
    | again s' =>
      have hnext := forLoop_succ_of_again hflow.symm
      have hend : forLoop body (n + 1 + m) s = .leave last := by
        rw [← hend, Nat.add_assoc, Nat.add_comm 1 m]
      have hleaves : ∀ s'', body s' = .leave s'' → s'' = last := by
        intro s'' hleave
        have hsame := forLoop_of_leave (hnext.trans hleave) m
        exact Flow.leave.inj (hsame.symm.trans hend)
      obtain ⟨q, hleads, hq⟩ := hpass p s' hrel hleaves
      obtain ⟨r, hleads', hr⟩ := ih hq hnext.symm hend
      exact ⟨r, htrans p q r hleads hleads', hr⟩

end oslabs.loop
