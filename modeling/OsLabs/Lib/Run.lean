import Mathlib.Data.List.Induction

namespace oslabs.run

variable {σ τ α : Type*}

/-- A finite run of a labelled step relation, grown at its end. The labels are
    the choices made in the run, in order. -/
inductive Run (Step : σ → α → σ → Prop) (start : σ) : List α → σ → Prop where
  | nil : Run Step start [] start
  | snoc {labels : List α} {state last : σ} {label : α}
      (hrun : Run Step start labels state) (hstep : Step state label last) :
      Run Step start (labels ++ [label]) last

theorem Run.single {Step : σ → α → σ → Prop} {start last : σ} {label : α} (hstep : Step start label last) :
    Run Step start [label] last :=
  .snoc .nil hstep

theorem Run.eq_of_nil {Step : σ → α → σ → Prop} {start last : σ} (hrun : Run Step start [] last) :
    last = start := by
  generalize hnil : [] = labels at hrun
  cases hrun with
  | nil => rfl
  | snoc => simp at hnil

theorem Run.of_snoc {Step : σ → α → σ → Prop} {start last : σ} {labels : List α} {label : α}
    (hrun : Run Step start (labels ++ [label]) last) :
    ∃ state, Run Step start labels state ∧ Step state label last := by
  generalize hall : labels ++ [label] = all at hrun
  cases hrun with
  | nil => simp at hall
  | snoc hrun hstep =>
    obtain ⟨rfl, hlabel⟩ := List.append_inj' hall rfl
    obtain rfl := List.singleton_inj.1 hlabel
    exact ⟨_, hrun, hstep⟩

theorem Run.append {Step : σ → α → σ → Prop} {start state last : σ} {first second : List α}
    (hfirst : Run Step start first state) (hsecond : Run Step state second last) :
    Run Step start (first ++ second) last := by
  induction hsecond with
  | nil => rwa [List.append_nil]
  | snoc _ hstep ih =>
    rw [← List.append_assoc]
    exact .snoc ih hstep

/-- A property of the start that every step keeps holds at the end of a run. -/
theorem Run.invariant {Step : σ → α → σ → Prop} {start last : σ} {labels : List α} (P : σ → Prop)
    (hrun : Run Step start labels last) (hstart : P start)
    (hkeep : ∀ s label s', P s → Step s label s' → P s') : P last := by
  induction hrun with
  | nil => exact hstart
  | snoc _ hstep ih => exact hkeep _ _ _ ih hstep

/-- Forward simulation: when every step of one system is matched by a step of
    another with the same label, so is every run. -/
theorem Run.simulates {Step : σ → α → σ → Prop} {Step' : τ → α → τ → Prop} {R : σ → τ → Prop}
    {start last : σ} {start' : τ} {labels : List α} (hrun : Run Step start labels last)
    (hstart : R start start')
    (hmatch : ∀ s t label s', R s t → Step s label s' → ∃ t', Step' t label t' ∧ R s' t') :
    ∃ last', Run Step' start' labels last' ∧ R last last' := by
  induction hrun with
  | nil => exact ⟨start', .nil, hstart⟩
  | snoc _ hstep ih =>
    obtain ⟨state', hrun', hrel⟩ := ih
    obtain ⟨last', hstep', hrel'⟩ := hmatch _ _ _ _ hrel hstep
    exact ⟨last', .snoc hrun' hstep', hrel'⟩

/-- Forward simulation where the other system may make some steps, or none, for each one. -/
theorem Run.simulates_runs {β : Type*} {Step : σ → α → σ → Prop} {Step' : τ → β → τ → Prop} {R : σ → τ → Prop}
    {start last : σ} {start' : τ} {labels : List α} (hrun : Run Step start labels last)
    (hstart : R start start')
    (hmatch : ∀ s t label s', R s t → Step s label s' → ∃ more t', Run Step' t more t' ∧ R s' t') :
    ∃ labels' last', Run Step' start' labels' last' ∧ R last last' := by
  induction hrun with
  | nil => exact ⟨[], start', .nil, hstart⟩
  | snoc _ hstep ih =>
    obtain ⟨labels', state', hrun', hrel⟩ := ih
    obtain ⟨more, last', hmore, hrel'⟩ := hmatch _ _ _ _ hrel hstep
    exact ⟨labels' ++ more, last', hrun'.append hmore, hrel'⟩

theorem Run.mono {Step Step' : σ → α → σ → Prop} {start last : σ} {labels : List α}
    (hrun : Run Step start labels last) (himp : ∀ s label s', Step s label s' → Step' s label s') :
    Run Step' start labels last := by
  induction hrun with
  | nil => exact .nil
  | snoc _ hstep ih => exact ih.snoc (himp _ _ _ hstep)

/-- Steps may be exchanged for others that are matched wherever an invariant holds. -/
theorem Run.mono_of {Step Step' : σ → α → σ → Prop} {P : σ → Prop} {start last : σ} {labels : List α}
    (hrun : Run Step start labels last) (hstart : P start)
    (himp : ∀ s label s', P s → Step s label s' → Step' s label s' ∧ P s') :
    Run Step' start labels last := by
  have hmatch : ∀ s t label s', s = t ∧ P s → Step s label s' →
      ∃ t', Step' t label t' ∧ s' = t' ∧ P s' := by
    rintro s t label s' ⟨rfl, hs⟩ hstep
    obtain ⟨hstep', hs'⟩ := himp s label s' hs hstep
    exact ⟨s', hstep', rfl, hs'⟩
  obtain ⟨_, hrun', rfl, _⟩ := hrun.simulates ⟨rfl, hstart⟩ hmatch
  exact hrun'

/-- A run has no more steps than a measure that every step lowers from states with an
    invariant. -/
theorem Run.length_add_le {Step : σ → α → σ → Prop} (P : σ → Prop) (measure : σ → Nat)
    (hlower : ∀ s label s', P s → Step s label s' → P s' ∧ measure s' < measure s) {start last : σ}
    {labels : List α} (hrun : Run Step start labels last) (hstart : P start) :
    labels.length + measure last ≤ measure start := by
  have hkept : P last ∧ labels.length + measure last ≤ measure start := by
    induction hrun with
    | nil => exact ⟨hstart, by simp⟩
    | snoc _ hstep ih =>
      obtain ⟨hlast, hless⟩ := hlower _ _ _ ih.1 hstep
      refine ⟨hlast, ?_⟩
      rw [List.length_append, List.length_singleton]
      omega
  exact hkept.2

/-- With such a measure every run can be brought to an end. -/
theorem exists_end {Step : σ → α → σ → Prop} (P : σ → Prop) (measure : σ → Nat)
    (hlower : ∀ s label s', P s → Step s label s' → P s' ∧ measure s' < measure s) {start : σ} (hstart : P start) :
    ∃ labels last, Run Step start labels last ∧ ∀ label s', ¬ Step last label s' := by
  induction hmeasure : measure start using Nat.strongRecOn generalizing start with
  | ind n ih =>
    by_cases hend : ∀ label s', ¬ Step start label s'
    · exact ⟨[], start, .nil, hend⟩
    · simp only [not_forall, not_not] at hend
      obtain ⟨label, s', hstep⟩ := hend
      obtain ⟨hnext, hless⟩ := hlower _ _ _ hstart hstep
      obtain ⟨labels, last, hrun, hlast⟩ := ih _ (hmeasure ▸ hless) hnext rfl
      exact ⟨[label] ++ labels, last, Run.append (.snoc .nil hstep) hrun, hlast⟩

/-- `P` holds of the state before and the label of every step of the runs that take
    these labels. -/
def Along (Step : σ → α → σ → Prop) (P : σ → α → Prop) (start : σ) (labels : List α) : Prop :=
  ∀ before label after state, labels = before ++ label :: after →
    Run Step start before state → P state label

theorem Along.of_append {Step : σ → α → σ → Prop} {P : σ → α → Prop} {start : σ}
    {labels more : List α} (h : Along Step P start (labels ++ more)) : Along Step P start labels := by
  intro before label after state hsplit hbefore
  exact h before label (after ++ more) state (by simp [hsplit]) hbefore

theorem Along.last {Step : σ → α → σ → Prop} {P : σ → α → Prop} {start state : σ}
    {labels : List α} {label : α} (h : Along Step P start (labels ++ [label]))
    (hrun : Run Step start labels state) : P state label :=
  h labels label [] state rfl hrun

/-- The steps of an executable system: the ones its step function computes. -/
def StepOf (step : σ → α → Option σ) (s : σ) (label : α) (s' : σ) : Prop :=
  step s label = some s'

/-- The state an executable system reaches by a list of labels, if it can take
    all of them. -/
def exec (step : σ → α → Option σ) : σ → List α → Option σ
  | s, [] => some s
  | s, label :: labels => (step s label).bind fun s' => exec step s' labels

theorem exec_append (step : σ → α → Option σ) (s : σ) (first second : List α) :
    exec step s (first ++ second) = (exec step s first).bind fun s' => exec step s' second := by
  induction first generalizing s with
  | nil => rfl
  | cons label first ih =>
    simp only [List.cons_append, exec]
    cases step s label with
    | none => rfl
    | some s' => exact ih s'

/-- The runs of an executable system are its executions. -/
theorem run_stepOf_iff {step : σ → α → Option σ} {start last : σ} {labels : List α} :
    Run (StepOf step) start labels last ↔ exec step start labels = some last := by
  constructor
  · intro hrun
    induction hrun with
    | nil => rfl
    | snoc _ hstep ih =>
      rw [exec_append, ih]
      simpa [exec, StepOf] using hstep
  · induction labels using List.reverseRecOn generalizing last with
    | nil =>
      intro hexec
      obtain rfl : start = last := by simpa [exec] using hexec
      exact .nil
    | append_singleton labels label ih =>
      intro hexec
      rw [exec_append] at hexec
      cases hbefore : exec step start labels with
      | none => simp [hbefore] at hexec
      | some state =>
        apply Run.snoc (ih hbefore)
        simpa [hbefore, exec, StepOf] using hexec

/-- `P` holds of the state before and the label of every step of an execution. -/
def EveryStep (step : σ → α → Option σ) (P : σ → α → Prop) (start : σ) (labels : List α) : Prop :=
  ∀ before label after state, labels = before ++ label :: after →
    exec step start before = some state → P state label

theorem everyStep_nil (step : σ → α → Option σ) (P : σ → α → Prop) (start : σ) :
    EveryStep step P start [] := by
  intro before label after state hsplit
  simp at hsplit

theorem everyStep_snoc_iff {step : σ → α → Option σ} {P : σ → α → Prop} {start state : σ}
    {labels : List α} {label : α} (hexec : exec step start labels = some state) :
    EveryStep step P start (labels ++ [label]) ↔ EveryStep step P start labels ∧ P state label := by
  constructor
  · intro h
    refine ⟨?_, h labels label [] state rfl hexec⟩
    intro before other after mid hsplit hmid
    exact h before other (after ++ [label]) mid (by simp [hsplit]) hmid
  · rintro ⟨hevery, hlast⟩ before other after mid hsplit hmid
    rcases List.eq_nil_or_concat after with rfl | ⟨after, final, rfl⟩
    · obtain ⟨rfl, hlabel⟩ := List.append_inj' hsplit rfl
      obtain rfl : label = other := by simpa using hlabel
      obtain rfl : state = mid := by simpa [hexec] using hmid
      exact hlast
    · rw [List.concat_eq_append, ← List.cons_append, ← List.append_assoc] at hsplit
      obtain ⟨rfl, _⟩ := List.append_inj' hsplit rfl
      exact hevery before other after mid rfl hmid

theorem everyStep_cons_iff {step : σ → α → Option σ} {P : σ → α → Prop} {start : σ} {label : α}
    {labels : List α} :
    EveryStep step P start (label :: labels) ↔
      P start label ∧ ∀ s' ∈ step start label, EveryStep step P s' labels := by
  constructor
  · intro h
    refine ⟨h [] label labels start rfl rfl, ?_⟩
    intro s' hs' before other after state hsplit hbefore
    apply h (label :: before) other after state (by simp [hsplit])
    rw [exec, Option.mem_def.1 hs']
    exact hbefore
  · rintro ⟨hfirst, hrest⟩ before other after state hsplit hbefore
    cases before with
    | nil =>
      obtain ⟨rfl, rfl⟩ := List.cons.inj hsplit
      obtain rfl := Option.some.inj hbefore
      exact hfirst
    | cons label before =>
      obtain ⟨rfl, rfl⟩ := List.cons.inj hsplit
      obtain ⟨s', hs', hbefore⟩ := Option.bind_eq_some_iff.1 hbefore
      exact hrest s' hs' before other after state rfl hbefore

instance {step : σ → α → Option σ} {P : σ → α → Prop} [∀ s label, Decidable (P s label)] :
    ∀ labels start, Decidable (EveryStep step P start labels)
  | [], start => isTrue (everyStep_nil step P start)
  | label :: labels, start =>
    have : ∀ s', Decidable (EveryStep step P s' labels) := fun s' => instDecidableEveryStep labels s'
    decidable_of_iff (P start label ∧ ∀ s' ∈ step start label, EveryStep step P s' labels)
      everyStep_cons_iff.symm

/-- Where an invariant makes a property of a step one of its label alone, the property holds of
    every step if it holds of every label. -/
theorem everyStep_iff_forall {step : σ → α → Option σ} {P : σ → α → Prop} {Q : α → Prop} (Inv : σ → Prop)
    (hkeep : ∀ s label s', Inv s → step s label = some s' → Inv s' ∧ (P s label ↔ Q label)) {start last : σ}
    {labels : List α} (hstart : Inv start) (hexec : exec step start labels = some last) :
    EveryStep step P start labels ↔ ∀ label ∈ labels, Q label := by
  induction labels generalizing start with
  | nil => exact iff_of_true (everyStep_nil step P start) (by simp)
  | cons label labels ih =>
    obtain ⟨next, hstep, hrest⟩ := Option.bind_eq_some_iff.1 hexec
    obtain ⟨hnext, hiff⟩ := hkeep _ _ _ hstart hstep
    rw [everyStep_cons_iff, List.forall_mem_cons, hiff, hstep, ← ih hnext hrest]
    simp

/-- What holds of every step of an execution holds of every step of a part of it. -/
theorem EveryStep.of_append {step : σ → α → Option σ} {P : σ → α → Prop} {start : σ}
    {labels more : List α} (h : EveryStep step P start (labels ++ more)) : EveryStep step P start labels := by
  intro before label after state hsplit hbefore
  exact h before label (after ++ more) state (by simp [hsplit]) hbefore

end oslabs.run
