import OsLabs.Lib.Settle
import OsLabs.Lib.Tally

open oslabs.census oslabs.run

namespace oslabs.workload

/-- A system, and the tasks that its processes have still to begin, in order. -/
structure Loaded (σ P T : Type*) where
  state : σ
  tasks : P → List T

variable {σ α P T : Type*} [DecidableEq P]

/-- A process begins its next task, or somebody goes on with what has begun. -/
inductive Step (Base : σ → α → σ → Prop) (begins : α → Option (P × T)) (s : Loaded σ P T) (label : α) :
    Loaded σ P T → Prop where
  | begin {p : P} {task : T} {rest : List T} {state : σ} (hbegins : begins label = some (p, task))
      (htasks : s.tasks p = task :: rest) (hstep : Base s.state label state) :
      Step Base begins s label ⟨state, Function.update s.tasks p rest⟩
  | go_on {state : σ} (hbegins : begins label = none) (hstep : Base s.state label state) :
      Step Base begins s label ⟨state, s.tasks⟩

variable {Base : σ → α → σ → Prop} {begins : α → Option (P × T)} {s s' : Loaded σ P T} {label : α}

theorem Step.base (hstep : Step Base begins s label s') : Base s.state label s'.state := by
  cases hstep with
  | begin _ _ hstep => exact hstep
  | go_on _ hstep => exact hstep

/-- A process has only tasks that it had before. -/
theorem Step.mem_tasks (hstep : Step Base begins s label s') {p : P} {task : T} (hmem : task ∈ s'.tasks p) :
    task ∈ s.tasks p := by
  cases hstep with
  | go_on => exact hmem
  | @begin q first rest _ _ htasks =>
    dsimp only at hmem
    by_cases hpq : p = q
    · subst hpq
      rw [Function.update_self] at hmem
      rw [htasks]
      exact List.mem_cons_of_mem _ hmem
    · rwa [Function.update_of_ne hpq] at hmem

theorem Step.mem_of_begins (hstep : Step Base begins s label s') {p : P} {task : T}
    (hbegins : begins label = some (p, task)) : task ∈ s.tasks p := by
  cases hstep with
  | begin hbegan htasks _ =>
    obtain ⟨rfl, rfl⟩ := Prod.mk.inj (Option.some.inj (hbegan.symm.trans hbegins))
    rw [htasks]
    exact List.mem_cons_self
  | go_on hnone _ =>
    rw [hnone] at hbegins
    cases hbegins

section End

variable {step : σ → α → Option σ} (hend : ∀ label s', ¬ Step (StepOf step) begins s label s')
include hend

/-- Where nothing is left to do, nobody can go on with what has begun, or begin its next task. -/
theorem eq_none_of_go_on (hbegins : begins label = none) : step s.state label = none := by
  by_contra hsome
  obtain ⟨state, hstep⟩ := Option.ne_none_iff_exists'.1 hsome
  exact hend label _ (.go_on hbegins hstep)

theorem eq_none_of_begin {p : P} {task : T} {rest : List T} (htasks : s.tasks p = task :: rest)
    (hbegins : begins label = some (p, task)) : step s.state label = none := by
  by_contra hsome
  obtain ⟨state, hstep⟩ := Option.ne_none_iff_exists'.1 hsome
  exact hend label _ (.begin hbegins htasks hstep)

end End

variable [Fintype P]

/-- How many tasks of a kind are left. -/
def remaining (kind : T → Bool) (tasks : P → List T) : Nat :=
  tally (List.countP kind) tasks

/-- Whether a step begins a task of a kind, as a number. -/
def begun (kind : T → Bool) (task? : Option (P × T)) : Nat :=
  if task?.any fun task => kind task.2 then 1 else 0

theorem Step.remaining_add (kind : T → Bool) (hstep : Step Base begins s label s') :
    remaining kind s'.tasks + begun kind (begins label) = remaining kind s.tasks := by
  cases hstep with
  | @begin p task rest _ hbegins htasks _ =>
    have htally := tally_update (List.countP kind) s.tasks p rest
    rw [htasks, List.countP_cons] at htally
    simp only [begun, hbegins, Option.any_some, remaining]
    omega
  | go_on hbegins _ => simp [begun, hbegins]

omit [DecidableEq P] in
theorem exists_of_remaining_pos {kind : T → Bool} {tasks : P → List T} (h : 0 < remaining kind tasks) :
    ∃ p, ∃ task ∈ tasks p, kind task = true := by
  obtain ⟨p, hp⟩ := exists_of_tally_pos h
  exact ⟨p, List.countP_pos_iff.1 hp⟩

/-- The work left: so much for each task, and what there is to do with those begun. -/
def work (cost : Nat) (measure : σ → Nat) (s : Loaded σ P T) : Nat :=
  cost * remaining (fun _ => true) s.tasks + measure s.state

/-- Each step leaves less work, when a task costs more than what it adds to the rest. -/
theorem Step.work_lt {cost : Nat} {measure : σ → Nat} (hstep : Step Base begins s label s')
    (hmeasure : measure s'.state < measure s.state + cost * begun (fun _ => true) (begins label)) :
    work cost measure s' < work cost measure s := by
  have hless := hstep.remaining_add fun _ => true
  simp only [work]
  rw [← hless, Nat.mul_add]
  omega

section Traffic

variable {I : Type*}

/-- What a producer or a consumer of items has to do. -/
inductive Errand (I : Type*) where
  | put (item : I)
  | get
  deriving DecidableEq, Repr

def Errand.isPut : Errand I → Bool
  | .put _ => true
  | .get => false

def Errand.isGet : Errand I → Bool
  | .put _ => false
  | .get => true

/-- Each process is a producer or a consumer. -/
def OneWay (tasks : P → List (Errand I)) : Prop :=
  ∀ p, (∀ task ∈ tasks p, task.isPut = true) ∨ ∀ task ∈ tasks p, task.isGet = true

variable {begins : α → Option (P × Errand I)} {s s' : Loaded σ P (Errand I)} {tasks : P → List (Errand I)}

omit [Fintype P] in
theorem OneWay.step (h : OneWay s.tasks) (hstep : Step Base begins s label s') : OneWay s'.tasks := by
  intro p
  rcases h p with hputs | hgets
  · exact .inl fun task hmem => hputs task (hstep.mem_tasks hmem)
  · exact .inr fun task hmem => hgets task (hstep.mem_tasks hmem)

omit [DecidableEq P] in
/-- When there are puts left, some producer is about to begin one. -/
theorem OneWay.exists_put (h : OneWay tasks) (hleft : 0 < remaining Errand.isPut tasks) :
    ∃ p item rest, tasks p = .put item :: rest := by
  obtain ⟨p, task, hmem, hput⟩ := exists_of_remaining_pos hleft
  obtain ⟨first, rest, htasks⟩ := List.exists_cons_of_ne_nil (List.ne_nil_of_mem hmem)
  cases first with
  | put item => exact ⟨p, item, rest, htasks⟩
  | get =>
    rcases h p with hputs | hgets
    · cases hputs .get (htasks ▸ List.mem_cons_self)
    · have hget := hgets task hmem
      cases task with
      | put => cases hget
      | get => cases hput

omit [DecidableEq P] in
theorem OneWay.exists_get (h : OneWay tasks) (hleft : 0 < remaining Errand.isGet tasks) :
    ∃ p rest, tasks p = .get :: rest := by
  obtain ⟨p, task, hmem, hget⟩ := exists_of_remaining_pos hleft
  obtain ⟨first, rest, htasks⟩ := List.exists_cons_of_ne_nil (List.ne_nil_of_mem hmem)
  cases first with
  | get => exact ⟨p, rest, htasks⟩
  | put item =>
    rcases h p with hputs | hgets
    · have hput := hputs task hmem
      cases task with
      | put => cases hget
      | get => cases hput
    · cases hgets (.put item) (htasks ▸ List.mem_cons_self)

omit [DecidableEq P] [Fintype P] in
/-- A consumer has nothing but gets left. -/
theorem OneWay.gets_of_mem (h : OneWay tasks) {p : P} (hmem : .get ∈ tasks p) {task : Errand I}
    (htask : task ∈ tasks p) : task.isGet = true := by
  rcases h p with hputs | hgets
  · cases hputs _ hmem
  · exact hgets task htask

end Traffic

end oslabs.workload
