import Mathlib.Logic.Function.Basic
import OsLabs.Lib.Run

open oslabs.run

namespace oslabs.rota

/-- What the code that runs does next: it creates a thread, it runs the threads
    created, it lets the others run first, or its thread ends. -/
inductive Op where
  | create
  | run
  | yield
  | exit
  deriving DecidableEq, Repr

/-- A round robin of threads numbered in the order of their creation. No number
    stands for the main program, which runs when no thread is ready. -/
structure Rota where
  created : Nat
  ready : List Nat
  running : Option Nat
  order : List (Option Nat)
  deriving DecidableEq, Repr

namespace Rota

def initial : Rota where
  created := 0
  ready := []
  running := none
  order := []

def dispatch (r : Rota) : Rota :=
  match r.ready with
  | next :: rest => { r with ready := rest, running := some next, order := r.order ++ [some next] }
  | [] => { r with running := none, order := r.order ++ [none] }

/-- The main program runs threads when there are some. -/
def step (r : Rota) : Op → Option Rota
  | .create => some { r with created := r.created + 1, ready := r.ready ++ [r.created] }
  | .run => if r.running = none ∧ r.ready ≠ [] then some r.dispatch else none
  | .yield => r.running.map fun curr =>
    if r.ready = [] then r else { r with ready := r.ready ++ [curr] }.dispatch
  | .exit => r.running.map fun _ => r.dispatch

end Rota

/-- A program: its memory at the start, and what the code of a thread or of the
    main program does to that memory up to its next operation. -/
structure Program (σ : Type) where
  start : σ
  next : σ → Option Nat → Op × σ

/-- The round robin and the memory after so many operations of a program. -/
def Program.after {σ : Type} (program : Program σ) : Nat → Option (Rota × σ)
  | 0 => some (Rota.initial, program.start)
  | n + 1 => do
    let (r, memory) ← program.after n
    let (op, memory) := program.next memory r.running
    let r ← r.step op
    some (r, memory)

/-- An implementation of the operations. It knows its threads by the blocks they
    live in, and records which of them it dispatched. A create gets the block it
    is given. -/
structure Host (H : Type) where
  initial : H → Prop
  running : H → Option Nat
  dispatched : H → List (Option Nat)
  perform : H → Op → Nat → H → Prop

/-- An implementation that runs a program. `number` says which of the threads
    created so far was the last one in a block. -/
structure Hosted (H σ : Type) where
  host : H
  memory : σ
  number : Nat → Nat
  created : Nat
  order : List (Option Nat)

variable {H G σ : Type}

/-- The state before the first operation. -/
structure Hosted.Initial (impl : Host H) (program : Program σ) (e : Hosted H σ) : Prop where
  host : impl.initial e.host
  memory : e.memory = program.start
  created : e.created = 0
  order : e.order = []

/-- Which numbers the threads have after an operation. -/
def numbered (op : Op) (number : Nat → Nat) (created block : Nat) : Nat → Nat :=
  match op with
  | .create => Function.update number block created
  | _ => number

/-- One operation of a program. The threads it dispatched go on record by number. -/
structure Hosted.Step (impl : Host H) (program : Program σ) (e : Hosted H σ) (block : Nat)
    (e' : Hosted H σ) : Prop where
  perform : impl.perform e.host (program.next e.memory ((impl.running e.host).map e.number)).1 block e'.host
  memory : e'.memory = (program.next e.memory ((impl.running e.host).map e.number)).2
  number : e'.number =
    numbered (program.next e.memory ((impl.running e.host).map e.number)).1 e.number e.created block
  created : e'.created = e.created +
    if (program.next e.memory ((impl.running e.host).map e.number)).1 = .create then 1 else 0
  order : e'.order = e.order ++
    ((impl.dispatched e'.host).drop (impl.dispatched e.host).length).map (·.map e'.number)

/-- An implementation follows the round robin when some relation between its states
    and the round robin's is kept by every operation. -/
structure Follows (impl : Host H) (R : H → (Nat → Nat) → Rota → Prop) : Prop where
  initial : ∀ h number, impl.initial h → R h number Rota.initial
  running : ∀ h number r, R h number r → (impl.running h).map number = r.running
  step : ∀ h number r op block h', R h number r → impl.perform h op block h' →
    ∃ r' more, r.step op = some r' ∧ R h' (numbered op number r.created block) r' ∧
      impl.dispatched h' = impl.dispatched h ++ more ∧
      r'.order = r.order ++ more.map (·.map (numbered op number r.created block))

theorem Rota.created_step {r r' : Rota} {op : Op} (h : r.step op = some r') :
    r'.created = r.created + if op = .create then 1 else 0 := by
  have hdispatch : ∀ r : Rota, r.dispatch.created = r.created := by
    intro r
    unfold Rota.dispatch
    split <;> rfl
  cases op with
  | create =>
    obtain rfl := Option.some.inj h
    rfl
  | run =>
    simp only [Rota.step] at h
    split at h
    · obtain rfl := Option.some.inj h
      exact hdispatch r
    · cases h
  | yield =>
    obtain ⟨curr, _, rfl⟩ := Option.map_eq_some_iff.mp h
    split
    · rfl
    · exact hdispatch _
  | exit =>
    obtain ⟨curr, _, rfl⟩ := Option.map_eq_some_iff.mp h
    exact hdispatch r

/-- An implementation that follows the round robin dispatches the threads of every
    program as the round robin does. -/
theorem Follows.run_after {impl : Host H} {R : H → (Nat → Nat) → Rota → Prop}
    {program : Program σ} {e₀ e : Hosted H σ} {blocks : List Nat} (h : Follows impl R)
    (hinitial : e₀.Initial impl program) (hrun : Run (Hosted.Step impl program) e₀ blocks e) :
    ∃ r, program.after blocks.length = some (r, e.memory) ∧ R e.host e.number r ∧
      e.created = r.created ∧ e.order = r.order := by
  induction hrun with
  | nil =>
    refine ⟨Rota.initial, ?_, h.initial _ _ hinitial.host, hinitial.created, hinitial.order⟩
    rw [List.length_nil, Program.after, hinitial.memory]
  | @snoc blocks e e' block hrun hstep ih =>
    obtain ⟨r, hafter, hrel, hcreated, horder⟩ := ih
    have hrunning := h.running _ _ _ hrel
    obtain ⟨r', more, hr', hrel', hmore, hmade⟩ := h.step _ _ _ _ _ _ hrel hstep.perform
    rw [← hcreated, ← hstep.number] at hrel' hmade
    refine ⟨r', ?_, hrel', ?_, ?_⟩
    · rw [List.length_append, List.length_singleton, Program.after, hafter]
      rw [hrunning] at hr'
      simp only [Option.bind_eq_bind, Option.bind_some, hr', hstep.memory, hrunning]
    · rw [hstep.created, hcreated, Rota.created_step hr']
    · rw [hstep.order, hmade, hmore, List.drop_left, horder]

/-- An implementation keeps pace with the round robin when it performs every operation that
    the round robin can, unless it is `full` and a thread is to be created. -/
def KeepsPace (impl : Host H) (R : H → (Nat → Nat) → Rota → Prop) (full : H → Prop) : Prop :=
  ∀ h number r op r', R h number r → r.step op = some r' →
    (∃ block h', impl.perform h op block h') ∨ op = .create ∧ full h

/-- What comes next in a program that an implementation runs. -/
def Hosted.op (impl : Host H) (program : Program σ) (e : Hosted H σ) : Op :=
  (program.next e.memory ((impl.running e.host).map e.number)).1

theorem Hosted.exists_step {impl : Host H} {program : Program σ} {e : Hosted H σ} {block : Nat} {host : H}
    (hperform : impl.perform e.host (e.op impl program) block host) :
    ∃ e', Hosted.Step impl program e block e' := by
  let number := numbered (e.op impl program) e.number e.created block
  refine ⟨⟨host, _, number, _, e.order ++ ((impl.dispatched host).drop
    (impl.dispatched e.host).length).map (·.map number)⟩, ⟨hperform, rfl, rfl, rfl, rfl⟩⟩

/-- An implementation that keeps pace runs every program as far as the round robin does, or
    up to a thread to be created when it is full. -/
theorem Follows.exists_run {impl : Host H} {R : H → (Nat → Nat) → Rota → Prop} {full : H → Prop}
    {program : Program σ} {e₀ : Hosted H σ} (h : Follows impl R) (hpace : KeepsPace impl R full)
    (hinitial : e₀.Initial impl program) {n : Nat} {r : Rota} {memory : σ}
    (hafter : program.after n = some (r, memory)) :
    ∃ blocks e, Run (Hosted.Step impl program) e₀ blocks e ∧
      (blocks.length = n ∨ blocks.length < n ∧ e.op impl program = .create ∧ full e.host) := by
  induction n generalizing r memory with
  | zero => exact ⟨[], e₀, .nil, .inl rfl⟩
  | succ n ih =>
    obtain ⟨⟨before, stored⟩, hbefore, hnext⟩ := Option.bind_eq_some_iff.mp hafter
    obtain ⟨r', hstep, _⟩ := Option.bind_eq_some_iff.mp hnext
    obtain ⟨blocks, e, hrun, hlength | ⟨hshort, hfull⟩⟩ := ih hbefore
    · obtain ⟨r₁, hafter₁, hrel, _, _⟩ := h.run_after hinitial hrun
      rw [hlength, hbefore, Option.some.injEq, Prod.mk.injEq] at hafter₁
      obtain ⟨rfl, rfl⟩ := hafter₁
      rw [← h.running _ _ _ hrel] at hstep
      rcases hpace _ _ _ _ _ hrel hstep with ⟨block, host, hperform⟩ | hfull
      · obtain ⟨e', hstep'⟩ := Hosted.exists_step hperform
        refine ⟨blocks ++ [block], e', hrun.snoc hstep', .inl ?_⟩
        rw [List.length_append, hlength, List.length_singleton]
      · exact ⟨blocks, e, hrun, .inr ⟨by omega, hfull⟩⟩
    · exact ⟨blocks, e, hrun, .inr ⟨by omega, hfull⟩⟩

/-- Two implementations that follow the round robin keep one memory of a program and
    dispatch its threads in one order. -/
theorem Follows.same_order {impl : Host H} {other : Host G} {R : H → (Nat → Nat) → Rota → Prop}
    {R' : G → (Nat → Nat) → Rota → Prop} {program : Program σ} {e₀ e : Hosted H σ} {g₀ g : Hosted G σ}
    {blocks blocks' : List Nat} (h : Follows impl R) (h' : Follows other R')
    (hinitial : e₀.Initial impl program) (hrun : Run (Hosted.Step impl program) e₀ blocks e)
    (hinitial' : g₀.Initial other program) (hrun' : Run (Hosted.Step other program) g₀ blocks' g)
    (hlength : blocks.length = blocks'.length) : e.memory = g.memory ∧ e.order = g.order := by
  obtain ⟨r, hafter, _, _, horder⟩ := h.run_after hinitial hrun
  obtain ⟨r', hafter', _, _, horder'⟩ := h'.run_after hinitial' hrun'
  rw [hlength, hafter', Option.some.injEq, Prod.mk.injEq] at hafter
  rw [horder, horder', hafter.1]
  exact ⟨hafter.2.symm, rfl⟩

/-- Every run of an implementation has a counterpart in another one that keeps pace, unless
    that one is full before. -/
theorem Follows.counterpart {impl : Host H} {other : Host G} {R : H → (Nat → Nat) → Rota → Prop}
    {R' : G → (Nat → Nat) → Rota → Prop} {full : G → Prop} {program : Program σ} {e₀ e : Hosted H σ}
    {g₀ : Hosted G σ} {blocks : List Nat} (h : Follows impl R) (h' : Follows other R')
    (hpace : KeepsPace other R' full) (hinitial : e₀.Initial impl program)
    (hrun : Run (Hosted.Step impl program) e₀ blocks e) (hinitial' : g₀.Initial other program) :
    ∃ blocks' g, Run (Hosted.Step other program) g₀ blocks' g ∧
      (blocks'.length = blocks.length ∧ g.memory = e.memory ∧ g.order = e.order ∨
        blocks'.length < blocks.length ∧ g.op other program = .create ∧ full g.host) := by
  obtain ⟨r, hafter, _⟩ := h.run_after hinitial hrun
  obtain ⟨blocks', g, hrun', hlength | hfull⟩ := h'.exists_run hpace hinitial' hafter
  · exact ⟨blocks', g, hrun', .inl ⟨hlength, h'.same_order h hinitial' hrun' hinitial hrun hlength⟩⟩
  · exact ⟨blocks', g, hrun', .inr hfull⟩

end oslabs.rota
