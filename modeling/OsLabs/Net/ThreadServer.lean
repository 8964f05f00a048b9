import Mathlib.Algebra.Order.BigOperators.Group.Finset
import OsLabs.Lib.Settle
import OsLabs.Net.Endings

open oslabs.memory oslabs.loop oslabs.run
open oslabs.async (BUFSIZE QUIT)
open scoped BigOperators

namespace oslabs.net.threads

/-- A server with a thread for each connection: how many it has accepted, and the loops of the
    threads, by the numbers of their connections. -/
structure Process where
  accepted : Nat
  loops : Nat → Option (Flow State)
  exited : Bool

/-- The main thread accepts a connection and creates a thread for it, with whatever is on its
    stack; a thread passes through its loop. -/
inductive Label where
  | accept (buf : Memory)
  | pass (id : Nat)

/-- A thread calls `exit`. `terror` ends its thread alone. -/
def exits : Flow State → Bool
  | .leave c => c.ending = some .stopped
  | .again _ => false

/-- The atomic steps of the server's threads, which all call one function. Nothing happens when
    the process has exited. -/
def step (process_connection : Input → State → Flow State) (inputs : Nat → Input) (p : Process) :
    Label → Option Process
  | .accept buf =>
    if p.exited then none
    else some { p with
      accepted := p.accepted + 1
      loops := Function.update p.loops p.accepted (some (.again (start buf))) }
  | .pass id =>
    if p.exited then none
    else
      match p.loops id with
      | some (.again c) =>
        let flow := process_connection (inputs id) c
        some { p with loops := Function.update p.loops id (some flow), exited := exits flow }
      | _ => none

/-- The server behind `listen`. -/
def init : Process where
  accepted := 0
  loops _ := none
  exited := false

variable {process_connection : Input → State → Flow State} {inputs : Nat → Input} {p p' : Process}
  {label : Label} {id : Nat}

/-- What a step does, case by case. -/
inductive Move (process_connection : Input → State → Flow State) (inputs : Nat → Input) (p : Process) :
    Label → Process → Prop where
  | accept (buf : Memory) : Move process_connection inputs p (.accept buf) { p with
      accepted := p.accepted + 1
      loops := Function.update p.loops p.accepted (some (.again (start buf))) }
  | pass {id : Nat} {c : State} (hloop : p.loops id = some (.again c)) :
      Move process_connection inputs p (.pass id) { p with
        loops := Function.update p.loops id (some (process_connection (inputs id) c))
        exited := exits (process_connection (inputs id) c) }

/-- What holds of the process in every state of every run. -/
structure Sound (process_connection : Input → State → Flow State) (inputs : Nat → Input) (p : Process) :
    Prop where
  begun : ∀ id, (p.loops id).isSome ↔ id < p.accepted
  alone : ∀ id flow, p.loops id = some flow →
    ∃ buf n, flow = forLoop (process_connection (inputs id)) n (start buf)
  live : p.exited = false → ∀ id c, p.loops id = some (.leave c) → c.ending ≠ some .stopped
  ended : p.exited = true → ∃ id c, p.loops id = some (.leave c) ∧ c.ending = some .stopped

theorem move_of_step (hstep : step process_connection inputs p label = some p') :
    p.exited = false ∧ Move process_connection inputs p label p' := by
  cases label with
  | accept buf =>
    obtain ⟨hlive, hnext⟩ := Option.ite_none_left_eq_some.1 hstep
    obtain rfl := Option.some.inj hnext
    exact ⟨Bool.eq_false_iff.2 hlive, .accept buf⟩
  | pass id =>
    obtain ⟨hlive, hnext⟩ := Option.ite_none_left_eq_some.1 hstep
    split at hnext
    · obtain rfl := Option.some.inj hnext
      exact ⟨Bool.eq_false_iff.2 hlive, .pass ‹_›⟩
    · cases hnext

theorem step_accept (hlive : p.exited = false) (buf : Memory) :
    step process_connection inputs p (.accept buf) = some { p with
      accepted := p.accepted + 1
      loops := Function.update p.loops p.accepted (some (.again (start buf))) } := by
  simp [step, hlive]

theorem step_pass {c : State} (hlive : p.exited = false) (hloop : p.loops id = some (.again c)) :
    step process_connection inputs p (.pass id) = some { p with
      loops := Function.update p.loops id (some (process_connection (inputs id) c))
      exited := exits (process_connection (inputs id) c) } := by
  simp [step, hlive, hloop]

theorem sound_init : Sound process_connection inputs init where
  begun id := by simp [init]
  alone id flow h := by cases h
  live _ id c h := by cases h
  ended h := by cases h

theorem Sound.step (h : Sound process_connection inputs p)
    (hstep : threads.step process_connection inputs p label = some p') :
    Sound process_connection inputs p' := by
  obtain ⟨hlive, hmove⟩ := move_of_step hstep
  cases hmove with
  | accept buf =>
    refine ⟨?_, ?_, ?_, fun hexited => absurd (hlive.symm.trans hexited) Bool.false_ne_true⟩
    · intro id
      rw [isSome_update, h.begun, Nat.lt_succ_iff_lt_or_eq]
    · intro id flow hflow
      rcases update_eq_some hflow with ⟨rfl, rfl⟩ | ⟨_, hold⟩
      · exact ⟨buf, 0, rfl⟩
      · exact h.alone id flow hold
    · intro _ id c hloop
      rcases update_eq_some hloop with ⟨_, hflow⟩ | ⟨_, hold⟩
      · cases hflow
      · exact h.live hlive id c hold
  | @pass id c hloop =>
    refine ⟨?_, ?_, ?_, ?_⟩
    · intro other
      rw [isSome_update, h.begun, or_iff_left_iff_imp]
      rintro rfl
      exact (h.begun other).1 (by rw [hloop]; rfl)
    · intro other flow hflow
      rcases update_eq_some hflow with ⟨rfl, rfl⟩ | ⟨_, hold⟩
      · obtain ⟨buf, n, hpasses⟩ := h.alone other _ hloop
        exact ⟨buf, n + 1, (forLoop_succ_of_again hpasses.symm).symm⟩
      · exact h.alone other flow hold
    · intro hgoes other c' hother
      rcases update_eq_some hother with ⟨_, hflow⟩ | ⟨_, hold⟩
      · dsimp only at hgoes
        rw [← hflow] at hgoes
        exact of_decide_eq_false hgoes
      · exact h.live hlive other c' hold
    · intro hexited
      dsimp only at hexited ⊢
      cases hpass : process_connection (inputs id) c with
      | again c' =>
        rw [hpass] at hexited
        cases hexited
      | leave c' =>
        rw [hpass] at hexited
        exact ⟨id, c', Function.update_self .., of_decide_eq_true hexited⟩

theorem sound_of_run {labels : List Label}
    (hrun : Run (StepOf (threads.step process_connection inputs)) init labels p) :
    Sound process_connection inputs p :=
  hrun.invariant (Sound process_connection inputs) sound_init fun _ _ _ h hstep => h.step hstep

/-- A loop that was left stays so, and keeps what it has left. -/
theorem leave_of_run {labels : List Label} {c : State} (hsound : Sound process_connection inputs p)
    (hloop : p.loops id = some (.leave c))
    (hrun : Run (StepOf (threads.step process_connection inputs)) p labels p') :
    p'.loops id = some (.leave c) := by
  have hboth : Sound process_connection inputs p' ∧ p'.loops id = some (.leave c) := by
    refine hrun.invariant (fun p => Sound process_connection inputs p ∧ p.loops id = some (.leave c))
      ⟨hsound, hloop⟩ ?_
    rintro q label q' ⟨hq, hleft⟩ hstep
    refine ⟨hq.step hstep, ?_⟩
    obtain ⟨_, hmove⟩ := move_of_step hstep
    cases hmove with
    | accept buf =>
      have hne : id ≠ q.accepted := by
        rintro rfl
        exact Nat.lt_irrefl _ ((hq.begun q.accepted).1 (by rw [hleft]; rfl))
      exact (Function.update_of_ne hne ..).trans hleft
    | @pass other c' hother =>
      have hne : id ≠ other := by
        rintro rfl
        rw [hleft] at hother
        cases hother
      exact (Function.update_of_ne hne ..).trans hleft
  exact hboth.2

section Ends

variable {at_ : Nat → Nat → Option Ending} {leaks : Ending → Prop}
  (hdecided : ∀ id, Decided (at_ id) leaks (process_connection (inputs id)))
include hdecided

theorem Sound.ends (h : Sound process_connection inputs p) {c : State} (hloop : p.loops id = some (.leave c)) :
    ∃ last, c.ending = some last ∧ EndsAs (at_ id) last ∧ (c.conn_open = true ↔ leaks last) := by
  obtain ⟨buf, n, hflow⟩ := h.alone id _ hloop
  exact (hdecided id).ends_of_leave hflow.symm

omit hdecided in
/-- A thread can come to the end of its loop while the others stand still. -/
theorem exists_left {buf : Memory} {n m : Nat} {flow : Flow State} {c : State} (hlive : p.exited = false)
    (hloop : p.loops id = some flow) (hflow : flow = forLoop (process_connection (inputs id)) n (start buf))
    (hend : forLoop (process_connection (inputs id)) (n + m) (start buf) = .leave c)
    (hending : c.ending ≠ some .stopped) :
    ∃ labels p', Run (StepOf (threads.step process_connection inputs)) p labels p' ∧ p'.exited = false ∧
      p'.accepted = p.accepted ∧ p'.loops = Function.update p.loops id (some (.leave c)) := by
  have hstart : p.exited = false ∧ p.accepted = p.accepted ∧
      p.loops = Function.update p.loops id (some flow) :=
    ⟨hlive, rfl, by rw [← hloop, Function.update_eq_self]⟩
  have hdriven := forLoop_driven
    (fun q flow => q.exited = false ∧ q.accepted = p.accepted ∧
      q.loops = Function.update p.loops id (some flow))
    (fun q q' => ∃ labels, Run (StepOf (threads.step process_connection inputs)) q labels q')
    (fun q flow _ => ⟨[], .nil⟩) (fun q q' q'' ⟨_, hrun⟩ ⟨_, hmore⟩ => ⟨_, hrun.append hmore⟩) ?_ hstart hflow hend
  · obtain ⟨p', ⟨labels, hrun⟩, hp'⟩ := hdriven
    exact ⟨labels, p', hrun, hp'⟩
  · rintro q c' ⟨hq, haccepted, hloops⟩ hleaves
    have hloop' : q.loops id = some (.again c') := by
      rw [hloops, Function.update_self]
    have hgoes : exits (process_connection (inputs id) c') = false := by
      cases hpass : process_connection (inputs id) c' with
      | again _ => rfl
      | leave c'' =>
        obtain rfl := hleaves c'' hpass
        exact decide_eq_false hending
    refine ⟨_, ⟨_, .single (step_pass hq hloop')⟩, hgoes, haccepted, ?_⟩
    simp only [hloops, Function.update_idem]

/-- A thread whose input ends its loop, without ending the process, can come to its end. -/
theorem Sound.exists_left (h : Sound process_connection inputs p) (hlive : p.exited = false)
    (hid : id < p.accepted) {last : Ending} (hends : EndsAs (at_ id) last) (hlast : last ≠ .stopped) :
    ∃ labels p' c, Run (StepOf (threads.step process_connection inputs)) p labels p' ∧ p'.exited = false ∧
      p'.loops = Function.update p.loops id (some (.leave c)) ∧ c.ending = some last := by
  obtain ⟨flow, hloop⟩ := Option.isSome_iff_exists.1 ((h.begun id).2 hid)
  obtain ⟨buf, n, hflow⟩ := h.alone id flow hloop
  obtain ⟨m, c, hend, hending, _⟩ := (hdecided id).exists_leave hends buf
  have hlater := forLoop_of_leave hend n
  rw [Nat.add_comm] at hlater
  have hstays : c.ending ≠ some .stopped := by
    rw [hending]
    exact fun heq => hlast (Option.some.inj heq)
  obtain ⟨labels, p', hrun, hlive', _, hloops⟩ := threads.exists_left hlive hloop hflow hlater hstays
  exact ⟨labels, p', c, hrun, hlive', hloops, hending⟩

end Ends

section Settle

/-- The passes that a loop can still make, when its input ends it by the `k`-th result of `read`. -/
def passes (k : Nat) : Option (Flow State) → Nat
  | some (.again c) => k + 1 - c.reads
  | _ => 0

/-- Those of all connections that there are. -/
def passes_left (k : Nat → Nat) (p : Process) : Nat :=
  ∑ id ∈ Finset.range p.accepted, passes (k id) (p.loops id)

/-- The steps of the threads, when the main thread accepts nobody. -/
def Passes (process_connection : Input → State → Flow State) (inputs : Nat → Input) (p : Process)
    (label : Label) (p' : Process) : Prop :=
  (∃ id, label = .pass id) ∧ threads.step process_connection inputs p label = some p'

variable {at_ : Nat → Nat → Option Ending} {leaks : Ending → Prop} {k : Nat → Nat}
  (hdecided : ∀ id, Decided (at_ id) leaks (process_connection (inputs id)))
include hdecided

/-- A pass leaves fewer of them. -/
theorem Sound.passes_lt (h : Sound process_connection inputs p) (hends : ∃ r ≤ k id, at_ id r ≠ none)
    {c : State} (hloop : p.loops id = some (.again c)) :
    passes (k id) (some (process_connection (inputs id) c)) < passes (k id) (p.loops id) := by
  obtain ⟨buf, n, hflow⟩ := h.alone id _ hloop
  obtain ⟨hreads, hnone⟩ := (hdecided id).none_of_again hflow.symm
  obtain ⟨r, hr, hat⟩ := hends
  have hle : c.reads ≤ r := by
    by_contra hlt
    exact hat (hnone r (by omega))
  cases hpass : process_connection (inputs id) c with
  | leave c' => simp only [hloop, passes]; omega
  | again c' =>
    have hnext := forLoop_succ_of_again hflow.symm
    rw [hpass] at hnext
    obtain ⟨hreads', _⟩ := (hdecided id).none_of_again hnext
    simp only [hloop, passes]
    omega

theorem Sound.passes_left_lt (h : Sound process_connection inputs p)
    (hends : ∀ id < p.accepted, ∃ r ≤ k id, at_ id r ≠ none)
    (hpass : Passes process_connection inputs p label p') :
    p'.accepted = p.accepted ∧ passes_left k p' < passes_left k p := by
  obtain ⟨⟨id, rfl⟩, hstep⟩ := hpass
  obtain ⟨_, hmove⟩ := move_of_step hstep
  cases hmove with
  | @pass _ c hloop =>
    have hid : id < p.accepted := (h.begun id).1 (by rw [hloop]; rfl)
    have hless := h.passes_lt hdecided (hends id hid) hloop
    refine ⟨rfl, Finset.sum_lt_sum ?_ ⟨id, Finset.mem_range.2 hid, ?_⟩⟩
    · intro other _
      by_cases hother : other = id
      · subst hother
        dsimp only
        rw [Function.update_self]
        exact Nat.le_of_lt hless
      · dsimp only
        rw [Function.update_of_ne hother]
    · dsimp only
      rwa [Function.update_self]

/-- When the input of each connection ends its loop, all threads come to their end, whatever the
    order of their steps, or one of them ends the process because its client says `stop`. -/
theorem Sound.settles (h : Sound process_connection inputs p)
    (hends : ∀ id < p.accepted, ∃ r ≤ k id, at_ id r ≠ none) :
    Settles (Passes process_connection inputs) (fun last =>
      (last.exited = true ∧ ∃ id < p.accepted, EndsAs (at_ id) .stopped) ∨
        ∀ id < p.accepted, ∃ c e, last.loops id = some (.leave c) ∧ EndsAs (at_ id) e ∧
          (c.conn_open = true ↔ leaks e))
      p (passes_left k p) := by
  refine settles_of_measure (fun q => Sound process_connection inputs q ∧ q.accepted = p.accepted) _
    ?_ ?_ ⟨h, rfl⟩
  · rintro q label q' ⟨hq, haccepted⟩ hpass
    obtain ⟨hsame, hless⟩ := hq.passes_left_lt hdecided (haccepted ▸ hends) hpass
    exact ⟨⟨hq.step hpass.2, hsame.trans haccepted⟩, hless⟩
  · rintro q ⟨hq, haccepted⟩ hend
    cases hexited : q.exited with
    | true =>
      obtain ⟨id, c, hloop, hending⟩ := hq.ended hexited
      obtain ⟨e, he, hends, _⟩ := hq.ends hdecided hloop
      obtain rfl := Option.some.inj (hending.symm.trans he)
      have hid : id < q.accepted := (hq.begun id).1 (by rw [hloop]; rfl)
      exact .inl ⟨rfl, id, haccepted ▸ hid, hends⟩
    | false =>
      refine .inr fun id hid => ?_
      obtain ⟨flow, hloop⟩ := Option.isSome_iff_exists.1 ((hq.begun id).2 (haccepted ▸ hid))
      cases flow with
      | again c => exact absurd ⟨⟨id, rfl⟩, step_pass hexited hloop⟩ (hend (.pass id) _)
      | leave c =>
        obtain ⟨e, _, hends, hopen⟩ := hq.ends hdecided hloop
        exact ⟨c, e, hloop, hends, hopen⟩

end Settle

end oslabs.net.threads

namespace oslabs.net.multithreaded

open threads

/-- The server of the lab, with a thread for each connection. -/
abbrev step (inputs : Nat → Input) : Process → Label → Option Process :=
  threads.step process_connection inputs

variable {inputs : Nat → Input} {p : Process}

theorem decided {input : Input} (hsize : Sized input) :
    Decided (ending_at input) (fun last => last = .failed) (process_connection input) := by
  have hhandler : Decided _ _ (process_connection input) := handler_decided hsize .multithreaded
  simpa only [true_and] using hhandler

/-- Clients do not wait for each other. From every state of every run in which the server goes
    on, every further connection can be accepted; the thread at a connection can come to its
    end, while the loops over the others stay where they are, just when the first thing to end
    its loop is `quit` or an error. After `quit` the connection is closed. After an error it
    never is, as long as the process lives. -/
theorem threads_apart (hsize : ∀ id, Sized (inputs id)) {labels : List Label}
    (hrun : Run (StepOf (step inputs)) init labels p) (hlive : p.exited = false) :
    (∀ buf, ∃ p', step inputs p (.accept buf) = some p' ∧ p'.exited = false ∧
      p'.accepted = p.accepted + 1) ∧
    (∀ id < p.accepted, ∀ last, last ≠ .stopped →
      ((∃ more p' c, Run (StepOf (step inputs)) p more p' ∧ p'.exited = false ∧
        p'.loops = Function.update p.loops id (some (.leave c)) ∧ c.ending = some last) ↔
        EndsAs (ending_at (inputs id)) last)) ∧
    (∀ id c, p.loops id = some (.leave c) → (c.conn_open = true ↔ EndsAs (ending_at (inputs id)) .failed) ∧
      ∀ more p', Run (StepOf (step inputs)) p more p' → p'.loops id = some (.leave c)) := by
  have h := sound_of_run hrun
  have hdecided := fun id => decided (hsize id)
  refine ⟨?_, ?_, ?_⟩
  · intro buf
    exact ⟨_, step_accept hlive buf, hlive, rfl⟩
  · intro id hid last hlast
    constructor
    · rintro ⟨more, p', c, hmore, _, hloops, hending⟩
      have hleft : p'.loops id = some (.leave c) := by rw [hloops, Function.update_self]
      obtain ⟨last', hending', hends, _⟩ := (sound_of_run (hrun.append hmore)).ends hdecided hleft
      obtain rfl := Option.some.inj (hending.symm.trans hending')
      exact hends
    · intro hends
      obtain ⟨more, p', c, hmore, hlive', hloops, hending⟩ := h.exists_left hdecided hlive hid hends hlast
      exact ⟨more, p', c, hmore, hlive', hloops, hending⟩
  · intro id c hleft
    obtain ⟨last, _, hends, hopen⟩ := h.ends hdecided hleft
    refine ⟨?_, fun more p' hmore => leave_of_run h hleft hmore⟩
    rw [hopen]
    constructor
    · rintro rfl
      exact hends
    · exact hends.unique

/-- The connection to the first client breaks while the second one says `quit`. -/
def broken (id : Nat) : Input :=
  if id = 0 then fun _ => none else fun _ => some (QUIT ++ [10])

theorem sized_broken (id : Nat) : Sized (broken id) := by
  intro r data hdata
  unfold broken at hdata
  split at hdata
  · cases hdata
  · obtain rfl := Option.some.inj hdata
    decide

/-- The first thread ends without closing its connection, and the second one can still end. -/
theorem threads_apart_broken : ∃ p c, Run (StepOf (step broken)) init
      [.accept fun _ => 0, .accept fun _ => 0, .pass 0] p ∧
    p.loops 0 = some (.leave c) ∧ c.conn_open = true ∧
    ∃ more p' c', Run (StepOf (step broken)) p more p' ∧ p'.exited = false ∧
      p'.loops = Function.update p.loops 1 (some (.leave c')) ∧ c'.ending = some .returned := by
  have hrun := run_stepOf_iff.mpr (show exec (step broken) init
    [.accept fun _ => 0, .accept fun _ => 0, .pass 0] = some _ from rfl)
  obtain ⟨_, hends, hleft⟩ := threads_apart sized_broken hrun rfl
  have hfailed : EndsAs (ending_at (broken 0)) .failed := ⟨0, fun r hr => absurd hr (Nat.not_lt_zero r), rfl⟩
  have hword : ending (QUIT ++ [10]) = some .returned := by decide +kernel
  have hquit : EndsAs (ending_at (broken 1)) .returned := ⟨0, fun r hr => absurd hr (Nat.not_lt_zero r), hword⟩
  exact ⟨_, _, hrun, rfl, (hleft 0 _ rfl).1.2 hfailed, (hends 1 (by decide) .returned (by decide)).2 hquit⟩

end oslabs.net.multithreaded
