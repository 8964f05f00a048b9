import OsLabs.Lib.Run
import OsLabs.Net.Endings

open oslabs.memory oslabs.loop oslabs.run
open oslabs.async (BUFSIZE QUIT)

namespace oslabs.net.basic

/-- The process: the one buffer that all connections share, how many it has accepted, the one
    that the main thread is at, and its loops over the connections, by their numbers. -/
structure Process where
  buf : Memory
  accepted : Nat
  conn_fd : Option Nat
  loops : Nat → Option (Flow State)
  exited : Bool

inductive Label where
  | accept
  | pass
  deriving DecidableEq, Repr

/-- What a pass of the inner loop leaves in the buffer. -/
def left_buf : Flow State → Memory
  | .again c | .leave c => c.buf

/-- The loop over a connection was left. -/
def left : Flow State → Bool
  | .leave _ => true
  | .again _ => false

/-- The outer loop up to the inner one, and one pass of the inner one. -/
def step (inputs : Nat → Input) (p : Process) : Label → Option Process
  | .accept =>
    if p.exited ∨ p.conn_fd.isSome then none
    else some { p with
      accepted := p.accepted + 1
      conn_fd := some p.accepted
      loops := Function.update p.loops p.accepted (some (.again (start p.buf))) }
  | .pass =>
    match p.conn_fd with
    | none => none
    | some id =>
      match p.loops id with
      | some (.again c) =>
        let flow := inner_loop (inputs id) c
        some { p with
          buf := left_buf flow
          conn_fd := if left flow then none else some id
          loops := Function.update p.loops id (some flow)
          exited := exits flow }
      | _ => none

/-- The server behind `listen`, with whatever is in its buffer. -/
def init (buf : Memory) : Process where
  buf
  accepted := 0
  conn_fd := none
  loops _ := none
  exited := false

/-- What holds of the process in every state of every run. It is at the connection that it
    accepted last, or at none, and those before have said `quit`. -/
structure Sound (inputs : Nat → Input) (p : Process) : Prop where
  inside : ∀ id, p.conn_fd = some id →
    p.accepted = id + 1 ∧ p.exited = false ∧ ∃ c, p.loops id = some (.again c)
  begun : ∀ id, (p.loops id).isSome ↔ id < p.accepted
  alone : ∀ id flow, p.loops id = some flow →
    ∃ buf n, flow = forLoop (inner_loop (inputs id)) n (start buf)
  behind : ∀ id < p.accepted, p.conn_fd ≠ some id → ∃ c, p.loops id = some (.leave c)
  returned : ∀ id c, p.loops id = some (.leave c) → p.exited = false ∨ id + 1 < p.accepted →
    c.ending = some .returned
  ended : p.exited = true → ∃ id c, p.accepted = id + 1 ∧ p.loops id = some (.leave c) ∧
    c.ending ≠ some .returned

/-- What a step does, case by case. -/
inductive Move (inputs : Nat → Input) (p : Process) : Label → Process → Prop where
  | accept (hlive : p.exited = false) (hconn : p.conn_fd = none) :
      Move inputs p .accept { p with
        accepted := p.accepted + 1
        conn_fd := some p.accepted
        loops := Function.update p.loops p.accepted (some (.again (start p.buf))) }
  | again {id : Nat} {c c' : State} (hconn : p.conn_fd = some id) (hloop : p.loops id = some (.again c))
      (hpass : inner_loop (inputs id) c = .again c') :
      Move inputs p .pass { p with
        buf := c'.buf
        loops := Function.update p.loops id (some (.again c'))
        exited := false }
  | leave {id : Nat} {c c' : State} (hconn : p.conn_fd = some id) (hloop : p.loops id = some (.again c))
      (hpass : inner_loop (inputs id) c = .leave c') :
      Move inputs p .pass { p with
        buf := c'.buf
        conn_fd := none
        loops := Function.update p.loops id (some (.leave c'))
        exited := c'.ending ≠ some .returned }

variable {inputs : Nat → Input} {p p' p'' : Process} {label : Label} {id : Nat}

theorem step_pass {c : State} (hconn : p.conn_fd = some id) (hloop : p.loops id = some (.again c)) :
    step inputs p .pass = some { p with
      buf := left_buf (inner_loop (inputs id) c)
      conn_fd := if left (inner_loop (inputs id) c) then none else some id
      loops := Function.update p.loops id (some (inner_loop (inputs id) c))
      exited := exits (inner_loop (inputs id) c) } := by
  simp [step, hconn, hloop]

theorem move_of_step (hstep : step inputs p label = some p') : Move inputs p label p' := by
  cases label with
  | accept =>
    obtain ⟨hfree, hnext⟩ := Option.ite_none_left_eq_some.1 hstep
    obtain rfl := Option.some.inj hnext
    rw [not_or, Bool.not_eq_true, Option.not_isSome_iff_eq_none] at hfree
    exact .accept hfree.1 hfree.2
  | pass =>
    rw [step] at hstep
    split at hstep
    · cases hstep
    · rename_i id hconn
      split at hstep
      · rename_i c hloop
        obtain rfl := Option.some.inj hstep
        cases hpass : inner_loop (inputs id) c with
        | again c' =>
          have hmove := Move.again hconn hloop hpass
          simpa [left, left_buf, exits, ← hconn] using hmove
        | leave c' => exact .leave hconn hloop hpass
      · cases hstep

theorem sound_init (buf : Memory) : Sound inputs (init buf) where
  inside id h := by cases h
  begun id := by simp [init]
  alone id flow h := by cases h
  behind id h := absurd h (Nat.not_lt_zero id)
  returned id c h := by cases h
  ended h := by cases h

theorem Sound.begun_pass (h : Sound inputs p) (hconn : p.conn_fd = some id) (flow : Flow State) (other : Nat) :
    (Function.update p.loops id (some flow) other).isSome ↔ other < p.accepted := by
  rw [isSome_update, h.begun, or_iff_left_iff_imp]
  rintro rfl
  obtain ⟨haccepted, _⟩ := h.inside other hconn
  omega

theorem Sound.alone_pass (h : Sound inputs p) {c : State} (hloop : p.loops id = some (.again c)) (other : Nat)
    (flow : Flow State)
    (hflow : Function.update p.loops id (some (inner_loop (inputs id) c)) other = some flow) :
    ∃ buf n, flow = forLoop (inner_loop (inputs other)) n (start buf) := by
  rcases update_eq_some hflow with ⟨rfl, rfl⟩ | ⟨_, hold⟩
  · obtain ⟨buf, n, hpasses⟩ := h.alone other _ hloop
    exact ⟨buf, n + 1, (forLoop_succ_of_again hpasses.symm).symm⟩
  · exact h.alone other flow hold

theorem Sound.step (h : Sound inputs p) (hstep : basic.step inputs p label = some p') : Sound inputs p' := by
  have hmove := move_of_step hstep
  cases hmove with
  | accept hlive hconn =>
    have hnew : p.loops p.accepted = none := by
      rw [← Option.not_isSome_iff_eq_none, h.begun]
      exact Nat.lt_irrefl _
    refine ⟨?_, ?_, ?_, ?_, ?_, fun hexited => absurd (hlive.symm.trans hexited) Bool.false_ne_true⟩
    · intro id hid
      obtain rfl := Option.some.inj hid
      exact ⟨rfl, hlive, start p.buf, Function.update_self ..⟩
    · intro id
      rw [isSome_update, h.begun, Nat.lt_succ_iff_lt_or_eq]
    · intro id flow hflow
      rcases update_eq_some hflow with ⟨rfl, rfl⟩ | ⟨_, hold⟩
      · exact ⟨p.buf, 0, rfl⟩
      · exact h.alone id flow hold
    · intro id hid hother
      have hne : id ≠ p.accepted := by
        rintro rfl
        exact hother rfl
      have hbefore : id < p.accepted := Nat.lt_of_le_of_ne (Nat.lt_succ_iff.1 hid) hne
      obtain ⟨c, hloop⟩ := h.behind id hbefore (by simp [hconn])
      exact ⟨c, (Function.update_of_ne hne ..).trans hloop⟩
    · intro id c hloop _
      rcases update_eq_some hloop with ⟨_, hflow⟩ | ⟨_, hold⟩
      · cases hflow
      · exact h.returned id c hold (.inl hlive)
  | @again id c c' hconn hloop hpass =>
    obtain ⟨haccepted, hlive, _⟩ := h.inside id hconn
    refine ⟨?_, h.begun_pass hconn _, hpass ▸ h.alone_pass hloop, ?_, ?_,
      fun hexited => absurd hexited Bool.false_ne_true⟩
    · intro other hother
      obtain rfl := Option.some.inj (hconn.symm.trans hother)
      exact ⟨haccepted, rfl, c', Function.update_self ..⟩
    · intro other hlt hother
      have hne : other ≠ id := by
        rintro rfl
        exact hother hconn
      obtain ⟨c, hleft⟩ := h.behind other hlt hother
      exact ⟨c, (Function.update_of_ne hne ..).trans hleft⟩
    · intro other c hother _
      rcases update_eq_some hother with ⟨_, hflow⟩ | ⟨_, hold⟩
      · cases hflow
      · exact h.returned other c hold (.inl hlive)
  | @leave id c c' hconn hloop hpass =>
    obtain ⟨haccepted, hlive, _⟩ := h.inside id hconn
    refine ⟨fun other hother => absurd hother.symm (Option.some_ne_none other), h.begun_pass hconn _,
      hpass ▸ h.alone_pass hloop, ?_, ?_, ?_⟩
    · intro other hlt _
      by_cases hother : other = id
      · subst hother
        exact ⟨c', Function.update_self ..⟩
      · have hconn' : p.conn_fd ≠ some other := by
          rw [hconn]
          exact fun heq => hother (Option.some.inj heq).symm
        obtain ⟨c, hleft⟩ := h.behind other hlt hconn'
        exact ⟨c, (Function.update_of_ne hother ..).trans hleft⟩
    · intro other c hother hbefore
      rcases update_eq_some hother with ⟨rfl, hflow⟩ | ⟨_, hold⟩
      · obtain rfl := Flow.leave.inj hflow
        have hreturns : ¬ (c.ending ≠ some .returned) := by
          obtain hnot | hlt := hbefore
          · exact of_decide_eq_false hnot
          · exact absurd (haccepted ▸ hlt) (Nat.lt_irrefl _)
        exact not_not.1 hreturns
      · exact h.returned other c hold (.inl hlive)
    · intro hexited
      exact ⟨id, c', haccepted, Function.update_self .., of_decide_eq_true hexited⟩

theorem sound_of_run {buf : Memory} {labels : List Label}
    (hrun : Run (StepOf (basic.step inputs)) (init buf) labels p) : Sound inputs p :=
  hrun.invariant (Sound inputs) (sound_init buf) fun _ _ _ h hstep => h.step hstep

section Ends

variable (hsize : ∀ id, Sized (inputs id))
include hsize

/-- A loop that is left is left as its input says, with the connection closed. -/
theorem Sound.ends (h : Sound inputs p) {c : State} (hloop : p.loops id = some (.leave c)) :
    ∃ last, c.ending = some last ∧ EndsAs (ending_at (inputs id)) last ∧ c.conn_open = false := by
  obtain ⟨buf, n, hflow⟩ := h.alone id _ hloop
  obtain ⟨last, hlast, hends, hopen⟩ := (handler_decided (hsize id) .basic).ends_of_leave hflow.symm
  refine ⟨last, hlast, hends, Bool.eq_false_iff.2 ?_⟩
  rw [ne_eq, hopen]
  simp

/-- The client of every connection but the last one has said `quit`. -/
theorem Sound.before (h : Sound inputs p) {k : Nat} (hk : k < p.accepted) :
    ∀ j < k, EndsAs (ending_at (inputs j)) .returned := by
  intro j hj
  have hconn : p.conn_fd ≠ some j := by
    intro heq
    obtain ⟨haccepted, _⟩ := h.inside j heq
    omega
  obtain ⟨c, hloop⟩ := h.behind j (by omega) hconn
  obtain ⟨last, hlast, hends, _⟩ := h.ends hsize hloop
  obtain rfl := Option.some.inj (hlast.symm.trans (h.returned j c hloop (.inr (by omega))))
  exact hends

omit hsize in
/-- The main thread can come to the end of a loop that something ends. -/
theorem exists_left {buf : Memory} {n m : Nat} {flow : Flow State} {c : State} (hconn : p.conn_fd = some id)
    (hloop : p.loops id = some flow) (hagain : left flow = false)
    (hflow : flow = forLoop (inner_loop (inputs id)) n (start buf))
    (hend : forLoop (inner_loop (inputs id)) (n + m) (start buf) = .leave c) :
    ∃ labels p', Run (StepOf (basic.step inputs)) p labels p' ∧ p'.conn_fd = none ∧ p'.accepted = p.accepted ∧
      p'.loops id = some (.leave c) ∧ p'.exited = decide (c.ending ≠ some .returned) := by
  have hstart : p.accepted = p.accepted ∧ p.loops id = some flow ∧
      p.conn_fd = (if left flow then none else some id) ∧ (left flow = true → p.exited = exits flow) :=
    ⟨rfl, hloop, by simp [hagain, hconn], by simp [hagain]⟩
  -- the main thread is at the connection for as long as its loop goes on
  have hdriven := forLoop_driven
    (fun q flow => q.accepted = p.accepted ∧ q.loops id = some flow ∧
      q.conn_fd = (if left flow then none else some id) ∧ (left flow = true → q.exited = exits flow))
    (fun q q' => ∃ labels, Run (StepOf (basic.step inputs)) q labels q')
    (fun q flow _ => ⟨[], .nil⟩) (fun q q' q'' ⟨_, hrun⟩ ⟨_, hmore⟩ => ⟨_, hrun.append hmore⟩) ?_ hstart hflow hend
  · obtain ⟨p', ⟨labels, hrun⟩, haccepted, hloop', hconn', hexited⟩ := hdriven
    exact ⟨labels, p', hrun, hconn', haccepted, hloop', hexited rfl⟩
  · rintro q c' ⟨haccepted, hloop', hconn', _⟩ _
    exact ⟨_, ⟨_, .single (step_pass hconn' hloop')⟩, haccepted, Function.update_self .., rfl, fun _ => rfl⟩

/-- The main thread comes from a connection whose input ends its loop. -/
theorem Sound.exists_left (h : Sound inputs p) (hconn : p.conn_fd = some id) {last : Ending}
    (hends : EndsAs (ending_at (inputs id)) last) :
    ∃ labels p', Run (StepOf (basic.step inputs)) p labels p' ∧ p'.conn_fd = none ∧ p'.accepted = p.accepted ∧
      p'.exited = decide (last ≠ .returned) := by
  obtain ⟨_, _, c, hloop⟩ := h.inside id hconn
  obtain ⟨buf, n, hflow⟩ := h.alone id _ hloop
  obtain ⟨m, c', hend, hlast, _⟩ := (handler_decided (hsize id) .basic).exists_leave hends buf
  have hlater := forLoop_of_leave hend n
  rw [Nat.add_comm] at hlater
  obtain ⟨labels, p', hrun, hfree, haccepted, _, hexited⟩ := basic.exists_left hconn hloop rfl hflow hlater
  exact ⟨labels, p', hrun, hfree, haccepted, by simp [hexited, hlast]⟩

/-- When all clients before it say `quit`, a connection can be accepted. -/
theorem exists_accepted (h : Sound inputs p) (hlive : p.exited = false) {k : Nat}
    (hbefore : ∀ j < k, EndsAs (ending_at (inputs j)) .returned) :
    ∃ labels p', Run (StepOf (basic.step inputs)) p labels p' ∧ p'.exited = false ∧ k < p'.accepted := by
  induction hmore : k + 1 - p.accepted generalizing p with
  | zero => exact ⟨[], p, .nil, hlive, by omega⟩
  | succ d ih =>
    -- first come back from the connection, if there is one, and then accept the next
    obtain ⟨labels, q, hrun, hfree, haccepted, hq⟩ : ∃ labels q, Run (StepOf (basic.step inputs)) p labels q ∧
        q.conn_fd = none ∧ q.accepted = p.accepted ∧ q.exited = false := by
      cases hconn : p.conn_fd with
      | none => exact ⟨[], p, .nil, hconn, rfl, hlive⟩
      | some id =>
        obtain ⟨hid, _⟩ := h.inside id hconn
        obtain ⟨labels, q, hrun, hfree, haccepted, hexited⟩ := h.exists_left hsize hconn (hbefore id (by omega))
        exact ⟨labels, q, hrun, hfree, haccepted, by simpa using hexited⟩
    have haccept : StepOf (basic.step inputs) q .accept { q with
        accepted := q.accepted + 1
        conn_fd := some q.accepted
        loops := Function.update q.loops q.accepted (some (.again (start q.buf))) } := by
      simp [StepOf, basic.step, hq, hfree]
    have hnext := hrun.snoc haccept
    have hsound := hnext.invariant (Sound inputs) h fun _ _ _ hs hstep => hs.step hstep
    obtain ⟨more, p', hrun', hlive', hk⟩ := ih hsound hq (by dsimp only; omega)
    exact ⟨_, p', hnext.append hrun', hlive', hk⟩

end Ends

/-- The server takes its clients one by one. From every state of every run in which it goes on,
    a connection can still be accepted, or has been, just when all clients before it say
    `quit`; it can end just when the first client that does not say so says `stop` or its
    connection fails. Otherwise that client keeps the server for ever. -/
theorem accepted_iff (hsize : ∀ id, Sized (inputs id)) {buf : Memory} {labels : List Label}
    (hrun : Run (StepOf (step inputs)) (init buf) labels p) (hlive : p.exited = false) :
    (∀ k, (∃ more p', Run (StepOf (step inputs)) p more p' ∧ k < p'.accepted) ↔
      ∀ j < k, EndsAs (ending_at (inputs j)) .returned) ∧
    ((∃ more p', Run (StepOf (step inputs)) p more p' ∧ p'.exited = true) ↔
      ∃ k last, (∀ j < k, EndsAs (ending_at (inputs j)) .returned) ∧ EndsAs (ending_at (inputs k)) last ∧
        last ≠ .returned) := by
  have h := sound_of_run hrun
  have hkept : ∀ {more p'}, Run (StepOf (step inputs)) p more p' → Sound inputs p' :=
    fun hmore => sound_of_run (hrun.append hmore)
  refine ⟨fun k => ⟨?_, fun hbefore => ?_⟩, ?_, ?_⟩
  · rintro ⟨more, p', hmore, hk⟩
    exact (hkept hmore).before hsize hk
  · obtain ⟨more, p', hmore, _, hk⟩ := exists_accepted hsize h hlive hbefore
    exact ⟨more, p', hmore, hk⟩
  · rintro ⟨more, p', hmore, hexited⟩
    have hp' := hkept hmore
    obtain ⟨id, c, haccepted, hloop, hending⟩ := hp'.ended hexited
    obtain ⟨last, hlast, hends, _⟩ := hp'.ends hsize hloop
    refine ⟨id, last, hp'.before hsize (by omega), hends, ?_⟩
    rintro rfl
    exact hending hlast
  · rintro ⟨k, last, hbefore, hends, hlast⟩
    obtain ⟨more, q, hmore, hq, hk⟩ := exists_accepted hsize h hlive hbefore
    have hsound := hkept hmore
    -- the loop over this connection is not behind it, since the server goes on
    have hconn : q.conn_fd = some k := by
      by_contra hnot
      obtain ⟨c, hloop⟩ := hsound.behind k hk hnot
      obtain ⟨last', hlast', hends', _⟩ := hsound.ends hsize hloop
      obtain rfl := Option.some.inj (hlast'.symm.trans (hsound.returned k c hloop (.inl hq)))
      exact hlast (hends.unique hends')
    obtain ⟨rest, p', hrest, _, _, hexited⟩ := hsound.exists_left hsize hconn hends
    exact ⟨_, p', hmore.append hrest, by rw [hexited]; exact decide_eq_true hlast⟩

/-- A client that goes away without a word is the last one. -/
theorem accepted_iff_gone :
    (∃ more p', Run (StepOf (step fun _ _ => some [])) (init fun _ => 0) more p' ∧ 0 < p'.accepted) ∧
      ¬ ∃ more p', Run (StepOf (step fun _ _ => some [])) (init fun _ => 0) more p' ∧ 1 < p'.accepted := by
  have hsize : ∀ id : Nat, Sized ((fun _ _ => some []) id) := by
    intro id r data hdata
    obtain rfl := Option.some.inj hdata
    decide
  have hrun : Run (StepOf (step fun _ _ => some [])) (init fun _ => 0) [] (init fun _ => 0) := .nil
  obtain ⟨haccepted, _⟩ := accepted_iff hsize hrun rfl
  refine ⟨(haccepted 0).2 fun j hj => absurd hj (Nat.not_lt_zero j), fun h => ?_⟩
  obtain ⟨k, _, hk⟩ := (haccepted 1).1 h 0 Nat.zero_lt_one
  cases hk

end oslabs.net.basic
