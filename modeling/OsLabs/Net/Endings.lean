import Mathlib.Data.Nat.Find
import Mathlib.Logic.Function.Basic
import OsLabs.Net.Handler

open oslabs.memory oslabs.loop
open oslabs.async (BUFSIZE)

namespace oslabs.net

/-- Whether a result of `read` ends the loop over a connection, and how: an error does, and a
    message that is a command. -/
def ending_at (input : Input) (r : Nat) : Option Ending :=
  match input r with
  | none => some .failed
  | some data => ending data

/-- The first result of `read` that ends a loop ends it so, where `at_` says what each of them does. -/
def EndsAs (at_ : Nat → Option Ending) (last : Ending) : Prop :=
  ∃ k, (∀ r < k, at_ r = none) ∧ at_ k = some last

/-- The results of `read` decide alone how a loop goes on, pass by pass. It leaves the connection
    open with some of its endings. -/
structure Decided (at_ : Nat → Option Ending) (leaks : Ending → Prop) (body : State → Flow State) : Prop where
  again : ∀ s, at_ s.reads = none →
    ∃ c, body s = .again c ∧ c.reads = s.reads + 1 ∧ c.conn_open = s.conn_open ∧ c.ending = s.ending
  leave : ∀ s last, at_ s.reads = some last → s.conn_open = true →
    ∃ c, body s = .leave c ∧ c.ending = some last ∧ (c.conn_open = true ↔ leaks last)

/-- Every message leaves room in the buffer for a zero. -/
def Sized (input : Input) : Prop :=
  ∀ r data, input r = some data → data.length < BUFSIZE

/-- What the thread at a connection does when a call fails. -/
def Server.fail : Server → State → State
  | .multithreaded => (·.pthread_exit)
  | .basic | .thread_pool => (·.exit .failed)

section Decided

variable {at_ : Nat → Option Ending} {leaks : Ending → Prop} {body : State → Flow State} {n k : Nat}
  {last last' : Ending} {buf : Memory} {c : State}

theorem EndsAs.unique (h : EndsAs at_ last) (h' : EndsAs at_ last') : last = last' := by
  obtain ⟨k, hnone, hk⟩ := h
  obtain ⟨k', hnone', hk'⟩ := h'
  have hsame : k = k' := by
    rcases Nat.lt_trichotomy k k' with hlt | heq | hgt
    · exact absurd (hk.symm.trans (hnone' k hlt)) (Option.some_ne_none last)
    · exact heq
    · exact absurd (hk'.symm.trans (hnone k' hgt)) (Option.some_ne_none last')
  subst hsame
  exact Option.some.inj (hk.symm.trans hk')

/-- As long as nothing ends it, the loop goes on. -/
theorem Decided.forLoop_before (h : Decided at_ leaks body) (buf : Memory) (hnone : ∀ r < n, at_ r = none) :
    ∃ c, forLoop body n (start buf) = .again c ∧ c.reads = n ∧ c.conn_open = true := by
  induction n with
  | zero => exact ⟨start buf, rfl, rfl, rfl⟩
  | succ n ih =>
    obtain ⟨c, hrun, hreads, hopen⟩ := ih fun r hr => hnone r (Nat.lt_succ_of_lt hr)
    obtain ⟨c', hpass, hreads', hopen', _⟩ := h.again c (hreads ▸ hnone n (Nat.lt_succ_self n))
    refine ⟨c', ?_, by rw [hreads', hreads], hopen'.trans hopen⟩
    rw [forLoop_succ_of_again hrun, hpass]

theorem Decided.forLoop_at (h : Decided at_ leaks body) (buf : Memory) (hnone : ∀ r < k, at_ r = none)
    (hlast : at_ k = some last) :
    ∃ c, forLoop body (k + 1) (start buf) = .leave c ∧ c.ending = some last ∧
      (c.conn_open = true ↔ leaks last) := by
  obtain ⟨c, hrun, hreads, hopen⟩ := h.forLoop_before buf hnone
  rw [forLoop_succ_of_again hrun]
  exact h.leave c last (hreads ▸ hlast) hopen

/-- A loop that something ends is left. -/
theorem Decided.exists_leave (h : Decided at_ leaks body) (hends : EndsAs at_ last) (buf : Memory) :
    ∃ m c, forLoop body m (start buf) = .leave c ∧ c.ending = some last ∧
      (c.conn_open = true ↔ leaks last) := by
  obtain ⟨k, hnone, hlast⟩ := hends
  obtain ⟨c, hrun, hending⟩ := h.forLoop_at buf hnone hlast
  exact ⟨k + 1, c, hrun, hending⟩

/-- Where a loop is after some passes: it has read once in each, or something has ended it. -/
theorem Decided.forLoop_cases (h : Decided at_ leaks body) (n : Nat) (buf : Memory) :
    (∃ c, forLoop body n (start buf) = .again c ∧ c.reads = n ∧ ∀ r < n, at_ r = none) ∨
      ∃ c last, forLoop body n (start buf) = .leave c ∧ c.ending = some last ∧ EndsAs at_ last ∧
        (c.conn_open = true ↔ leaks last) := by
  by_cases hnone : ∀ r < n, at_ r = none
  · obtain ⟨c, hrun, hreads, _⟩ := h.forLoop_before buf hnone
    exact .inl ⟨c, hrun, hreads, hnone⟩
  · simp only [not_forall] at hnone
    obtain ⟨r, hr, hne⟩ := hnone
    have hsome : ∃ r, at_ r ≠ none := ⟨r, hne⟩
    obtain ⟨last, hlast⟩ := Option.ne_none_iff_exists'.1 (Nat.find_spec hsome)
    have hbefore : ∀ r < Nat.find hsome, at_ r = none := fun r hr => not_not.1 (Nat.find_min hsome hr)
    obtain ⟨c, hleave, hending, hopen⟩ := h.forLoop_at buf hbefore hlast
    have hmin := Nat.find_min' hsome hne
    obtain ⟨more, rfl⟩ := Nat.exists_eq_add_of_le (show Nat.find hsome + 1 ≤ n by omega)
    exact .inr ⟨c, last, forLoop_of_leave hleave more, hending, ⟨_, hbefore, hlast⟩, hopen⟩

/-- How a loop is left. -/
theorem Decided.ends_of_leave (h : Decided at_ leaks body) (hrun : forLoop body n (start buf) = .leave c) :
    ∃ last, c.ending = some last ∧ EndsAs at_ last ∧ (c.conn_open = true ↔ leaks last) := by
  obtain ⟨_, hagain, _⟩ | ⟨c', last, hleave, hends⟩ := h.forLoop_cases n buf
  · rw [hagain] at hrun
    cases hrun
  · obtain rfl := Flow.leave.inj (hleave.symm.trans hrun)
    exact ⟨last, hends⟩

/-- A loop that goes on has come across nothing that ends it. -/
theorem Decided.none_of_again (h : Decided at_ leaks body) (hrun : forLoop body n (start buf) = .again c) :
    c.reads = n ∧ ∀ r < n, at_ r = none := by
  obtain ⟨c', hagain, hc'⟩ | ⟨_, _, hleave, _⟩ := h.forLoop_cases n buf
  · obtain rfl := Flow.again.inj (hagain.symm.trans hrun)
    exact hc'
  · rw [hleave] at hrun
    cases hrun

end Decided

variable {server : Server} {input : Input} {s : State} {r : Nat} {data : List UInt8}

theorem ending_at_of_fail (hread : input r = none) : ending_at input r = some .failed := by
  rw [ending_at, hread]

theorem ending_at_of_read (hread : input r = some data) : ending_at input r = ending data := by
  rw [ending_at, hread]

/-- No message ends the loop as an error does. -/
theorem ending_ne_failed : ending data ≠ some .failed := by
  unfold ending
  split
  · simp
  · split <;> simp

theorem handler_of_fail (hread : input s.reads = none) :
    server.handler input s = .leave (server.fail { s with reads := s.reads + 1 }) := by
  cases server <;>
    simp [Server.handler, inner_loop, multithreaded.process_connection, thread_pool.process_connection, pass,
      hread, Server.fail]

/-- Of the results of `read`, one pass looks at one. -/
theorem handler_congr (input' : Input) (hread : input s.reads = input' s.reads) :
    server.handler input s = server.handler input' s := by
  cases server <;>
    simp [Server.handler, inner_loop, multithreaded.process_connection, thread_pool.process_connection, pass,
      hread]

/-- The loops of the three servers. Only a thread of its own leaves the connection open, when a
    call fails. -/
theorem handler_decided (hsize : Sized input) (server : Server) :
    Decided (ending_at input) (fun last => server = .multithreaded ∧ last = .failed)
      (server.handler input) := by
  constructor
  · intro s hnone
    cases hread : input s.reads with
    | none =>
      rw [ending_at_of_fail hread] at hnone
      cases hnone
    | some data =>
      rw [ending_at_of_read hread] at hnone
      have hle : data.length ≤ BUFSIZE := Nat.le_of_lt (hsize _ _ hread)
      rw [handler_congr (fun _ => some data) hread, handler_eq (f := fun _ => data) hle]
      dsimp only
      rw [hnone]
      exact ⟨_, rfl, rfl, rfl, rfl⟩
  · intro s last hlast hopen
    cases hread : input s.reads with
    | none =>
      obtain rfl := Option.some.inj ((ending_at_of_fail hread).symm.trans hlast)
      refine ⟨_, handler_of_fail hread, ?_, ?_⟩
      · cases server <;> rfl
      · cases server <;> simp [Server.fail, State.exit, State.pthread_exit, hopen]
    | some data =>
      rw [ending_at_of_read hread] at hlast
      have hle : data.length ≤ BUFSIZE := Nat.le_of_lt (hsize _ _ hread)
      have hnot : last ≠ .failed := by
        rintro rfl
        exact ending_ne_failed hlast
      rw [handler_congr (fun _ => some data) hread, handler_eq (f := fun _ => data) hle]
      dsimp only
      rw [hlast]
      exact ⟨_, rfl, rfl, by simp [State.exit, hnot]⟩

/-- One connection has another flow, the others have the flow they had. -/
theorem update_eq_some {loops : Nat → Option (Flow State)} {id other : Nat} {flow flow' : Flow State}
    (h : Function.update loops id (some flow) other = some flow') :
    other = id ∧ flow' = flow ∨ other ≠ id ∧ loops other = some flow' := by
  by_cases hother : other = id
  · subst hother
    rw [Function.update_self] at h
    exact .inl ⟨rfl, (Option.some.inj h).symm⟩
  · rw [Function.update_of_ne hother] at h
    exact .inr ⟨hother, h⟩

theorem isSome_update (loops : Nat → Option (Flow State)) (id other : Nat) (flow : Flow State) :
    (Function.update loops id (some flow) other).isSome ↔ (loops other).isSome ∨ other = id := by
  by_cases hother : other = id
  · simp [hother]
  · simp [hother]

end oslabs.net
