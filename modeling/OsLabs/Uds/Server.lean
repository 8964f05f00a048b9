import OsLabs.Net.ThreadServer

open oslabs.memory oslabs.loop oslabs.run
open oslabs.async (BUFSIZE Command QUIT STOP is_command received)
open oslabs.net (Ending EndsAs Decided Input)
open oslabs.net.threads (Process Passes init passes_left)

namespace oslabs.uds.server

/-- One pass of the loop over a connection. A write is complete. -/
def process_connection (input : Input) (s : net.State) : Flow net.State :=
  match input s.reads with
  | none => .leave { s with reads := s.reads + 1 }.pthread_exit
  | some data =>
    let buf := received s.buf data
    let s := { s with buf, reads := s.reads + 1 }
    if data.length = 0 ∨ is_command buf QUIT then
      .leave { s with conn_open := false, ending := some .returned }
    else
      let s := { s with written := s.written ++ buf.load 0 (strlen buf 0 (BUFSIZE + 1) + 1) }
      if is_command buf STOP then .leave (s.exit .stopped)
      else .again s

/-- The accept loop is the one of the server with a thread for each connection. -/
abbrev step (inputs : Nat → Input) :=
  net.threads.step process_connection inputs

/-- What ends the loop: the end of the stream as well. -/
def ending_at (input : Input) (r : Nat) : Option Ending :=
  if input r = some [] then some .returned else net.ending_at input r

variable {input : Input} {s : net.State} {data : List UInt8} {r : Nat}

theorem ending_at_of_fail (hread : input r = none) : ending_at input r = some .failed := by
  rw [ending_at, if_neg (by simp [hread]), net.ending_at_of_fail hread]

theorem ending_at_of_read (hread : input r = some data) :
    ending_at input r = if data.length = 0 then some .returned else net.ending data := by
  rw [ending_at, net.ending_at_of_read hread, hread]
  simp

/-- The message that was read decides alone whether the loop goes on. -/
theorem process_connection_of_read (hread : input s.reads = some data) :
    ∃ s' : net.State, s'.reads = s.reads + 1 ∧ s'.conn_open = s.conn_open ∧ s'.ending = s.ending ∧
      process_connection input s =
        match (if data.length = 0 then some .returned else net.ending data) with
        | none => .again s'
        | some last => .leave (s'.exit last) := by
  have hquit : is_command (received s.buf data) QUIT = true ↔ Command QUIT data :=
    async.is_command_received_iff s.buf rfl (by decide)
  have hstop : is_command (received s.buf data) STOP = true ↔ Command STOP data :=
    async.is_command_received_iff s.buf rfl (by decide)
  simp only [process_connection, hread, hquit, hstop, net.ending]
  by_cases hlength : data.length = 0
  · rw [if_pos hlength, if_pos (.inl hlength)]
    exact ⟨{ s with buf := received s.buf data, reads := s.reads + 1 }, rfl, rfl, rfl, rfl⟩
  · rw [if_neg hlength]
    by_cases hends : Command QUIT data
    · rw [if_pos hends, if_pos (.inr hends)]
      exact ⟨{ s with buf := received s.buf data, reads := s.reads + 1 }, rfl, rfl, rfl, rfl⟩
    · rw [if_neg hends, if_neg (not_or.2 ⟨hlength, hends⟩)]
      refine ⟨{ s with
        buf := received s.buf data
        reads := s.reads + 1
        written := s.written ++
          (received s.buf data).load 0 (strlen (received s.buf data) 0 (BUFSIZE + 1) + 1) }, rfl, rfl, rfl, ?_⟩
      split <;> rfl

/-- The loop of the server. It leaves the connection open when a call fails. -/
theorem decided (input : Input) :
    Decided (ending_at input) (fun last => last = .failed) (process_connection input) := by
  constructor
  · intro s hnone
    cases hread : input s.reads with
    | none =>
      rw [ending_at_of_fail hread] at hnone
      cases hnone
    | some data =>
      rw [ending_at_of_read hread] at hnone
      obtain ⟨s', hreads, hopen, hending, hpass⟩ := process_connection_of_read hread
      rw [hnone] at hpass
      exact ⟨s', hpass, hreads, hopen, hending⟩
  · intro s last hlast hopen
    cases hread : input s.reads with
    | none =>
      obtain rfl := Option.some.inj ((ending_at_of_fail hread).symm.trans hlast)
      refine ⟨{ s with reads := s.reads + 1 }.pthread_exit, ?_, rfl, ?_⟩
      · simp only [process_connection, hread]
      · simp [net.State.pthread_exit, hopen]
    | some data =>
      rw [ending_at_of_read hread] at hlast
      obtain ⟨s', _, _, _, hpass⟩ := process_connection_of_read hread
      have hnot : last ≠ .failed := by
        rintro rfl
        split at hlast
        · cases hlast
        · exact net.ending_ne_failed hlast
      rw [hlast] at hpass
      exact ⟨_, hpass, rfl, by simp [net.State.exit, hnot]⟩

/-- A server whose clients all go away comes to its end with them, whatever the order of its
    threads' steps: each thread ends, and has closed its connection unless a call has failed
    before, or a client has said `stop`. -/
theorem threads_end {inputs : Nat → Input} {p : Process} {labels : List net.threads.Label} {k : Nat → Nat}
    (hrun : Run (StepOf (step inputs)) init labels p)
    (hgone : ∀ id < p.accepted, ∃ r ≤ k id, inputs id r = some []) :
    Settles (Passes process_connection inputs) (fun last =>
      (last.exited = true ∧ ∃ id < p.accepted, EndsAs (ending_at (inputs id)) .stopped) ∨
        ∀ id < p.accepted, ∃ c, last.loops id = some (.leave c) ∧
          (c.conn_open = true ↔ EndsAs (ending_at (inputs id)) .failed))
      p (passes_left k p) := by
  have hends : ∀ id < p.accepted, ∃ r ≤ k id, ending_at (inputs id) r ≠ none := by
    intro id hid
    obtain ⟨r, hr, hread⟩ := hgone id hid
    refine ⟨r, hr, ?_⟩
    rw [ending_at, if_pos hread]
    exact Option.some_ne_none _
  have hsettles := (net.threads.sound_of_run hrun).settles (fun id => decided (inputs id)) hends
  refine ⟨hsettles.bounded, fun more last hmore hend => ?_⟩
  rcases hsettles.settled more last hmore hend with hexited | hall
  · exact .inl hexited
  · refine .inr fun id hid => ?_
    obtain ⟨c, e, hloop, hends, hopen⟩ := hall id hid
    refine ⟨c, hloop, hopen.trans ⟨?_, hends.unique⟩⟩
    rintro rfl
    exact hends

/-- Two clients; one says `hi` before it goes away. -/
def parting (id : Nat) : Input :=
  if id = 0 then fun r => some (if r = 0 then [104, 105] else []) else fun _ => some []

theorem threads_end_parting : ∃ p : Process, Run (StepOf (step parting)) init
      [.accept fun _ => 0, .accept fun _ => 0, .pass 0] p ∧ passes_left (fun id => 1 - id) p = 2 ∧
    Settles (Passes process_connection parting) (fun last =>
      (last.exited = true ∧ ∃ id < p.accepted, EndsAs (ending_at (parting id)) .stopped) ∨
        ∀ id < p.accepted, ∃ c, last.loops id = some (.leave c) ∧
          (c.conn_open = true ↔ EndsAs (ending_at (parting id)) .failed))
      p (passes_left (fun id => 1 - id) p) := by
  have hrun := run_stepOf_iff.mpr (show exec (step parting) init
    [.accept fun _ => 0, .accept fun _ => 0, .pass 0] = some _ from rfl)
  have hgone : ∀ id < 2, ∃ r ≤ 1 - id, parting id r = some [] := by
    intro id hid
    refine ⟨1 - id, Nat.le_refl _, ?_⟩
    obtain rfl | rfl : id = 0 ∨ id = 1 := by omega
    · rfl
    · rfl
  exact ⟨_, hrun, rfl, threads_end hrun hgone⟩

end oslabs.uds.server
