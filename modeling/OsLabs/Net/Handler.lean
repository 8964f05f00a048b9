import OsLabs.Async.Message
import OsLabs.Lib.Loop

open oslabs.memory oslabs.loop
open oslabs.async (BUFSIZE Command QUIT STOP is_command received)

namespace oslabs.net

/-- How the loop over a connection is left: the server accepts the next client, the thread
    returns or the worker goes back to its pool; the server ends; a call has failed. -/
inductive Ending where
  | returned
  | stopped
  | failed
  deriving DecidableEq, Repr

/-- The loop over one connection: its buffer, how often it has read, what it has written,
    and whether the connection is open. -/
structure State where
  buf : Memory
  reads : Nat
  written : List UInt8
  conn_open : Bool
  ending : Option Ending

/-- The results of the calls of `read`, one after the other: `none` where one fails. -/
abbrev Input := Nat → Option (List UInt8)

/-- The end of the process closes its descriptors. -/
def State.exit (s : State) (ending : Ending) : State :=
  { s with conn_open := false, ending := some ending }

/-- The end of a thread does not. -/
def State.pthread_exit (s : State) : State :=
  { s with ending := some .failed }

/-- One pass of the loops, which differ in how many bytes they write back and in what
    they do when a call fails. A write is complete. -/
def pass (reply : Memory → Nat → List UInt8) (fail : State → State) (input : Input) (s : State) :
    Flow State :=
  match input s.reads with
  | none => .leave (fail { s with reads := s.reads + 1 })
  | some data =>
    let buf := received s.buf data
    let s := { s with buf, reads := s.reads + 1, written := s.written ++ reply buf data.length }
    if is_command buf QUIT then
      .leave { s with conn_open := false, ending := some .returned }
    else if is_command buf STOP then
      .leave (s.exit .stopped)
    else .again s

/-- The loop over a connection ends the process, in `error`, in `exit` or behind the label
    `end`. In the server that creates threads, `terror` ends one of them alone. -/
def exits : Flow State → Bool
  | .leave c => c.ending ≠ some .returned
  | .again _ => false

/-- The inner loop of `main` in the basic server. -/
def inner_loop : Input → State → Flow State :=
  pass (fun buf len => buf.load 0 len) (·.exit .failed)

namespace multithreaded

/-- `strlen` finds the zero that was put behind the message. -/
def process_connection : Input → State → Flow State :=
  pass (fun buf _ => buf.string 0 (BUFSIZE + 1)) (·.pthread_exit)

end multithreaded

namespace thread_pool

def process_connection : Input → State → Flow State :=
  pass (fun buf _ => buf.string 0 (BUFSIZE + 1)) (·.exit .failed)

end thread_pool

/-- The three servers of the lab. -/
inductive Server where
  | basic
  | multithreaded
  | thread_pool
  deriving DecidableEq, Repr

def Server.handler : Server → Input → State → Flow State
  | .basic => inner_loop
  | .multithreaded => multithreaded.process_connection
  | .thread_pool => thread_pool.process_connection

/-- A connection that was just accepted, with whatever the buffer holds. -/
def start (buf : Memory) : State where
  buf
  reads := 0
  written := []
  conn_open := true
  ending := none

/-- What a server writes back of a message. -/
def Server.reply : Server → List UInt8 → List UInt8
  | .basic, data => data
  | .multithreaded, data | .thread_pool, data => data.takeWhile (· ≠ 0)

/-- How a message ends the loop. -/
def ending (data : List UInt8) : Option Ending :=
  if Command QUIT data then some .returned
  else if Command STOP data then some .stopped
  else none

variable {server : Server} {f : Nat → List UInt8} {data : List UInt8} {s : State} {n k : Nat}

theorem ending_eq_none_iff : ending data = none ↔ ¬ (Command QUIT data ∨ Command STOP data) := by
  unfold ending
  split
  · simp_all
  · split <;> simp_all

/-- A message is written back, and it decides alone whether the loop goes on. -/
theorem handler_eq (hsize : (f s.reads).length ≤ BUFSIZE) :
    server.handler (fun i => some (f i)) s =
      let after : State := ⟨received s.buf (f s.reads), s.reads + 1, s.written ++ server.reply (f s.reads),
        s.conn_open, s.ending⟩
      match ending (f s.reads) with
      | none => .again after
      | some last => .leave (after.exit last) := by
  have hquit : is_command (received s.buf (f s.reads)) QUIT = true ↔ Command QUIT (f s.reads) :=
    async.is_command_received_iff s.buf rfl (by decide)
  have hstop : is_command (received s.buf (f s.reads)) STOP = true ↔ Command STOP (f s.reads) :=
    async.is_command_received_iff s.buf rfl (by decide)
  have hload := async.load_received s.buf (f s.reads)
  have hstring : (received s.buf (f s.reads)).string 0 (BUFSIZE + 1) = (f s.reads).takeWhile (· ≠ 0) :=
    async.string_received s.buf (by omega)
  unfold ending
  cases server <;>
  · simp only [Server.handler, inner_loop, multithreaded.process_connection, thread_pool.process_connection,
      pass, hquit, hstop, Server.reply, State.exit, hload, hstring]
    split
    · rfl
    · split <;> rfl

section Run

variable (hsize : ∀ i, (f i).length ≤ BUFSIZE)
include hsize

/-- As long as there is no command, every message is written back. -/
theorem forLoop_again (server : Server) (buf : Memory) (hnone : ∀ i < n, ending (f i) = none) :
    ∃ last, forLoop (server.handler fun i => some (f i)) n (start buf) =
      .again ⟨last, n, (List.range n).flatMap fun i => server.reply (f i), true, none⟩ := by
  induction n with
  | zero => exact ⟨buf, rfl⟩
  | succ n ih =>
    obtain ⟨last, hrun⟩ := ih fun i hi => hnone i (Nat.lt_succ_of_lt hi)
    refine ⟨received last (f n), ?_⟩
    rw [forLoop_succ_of_again hrun, handler_eq (hsize _), hnone n (Nat.lt_succ_self n), List.range_succ,
      List.flatMap_append, List.flatMap_singleton]

/-- The first command ends the loop, after it is written back, and the connection is closed. -/
theorem forLoop_leave (server : Server) (buf : Memory) (hnone : ∀ i < k, ending (f i) = none) {last : Ending}
    (hlast : ending (f k) = some last) (hk : k < n) :
    ∃ after, forLoop (server.handler fun i => some (f i)) n (start buf) =
      .leave ⟨after, k + 1, (List.range (k + 1)).flatMap fun i => server.reply (f i), false, some last⟩ := by
  obtain ⟨before, hrun⟩ := forLoop_again hsize server buf hnone
  have hpass : forLoop (server.handler fun i => some (f i)) (k + 1) (start buf) =
      .leave ⟨received before (f k), k + 1, (List.range (k + 1)).flatMap fun i => server.reply (f i), false,
        some last⟩ := by
    rw [forLoop_succ_of_again hrun, handler_eq (hsize _), hlast, List.range_succ, List.flatMap_append,
      List.flatMap_singleton]
    rfl
  obtain ⟨more, rfl⟩ : ∃ more, n = k + 1 + more := ⟨n - (k + 1), by omega⟩
  exact ⟨_, forLoop_of_leave hpass more⟩

end Run

/-- Either there is no command among the first messages, or there is a first one. -/
theorem first_ending (f : Nat → List UInt8) (n : Nat) :
    (∀ i < n, ending (f i) = none) ∨
      ∃ k < n, (∀ i < k, ending (f i) = none) ∧ ∃ last, ending (f k) = some last := by
  induction n with
  | zero => exact .inl fun i hi => absurd hi (Nat.not_lt_zero i)
  | succ n ih =>
    obtain hnone | ⟨k, hk, hfirst, hlast⟩ := ih
    · cases hn : ending (f n) with
      | none =>
        refine .inl fun i hi => ?_
        obtain hlt | rfl := Nat.lt_succ_iff_lt_or_eq.1 hi
        · exact hnone i hlt
        · exact hn
      | some last => exact .inr ⟨n, Nat.lt_succ_self n, hnone, last, hn⟩
    · exact .inr ⟨k, Nat.lt_succ_of_lt hk, hfirst, hlast⟩

end oslabs.net
