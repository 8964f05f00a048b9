import Mathlib.Data.Finset.Insert
import Mathlib.Data.Finset.Erase
import OsLabs.Async.Message
import OsLabs.Lib.Loop
import OsLabs.Lib.Run

open oslabs.memory oslabs.loop oslabs.run

namespace oslabs.async.polling

def POLLRDNORM : UInt16 := 0x040

structure pollfd where
  fd : Nat
  events : UInt16
  revents : UInt16
  deriving DecidableEq, Repr

/-- The calls the server makes on the descriptors of its connections. -/
inductive Event where
  | accept (fd : Nat)
  | read (fd : Nat)
  | write (fd : Nat) (bytes : List UInt8)
  | close (fd : Nat)
  deriving DecidableEq, Repr

/-- The server between two calls of `poll`. `opened` has all descriptors that are
    open, `history` the calls so far, and `uses` the places of `buf` that it has used,
    each time from an index on. No operation reads these three. `ended` is set when the
    server has left its loop and has closed its descriptors. -/
structure State where
  main_fd : Nat
  clients : List pollfd
  nclients : Nat
  buf : Memory
  opened : Finset Nat
  history : List Event
  uses : List (Nat × Nat)
  ended : Bool

/-- Write to an entry of the table. The operation is undefined outside it. -/
def State.store (s : State) (i : Nat) (write : pollfd → pollfd) : Option State :=
  if i < s.clients.length then some { s with clients := s.clients.modify i write } else none

def close (s : State) (fd : Nat) : State :=
  { s with opened := s.opened.erase fd, history := s.history ++ [.close fd] }

/-- `poll`, which sets `revents` in the first `nclients` entries and returns the
    number of those it sets to something. -/
def poll (s : State) (revents : List UInt16) : State × Int :=
  ({ s with
    clients := (s.clients.take s.nclients).zipWith (fun client revents => { client with revents })
      revents ++ s.clients.drop s.nclients },
   revents.countP (· ≠ 0))

/-- The branch of a new connection, behind `accept`, which returned `conn_fd`. -/
def serve_connection (s : State) (conn_fd : Nat) : Option State :=
  let s := { s with opened := insert conn_fd s.opened, history := s.history ++ [.accept conn_fd] }
  if s.nclients = MAX_CLIENTS then some (close s conn_fd)
  else do
    let s ← s.store s.nclients fun client => { client with fd := conn_fd, events := POLLRDNORM }
    some { s with nclients := s.nclients + 1 }

/-- The variables of the loop that serves the clients. -/
structure Scan where
  server : State
  i : Nat
  nready : Int

/-- `read` of a message, which is printed with a zero behind it and written back. -/
def echo (s : State) (conn_fd : Nat) (data : List UInt8) : State :=
  let len := data.length
  let s : State := { s with
    buf := received s.buf data
    history := s.history ++ [.read conn_fd]
    uses := s.uses ++ [(0, len), (len, 1)] }
  let s := { s with uses := s.uses ++ [(0, strlen s.buf 0 (BUFSIZE + 1) + 1)] }
  if len > 0 then
    { s with
      history := s.history ++ [.write conn_fd (s.buf.load 0 len)]
      uses := s.uses ++ [(0, len)] }
  else s

/-- One pass through the loop that serves the clients, in which `read` returns the
    data of a descriptor. When the client is removed, `--i` makes up for the `++i` of
    the loop. -/
def serve_pass (data : Nat → List UInt8) (scan : Scan) : Option Scan := do
  let client ← scan.server.clients[scan.i]?
  if client.revents ≠ 0 then
    let conn_fd := client.fd
    let s := echo scan.server conn_fd (data conn_fd)
    let s := { s with uses := s.uses ++ closing_uses s.buf (data conn_fd).length }
    if closing s.buf (data conn_fd).length then
      let s := close s conn_fd
      let nclients := s.nclients - 1
      let last ← s.clients[nclients]?
      let s ← s.store scan.i fun _ => last
      some { server := { s with nclients }, i := scan.i, nready := scan.nready - 1 }
    else some { server := s, i := scan.i + 1, nready := scan.nready - 1 }
  else some { scan with i := scan.i + 1 }

/-- The loop that serves the clients. It tests its condition at most `nclients + 1`
    times. -/
def serve_clients (data : Nat → List UInt8) (s : State) (nready : Int) : Option State :=
  (whileLoop (fun scan => 0 < scan.nready && scan.i < scan.server.nclients)
    (fun scan => (serve_pass data scan).map .again) (s.nclients + 1)
    { server := s, i := 2, nready }).map Scan.server

/-- What the calls in one pass through the server's loop return. `data` is what there
    is to read from each descriptor. -/
structure Round where
  revents : List UInt16
  conn_fd : Nat
  data : Nat → List UInt8

/-- One pass through the server's loop. -/
def serve (s : State) (round : Round) : Option (Flow State) := do
  let (s, nready) := poll s round.revents
  let stdin ← s.clients[0]?
  if stdin.revents &&& POLLRDNORM ≠ 0 then some (.leave s)
  else
    let listening ← s.clients[1]?
    if listening.revents &&& POLLRDNORM ≠ 0 then
      let s ← serve_connection s round.conn_fd
      let nready := nready - 1
      if nready = 0 then some (.again s)
      else (serve_clients round.data s nready).map .again
    else (serve_clients round.data s nready).map .again

def close_pass (s : State × Nat) : Option (State × Nat) := do
  let client ← s.1.clients[s.2]?
  some (close s.1 client.fd, s.2 + 1)

/-- What the server does behind its loop. -/
def shutdown (s : State) : Option State := do
  let (s, _) ← whileLoop (fun s => s.2 < s.1.nclients) (fun s => (close_pass s).map .again)
    (s.nclients + 1) (s, 0)
  some { close s s.main_fd with ended := true }

/-- One pass through the server's loop, with what comes behind the loop when the pass
    is its last one. It is undefined where an index is outside the table. -/
def iteration (s : State) (round : Round) : Option State := do
  match ← serve s round with
  | .again s => some s
  | .leave s => shutdown s

/-- `poll` reports on the first `nclients` entries, `accept` returns a descriptor that
    is not open, and `read` returns no more than there is room for. -/
structure Legal (s : State) (round : Round) : Prop where
  revents : round.revents.length = s.nclients
  fresh : round.conn_fd ∉ s.opened
  data : ∀ fd, (round.data fd).length ≤ BUFSIZE

def Step (s : State) (round : Round) (s' : State) : Prop :=
  s.ended = false ∧ Legal s round ∧ iteration s round = some s'

/-- The server when it enters its loop. The table and the buffer hold anything before
    that. -/
def start (main_fd : Nat) (clients : List pollfd) (buf : Memory) : State where
  main_fd := main_fd
  clients := (clients.modify 0 fun client => { client with fd := 0, events := POLLRDNORM }).modify 1
    fun client => { client with fd := main_fd, events := POLLRDNORM }
  nclients := 2
  buf := buf
  opened := {0, main_fd}
  history := []
  uses := []
  ended := false

end oslabs.async.polling
