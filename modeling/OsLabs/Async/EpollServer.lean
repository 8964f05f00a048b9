import Mathlib.Data.Finset.Card
import OsLabs.Async.Message
import OsLabs.Lib.Run

open oslabs.memory oslabs.run

namespace oslabs.async.epoll

def EPOLLIN : UInt32 := 0x001
def EPOLLERR : UInt32 := 0x008

structure epoll_event where
  fd : Nat
  events : UInt32
  deriving DecidableEq, Repr

/-- The server between two events. `registered` is the epoll set, `opened` has all
    descriptors that are open, and `pending` is what the scan of `events` has not
    come to. `clients` has the connections that were accepted and kept and are not
    closed, `written` is what was written to each, and `uses` has the places of `buf` that
    the server has used, each time from an index on. No operation reads these three. -/
structure State where
  main_fd : Nat
  events_fd : Nat
  nevents : Nat
  buf : Memory
  registered : Finset Nat
  opened : Finset Nat
  pending : List epoll_event
  clients : Finset Nat
  written : List (Nat × List UInt8)
  uses : List (Nat × Nat)

/-- `EPOLL_CTL_ADD`, which fails on a descriptor that is registered. -/
def epoll_ctl_add (s : State) (fd : Nat) : Option State :=
  if fd ∈ s.registered then none else some { s with registered := insert fd s.registered }

/-- `EPOLL_CTL_DEL`, which fails on a descriptor that is not registered. -/
def epoll_ctl_del (s : State) (fd : Nat) : Option State :=
  if fd ∈ s.registered then some { s with registered := s.registered.erase fd } else none

def close (s : State) (fd : Nat) : State :=
  { s with opened := s.opened.erase fd, clients := s.clients.erase fd }

/-- The three branches an event can take. -/
def isExit (pev : epoll_event) : Bool :=
  pev.fd = 0 && pev.events &&& EPOLLIN ≠ 0

def isConnection (s : State) (pev : epoll_event) : Bool :=
  pev.fd = s.main_fd && pev.events &&& EPOLLIN ≠ 0

def isMessage (pev : epoll_event) : Bool :=
  pev.events &&& (EPOLLIN ||| EPOLLERR) ≠ 0

/-- The branch of a new connection, behind `accept`, which returned `conn_fd`. -/
def serve_connection (s : State) (conn_fd : Nat) : Option State :=
  let s := { s with opened := insert conn_fd s.opened }
  if s.nevents = MAX_CLIENTS then some (close s conn_fd)
  else do
    let s ← epoll_ctl_add s conn_fd
    some { s with nevents := s.nevents + 1, clients := insert conn_fd s.clients }

/-- The branch of a client, in which `read` returned `data`. -/
def serve_client (s : State) (conn_fd : Nat) (data : List UInt8) : Option State :=
  let len := data.length
  let s := { s with buf := received s.buf data, uses := s.uses ++ [(0, len), (len, 1)] }
  let s := { s with uses := s.uses ++ [(0, strlen s.buf 0 (BUFSIZE + 1) + 1)] }
  let s :=
    if len > 0 then
      { s with written := s.written ++ [(conn_fd, s.buf.load 0 len)], uses := s.uses ++ [(0, len)] }
    else s
  let s := { s with uses := s.uses ++ closing_uses s.buf len }
  if closing s.buf len then do
    let s ← epoll_ctl_del s conn_fd
    some (close s conn_fd)
  else some s

/-- One pass through the scan of `events`, with what `accept` and `read` return in
    it. It is undefined where the server leaves its loop, to exit or on an error. -/
def serve (s : State) (pev : epoll_event) (conn_fd : Nat) (data : List UInt8) : Option State :=
  if isExit pev then none
  else if isConnection s pev then serve_connection s conn_fd
  else if isMessage pev then serve_client s pev.fd data
  else some s

inductive Label where
  | epoll_wait (events : List epoll_event)
  | event (conn_fd : Nat) (data : List UInt8)

/-- `epoll_wait` returns at most `nevents` events, of different descriptors that are
    registered. `accept` returns a descriptor that is not open, and `read` returns
    no more than there is room for. -/
def step (s : State) : Label → Option State
  | .epoll_wait events =>
    if s.pending = [] ∧ events.length ≤ s.nevents ∧ (events.map (·.fd)).Nodup ∧
        ∀ pev ∈ events, pev.fd ∈ s.registered then
      some { s with pending := events }
    else none
  | .event conn_fd data =>
    match s.pending with
    | [] => none
    | pev :: pending =>
      if conn_fd ∉ s.opened ∧ data.length ≤ BUFSIZE then serve { s with pending } pev conn_fd data
      else none

/-- The server when it enters its loop, in a memory that may hold anything. -/
def start (main_fd events_fd : Nat) (buf : Memory) : State where
  main_fd := main_fd
  events_fd := events_fd
  nevents := 2
  buf := buf
  registered := {0, main_fd}
  opened := {0, main_fd, events_fd}
  pending := []
  clients := ∅
  written := []
  uses := []

/-- The step reads a message, or the end of a stream, after which the connection is
    closed. -/
def Closes (s : State) : Label → Prop
  | .epoll_wait _ => False
  | .event _ data =>
    ∃ pev ∈ s.pending.head?, ¬ isExit pev ∧ ¬ isConnection s pev ∧ isMessage pev ∧ closes s.buf data

instance (s : State) : ∀ label, Decidable (Closes s label)
  | .epoll_wait _ => inferInstanceAs (Decidable False)
  | .event _ data => inferInstanceAs (Decidable (∃ pev ∈ s.pending.head?,
      ¬ isExit pev ∧ ¬ isConnection s pev ∧ isMessage pev ∧ closes s.buf data))

/-- The step accepts a connection only to close it at once. -/
def Refuses (s : State) : Label → Prop
  | .epoll_wait _ => False
  | .event _ _ =>
    ∃ pev ∈ s.pending.head?, ¬ isExit pev ∧ isConnection s pev ∧ s.nevents = MAX_CLIENTS

end oslabs.async.epoll
