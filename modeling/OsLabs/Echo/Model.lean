import Mathlib.Logic.Function.Basic
import OsLabs.Lib.CString
import OsLabs.Lib.Decimal
import OsLabs.Lib.Run

open oslabs.memory oslabs.printf oslabs.run

namespace oslabs.echo

def ascii (s : String) : List UInt8 :=
  s.toList.map fun c => UInt8.ofNat c.toNat

def ECHO_SERVICE_ID_BASE : List UInt8 := ascii "/isel.so.memecho"
def ECHO_SERVICE_SERVER_ID : List UInt8 := ECHO_SERVICE_ID_BASE ++ ascii ".server"
def ECHO_SERVICE_CLIENT_ID_BASE : List UInt8 := ECHO_SERVICE_ID_BASE ++ ascii ".client."

def PID_IDX : Nat := ECHO_SERVICE_CLIENT_ID_BASE.length

def PID_MAX_LEN : Nat := 10

def ECHO_MSG_MAX_LEN : Nat := 256

/-- A message, with all bytes of its array of characters. -/
structure echomsg_t where
  sender : Int32
  msg : List UInt8
  deriving DecidableEq, Repr

/-- The test of the first character of a message, as in `msg.msg[0] == '\0'`. -/
def echomsg_t.isEmpty (m : echomsg_t) : Bool := m.msg.head? = some 0

/-- What the server takes for a termination message. -/
def echomsg_t.isTermination (m : echomsg_t) : Bool := m.sender = 0 ∧ m.isEmpty

/-- A shared segment, by the process that has created it. Stale ones are left from
    before. -/
inductive Segment (C : Type) where
  | server
  | client (c : C)
  | stale (i : Nat)
  deriving DecidableEq

/-- A channel as the bounded queue that it is for its users. -/
structure Channel where
  capacity : Nat
  items : List echomsg_t

/-- The names of segments, and the channels in them. A segment outlives its name for
    those that have it mapped. -/
structure Shared (C : Type) where
  names : List UInt8 → Option (Segment C)
  channels : Segment C → Channel

section Channels

variable {C : Type} [DecidableEq C]

def mc_create (segment : Segment C) (capacity : Nat) (name : List UInt8) (shared : Shared C) :
    Option (Shared C) :=
  if (shared.names name).isSome then none
  else
    some {
      names := Function.update shared.names name (some segment)
      channels := Function.update shared.channels segment { capacity, items := [] } }

def mc_open (name : List UInt8) (shared : Shared C) : Option (Segment C) :=
  shared.names name

/-- The names of the service fit the copy of the name that a channel keeps. -/
def mc_destroy (name : List UInt8) (shared : Shared C) : Shared C :=
  { shared with names := Function.update shared.names name none }

/-- A call that would wait for space does not return. -/
def mc_put (segment : Segment C) (item : echomsg_t) (shared : Shared C) : Option (Shared C) :=
  let mc := shared.channels segment
  if mc.items.length < mc.capacity then
    some { shared with
      channels := Function.update shared.channels segment { mc with items := mc.items ++ [item] } }
  else none

/-- A call that would wait for an item does not return. -/
def mc_get (segment : Segment C) (shared : Shared C) : Option (echomsg_t × Shared C) :=
  let mc := shared.channels segment
  match mc.items with
  | [] => none
  | item :: items =>
    some (item, { shared with
      channels := Function.update shared.channels segment { mc with items } })

end Channels

/-- Where the server is: before `mc_create`, before `mc_get`, before `mc_open`, before
    `mc_put` on the channel it has opened, before `mc_destroy`, or at an end. -/
inductive ServerPc (C : Type) where
  | start
  | waiting
  | received
  | replying (rmc : Segment C)
  | stopping
  | ended
  | failed
  deriving DecidableEq

/-- The server with its one message and its one name buffer. -/
structure Server (C : Type) where
  pc : ServerPc C
  msg : echomsg_t
  resp_ch_name : Memory

/-- The calls of a server, each with what `main` does up to the next one. -/
inductive ServerLabel where
  | mc_create
  | mc_get
  | mc_open
  | mc_put
  | mc_destroy

variable {C K : Type} [DecidableEq C]

/-- The name in the buffer, as `shm_open` reads it. -/
def Server.name (server : Server C) : List UInt8 :=
  server.resp_ch_name.string 0 (PID_IDX + PID_MAX_LEN + 1)

def server_step (server_pid : Int32) (shared : Shared C) (server : Server C) :
    ServerLabel → Option (Shared C × Server C)
  | .mc_create =>
    match server.pc with
    | .start =>
      match mc_create .server 8 ECHO_SERVICE_SERVER_ID shared with
      | some shared =>
        let resp_ch_name := server.resp_ch_name.store 0 (ECHO_SERVICE_CLIENT_ID_BASE ++ [0])
        some (shared, { server with pc := .waiting, resp_ch_name })
      | none => some (shared, { server with pc := .failed })
    | _ => none
  | .mc_get =>
    match server.pc with
    | .waiting => do
      let (msg, shared) ← mc_get .server shared
      if msg.isTermination then some (shared, { server with pc := .stopping, msg })
      else
        let resp_ch_name := server.resp_ch_name.store PID_IDX (sprintf_d msg.sender ++ [0])
        some (shared, { pc := .received, msg, resp_ch_name })
    | _ => none
  | .mc_open =>
    match server.pc with
    | .received =>
      match mc_open server.name shared with
      | some rmc =>
        some (shared, { server with pc := .replying rmc, msg := { server.msg with sender := server_pid } })
      | none => some (shared, { server with pc := .waiting })
    | _ => none
  | .mc_put =>
    match server.pc with
    | .replying rmc => do
      let shared ← mc_put rmc server.msg shared
      some (shared, { server with pc := .waiting })
    | _ => none
  | .mc_destroy =>
    match server.pc with
    | .stopping => some (mc_destroy ECHO_SERVICE_SERVER_ID shared, { server with pc := .ended })
    | _ => none

/-- Where a client is: before its `mc_create`, before `mc_open`, before `fgets`, before
    `mc_put`, before `mc_get`, before its cleanup, or at an end. -/
inductive ClientPc where
  | start
  | created
  | prompt
  | ready
  | awaiting
  | closing
  | ended
  | failed
  deriving DecidableEq, Repr

/-- A client. `sent` and `received` are histories of what it has put and of what it has
    got and printed. -/
structure Client (C : Type) where
  pc : ClientPc
  smc : Segment C
  smsg : echomsg_t
  sent : List echomsg_t
  received : List echomsg_t

inductive ClientLabel where
  | mc_create
  | mc_open
  | fgets (line : Option (List UInt8))
  | mc_put
  | mc_get
  | cleanup

/-- The name of a reply channel, as `sprintf` makes it from `"%s%d"`. -/
def client_name (pid : Int32) : List UInt8 :=
  ECHO_SERVICE_CLIENT_ID_BASE ++ sprintf_d pid

/-- What `fgets` can read: it stops behind a newline and when the array is full. -/
def Line (line : List UInt8) : Prop :=
  0 < line.length ∧ line.length < ECHO_MSG_MAX_LEN ∧ 10 ∉ line.dropLast

instance (line : List UInt8) : Decidable (Line line) := inferInstanceAs (Decidable (_ ∧ _))

/-- `fgets` into the array. -/
def fgets (msg line : List UInt8) : List UInt8 :=
  line ++ 0 :: msg.drop (line.length + 1)

def strlen (msg : List UInt8) : Nat := (msg.takeWhile (· ≠ 0)).length

/-- `line[strlen(line) - 1] = 0`. In front of an empty line lies the last byte of
    the sender. -/
def chop (smsg : echomsg_t) : echomsg_t :=
  match strlen smsg.msg with
  | 0 => { smsg with sender := smsg.sender &&& 0xffffff }
  | n + 1 => { smsg with msg := smsg.msg.set n 0 }

def client_step (pid : Int32) (c : C) (shared : Shared C) (client : Client C) :
    ClientLabel → Option (Shared C × Client C)
  | .mc_create =>
    match client.pc with
    | .start =>
      match mc_create (.client c) 1 (client_name pid) shared with
      | some shared => some (shared, { client with pc := .created })
      | none => some (shared, { client with pc := .failed })
    | _ => none
  | .mc_open =>
    match client.pc with
    | .created =>
      match mc_open ECHO_SERVICE_SERVER_ID shared with
      | some smc =>
        let smsg := { sender := pid, msg := List.replicate ECHO_MSG_MAX_LEN 0 }
        some (shared, { client with pc := .prompt, smc, smsg })
      | none => some (mc_destroy (client_name pid) shared, { client with pc := .failed })
    | _ => none
  | .fgets none =>
    match client.pc with
    | .prompt => some (shared, { client with pc := .closing })
    | _ => none
  | .fgets (some line) =>
    match client.pc with
    | .prompt =>
      if Line line then
        let smsg := chop { client.smsg with msg := fgets client.smsg.msg line }
        some (shared, { client with pc := if smsg.isEmpty then .closing else .ready, smsg })
      else none
    | _ => none
  | .mc_put =>
    match client.pc with
    | .ready => do
      let shared ← mc_put client.smc client.smsg shared
      some (shared, { client with pc := .awaiting, sent := client.sent ++ [client.smsg] })
    | _ => none
  | .mc_get =>
    match client.pc with
    | .awaiting => do
      let (rmsg, shared) ← mc_get (.client c) shared
      some (shared, { client with pc := .prompt, received := client.received ++ [rmsg] })
    | _ => none
  | .cleanup =>
    match client.pc with
    | .closing => some (mc_destroy (client_name pid) shared, { client with pc := .ended })
    | _ => none

/-- Where a terminator is: before `mc_open`, before `mc_put`, or at an end. -/
inductive TermPc (C : Type) where
  | start
  | connected (smc : Segment C)
  | ended
  | failed

inductive TermLabel where
  | mc_open
  | mc_put

def tmsg : echomsg_t := { sender := 0, msg := List.replicate ECHO_MSG_MAX_LEN 0 }

def term_step (shared : Shared C) : TermPc C → TermLabel → Option (Shared C × TermPc C)
  | .start, .mc_open =>
    match mc_open ECHO_SERVICE_SERVER_ID shared with
    | some smc => some (shared, .connected smc)
    | none => some (shared, .failed)
  | .connected smc, .mc_put => do
    let shared ← mc_put smc tmsg shared
    some (shared, .ended)
  | _, _ => none

/-- One server, any clients and any terminators. -/
structure State (C K : Type) where
  shared : Shared C
  server : Server C
  clients : C → Client C
  terms : K → TermPc C

inductive Label (C K : Type) where
  | server (label : ServerLabel)
  | client (c : C) (label : ClientLabel)
  | term (k : K) (label : TermLabel)

variable [DecidableEq K]

/-- A step of one of the processes. -/
def step (server_pid : Int32) (pid : C → Int32) (s : State C K) : Label C K → Option (State C K)
  | .server label => do
    let (shared, server) ← server_step server_pid s.shared s.server label
    some { s with shared, server }
  | .client c label => do
    let (shared, client) ← client_step (pid c) c s.shared (s.clients c) label
    some { s with shared, clients := Function.update s.clients c client }
  | .term k label => do
    let (shared, term) ← term_step s.shared (s.terms k) label
    some { s with shared, terms := Function.update s.terms k term }

/-- All processes before their first call, with what their variables happen to hold
    and with names left from before. -/
def start (names : List UInt8 → Option (Segment C)) (msg smsg : echomsg_t) (resp_ch_name : Memory) :
    State C K where
  shared := { names, channels := fun _ => { capacity := 0, items := [] } }
  server := { pc := .start, msg, resp_ch_name }
  clients _ := { pc := .start, smc := .server, smsg, sent := [], received := [] }
  terms _ := .start

end oslabs.echo
