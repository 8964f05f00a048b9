import OsLabs.Async.Message
import OsLabs.Lib.Run

open oslabs.memory oslabs.run
open oslabs.async (BUFSIZE QUIT STOP is_command received)

namespace oslabs.uds

def LINE_LEN : Nat := 256

/-- The arrays of characters: two of the client and the server's. -/
inductive Buffer where
  | line
  | data
  | buf
  deriving DecidableEq, Repr

def Buffer.size : Buffer → Nat
  | .line => LINE_LEN + 1
  | .data => LINE_LEN + 1
  | .buf => BUFSIZE

/-- The use of some characters of an array, from an index on. -/
structure Access where
  buffer : Buffer
  first : Nat
  count : Nat

def Access.Inside (a : Access) : Prop :=
  a.first + a.count ≤ a.buffer.size

/-- Where the client is in its loop: before `fgets`, before `read`, at its end, or at the end
    of its process: by an error, for which it takes the end of its input, or by the signal
    of a write to a server that is gone. -/
inductive Client where
  | reading
  | waiting
  | ended
  | failed
  deriving DecidableEq, Repr

def Client.Here (client : Client) : Prop :=
  client = .reading ∨ client = .waiting

instance (client : Client) : Decidable client.Here := inferInstanceAs (Decidable (_ ∨ _))

/-- Where the server is: in the loop over the connection, with `stop` answered, returned
    from `process_connection`, at the end of its process, or failed at a `read` or a `write`. -/
inductive Server where
  | serving
  | stopping
  | closed
  | exited
  | failed
  deriving DecidableEq, Repr

/-- The server has its end of the connection open, whether it reads from it or not. -/
def Server.Here (server : Server) : Prop :=
  server = .serving ∨ server = .stopping

instance (server : Server) : Decidable server.Here := inferInstanceAs (Decidable (_ ∨ _))

/-- Both programs and the socket between them. `input` has what `fgets` will return, and
    `requests` and `replies` what is written but not read yet. `printed` has the lines of the
    client's output and `accesses` all uses of the arrays. -/
structure State where
  input : List (List UInt8)
  line : Memory
  data : Memory
  client : Client
  printed : List (List UInt8)
  buf : Memory
  server : Server
  requests : List (List UInt8)
  replies : List (List UInt8)
  accesses : List Access

/-- `read` of so many characters at most: its result, what it has read, and what is left to
    read. What one write has sent it returns at once, as far as there is room. At the end of
    the stream it returns nothing. It fails where the other end has left something unread. -/
def read (count : Nat) (here unread : Bool) :
    List (List UInt8) → Option (Int × List UInt8 × List (List UInt8))
  | [] => if here then none else if unread then some (-1, [], []) else some (0, [], [])
  | bytes :: rest =>
    if bytes.length ≤ count then some (bytes.length, bytes, rest)
    else some (count, bytes.take count, bytes.drop count :: rest)

/-- The conversion of a result to `size_t`. -/
def size_t (n : Int) : Nat :=
  (BitVec.ofInt 64 n).toNat

/-- The loop that cuts CR and LF off the end of `line`, and the length that is left. -/
def strip (line : Memory) : Nat → Memory × Nat
  | 0 => (line, 0)
  | len + 1 =>
    if line len = 13 ∨ line len = 10 then strip (line.store len [0]) len
    else (line, len + 1)

/-- The client's loop as far as its call of `read`. It writes to a server that has left its
    loop as well, and is killed when the connection is closed. -/
def send (s : State) : State :=
  match s.input with
  | [] => { s with client := .failed }
  | chunk :: input =>
    let filled := s.line.store 0 (chunk ++ [0])
    let full := strlen filled 0 (LINE_LEN + 1)
    let (line, len) := strip filled full
    let accesses := s.accesses ++
      [⟨.line, 0, chunk.length + 1⟩, ⟨.line, 0, full + 1⟩, ⟨.line, 0, len + 1⟩]
    if s.server.Here then
      { s with
        input
        line
        client := .waiting
        requests := s.requests ++ [line.load 0 (len + 1)]
        accesses }
    else { s with input, line, client := .failed, accesses }

/-- The rest of the client's loop. `dlen` is not negative, so that a failure of `read` is not
    noticed. It is reported once. -/
def receive (s : State) : Option State := do
  let (ret, bytes, replies) ← read LINE_LEN s.server.Here (s.requests ≠ []) s.replies
  let dlen := size_t ret
  let data := s.data.store 0 bytes
  let requests := if ret < 0 then [] else s.requests
  let accesses := s.accesses ++ [⟨.data, 0, bytes.length⟩]
  if dlen = 0 then
    some { s with data, requests, replies, accesses, client := .ended }
  else
    let data := data.store dlen [0]
    some { s with
      data
      requests
      replies
      client := .reading
      printed := s.printed ++ [data.string 0 (LINE_LEN + 1)]
      accesses := accesses ++ [⟨.data, dlen, 1⟩, ⟨.data, 0, strlen data 0 (LINE_LEN + 1) + 1⟩] }

/-- The server's loop: one message. The comparisons look at four characters at most, and
    then at the fifth. A write to a client that is gone ends the process. -/
def process_connection (s : State) : Option State := do
  let (len, bytes, requests) ← read BUFSIZE s.client.Here (s.replies ≠ []) s.requests
  if len < 0 then
    some { s with requests, server := .failed }
  else
    let buf := received s.buf bytes
    let full := strlen buf 0 (BUFSIZE + 1)
    let accesses := s.accesses ++
      [⟨.buf, 0, bytes.length⟩, ⟨.buf, bytes.length, 1⟩, ⟨.buf, 0, full + 1⟩, ⟨.buf, 0, 4⟩, ⟨.buf, 4, 1⟩]
    if len = 0 ∨ is_command buf QUIT then
      some { s with buf, requests, accesses, server := .closed }
    else
      let accesses := accesses ++ [⟨.buf, 0, full + 1⟩]
      if s.client.Here then
        some { s with
          buf
          requests
          replies := s.replies ++ [buf.load 0 (full + 1)]
          server := if is_command buf STOP then .stopping else .serving
          accesses }
      else some { s with buf, requests, accesses, server := .failed }

/-- The four parts of the programs, each up to a call that may wait. -/
inductive Label where
  | send
  | receive
  | process_connection
  | exit
  deriving DecidableEq, Repr

def step (s : State) : Label → Option State
  | .send => if s.client = .reading then some (send s) else none
  | .receive => if s.client = .waiting then receive s else none
  | .process_connection => if s.server = .serving then process_connection s else none
  | .exit => if s.server = .stopping then some { s with server := .exited } else none

/-- A connection that is established, with arrays that may hold anything. -/
def start (line data buf : Memory) (chunks : List (List UInt8)) : State where
  input := chunks
  line
  data
  client := .reading
  printed := []
  buf
  server := .serving
  requests := []
  replies := []
  accesses := []

/-- Neither program can go on. -/
def Final (s : State) : Prop :=
  ∀ label, step s label = none

end oslabs.uds
