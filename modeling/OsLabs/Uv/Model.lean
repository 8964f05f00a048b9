import Mathlib.Logic.Function.Basic
import OsLabs.Lib.Memory
import OsLabs.Lib.Run

open oslabs.memory oslabs.run

namespace oslabs.uv

/-- A block that `malloc` has returned, by what it is for and by its number. -/
inductive Block where
  | client (number : Nat)
  | buffer (number : Nat)
  | request (number : Nat)
  deriving DecidableEq, Repr

/-- `base` is the number of a block. -/
structure uv_buf_t where
  base : Nat
  len : Nat
  deriving DecidableEq, Repr

/-- A write request, with the client that libuv writes to. -/
structure write_req_t where
  client : Nat
  buf : uv_buf_t
  deriving DecidableEq, Repr

/-- What libuv is to do for a client: nothing that it knows of, to call `alloc_buffer`, to
    call `on_read` with the buffer it has got, or to call `on_close`. -/
inductive Stream where
  | unknown
  | reading
  | allocated (buf : uv_buf_t)
  | closing
  | closed
  deriving DecidableEq, Repr

/-- The server and libuv between two callbacks. `mallocs` counts the blocks that `malloc` has
    returned, and `frees` how often each has been freed. `writes` has the requests that are
    pending. `handed`, `passed` and `sent` are histories of the buffers that `alloc_buffer`
    has handed out, of those passed to `on_read`, and of what was written. No callback reads
    these three, nor `frees`. -/
structure State where
  mallocs : Nat
  frees : Block → Nat
  contents : Nat → Memory
  streams : Nat → Stream
  writes : Nat → Option write_req_t
  handed : List Nat
  passed : List Nat
  sent : List (Nat × List UInt8)

def malloc (s : State) : Nat × State :=
  (s.mallocs, { s with mallocs := s.mallocs + 1 })

def free (s : State) (block : Block) : State :=
  { s with frees := Function.update s.frees block (s.frees block + 1) }

def uv_close (s : State) (handle : Nat) : State :=
  { s with streams := Function.update s.streams handle .closing }

def uv_read_start (s : State) (client : Nat) : State :=
  { s with streams := Function.update s.streams client .reading }

/-- `uv_write`, which returns `res`. A request that it does not accept leads to no callback. -/
def uv_write (s : State) (req client : Nat) (buf : uv_buf_t) (res : Int) : State :=
  if res = 0 then
    { s with
      writes := Function.update s.writes req (some ⟨client, buf⟩)
      sent := s.sent ++ [(client, (s.contents buf.base).load 0 buf.len)] }
  else s

def free_write_req (s : State) (wreq : Nat) (req : write_req_t) : State :=
  free (free s (.buffer req.buf.base)) (.request wreq)

def alloc_buffer (s : State) (suggested_size : Nat) : uv_buf_t × State :=
  let (base, s) := malloc s
  (⟨base, suggested_size⟩, { s with handed := s.handed ++ [base] })

def on_close (s : State) (handle : Nat) : State :=
  free s (.client handle)

/-- An error is printed, and the request is freed all the same. -/
def after_write (s : State) (wreq : Nat) (req : write_req_t) : State :=
  free_write_req s wreq req

/-- `on_read`, in which `uv_write` returns `res`. The zero behind a message that fills the
    buffer is stored outside it. It is taken as harmless here: no other block changes. -/
def on_read (s : State) (client : Nat) (nread : Int) (buf : uv_buf_t) (res : Int) : State :=
  if nread > 0 then
    let s := { s with
      contents := Function.update s.contents buf.base
        ((s.contents buf.base).store nread.toNat [0]) }
    let (req, s) := malloc s
    uv_write s req client ⟨buf.base, nread.toNat⟩ res
  else if nread < 0 then uv_close s client
  else s

def prepare_client (s : State) (client : Nat) : State :=
  uv_read_start s client

/-- `on_new_connection`, in which `uv_accept` returns `res`. -/
def on_new_connection (s : State) (status res : Int) : State :=
  if status < 0 then s
  else
    let (client, s) := malloc s
    if res = 0 then prepare_client s client else uv_close s client

/-- The callbacks, with what libuv tells them and what its functions return in them. -/
inductive Label where
  | on_new_connection (status res : Int)
  | alloc_buffer (client suggested_size : Nat)
  | on_read (client : Nat) (nread : Int) (bytes : List UInt8) (res : Int)
  | after_write (req : Nat) (status : Int)
  | on_close (client : Nat)

/-- A callback, where libuv may make it. Between `alloc_buffer` and `on_read` it reads into
    the buffer: some bytes, none at all, or none because of an error or of the end. -/
def step (s : State) : Label → Option State
  | .on_new_connection status res => some (on_new_connection s status res)
  | .alloc_buffer client suggested_size =>
    match s.streams client with
    | .reading =>
      let (buf, s) := alloc_buffer s suggested_size
      some { s with streams := Function.update s.streams client (.allocated buf) }
    | _ => none
  | .on_read client nread bytes res =>
    match s.streams client with
    | .allocated buf =>
      if bytes.length = nread.toNat ∧ bytes.length ≤ buf.len then
        let s := { s with
          contents := Function.update s.contents buf.base ((s.contents buf.base).store 0 bytes)
          streams := Function.update s.streams client .reading
          passed := s.passed ++ [buf.base] }
        some (on_read s client nread buf res)
      else none
    | _ => none
  | .after_write req _ => do
    let wreq ← s.writes req
    some (after_write { s with writes := Function.update s.writes req none } req wreq)
  | .on_close client =>
    match s.streams client with
    | .closing => some (on_close { s with streams := Function.update s.streams client .closed } client)
    | _ => none

/-- The server when it enters `uv_run`. -/
def start (contents : Nat → Memory) : State where
  mallocs := 0
  frees _ := 0
  contents := contents
  streams _ := .unknown
  writes _ := none
  handed := []
  passed := []
  sent := []

end oslabs.uv
