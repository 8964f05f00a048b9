import OsLabs.Async.Message

open oslabs.memory

namespace oslabs.async

/-- A call on the descriptor of a connection, with the bytes that it returns or is given. -/
inductive Io where
  | accept (fd : Nat)
  | read (fd : Nat) (bytes : List UInt8)
  | write (fd : Nat) (bytes : List UInt8)
  | close (fd : Nat)
  deriving DecidableEq, Repr

/-- The bytes that have come from a client and gone to it. -/
structure Exchange where
  received : List UInt8
  sent : List UInt8
  deriving DecidableEq, Repr

/-- A call changes the exchange with the client of its descriptor. -/
def Exchange.after (fd : Nat) (e : Exchange) : Io → Exchange
  | .accept conn_fd => if conn_fd = fd then ⟨[], []⟩ else e
  | .read conn_fd bytes => if conn_fd = fd then { e with received := e.received ++ bytes } else e
  | .write conn_fd bytes => if conn_fd = fd then { e with sent := e.sent ++ bytes } else e
  | .close _ => e

/-- The exchange with the last client that a descriptor has had. -/
def exchange (fd : Nat) (calls : List Io) : Exchange :=
  calls.foldl (Exchange.after fd) ⟨[], []⟩

/-- Every client has been sent what has come from it. -/
def Balanced (calls : List Io) : Prop :=
  ∀ fd, (exchange fd calls).sent = (exchange fd calls).received

/-- Every client is sent what comes from it, as far as it is served and up to the time when
    its connection is closed. -/
structure Echoes (calls : List Io) : Prop where
  served : Balanced calls
  closed : ∀ before fd after, calls = before ++ .close fd :: after →
    (exchange fd before).sent = (exchange fd before).received

/-- The calls of a server that takes its clients in turn, with the places of `buf` it uses:
    what it reads it writes back before it does anything else. -/
inductive Turns : List Io → List (Nat × Nat) → Prop where
  | nil : Turns [] []
  | accept {calls log} {fd : Nat} (h : Turns calls log) : Turns (calls ++ [.accept fd]) log
  | close {calls log} {fd : Nat} (h : Turns calls log) : Turns (calls ++ [.close fd]) log
  | silent {calls log} {fd : Nat} (buf : Memory) (h : Turns calls log) :
      Turns (calls ++ [.read fd []]) (log ++ uses buf [])
  | echo {calls log} {fd : Nat} {bytes : List UInt8} (buf : Memory) (h : Turns calls log) :
      Turns (calls ++ [.read fd bytes, .write fd bytes]) (log ++ uses buf bytes)

variable {calls more : List Io} {log rest : List (Nat × Nat)} {fd : Nat} {data : List UInt8}

theorem Turns.append (h : Turns calls log) (hmore : Turns more rest) : Turns (calls ++ more) (log ++ rest) := by
  induction hmore with
  | nil => rwa [List.append_nil, List.append_nil]
  | accept _ ih => exact List.append_assoc calls _ _ ▸ ih.accept
  | close _ ih => exact List.append_assoc calls _ _ ▸ ih.close
  | silent buf _ ih =>
    rw [← List.append_assoc, ← List.append_assoc]
    exact ih.silent buf
  | echo buf _ ih =>
    rw [← List.append_assoc, ← List.append_assoc]
    exact ih.echo buf

@[simp] theorem exchange_append (fd : Nat) (calls more : List Io) :
    exchange fd (calls ++ more) = more.foldl (Exchange.after fd) (exchange fd calls) :=
  List.foldl_append

theorem Turns.balanced (h : Turns calls log) : Balanced calls := by
  induction h with
  | nil => exact fun fd => rfl
  | accept _ ih =>
    intro fd
    simp only [exchange_append, List.foldl_cons, List.foldl_nil, Exchange.after]
    split
    · rfl
    · exact ih fd
  | close _ ih => exact fun fd => by simpa [Exchange.after] using ih fd
  | silent _ _ ih => exact fun fd => by simpa [Exchange.after] using ih fd
  | echo _ _ ih =>
    intro fd
    simp only [exchange_append, List.foldl_cons, List.foldl_nil, Exchange.after]
    split
    · simp only [ih fd]
    · exact ih fd

/-- One more call closes a connection whose client has been sent everything, or none. -/
theorem Echoes.closed_snoc {call : Io} (h : ∀ before fd after, calls = before ++ .close fd :: after →
      (exchange fd before).sent = (exchange fd before).received)
    (hlast : ∀ fd, call = .close fd → (exchange fd calls).sent = (exchange fd calls).received)
    (before : List Io) (fd : Nat) (after : List Io) (hsplit : calls ++ [call] = before ++ .close fd :: after) :
    (exchange fd before).sent = (exchange fd before).received := by
  obtain rfl | ⟨after, last, rfl⟩ := List.eq_nil_or_concat after
  · obtain ⟨rfl, hcall⟩ := List.append_inj' hsplit rfl
    exact hlast fd (List.singleton_inj.1 hcall)
  · rw [List.concat_eq_append, ← List.cons_append, ← List.append_assoc] at hsplit
    obtain ⟨hbefore, _⟩ := List.append_inj' hsplit rfl
    exact h before fd after hbefore

theorem Turns.echoes (h : Turns calls log) : Echoes calls := by
  refine ⟨h.balanced, ?_⟩
  induction h with
  | nil => simp
  | accept _ ih => exact Echoes.closed_snoc ih fun fd hcall => by cases hcall
  | close hcalls ih => exact Echoes.closed_snoc ih fun fd _ => hcalls.balanced fd
  | silent _ _ ih => exact Echoes.closed_snoc ih fun fd hcall => by cases hcall
  | @echo calls _ conn_fd bytes _ _ ih =>
    have hread : ∀ before fd after, calls ++ [.read conn_fd bytes] = before ++ .close fd :: after →
        (exchange fd before).sent = (exchange fd before).received :=
      Echoes.closed_snoc ih fun fd hcall => by cases hcall
    intro before fd after hsplit
    rw [← List.singleton_append, ← List.append_assoc] at hsplit
    exact Echoes.closed_snoc hread (fun fd hcall => by cases hcall) before fd after hsplit

/-- A message takes its turn, whether the connection is closed after it or not. -/
theorem turns_message (buf : Memory) (fd : Nat) (data : List UInt8) (last : Prop) [Decidable last] :
    Turns (.read fd data :: ((if data.length > 0 then [.write fd data] else []) ++
      if last then [.close fd] else [])) (uses buf data) := by
  have hmessage : Turns (.read fd data :: if data.length > 0 then [.write fd data] else []) (uses buf data) := by
    split
    · exact Turns.nil.echo buf
    · have hnil : data = [] := List.length_eq_zero_iff.1 (by omega)
      rw [hnil]
      exact Turns.nil.silent buf
  rw [← List.cons_append]
  by_cases hlast : last
  · rw [if_pos hlast]
    exact hmessage.close
  · rwa [if_neg hlast, List.append_nil]

/-- All that a server has used of `buf` is inside it. -/
def Inside (log : List (Nat × Nat)) : Prop :=
  ∀ use ∈ log, use.1 + use.2 ≤ BUFSIZE

/-- No message fills the buffer. -/
def Short (calls : List Io) : Prop :=
  ∀ fd data, .read fd data ∈ calls → data.length < BUFSIZE

@[simp] theorem inside_append_iff : Inside (log ++ rest) ↔ Inside log ∧ Inside rest :=
  List.forall_mem_append

theorem short_append_iff : Short (calls ++ more) ↔ Short calls ∧ Short more := by
  simp only [Short, List.mem_append, or_imp, forall_and]

theorem Turns.inside_iff_short (h : Turns calls log) : Inside log ↔ Short calls := by
  induction h with
  | nil => simp [Inside, Short]
  | accept _ ih => simp [ih, Short]
  | close _ ih => simp [ih, Short]
  | silent buf _ ih =>
    rw [inside_append_iff, short_append_iff, ih]
    exact and_congr_right fun _ => (uses_inside_iff buf).trans (by simp [Short])
  | echo buf _ ih =>
    rw [inside_append_iff, short_append_iff, ih]
    exact and_congr_right fun _ => (uses_inside_iff buf).trans (by simp [Short])

/-- A server that takes its clients in turn echoes, and is within its buffer just when no
    message fills it. -/
theorem Turns.echoes_inside_iff_short (h : Turns calls log) : Echoes calls ∧ Inside log ↔ Short calls :=
  (and_iff_right h.echoes).trans h.inside_iff_short

end oslabs.async
