import OsLabs.Lib.Ledger
import OsLabs.Uv.Model

open oslabs.ledger oslabs.memory oslabs.run

namespace oslabs.uv

/-- Who is to dispose of a buffer: libuv, which has got it for a client, or a write request
    that is pending. -/
inductive Owner where
  | stream (client : Nat)
  | write (req : Nat)
  deriving DecidableEq

/-- Every buffer that `on_read` was given has been freed once, or else it belongs to exactly
    one pending write request. -/
def Owned (s : State) : Prop :=
  ∀ base ∈ s.passed,
    (s.frees (.buffer base) = 1 ∧ ∀ req wreq, s.writes req = some wreq → wreq.buf.base ≠ base) ∨
    (s.frees (.buffer base) = 0 ∧ ∃! req, ∃ wreq, s.writes req = some wreq ∧ wreq.buf.base = base)

/-- All connections are closed, and all writes have completed. -/
structure Quiescent (s : State) : Prop where
  closed : ∀ client, s.streams client = .unknown ∨ s.streams client = .closed
  completed : ∀ req, s.writes req = none

/-- No buffer is outstanding. -/
def NoneOutstanding (s : State) : Prop :=
  ∀ base ∈ s.handed, s.frees (.buffer base) = 1

/-- A call of `on_read` that hands its buffer on: it has read something, and `uv_write` accepts
    the request. -/
def HandsOn : Label → Prop
  | .on_read _ nread _ res => nread > 0 ∧ res = 0
  | _ => True

instance : ∀ label, Decidable (HandsOn label)
  | .on_read _ _ _ _ => inferInstanceAs (Decidable (_ ∧ _))
  | .on_new_connection _ _ | .alloc_buffer _ _ | .after_write _ _ | .on_close _ =>
    inferInstanceAs (Decidable True)

def Stream.base : Stream → Option Nat
  | .allocated buf => some buf.base
  | _ => none

/-- The buffer that an owner has. -/
def holds (streams : Nat → Stream) (writes : Nat → Option write_req_t) : Owner → Option Nat
  | .stream client => (streams client).base
  | .write req => (writes req).map fun wreq => wreq.buf.base

/-- The ledger says of each buffer what the server and libuv have of it. -/
structure Books (s : State) (stage : Nat → Stage Owner) : Prop where
  holding : Holding (holds s.streams s.writes) stage
  freed : ∀ base, stage base = .freed → s.frees (.buffer base) = 1
  kept : ∀ base, stage base ≠ .freed → s.frees (.buffer base) = 0
  handed : ∀ base, base ∈ s.handed ↔ stage base ≠ .fresh
  passed : ∀ base, base ∈ s.passed ↔ stage base ≠ .fresh ∧ ∀ client, stage base ≠ .held (.stream client)
  fresh : ∀ n, s.mallocs ≤ n → stage n = .fresh ∧ s.streams n = .unknown ∧ s.writes n = none

variable {s s' : State} {label : Label} {stage : Nat → Stage Owner} {base client req : Nat}
  {buf : uv_buf_t} {stream : Stream}

theorem Books.write_iff (h : Books s stage) :
    (∃ wreq, s.writes req = some wreq ∧ wreq.buf.base = base) ↔ stage base = .held (.write req) := by
  rw [← h.holding, holds, Option.map_eq_some_iff]

theorem Books.owned_iff (h : Books s stage) : Owned s ↔ ∀ base, stage base ≠ .lost := by
  simp only [Owned, h.passed, h.write_iff]
  have hnobody : ∀ base, (∀ req wreq, s.writes req = some wreq → wreq.buf.base ≠ base) ↔
      ∀ req, stage base ≠ .held (.write req) := by
    intro base
    simp only [ne_eq, ← h.write_iff, not_exists, not_and]
  simp only [hnobody]
  apply forall_congr'
  intro base
  cases hstage : stage base with
  | fresh => simp
  | held owner =>
    cases owner with
    | stream client => simp
    | write req => simp [h.kept base (by simp [hstage])]
  | freed => simp [h.freed base hstage]
  | lost => simp [h.kept base (by simp [hstage])]

theorem Books.noneOutstanding (h : Books s stage) (howned : Owned s) (hquiescent : Quiescent s) :
    NoneOutstanding s := by
  intro base hhanded
  have hnobody : ∀ owner, stage base ≠ .held owner := by
    intro owner
    rw [ne_eq, ← h.holding]
    cases owner with
    | stream client =>
      rcases hquiescent.closed client with hclosed | hclosed
      · simp [holds, hclosed, Stream.base]
      · simp [holds, hclosed, Stream.base]
    | write req => simp [holds, hquiescent.completed req]
  apply h.freed
  cases hstage : stage base with
  | fresh => exact absurd hstage ((h.handed base).1 hhanded)
  | held owner => exact absurd hstage (hnobody owner)
  | freed => rfl
  | lost => exact absurd hstage (h.owned_iff.1 howned base)

/-- What a callback does to the ledger. -/
def moves (s : State) : Label → List (Move Nat Owner)
  | .alloc_buffer client _ => [.acquire s.mallocs (.stream client)]
  | .on_read client nread _ res =>
    match s.streams client with
    | .allocated buf => if nread > 0 ∧ res = 0 then [.pass buf.base (.write s.mallocs)] else [.drop buf.base]
    | _ => []
  | .after_write req _ => (s.writes req).toList.map fun wreq => .free wreq.buf.base
  | .on_new_connection _ _ | .on_close _ => []

theorem holds_update_stream (streams : Nat → Stream) (writes : Nat → Option write_req_t) (client : Nat)
    (stream : Stream) : holds (Function.update streams client stream) writes =
      Function.update (holds streams writes) (.stream client) stream.base := by
  funext owner
  cases owner with
  | stream other =>
    by_cases hother : other = client
    · simp [holds, hother]
    · simp [holds, hother]
  | write req => simp [holds]

theorem holds_update_write (streams : Nat → Stream) (writes : Nat → Option write_req_t) (req : Nat)
    (wreq : Option write_req_t) : holds streams (Function.update writes req wreq) =
      Function.update (holds streams writes) (.write req) (wreq.map fun wreq => wreq.buf.base) := by
  funext owner
  cases owner with
  | stream client => simp [holds]
  | write other =>
    by_cases hother : other = req
    · simp [holds, hother]
    · simp [holds, hother]

/-- What is known of a client is less than what has been allocated. -/
theorem Books.client_lt (h : Books s stage) (hclient : s.streams client ≠ .unknown) : client < s.mallocs := by
  by_contra hlarge
  exact hclient (h.fresh client (Nat.le_of_not_lt hlarge)).2.1

/-- A client that has no buffer stays without one. -/
theorem Books.restream (h : Books s stage) (hstreams : s'.streams = Function.update s.streams client stream)
    (hbase : (s.streams client).base = none) (hstream : stream.base = none)
    (hclient : client < s'.mallocs) (hmallocs : s.mallocs ≤ s'.mallocs)
    (hfrees : ∀ base, s'.frees (.buffer base) = s.frees (.buffer base))
    (hwrites : s'.writes = s.writes := by rfl) (hhanded : s'.handed = s.handed := by rfl)
    (hpassed : s'.passed = s.passed := by rfl) : Books s' stage where
  holding := by
    have hsame : (none : Option Nat) = holds s.streams s.writes (.stream client) := hbase.symm
    rw [hstreams, hwrites, holds_update_stream, hstream, hsame, Function.update_eq_self]
    exact h.holding
  freed base hbase := (hfrees base).trans (h.freed base hbase)
  kept base hbase := (hfrees base).trans (h.kept base hbase)
  handed := by
    rw [hhanded]
    exact h.handed
  passed := by
    rw [hpassed]
    exact h.passed
  fresh n hn := by
    obtain ⟨hstage, hnone, hwrite⟩ := h.fresh n (by omega)
    rw [hstreams, hwrites, Function.update_of_ne (by omega)]
    exact ⟨hstage, hnone, hwrite⟩

/-- `alloc_buffer` allocates a buffer for a client that is to read. -/
theorem Books.alloc_buffer (h : Books s stage) (hreading : s.streams client = .reading) (len : Nat) :
    Books { s with
        mallocs := s.mallocs + 1
        streams := Function.update s.streams client (.allocated ⟨s.mallocs, len⟩)
        handed := s.handed ++ [s.mallocs] }
      (Function.update stage s.mallocs (.held (.stream client))) := by
  obtain ⟨hfresh, _, _⟩ := h.fresh s.mallocs (Nat.le_refl _)
  have hclient : client < s.mallocs := h.client_lt (by simp [hreading])
  have hkept := h.kept s.mallocs (by simp [hfresh])
  refine ⟨?_, ?_, ?_, ?_, ?_, ?_⟩
  · have hnone : holds s.streams s.writes (.stream client) = none := by simp [holds, hreading, Stream.base]
    rw [holds_update_stream]
    exact h.holding.acquire hfresh hnone
  · intro base hfreed
    by_cases hbase : base = s.mallocs
    · simp [hbase] at hfreed
    · exact h.freed base (by simpa [hbase] using hfreed)
  · intro base hfreed
    by_cases hbase : base = s.mallocs
    · simpa [hbase] using hkept
    · exact h.kept base (by simpa [hbase] using hfreed)
  · intro base
    by_cases hbase : base = s.mallocs
    · simp [hbase]
    · simp [hbase, h.handed base]
  · intro base
    by_cases hbase : base = s.mallocs
    · simp [hbase, h.passed, hfresh]
    · simp [hbase, h.passed]
  · intro n hn
    have hlarge : s.mallocs + 1 ≤ n := hn
    obtain ⟨hstage, hunknown, hwrite⟩ := h.fresh n (by omega)
    refine ⟨?_, ?_, hwrite⟩
    · rw [Function.update_of_ne (by omega)]
      exact hstage
    · show Function.update s.streams client _ n = _
      rw [Function.update_of_ne (by omega)]
      exact hunknown

/-- `on_read` disposes of the buffer of a client, which goes to another owner or is lost. -/
theorem Books.on_read {after : Stage Owner} (h : Books s stage)
    (hallocated : s.streams client = .allocated buf)
    (hafter : after = .lost ∨ ∃ req, after = .held (.write req))
    (hholding : Holding (holds s'.streams s'.writes) (Function.update stage buf.base after))
    (hmallocs : s.mallocs ≤ s'.mallocs) (hpassed : s'.passed = s.passed ++ [buf.base])
    (hstreams : ∀ n, s'.mallocs ≤ n → s'.streams n = s.streams n)
    (hwrites : ∀ n, s'.mallocs ≤ n → s'.writes n = s.writes n)
    (hfrees : s'.frees = s.frees := by rfl) (hhanded : s'.handed = s.handed := by rfl) :
    Books s' (Function.update stage buf.base after) := by
  have hheld : stage buf.base = .held (.stream client) :=
    (h.holding _ _).1 (by simp [holds, hallocated, Stream.base])
  have hlt : buf.base < s.mallocs := by
    by_contra hlarge
    simp [(h.fresh _ (Nat.le_of_not_lt hlarge)).1] at hheld
  refine ⟨hholding, ?_, ?_, ?_, ?_, ?_⟩
  · intro base hfreed
    rw [hfrees]
    by_cases hbase : base = buf.base
    · rcases hafter with rfl | ⟨req, rfl⟩ <;> simp [hbase] at hfreed
    · exact h.freed base (by simpa [hbase] using hfreed)
  · intro base hfreed
    rw [hfrees]
    by_cases hbase : base = buf.base
    · exact h.kept base (by simp [hbase, hheld])
    · exact h.kept base (by simpa [hbase] using hfreed)
  · intro base
    rw [hhanded, h.handed]
    by_cases hbase : base = buf.base
    · rcases hafter with rfl | ⟨req, rfl⟩ <;> simp [hbase, hheld]
    · simp [hbase]
  · intro base
    rw [hpassed, List.mem_append, h.passed]
    by_cases hbase : base = buf.base
    · rcases hafter with rfl | ⟨req, rfl⟩ <;> simp [hbase]
    · simp [hbase]
  · intro n hn
    obtain ⟨hstage, hunknown, hwrite⟩ := h.fresh n (by omega)
    rw [Function.update_of_ne (by omega), hstreams n hn, hwrites n hn]
    exact ⟨hstage, hunknown, hwrite⟩

/-- `after_write` frees the buffer of its request. -/
theorem Books.after_write {wreq : write_req_t} (h : Books s stage) (hpending : s.writes req = some wreq) :
    Books (after_write { s with writes := Function.update s.writes req none } req wreq)
      (Function.update stage wreq.buf.base .freed) := by
  have hheld : stage wreq.buf.base = .held (.write req) := h.write_iff.1 ⟨wreq, hpending, rfl⟩
  have hlt : wreq.buf.base < s.mallocs := by
    by_contra hlarge
    simp [(h.fresh _ (Nat.le_of_not_lt hlarge)).1] at hheld
  have hkept := h.kept wreq.buf.base (by simp [hheld])
  have hfrees : ∀ base, (uv.after_write { s with writes := Function.update s.writes req none } req wreq).frees
      (.buffer base) = s.frees (.buffer base) + if base = wreq.buf.base then 1 else 0 := by
    intro base
    by_cases hbase : base = wreq.buf.base
    · simp [uv.after_write, free_write_req, free, hbase]
    · simp [uv.after_write, free_write_req, free, hbase]
  refine ⟨?_, ?_, ?_, ?_, ?_, ?_⟩
  · show Holding (holds s.streams (Function.update s.writes req none)) _
    rw [holds_update_write]
    exact h.holding.dispose (by simp [holds, hpending]) (by simp)
  · intro base hfreed
    rw [hfrees]
    by_cases hbase : base = wreq.buf.base
    · simp [hbase, hkept]
    · simpa [hbase] using h.freed base (by simpa [hbase] using hfreed)
  · intro base hfreed
    rw [hfrees]
    by_cases hbase : base = wreq.buf.base
    · simp [hbase] at hfreed
    · simpa [hbase] using h.kept base (by simpa [hbase] using hfreed)
  · intro base
    show base ∈ s.handed ↔ _
    rw [h.handed]
    by_cases hbase : base = wreq.buf.base
    · simp [hbase, hheld]
    · simp [hbase]
  · intro base
    show base ∈ s.passed ↔ _
    rw [h.passed]
    by_cases hbase : base = wreq.buf.base
    · simp [hbase, hheld]
    · simp [hbase]
  · intro n hn
    obtain ⟨hstage, hunknown, hwrite⟩ := h.fresh n hn
    have hreq : req < s.mallocs := by
      by_contra hlarge
      simp [(h.fresh _ (Nat.le_of_not_lt hlarge)).2.2] at hpending
    have hn : s.mallocs ≤ n := hn
    refine ⟨?_, hunknown, ?_⟩
    · rw [Function.update_of_ne (by omega)]
      exact hstage
    · show Function.update s.writes req none n = none
      rw [Function.update_of_ne (by omega)]
      exact hwrite

/-- A buffer that is not handed on is lost: `on_read` leaves other buffers than its own alone,
    and the requests, and changes what libuv is to do for the client. -/
theorem on_read_dropped {nread res : Int} (buf : uv_buf_t) (hreading : s.streams client = .reading)
    (hnot : ¬ (nread > 0 ∧ res = 0)) : ∃ mallocs contents stream, s.mallocs ≤ mallocs ∧
      (∀ base, base ≠ buf.base → contents base = s.contents base) ∧
      (stream = .reading ∨ stream = .closing) ∧
      on_read s client nread buf res = { s with
        mallocs
        contents
        streams := Function.update s.streams client stream } := by
  have hsame : Function.update s.streams client .reading = s.streams := by
    rw [← hreading, Function.update_eq_self]
  unfold on_read
  split
  · rename_i hpos
    have hres : res ≠ 0 := fun hzero => hnot ⟨hpos, hzero⟩
    simp only [malloc, uv_write, if_neg hres]
    refine ⟨_, _, .reading, Nat.le_succ _, fun base hbase => ?_, .inl rfl, by rw [hsame]⟩
    rw [Function.update_of_ne hbase]
  · split
    · exact ⟨_, _, .closing, Nat.le_refl _, fun _ _ => rfl, .inr rfl, rfl⟩
    · exact ⟨s.mallocs, s.contents, .reading, Nat.le_refl _, fun _ _ => rfl, .inl rfl, by rw [hsame]⟩

section Callbacks

theorem Books.on_new_connection (h : Books s stage) (status res : Int) :
    Books (on_new_connection s status res) stage := by
  obtain ⟨_, hunknown, _⟩ := h.fresh s.mallocs (Nat.le_refl _)
  have hbase : (s.streams s.mallocs).base = none := by
    rw [hunknown]
    rfl
  unfold uv.on_new_connection
  split
  · exact h
  · simp only [malloc]
    split
    · exact h.restream rfl hbase rfl (Nat.lt_succ_self _) (Nat.le_succ _) fun _ => rfl
    · exact h.restream rfl hbase rfl (Nat.lt_succ_self _) (Nat.le_succ _) fun _ => rfl

/-- A message takes its buffer with it to the write request. -/
theorem Books.on_read_written {nread : Int} (h : Books s stage) (hallocated : s.streams client = .allocated buf)
    (hpos : nread > 0) (contents : Nat → Memory) :
    Books (uv.on_read { s with
      contents
      streams := Function.update s.streams client .reading
      passed := s.passed ++ [buf.base] } client nread buf 0)
        (Function.update stage buf.base (.held (.write s.mallocs))) := by
  have hhas : holds s.streams s.writes (.stream client) = some buf.base := by
    simp [holds, hallocated, Stream.base]
  have hclient : client < s.mallocs := h.client_lt (by simp [hallocated])
  obtain ⟨_, _, hnew⟩ := h.fresh s.mallocs (Nat.le_refl _)
  have hnone : holds s.streams s.writes (.write s.mallocs) = none := by simp [holds, hnew]
  simp only [uv.on_read, if_pos hpos, malloc, uv_write, if_true]
  apply h.on_read hallocated (.inr ⟨_, rfl⟩)
  · dsimp only
    rw [holds_update_write, holds_update_stream]
    exact h.holding.pass hhas hnone
  · exact Nat.le_succ _
  · rfl
  · intro n hn
    have hlarge : s.mallocs + 1 ≤ n := hn
    exact Function.update_of_ne (by omega) _ _
  · intro n hn
    have hlarge : s.mallocs + 1 ≤ n := hn
    exact Function.update_of_ne (by omega) _ _

/-- At the end of the stream, and when a write fails, nobody has the buffer any more. -/
theorem Books.on_read_lost {nread res : Int} (h : Books s stage) (hallocated : s.streams client = .allocated buf)
    (hnot : ¬ (nread > 0 ∧ res = 0)) (contents : Nat → Memory) :
    Books (uv.on_read { s with
      contents
      streams := Function.update s.streams client .reading
      passed := s.passed ++ [buf.base] } client nread buf res) (Function.update stage buf.base .lost) := by
  have hhas : holds s.streams s.writes (.stream client) = some buf.base := by
    simp [holds, hallocated, Stream.base]
  have hclient : client < s.mallocs := h.client_lt (by simp [hallocated])
  obtain ⟨mallocs, contents, stream, hmallocs, _, hstream, heq⟩ := on_read_dropped buf
    (s := { s with
      contents
      streams := Function.update s.streams client .reading
      passed := s.passed ++ [buf.base] }) (Function.update_self client .reading s.streams) hnot
  have hbase : stream.base = none := by
    rcases hstream with rfl | rfl
    · rfl
    · rfl
  dsimp only at heq hmallocs
  rw [heq]
  apply h.on_read hallocated (.inl rfl) _ hmallocs rfl
  · intro n hn
    have hlarge : mallocs ≤ n := hn
    rw [Function.update_idem]
    exact Function.update_of_ne (by omega) _ _
  · intro n hn
    rfl
  · dsimp only
    rw [Function.update_idem, holds_update_stream, hbase]
    exact h.holding.dispose hhas fun _ => by simp

theorem Books.on_close (h : Books s stage) (hclosing : s.streams client = .closing) :
    Books (on_close { s with streams := Function.update s.streams client .closed } client) stage := by
  have hbase : (s.streams client).base = none := by simp [hclosing, Stream.base]
  exact h.restream rfl hbase rfl (h.client_lt (by simp [hclosing])) (Nat.le_refl _) fun _ => by
    simp [uv.on_close, free]

end Callbacks

/-- Every callback keeps the books, with the moves it makes. -/
theorem Books.step (h : Books s stage) (hstep : step s label = some s') :
    ∃ stage', Run Book stage (moves s label) stage' ∧ Books s' stage' := by
  cases label with
  | on_new_connection status res =>
    obtain rfl := Option.some.inj hstep
    exact ⟨stage, .nil, h.on_new_connection status res⟩
  | alloc_buffer client len =>
    simp only [uv.step] at hstep
    split at hstep
    · rename_i hreading
      obtain rfl := Option.some.inj hstep
      obtain ⟨hfresh, _, _⟩ := h.fresh s.mallocs (Nat.le_refl _)
      exact ⟨_, .snoc .nil (.acquire hfresh), h.alloc_buffer hreading len⟩
    · cases hstep
  | on_read client nread bytes res =>
    simp only [uv.step] at hstep
    split at hstep
    · rename_i buf hallocated
      obtain ⟨_, hread⟩ := Option.ite_none_right_eq_some.1 hstep
      obtain rfl := Option.some.inj hread
      have hheld : stage buf.base = .held (.stream client) :=
        (h.holding _ _).1 (by simp [holds, hallocated, Stream.base])
      simp only [moves, hallocated]
      by_cases hgood : nread > 0 ∧ res = 0
      · obtain ⟨hpos, rfl⟩ := hgood
        rw [if_pos ⟨hpos, rfl⟩]
        exact ⟨_, .snoc .nil (.pass hheld), h.on_read_written hallocated hpos _⟩
      · rw [if_neg hgood]
        exact ⟨_, .snoc .nil (.drop hheld), h.on_read_lost hallocated hgood _⟩
    · cases hstep
  | after_write req status =>
    simp only [uv.step] at hstep
    obtain ⟨wreq, hpending, hafter⟩ := Option.bind_eq_some_iff.1 hstep
    obtain rfl := Option.some.inj hafter
    simp only [moves, hpending]
    have hheld : stage wreq.buf.base = .held (.write req) := h.write_iff.1 ⟨wreq, hpending, rfl⟩
    exact ⟨_, .snoc .nil (.free hheld), h.after_write hpending⟩
  | on_close client =>
    simp only [uv.step] at hstep
    split at hstep
    · rename_i hclosing
      obtain rfl := Option.some.inj hstep
      exact ⟨stage, .nil, h.on_close hclosing⟩
    · cases hstep

/-- A callback loses a buffer unless it hands it on. -/
theorem drop_notMem_moves_iff (hstep : step s label = some s') :
    (∀ base, .drop base ∉ moves s label) ↔ HandsOn label := by
  cases label with
  | on_new_connection _ _ | on_close _ | alloc_buffer _ _ => simp [moves, HandsOn]
  | after_write req _ => simp [moves, HandsOn]
  | on_read client nread bytes res =>
    simp only [step] at hstep
    split at hstep
    · rename_i hallocated
      by_cases hgood : nread > 0 ∧ res = 0
      · simp [moves, hallocated, HandsOn, hgood]
      · simp [moves, hallocated, HandsOn, hgood]
    · cases hstep

/-- The buffers that are lost in a run are the ones that some call of `on_read` does not hand
    on. -/
theorem Books.run {labels : List Label} (h : Books s stage) (hrun : Run (StepOf uv.step) s labels s') :
    ∃ moves last, Run Book stage moves last ∧ Books s' last ∧
      ((∀ base, .drop base ∉ moves) ↔ ∀ label ∈ labels, HandsOn label) := by
  induction hrun with
  | nil => exact ⟨[], stage, .nil, h, by simp⟩
  | snoc _ hstep ih =>
    obtain ⟨moves, middle, hmoves, hmiddle, hiff⟩ := ih
    obtain ⟨last, hmore, hlast⟩ := hmiddle.step hstep
    refine ⟨_, last, hmoves.append hmore, hlast, ?_⟩
    simp only [List.mem_append, not_or, forall_and, hiff, drop_notMem_moves_iff hstep]
    simp [or_imp, forall_and]

theorem books_start (contents : Nat → Memory) : Books (start contents) fun _ => .fresh where
  holding owner base := by
    cases owner with
    | stream client => simp [holds, start, Stream.base]
    | write req => simp [holds, start]
  freed base hbase := by simp at hbase
  kept base hbase := rfl
  handed base := by simp [start]
  passed base := by simp [start]
  fresh n hn := ⟨rfl, rfl, rfl⟩

/-- In a run, every buffer that `on_read` was given has been freed once or belongs to one
    pending request, and none is outstanding when the server is idle, if and only if every
    call of `on_read` has read something and handed it to `uv_write`. -/
theorem owned_iff_handsOn (contents : Nat → Memory) {s : State} {labels : List Label}
    (hrun : Run (StepOf step) (start contents) labels s) :
    (Owned s ∧ (Quiescent s → NoneOutstanding s)) ↔ ∀ label ∈ labels, HandsOn label := by
  obtain ⟨moves, last, hmoves, hlast, hiff⟩ := (books_start contents).run hrun
  have howned : Owned s ↔ ∀ base, .drop base ∉ moves := by
    rw [hlast.owned_iff]
    apply forall_congr'
    intro base
    rw [ne_eq, lost_iff_of_run hmoves]
    simp
  rw [← hiff, ← howned]
  exact and_iff_left_of_imp hlast.noneOutstanding

/-- A client sends two bytes, which are sent back. -/
def echoed : List Label :=
  [.on_new_connection 0 0, .alloc_buffer 0 64, .on_read 0 2 [104, 105] 0, .after_write 2 0]

theorem owned_iff_handsOn_echoed :
    ∃ s, Run (StepOf step) (start fun _ _ => 0) echoed s ∧ s.passed = [1] ∧ Owned s := by
  obtain ⟨s, hexec⟩ : ∃ s, exec step (start fun _ _ => 0) echoed = some s := ⟨_, rfl⟩
  have hrun := run_stepOf_iff.2 hexec
  refine ⟨s, hrun, ?_, ((owned_iff_handsOn _ hrun).2 (by decide)).1⟩
  rw [← Option.some.inj hexec]
  rfl

/-- A client closes its connection at once. -/
def eof : List Label :=
  [.on_new_connection 0 0, .alloc_buffer 0 64, .on_read 0 (-4095) [] 0, .on_close 0]

/-- The buffer of the end-of-file is never freed: the server is idle, with a buffer that it has
    lost. -/
theorem eof_leaks_buffer :
    ∃ s, Run (StepOf step) (start fun _ _ => 0) eof s ∧
      Quiescent s ∧ ¬ Owned s ∧ ¬ NoneOutstanding s := by
  refine ⟨_, run_stepOf_iff.2 rfl, ⟨?_, fun _ => rfl⟩, ?_, ?_⟩
  · intro client
    by_cases hclient : client = 0
    · right
      rw [hclient]
      rfl
    · left
      simp [on_close, free, on_read, uv_close, malloc, start, on_new_connection,
        prepare_client, uv_read_start, hclient]
  · intro howned
    rcases howned 1 (List.mem_singleton_self 1) with ⟨hfreed, _⟩ | ⟨_, req, ⟨wreq, hpending, _⟩, _⟩
    · exact absurd hfreed (by decide)
    · cases hpending
  · intro hnone
    exact absurd (hnone 1 (List.mem_singleton_self 1)) (by decide)

end oslabs.uv
