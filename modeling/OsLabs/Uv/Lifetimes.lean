import OsLabs.Uv.Ownership

open oslabs.ledger oslabs.memory oslabs.run

namespace oslabs.uv

/-- The blocks that libuv or the callback use in a call. A block that is allocated in it is not
    among them. -/
def touches (s : State) : Label → List Block
  | .on_new_connection _ _ => []
  | .alloc_buffer client _ | .on_close client => [.client client]
  | .on_read client _ _ _ => .client client :: (s.streams client).base.toList.map .buffer
  | .after_write req _ => .request req :: (s.writes req).toList.map fun wreq => .buffer wreq.buf.base

/-- No block is freed before a call that uses it. -/
def InUse (s : State) (label : Label) : Prop :=
  ∀ block ∈ touches s label, s.frees block = 0

/-- The places of its buffer that `on_read` uses: the message, and the zero behind it. -/
def places (nread : Int) : List Nat :=
  if nread > 0 then List.range (nread.toNat + 1) else []

/-- A callback stays within its buffer. -/
def Inside (s : State) : Label → Prop
  | .on_read client nread _ _ =>
    ∀ buf, s.streams client = .allocated buf → ∀ i ∈ places nread, i < buf.len
  | _ => True

/-- libuv leaves room in the buffer for the zero. -/
def LeavesRoom (s : State) : Label → Prop
  | .on_read client _ bytes _ => ∀ buf, s.streams client = .allocated buf → bytes.length < buf.len
  | _ => True

/-- A callback, where no message fills its buffer. -/
def Roomy (s : State) (label : Label) (s' : State) : Prop :=
  StepOf step s label s' ∧ LeavesRoom s label

/-- How often the blocks of clients and of requests have been freed. -/
structure Lifetimes (s : State) : Prop where
  client : ∀ client, s.frees (.client client) = if s.streams client = .closed then 1 else 0
  pending : ∀ req wreq, s.writes req = some wreq → s.frees (.request req) = 0
  fresh : ∀ req, s.mallocs ≤ req → s.frees (.request req) = 0
  once : ∀ req, s.frees (.request req) ≤ 1

variable {s s' : State} {label : Label} {stage : Nat → Stage Owner} {client req : Nat} {buf : uv_buf_t}
  {stream : Stream} {bytes : List UInt8} {nread : Int}

/-- A message is handed to `uv_write`, which accepts the request. -/
theorem on_read_written (hpos : nread > 0) : on_read s client nread buf 0 = { s with
    mallocs := s.mallocs + 1
    contents := Function.update s.contents buf.base ((s.contents buf.base).store nread.toNat [0])
    writes := Function.update s.writes s.mallocs (some ⟨client, ⟨buf.base, nread.toNat⟩⟩)
    sent := s.sent ++ [(client, ((s.contents buf.base).store nread.toNat [0]).load 0 nread.toNat)] } := by
  simp only [on_read, if_pos hpos, malloc, uv_write, if_true, Function.update_self]

/-- The zero behind a message does not change it. -/
theorem load_terminated (m : Memory) (hlength : bytes.length = nread.toNat) :
    ((m.store 0 bytes).store nread.toNat [0]).load 0 nread.toNat = bytes := by
  rw [Memory.load_store_of_disjoint _ (.inl (by omega)), ← hlength, Memory.load_store_self]

/-- What a callback does, case by case. The contents of other buffers than the one that it is
    called with stay as they are. -/
inductive Call (s : State) : Label → State → Prop where
  | refuse {status res : Int} : Call s (.on_new_connection status res) s
  | connect {status res : Int} {stream : Stream} (hstream : stream = .reading ∨ stream = .closing) :
      Call s (.on_new_connection status res) { s with
        mallocs := s.mallocs + 1
        streams := Function.update s.streams s.mallocs stream }
  | allocate {client len : Nat} (hreading : s.streams client = .reading) :
      Call s (.alloc_buffer client len) { s with
        mallocs := s.mallocs + 1
        streams := Function.update s.streams client (.allocated ⟨s.mallocs, len⟩)
        handed := s.handed ++ [s.mallocs] }
  | write {client : Nat} {buf : uv_buf_t} {nread : Int} {bytes : List UInt8} {contents : Nat → Memory}
      (hallocated : s.streams client = .allocated buf) (hpos : nread > 0)
      (hmessage : (contents buf.base).load 0 nread.toNat = bytes)
      (hothers : ∀ base, base ≠ buf.base → contents base = s.contents base) :
      Call s (.on_read client nread bytes 0) { s with
        mallocs := s.mallocs + 1
        contents
        streams := Function.update s.streams client .reading
        writes := Function.update s.writes s.mallocs (some ⟨client, ⟨buf.base, nread.toNat⟩⟩)
        passed := s.passed ++ [buf.base]
        sent := s.sent ++ [(client, bytes)] }
  | lose {client mallocs : Nat} {buf : uv_buf_t} {nread res : Int} {bytes : List UInt8}
      {contents : Nat → Memory} {stream : Stream} (hallocated : s.streams client = .allocated buf)
      (hnot : ¬ (nread > 0 ∧ res = 0))
      (hmallocs : s.mallocs ≤ mallocs)
      (hothers : ∀ base, base ≠ buf.base → contents base = s.contents base)
      (hstream : stream = .reading ∨ stream = .closing) :
      Call s (.on_read client nread bytes res) { s with
        mallocs
        contents
        streams := Function.update s.streams client stream
        passed := s.passed ++ [buf.base] }
  | complete {req : Nat} {status : Int} {wreq : write_req_t} (hpending : s.writes req = some wreq) :
      Call s (.after_write req status)
        (after_write { s with writes := Function.update s.writes req none } req wreq)
  | close {client : Nat} (hclosing : s.streams client = .closing) :
      Call s (.on_close client)
        (on_close { s with streams := Function.update s.streams client .closed } client)

theorem call_of_step (hstep : step s label = some s') : Call s label s' := by
  cases label with
  | on_new_connection status res =>
    obtain rfl := Option.some.inj hstep
    unfold on_new_connection
    split
    · exact .refuse
    · simp only [malloc]
      split
      · exact .connect (.inl rfl)
      · exact .connect (.inr rfl)
  | alloc_buffer client len =>
    simp only [step] at hstep
    split at hstep
    · obtain rfl := Option.some.inj hstep
      exact .allocate ‹_›
    · cases hstep
  | on_read client nread bytes res =>
    simp only [step] at hstep
    split at hstep
    · rename_i buf hallocated
      obtain ⟨⟨hlength, _⟩, hread⟩ := Option.ite_none_right_eq_some.1 hstep
      obtain rfl := Option.some.inj hread
      by_cases hgood : nread > 0 ∧ res = 0
      · obtain ⟨hpos, rfl⟩ := hgood
        rw [on_read_written hpos]
        simp only [Function.update_self, load_terminated _ hlength, Function.update_idem]
        refine .write hallocated hpos ?_ fun base hbase => Function.update_of_ne hbase ..
        rw [Function.update_self, load_terminated _ hlength]
      · obtain ⟨mallocs, contents, stream, hmallocs, hothers, hstream, heq⟩ := on_read_dropped buf
          (s := { s with
            contents := Function.update s.contents buf.base ((s.contents buf.base).store 0 bytes)
            streams := Function.update s.streams client .reading
            passed := s.passed ++ [buf.base] }) (Function.update_self client .reading s.streams) hgood
        rw [heq]
        simp only [Function.update_idem]
        refine .lose hallocated hgood hmallocs (fun base hbase => ?_) hstream
        exact (hothers base hbase).trans (Function.update_of_ne hbase ..)
    · cases hstep
  | after_write req status =>
    simp only [step] at hstep
    obtain ⟨wreq, hpending, hafter⟩ := Option.bind_eq_some_iff.1 hstep
    obtain rfl := Option.some.inj hafter
    exact .complete hpending
  | on_close client =>
    simp only [step] at hstep
    split at hstep
    · obtain rfl := Option.some.inj hstep
      exact .close ‹_›
    · cases hstep

theorem ne_closed (hstream : stream = .reading ∨ stream = .closing) : stream ≠ .closed := by
  rintro rfl
  simp at hstream

/-- A client that was not closed and is not. -/
theorem Lifetimes.restream (h : Lifetimes s) (hstreams : s'.streams = Function.update s.streams client stream)
    (hopen : s.streams client ≠ .closed) (hstream : stream ≠ .closed) (hmallocs : s.mallocs ≤ s'.mallocs)
    (hwrites : ∀ req wreq, s'.writes req = some wreq → s.writes req = some wreq ∨ s.mallocs ≤ req)
    (hfrees : s'.frees = s.frees := by rfl) : Lifetimes s' where
  client other := by
    rw [hfrees, hstreams, h.client]
    by_cases hother : other = client
    · simp [hother, hopen, hstream]
    · simp [hother]
  pending req wreq hreq := by
    rw [hfrees]
    obtain hold | hnew := hwrites req wreq hreq
    · exact h.pending req wreq hold
    · exact h.fresh req hnew
  fresh req hreq := by
    rw [hfrees]
    exact h.fresh req (Nat.le_trans hmallocs hreq)
  once req := by
    rw [hfrees]
    exact h.once req

theorem Lifetimes.call (h : Lifetimes s) (hbooks : Books s stage) (hcall : Call s label s') :
    Lifetimes s' := by
  cases hcall with
  | refuse => exact h
  | connect hstream =>
    obtain ⟨_, hunknown, _⟩ := hbooks.fresh s.mallocs (Nat.le_refl _)
    exact h.restream rfl (by simp [hunknown]) (ne_closed hstream) (Nat.le_succ _) fun _ _ hreq => .inl hreq
  | allocate hreading =>
    exact h.restream rfl (by simp [hreading]) (by simp) (Nat.le_succ _) fun _ _ hreq => .inl hreq
  | write hallocated hpos hmessage hothers =>
    refine h.restream rfl (by simp [hallocated]) (by simp) (Nat.le_succ _) fun req wreq hreq => ?_
    by_cases hnew : req = s.mallocs
    · exact .inr (Nat.le_of_eq hnew.symm)
    · exact .inl ((Function.update_of_ne hnew ..).symm.trans hreq)
  | lose hallocated hnot hmallocs hothers hstream =>
    exact h.restream rfl (by simp [hallocated]) (ne_closed hstream) hmallocs fun _ _ hreq => .inl hreq
  | @complete req status wreq hpending =>
    refine ⟨?_, ?_, ?_, ?_⟩
    · intro client
      simpa [after_write, free_write_req, free] using h.client client
    · intro other wreq' hother
      have hne : other ≠ req := by
        rintro rfl
        simp [after_write, free_write_req, free] at hother
      have hold : s.writes other = some wreq' := by
        simpa [after_write, free_write_req, free, hne] using hother
      simpa [after_write, free_write_req, free, hne] using h.pending other wreq' hold
    · intro other hother
      have hne : other ≠ req := by
        rintro rfl
        have hnone := (hbooks.fresh other hother).2.2
        rw [hpending] at hnone
        cases hnone
      simpa [after_write, free_write_req, free, hne] using h.fresh other hother
    · intro other
      by_cases hother : other = req
      · subst hother
        simp [after_write, free_write_req, free, h.pending other wreq hpending]
      · simpa [after_write, free_write_req, free, hother] using h.once other
  | @close client hclosing =>
    refine ⟨?_, ?_, ?_, ?_⟩
    · intro other
      by_cases hother : other = client
      · simp [on_close, free, hother, h.client, hclosing]
      · simp [on_close, free, hother, h.client]
    · simpa [on_close, free] using h.pending
    · simpa [on_close, free] using h.fresh
    · simpa [on_close, free] using h.once

theorem lifetimes_start (contents : Nat → Memory) : Lifetimes (start contents) where
  client _ := rfl
  pending _ _ hreq := by cases hreq
  fresh _ _ := rfl
  once _ := Nat.zero_le _

/-- What has an owner has not been freed. -/
theorem Books.frees_of_held {owner : Owner} {base : Nat} (h : Books s stage)
    (hheld : stage base = .held owner) :
    s.frees (.buffer base) = 0 :=
  h.kept base (by simp [hheld])

theorem Books.frees_le (h : Books s stage) (base : Nat) : s.frees (.buffer base) ≤ 1 := by
  by_cases hfreed : stage base = .freed
  · exact Nat.le_of_eq (h.freed base hfreed)
  · rw [h.kept base hfreed]
    exact Nat.zero_le 1

/-- A callback finds the blocks that it uses. -/
theorem Lifetimes.inUse (h : Lifetimes s) (hbooks : Books s stage) (hcall : Call s label s') :
    InUse s label := by
  have hclient : ∀ client, s.streams client ≠ .closed → s.frees (.client client) = 0 := by
    intro client hopen
    rw [h.client, if_neg hopen]
  have hbuffer : ∀ client buf, s.streams client = .allocated buf → s.frees (.buffer buf.base) = 0 := by
    intro client buf hallocated
    apply hbooks.frees_of_held
    exact (hbooks.holding (.stream client) _).1 (by simp [holds, hallocated, Stream.base])
  intro block hblock
  cases hcall with
  | refuse | connect => cases hblock
  | allocate hreading =>
    rw [List.mem_singleton.1 hblock]
    exact hclient _ (by simp [hreading])
  | write hallocated | lose hallocated =>
    simp only [touches, hallocated, Stream.base, Option.toList_some, List.map_cons, List.map_nil, List.mem_cons,
      List.not_mem_nil, or_false] at hblock
    rcases hblock with rfl | rfl
    · exact hclient _ (by simp [hallocated])
    · exact hbuffer _ _ hallocated
  | @complete req status wreq hpending =>
    simp only [touches, hpending, Option.toList_some, List.map_cons, List.map_nil, List.mem_cons,
      List.not_mem_nil, or_false] at hblock
    rcases hblock with rfl | rfl
    · exact h.pending req wreq hpending
    · exact hbooks.frees_of_held (hbooks.write_iff.1 ⟨wreq, hpending, rfl⟩)
  | close hclosing =>
    rw [List.mem_singleton.1 hblock]
    exact hclient _ (by simp [hclosing])

theorem lifetimes_of_run (contents : Nat → Memory) {labels : List Label}
    (hrun : Run Roomy (start contents) labels s) : Lifetimes s ∧ ∃ stage, Books s stage := by
  refine hrun.invariant (fun s => Lifetimes s ∧ ∃ stage, Books s stage)
    ⟨lifetimes_start contents, _, books_start contents⟩ ?_
  rintro s label s' ⟨h, stage, hbooks⟩ ⟨hstep, _⟩
  obtain ⟨stage', _, hbooks'⟩ := hbooks.step hstep
  exact ⟨h.call hbooks (call_of_step hstep), stage', hbooks'⟩

/-- The zero behind a message that does not fill the buffer is in it. -/
theorem Roomy.inside (h : Roomy s label s') : Inside s label := by
  obtain ⟨hstep, hroom⟩ := h
  cases label with
  | on_read client nread bytes res =>
    intro buf hallocated i hi
    simp only [StepOf, step, hallocated] at hstep
    obtain ⟨⟨hlength, _⟩, _⟩ := Option.ite_none_right_eq_some.1 hstep
    have hlt := hroom buf hallocated
    unfold places at hi
    split at hi
    · rw [List.mem_range] at hi
      omega
    · cases hi
  | _ => trivial

/-- No block is freed twice, and no callback is called on a block that has been freed, or uses
    a place behind its buffer. What a pending request needs is still there, and a client is
    freed when its connection is closed. -/
theorem blocks_of_run (contents : Nat → Memory) {labels : List Label}
    (hrun : Run Roomy (start contents) labels s) :
    EveryStep step (fun s label => InUse s label ∧ Inside s label) (start contents) labels ∧
      (∀ block, s.frees block ≤ 1) ∧
      (∀ req wreq, s.writes req = some wreq →
        s.frees (.request req) = 0 ∧ s.frees (.buffer wreq.buf.base) = 0) ∧
      (∀ client, s.frees (.client client) = 1 ↔ s.streams client = .closed) := by
  obtain ⟨h, stage, hbooks⟩ := lifetimes_of_run contents hrun
  refine ⟨?_, ?_, ?_, ?_⟩
  · clear h hbooks stage
    induction hrun with
    | nil => exact everyStep_nil _ _ _
    | snoc hbefore hstep ih =>
      obtain ⟨h, stage, hbooks⟩ := lifetimes_of_run contents hbefore
      have hinUse := h.inUse hbooks (call_of_step hstep.1)
      have hexec := run_stepOf_iff.1 (hbefore.mono fun _ _ _ h => h.1)
      exact (everyStep_snoc_iff hexec).2 ⟨ih, hinUse, hstep.inside⟩
  · intro block
    cases block with
    | client client =>
      rw [h.client]
      split <;> omega
    | buffer base => exact hbooks.frees_le base
    | request req => exact h.once req
  · intro req wreq hpending
    exact ⟨h.pending req wreq hpending, hbooks.frees_of_held (hbooks.write_iff.1 ⟨wreq, hpending, rfl⟩)⟩
  · intro client
    rw [h.client]
    simp

/-- A client whose message is still being written when it goes away. -/
def overlapping : List Label :=
  [.on_new_connection 0 0, .alloc_buffer 0 64, .on_read 0 2 [104, 105] 0, .alloc_buffer 0 64,
    .on_read 0 (-4095) [] 0, .after_write 2 0, .on_close 0]

/-- An execution in which every message is shorter than its buffer. -/
theorem run_roomy {first last : State} {labels : List Label} (hexec : exec step first labels = some last)
    (hroom : EveryStep step LeavesRoom first labels) : Run Roomy first labels last := by
  have hrun := run_stepOf_iff.2 hexec
  induction hrun with
  | nil => exact .nil
  | snoc hbefore hstep ih =>
    have hexec := run_stepOf_iff.1 hbefore
    obtain ⟨hrest, hlast⟩ := (everyStep_snoc_iff hexec).1 hroom
    exact (ih hexec hrest).snoc ⟨hstep, hlast⟩

instance (s : State) : ∀ label, Decidable (LeavesRoom s label)
  | .on_read client _ bytes _ =>
    match hstream : s.streams client with
    | .allocated buf => decidable_of_iff (bytes.length < buf.len) (by simp [LeavesRoom, hstream])
    | .unknown | .reading | .closing | .closed => isTrue (by simp [LeavesRoom, hstream])
  | .on_new_connection _ _ | .alloc_buffer _ _ | .after_write _ _ | .on_close _ => isTrue trivial

theorem run_overlapping : ∃ s, Run Roomy (start fun _ _ => 0) overlapping s ∧
    s.frees (.request 2) = 1 ∧ s.sent = [(0, [104, 105])] := by
  obtain ⟨s, hexec, hfrees, hsent⟩ : ∃ s, exec step (start fun _ _ => 0) overlapping = some s ∧
      s.frees (.request 2) = 1 ∧ s.sent = [(0, [104, 105])] := ⟨_, rfl, rfl, rfl⟩
  exact ⟨s, run_roomy hexec (by decide +kernel), hfrees, hsent⟩

theorem blocks_of_run_overlapping : ∃ s, Run Roomy (start fun _ _ => 0) overlapping s ∧
    s.frees (.request 2) = 1 ∧
    EveryStep step (fun s label => InUse s label ∧ Inside s label) (start fun _ _ => 0) overlapping ∧
      (∀ block, s.frees block ≤ 1) ∧
      (∀ req wreq, s.writes req = some wreq →
        s.frees (.request req) = 0 ∧ s.frees (.buffer wreq.buf.base) = 0) ∧
      (∀ client, s.frees (.client client) = 1 ↔ s.streams client = .closed) := by
  obtain ⟨s, hrun, hfrees, _⟩ := run_overlapping
  exact ⟨s, hrun, hfrees, blocks_of_run _ hrun⟩

/-- The message that a callback hands to `uv_write`, and its client. -/
def accepted : Label → Option (Nat × List UInt8)
  | .on_read client nread bytes res => if nread > 0 ∧ res = 0 then some (client, bytes) else none
  | _ => none

/-- As long as a request is pending, its buffer has the bytes that are to be written. -/
def Intact (s : State) (req client : Nat) (bytes : List UInt8) : Prop :=
  ∀ wreq, s.writes req = some wreq →
    wreq.client = client ∧ (s.contents wreq.buf.base).load 0 wreq.buf.len = bytes

theorem sent_call (hcall : Call s label s') : s'.sent = s.sent ++ (accepted label).toList := by
  cases hcall with
  | refuse | connect | allocate | complete | close => exact (List.append_nil _).symm
  | write hallocated hpos => simp [accepted, hpos]
  | lose hallocated hnot => simp [accepted, hnot]

/-- A callback leaves the buffers of all pending requests alone. -/
theorem Intact.call (h : Intact s req client bytes) (hbooks : Books s stage) (hreq : req < s.mallocs)
    (hcall : Call s label s') : Intact s' req client bytes := by
  have hcontents : ∀ other buf (contents : Nat → Memory), s.streams other = .allocated buf →
      (∀ base, base ≠ buf.base → contents base = s.contents base) → ∀ wreq, s.writes req = some wreq →
        wreq.client = client ∧ (contents wreq.buf.base).load 0 wreq.buf.len = bytes := by
    intro other buf contents hallocated hothers wreq hpending
    have hother : stage buf.base = .held (.stream other) :=
      (hbooks.holding _ _).1 (by simp [holds, hallocated, Stream.base])
    have hown : stage wreq.buf.base = .held (.write req) := hbooks.write_iff.1 ⟨wreq, hpending, rfl⟩
    rw [hothers]
    · exact h wreq hpending
    · intro hsame
      rw [hsame, hother] at hown
      cases hown
  intro wreq hpending
  cases hcall with
  | refuse | connect | allocate | close => exact h wreq hpending
  | write hallocated hpos hmessage hothers =>
    refine hcontents _ _ _ hallocated hothers wreq ?_
    exact (Function.update_of_ne (Nat.ne_of_lt hreq) ..).symm.trans hpending
  | lose hallocated hnot hmallocs hothers => exact hcontents _ _ _ hallocated hothers wreq hpending
  | @complete other status wreq' _ =>
    by_cases hother : req = other
    · subst hother
      simp [after_write, free_write_req, free] at hpending
    · refine h wreq ?_
      simpa [after_write, free_write_req, free, hother] using hpending

theorem mallocs_le (hcall : Call s label s') : s.mallocs ≤ s'.mallocs := by
  cases hcall with
  | refuse | complete | close => exact Nat.le_refl _
  | connect | allocate | write => exact Nat.le_succ _
  | lose hallocated hnot hmallocs => exact hmallocs

/-- What is sent to the clients is what they have sent, message for message, in the order in
    which it was read. While a write is pending, whatever callbacks are made, the bytes that
    it is to write stay in its buffer. No message fills its buffer. -/
theorem sent_of_run (contents : Nat → Memory) {labels : List Label}
    (hrun : Run Roomy (start contents) labels s) :
    s.sent = labels.filterMap accepted ∧
      ∀ client nread bytes s' more s'', nread > 0 → Roomy s (.on_read client nread bytes 0) s' →
        Run Roomy s' more s'' → Intact s'' s.mallocs client bytes := by
  constructor
  · induction hrun with
    | nil => rfl
    | @snoc labels state last label hbefore hstep ih =>
      rw [sent_call (call_of_step hstep.1), ih, List.filterMap_append]
      cases haccepted : accepted label with
      | none => simp [haccepted]
      | some message => simp [haccepted]
  · intro client nread bytes s' more s'' hpos hstep hmore
    obtain ⟨_, stage, hbooks⟩ := lifetimes_of_run contents hrun
    obtain ⟨stage', _, hbooks'⟩ := hbooks.step hstep.1
    have hnew : Intact s' s.mallocs client bytes ∧ s.mallocs < s'.mallocs := by
      cases call_of_step hstep.1 with
      | write hallocated hpos hmessage hothers =>
        refine ⟨fun wreq hpending => ?_, Nat.lt_succ_self _⟩
        dsimp only at hpending
        rw [Function.update_self] at hpending
        obtain rfl := Option.some.inj hpending
        exact ⟨rfl, hmessage⟩
      | lose hallocated hnot => exact absurd ⟨hpos, rfl⟩ hnot
    have hlast : (Intact s'' s.mallocs client bytes ∧ s.mallocs < s''.mallocs) ∧
        ∃ stage, Books s'' stage := by
      refine hmore.invariant (fun t => (Intact t s.mallocs client bytes ∧ s.mallocs < t.mallocs) ∧
        ∃ stage, Books t stage) ⟨hnew, stage', hbooks'⟩ ?_
      rintro t label t' ⟨⟨hintact, hlt⟩, stage, ht⟩ ⟨hnext, _⟩
      have hcall := call_of_step hnext
      obtain ⟨stage', _, ht'⟩ := ht.step hnext
      exact ⟨⟨hintact.call ht hlt hcall, Nat.lt_of_lt_of_le hlt (mallocs_le hcall)⟩, stage', ht'⟩
    exact hlast.1.1

theorem sent_of_run_overlapping : ∃ s, Run Roomy (start fun _ _ => 0) overlapping s ∧
    s.sent = [(0, [104, 105])] ∧ s.sent = overlapping.filterMap accepted ∧
      ∀ client nread bytes s' more s'', nread > 0 → Roomy s (.on_read client nread bytes 0) s' →
        Run Roomy s' more s'' → Intact s'' s.mallocs client bytes := by
  obtain ⟨s, hrun, _, hsent⟩ := run_overlapping
  exact ⟨s, hrun, hsent, sent_of_run _ hrun⟩

end oslabs.uv
