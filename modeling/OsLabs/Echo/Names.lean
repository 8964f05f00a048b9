import OsLabs.Echo.Pipeline

open oslabs.memory oslabs.printf oslabs.run

namespace oslabs.echo

variable {C : Type} [DecidableEq C]

/-- The size of `resp_ch_name`. -/
def RESP_CH_NAME_SIZE : Nat := PID_IDX + PID_MAX_LEN + 1

/-- The server before its first call. -/
def Server.start (msg : echomsg_t) (resp_ch_name : Memory) : Server C where
  pc := .start
  msg := msg
  resp_ch_name := resp_ch_name

/-- The server makes a call, in a memory that the other processes may have left in any state. -/
def respond (server_pid : Int32) (server : Server C) (call : Shared C × ServerLabel) : Option (Server C) :=
  (server_step server_pid call.1 server call.2).map Prod.snd

/-- The message that a call gets, unless it is the termination message. -/
def request : Shared C × ServerLabel → Option echomsg_t
  | (shared, .mc_get) => do
    let (msg, _) ← mc_get .server shared
    if msg.isTermination then none else some msg
  | _ => none

/-- The ranges of `resp_ch_name` that `strcpy` and `sprintf` write behind a call, each with its
    index and its length. -/
def writes : Shared C × ServerLabel → List (Nat × Nat)
  | (shared, .mc_create) =>
    if (mc_create .server 8 ECHO_SERVICE_SERVER_ID shared).isSome then
      [(0, ECHO_SERVICE_CLIENT_ID_BASE.length + 1)]
    else []
  | call => (request call).toList.map fun msg => (PID_IDX, (sprintf_d msg.sender).length + 1)

/-- Behind a request the buffer holds the name that a client with that number has, up to its
    terminating zero, and nothing is written outside of the buffer. -/
structure Addressed (server_pid : Int32) (server : Server C) (call : Shared C × ServerLabel) : Prop where
  name : ∀ msg ∈ request call, ∀ server' ∈ respond server_pid server call,
    client_name msg.sender ++ [0] <+: server'.resp_ch_name.load 0 RESP_CH_NAME_SIZE
  inside : ∀ range ∈ writes call, range.1 + range.2 ≤ RESP_CH_NAME_SIZE

/-- The number of the sender has ten characters at most. -/
def ShortSender (call : Shared C × ServerLabel) : Prop :=
  ∀ msg ∈ request call, -1000000000 < msg.sender.toInt

instance (call : Shared C × ServerLabel) : Decidable (ShortSender call) :=
  inferInstanceAs (Decidable (∀ msg ∈ request call, _))

/-- The buffer starts with the base once the server has entered its loop. -/
def Based (server : Server C) : Prop :=
  server.pc = .start ∨ server.pc = .failed ∨ server.resp_ch_name.load 0 PID_IDX = ECHO_SERVICE_CLIENT_ID_BASE

variable {server_pid : Int32} {server server' : Server C} {call : Shared C × ServerLabel}

/-- A call that gets no request writes nothing but the base, if anything. -/
theorem addressed_of_request_eq_none (h : request call = none) :
    Addressed server_pid server call ↔ ShortSender call := by
  refine iff_of_true ⟨by simp [h], ?_⟩ (by simp [ShortSender, h])
  intro range hrange
  unfold writes at hrange
  split at hrange
  · split at hrange
    · rw [List.mem_singleton.1 hrange]
      decide
    · cases hrange
  · simp [h] at hrange

/-- A request is answered under a name that fits the buffer, if its sender has a short one. -/
theorem addressed_of_request {msg : echomsg_t} {shared shared' : Shared C} (hpc : server.pc = .waiting)
    (hbase : server.resp_ch_name.load 0 PID_IDX = ECHO_SERVICE_CLIENT_ID_BASE)
    (hget : mc_get .server shared = some (msg, shared')) (hmsg : ¬ msg.isTermination) :
    Addressed server_pid server (shared, .mc_get) ↔ ShortSender (shared, .mc_get) := by
  have hrequest : request (shared, .mc_get) = some msg := by simp [request, hget, hmsg]
  have hrespond : respond server_pid server (shared, .mc_get) = some {
      pc := .received
      msg
      resp_ch_name := server.resp_ch_name.store PID_IDX (sprintf_d msg.sender ++ [0]) } := by
    simp [respond, server_step, hpc, hget, hmsg]
  have hshort : ShortSender (shared, .mc_get) ↔ (client_name msg.sender).length < RESP_CH_NAME_SIZE := by
    rw [RESP_CH_NAME_SIZE, length_client_name_lt_iff]
    simp [ShortSender, hrequest]
  rw [hshort]
  have hload := load_store_client_name msg.sender hbase
  constructor
  · intro h
    have hinside := h.inside (PID_IDX, (sprintf_d msg.sender).length + 1) (by simp [writes, hrequest])
    rw [client_name, List.length_append]
    exact hinside
  · intro hlength
    refine ⟨?_, ?_⟩
    · intro other hother server' hserver'
      obtain rfl : msg = other := by simpa [hrequest] using hother
      rw [hrespond] at hserver'
      obtain rfl := Option.some.inj hserver'
      obtain ⟨more, hsize⟩ := Nat.exists_eq_add_of_le (Nat.succ_le_of_lt hlength)
      rw [hsize, Memory.load_append, hload]
      exact List.prefix_append _ _
    · intro range hrange
      simp only [writes, hrequest, Option.toList_some, List.map_singleton, List.mem_singleton] at hrange
      rw [hrange]
      rw [client_name, List.length_append] at hlength
      exact hlength

/-- A call keeps the base in the buffer, and then only the sender's number matters. -/
theorem Based.respond (hbased : Based server) (hrespond : respond server_pid server call = some server') :
    Based server' ∧ (Addressed server_pid server call ↔ ShortSender call) := by
  obtain ⟨shared, label⟩ := call
  obtain ⟨⟨shared', after⟩, hstep, rfl⟩ := Option.map_eq_some_iff.1 hrespond
  have hbase : server.pc ≠ .start → server.pc ≠ .failed →
      server.resp_ch_name.load 0 PID_IDX = ECHO_SERVICE_CLIENT_ID_BASE :=
    fun hstart hfailed => (hbased.resolve_left hstart).resolve_left hfailed
  have hmove := serverMove_of_step hstep
  cases hmove with
  | create hpc hcreate =>
    exact ⟨.inr (.inr (load_base_store _)), addressed_of_request_eq_none rfl⟩
  | create_failed hpc hcreate => exact ⟨.inr (.inl rfl), addressed_of_request_eq_none rfl⟩
  | stop hpc hget hmsg =>
    refine ⟨.inr (.inr (hbase (by simp [hpc]) (by simp [hpc]))), addressed_of_request_eq_none ?_⟩
    simp [request, hget, hmsg]
  | get hpc hget hmsg =>
    have hloaded := hbase (by simp [hpc]) (by simp [hpc])
    refine ⟨.inr (.inr ?_), addressed_of_request hpc hloaded hget hmsg⟩
    rw [Memory.load_store_of_disjoint _ (.inl (Nat.le_of_eq (Nat.zero_add _)))]
    exact hloaded
  | open_found hpc hopen =>
    exact ⟨.inr (.inr (hbase (by simp [hpc]) (by simp [hpc]))), addressed_of_request_eq_none rfl⟩
  | open_failed hpc hopen =>
    exact ⟨.inr (.inr (hbase (by simp [hpc]) (by simp [hpc]))), addressed_of_request_eq_none rfl⟩
  | put hpc hput =>
    exact ⟨.inr (.inr (hbase (by simp [hpc]) (by simp [hpc]))), addressed_of_request_eq_none rfl⟩
  | destroy hpc =>
    exact ⟨.inr (.inr (hbase (by simp [hpc]) (by simp [hpc]))), addressed_of_request_eq_none rfl⟩

/-- Whatever the senders of its messages are, the server has the right names in its buffer, all
    different, and stays inside of it, if and only if every sender has ten characters at most. -/
theorem addressed_iff_shortSender {msg : echomsg_t} {resp_ch_name : Memory}
    {calls : List (Shared C × ServerLabel)}
    (hrun : exec (respond server_pid) (Server.start msg resp_ch_name) calls = some server) :
    (EveryStep (respond server_pid) (Addressed server_pid) (Server.start msg resp_ch_name) calls ∧
        Function.Injective client_name) ↔
      ∀ call ∈ calls, ShortSender call := by
  rw [and_iff_left client_name_injective]
  refine everyStep_iff_forall Based ?_ (.inl rfl) hrun
  intro server call server' hbased hrespond
  exact hbased.respond hrespond

/-- A shared memory in which a message from `sender` waits for the server, and there is no
    other channel. -/
def posted (sender : Int32) : Shared Unit where
  names _ := none
  channels _ := { capacity := 8, items := [⟨sender, 104 :: List.replicate 255 0⟩] }

/-- The server is started and gets one message. -/
def calls (sender : Int32) : List (Shared Unit × ServerLabel) :=
  [(posted sender, .mc_create), (posted sender, .mc_get), (posted sender, .mc_open)]

theorem addressed_iff_shortSender_small :
    EveryStep (respond 4242) (Addressed 4242) (Server.start tmsg fun _ => 0) (calls (-77)) ∧
      Function.Injective client_name := by
  obtain ⟨last, hrun⟩ : ∃ last, exec (respond 4242) (Server.start tmsg fun _ => 0) (calls (-77)) = some last :=
    ⟨_, rfl⟩
  exact (addressed_iff_shortSender hrun).2 (by decide)

/-- A sender of -1000000000 has eleven characters, and the terminating zero is written behind
    the end of the buffer. -/
theorem not_addressed_long :
    (exec (respond 4242) (Server.start tmsg fun _ => 0) (calls (-1000000000))).isSome ∧
      ¬ EveryStep (respond 4242) (Addressed 4242) (Server.start tmsg fun _ => 0) (calls (-1000000000)) := by
  refine ⟨rfl, fun h => ?_⟩
  obtain ⟨_, hinside⟩ := h [(posted (-1000000000), .mc_create)] (posted (-1000000000), .mc_get)
    [(posted (-1000000000), .mc_open)] _ rfl rfl
  exact absurd (hinside (24, 12) (by decide +kernel)) (by decide)

end oslabs.echo
