import OsLabs.Echo.Moves

open oslabs.memory oslabs.printf

namespace oslabs.echo

variable {C : Type} [DecidableEq C]

/-- What the server makes of a message. -/
def reply (server_pid : Int32) (m : echomsg_t) : echomsg_t :=
  { m with sender := server_pid }

/-- The requests of one sender among the messages in the server's channel. -/
def requests (pid : Int32) (items : List echomsg_t) : List echomsg_t :=
  items.filter fun m => m.sender = pid

/-- The reply that the server holds for a client. -/
def held (server_pid : Int32) (pid : C → Int32) (server : Server C) (c : C) : List echomsg_t :=
  match server.pc with
  | .received => if server.msg.sender = pid c then [reply server_pid server.msg] else []
  | .replying rmc => if rmc = .client c then [server.msg] else []
  | _ => []

/-- The replies a client has still to get, the oldest first: those in its channel, the
    one that the server holds, and those to its requests in the server's channel. -/
def outstanding (server_pid : Int32) (pid : C → Int32) (shared : Shared C) (server : Server C) (c : C) :
    List echomsg_t :=
  (shared.channels (.client c)).items ++ held server_pid pid server c ++
    (requests (pid c) (shared.channels .server).items).map (reply server_pid)

/-- A client that owns its reply channel. -/
def ClientPc.live : ClientPc → Prop
  | .created | .prompt | .ready | .awaiting | .closing => True
  | _ => False

/-- A client that has opened the server's channel and has not read its last line. -/
def ClientPc.connected : ClientPc → Prop
  | .prompt | .ready | .awaiting => True
  | _ => False

theorem ClientPc.live_of_connected {pc : ClientPc} (h : pc.connected) : pc.live := by
  cases pc <;> simp_all [ClientPc.live, ClientPc.connected]

/-- What holds of the server: which names and senders it can meet. -/
structure ServerOk (pid : C → Int32) (shared : Shared C) (server : Server C) : Prop where
  unopened : server.pc = .start →
    mc_open ECHO_SERVICE_SERVER_ID shared = none ∧ (shared.channels .server).items = []
  opened : ∀ segment, mc_open ECHO_SERVICE_SERVER_ID shared = some segment → segment = .server
  running : server.pc ≠ .failed
  base : server.pc ≠ .start → server.resp_ch_name.load 0 PID_IDX = ECHO_SERVICE_CLIENT_ID_BASE
  name : server.pc = .received →
    ∃ c, server.msg.sender = pid c ∧ server.name = client_name (pid c)
  rmc : ∀ segment, server.pc = .replying segment → ∃ c, segment = .client c
  senders : ∀ m ∈ (shared.channels .server).items, m.isTermination ∨ ∃ c, m.sender = pid c

/-- What holds of a client: its channel is found under its name, and what it has sent
    is what it has got and what is outstanding, one message while it waits. -/
structure ClientOk (server_pid : Int32) (pid : C → Int32) (shared : Shared C) (server : Server C)
    (c : C) (client : Client C) : Prop where
  name : client.pc.live → mc_open (client_name (pid c)) shared = some (.client c)
  capacity : client.pc.live → (shared.channels (.client c)).capacity = 1
  smc : client.pc.connected → client.smc = .server ∧ server.pc ≠ .start
  sender : client.pc.connected → client.smsg.sender = pid c
  sent : ∀ m ∈ client.sent, m.sender = pid c
  replies : client.received ++ outstanding server_pid pid shared server c =
    client.sent.map (reply server_pid)
  awaited : (outstanding server_pid pid shared server c).length = if client.pc = .awaiting then 1 else 0

section Names

theorem PID_IDX_eq : PID_IDX = 24 := by decide

theorem client_name_ne_server (pid : Int32) : client_name pid ≠ ECHO_SERVICE_SERVER_ID := by
  intro h
  have hlength := congrArg List.length h
  rw [client_name, List.length_append] at hlength
  have hserver : ECHO_SERVICE_SERVER_ID.length = 23 := by decide
  have hbase : ECHO_SERVICE_CLIENT_ID_BASE.length = 24 := PID_IDX_eq
  omega

/-- Different numbers give different names. -/
theorem client_name_injective : Function.Injective client_name :=
  fun _ _ h => sprintf_d_injective (List.append_cancel_left h)

theorem zero_notMem_client_name (pid : Int32) : 0 ∉ client_name pid := by
  rw [client_name, List.mem_append, not_or]
  exact ⟨by decide, zero_notMem_sprintf_d pid⟩

/-- A name fits the buffer unless the number has a sign and ten digits. -/
theorem length_client_name_lt_iff {pid : Int32} :
    (client_name pid).length < PID_IDX + PID_MAX_LEN + 1 ↔ -1000000000 < pid.toInt := by
  rw [← length_sprintf_d_le_iff, client_name, List.length_append]
  unfold PID_IDX PID_MAX_LEN
  omega

/-- `sprintf` completes the name behind the base, and its terminating zero comes with it. -/
theorem load_store_client_name {m : Memory} (pid : Int32)
    (hbase : m.load 0 PID_IDX = ECHO_SERVICE_CLIENT_ID_BASE) :
    (m.store PID_IDX (sprintf_d pid ++ [0])).load 0 ((client_name pid).length + 1) = client_name pid ++ [0] := by
  have hlength : (client_name pid).length + 1 = PID_IDX + (sprintf_d pid ++ [0]).length := by
    simp [client_name, PID_IDX, Nat.add_assoc]
  rw [hlength, Memory.load_append, Memory.load_store_of_disjoint _ (.inl (Nat.le_of_eq (Nat.zero_add _))),
    hbase, Nat.zero_add, Memory.load_store_self, client_name, List.append_assoc]

/-- The name of a process is what `shm_open` reads then. -/
theorem string_store_client_name {m : Memory} {pid : Int32} (hpos : 0 < pid)
    (hbase : m.load 0 PID_IDX = ECHO_SERVICE_CLIENT_ID_BASE) :
    (m.store PID_IDX (sprintf_d pid ++ [0])).string 0 (PID_IDX + PID_MAX_LEN + 1) = client_name pid := by
  apply Memory.string_of_load (zero_notMem_client_name pid) (load_store_client_name pid hbase)
  rw [length_client_name_lt_iff]
  rw [Int32.lt_iff_toInt_lt, Int32.toInt_zero] at hpos
  omega

theorem load_base_store (m : Memory) :
    (m.store 0 (ECHO_SERVICE_CLIENT_ID_BASE ++ [0])).load 0 PID_IDX = ECHO_SERVICE_CLIENT_ID_BASE := by
  have hload := m.load_store_self 0 (ECHO_SERVICE_CLIENT_ID_BASE ++ [0])
  rw [List.length_append, List.length_singleton, Memory.load_append] at hload
  exact (List.append_inj' hload rfl).1

end Names

end oslabs.echo
