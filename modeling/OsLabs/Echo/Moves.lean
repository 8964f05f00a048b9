import OsLabs.Echo.Model

open oslabs.memory oslabs.printf

namespace oslabs.echo

variable {C : Type} [DecidableEq C] {shared shared' : Shared C}

/-- What a successful `mc_create` does: the name was free, and is bound to an empty channel. -/
theorem mc_create_eq_some {segment : Segment C} {capacity : Nat} {name : List UInt8}
    (h : mc_create segment capacity name shared = some shared') :
    mc_open name shared = none ∧
      shared'.names = Function.update shared.names name (some segment) ∧
      shared'.channels = Function.update shared.channels segment { capacity, items := [] } := by
  unfold mc_create at h
  split at h
  · cases h
  · rename_i hname
    obtain rfl := Option.some.inj h
    exact ⟨by simpa [mc_open] using hname, rfl, rfl⟩

theorem mc_create_eq_none {segment : Segment C} {capacity : Nat} {name : List UInt8}
    (h : mc_create segment capacity name shared = none) : mc_open name shared ≠ none := by
  unfold mc_create at h
  split at h
  · rwa [← Option.isSome_iff_ne_none]
  · cases h

theorem mc_put_eq_some {segment : Segment C} {item : echomsg_t}
    (h : mc_put segment item shared = some shared') :
    shared'.names = shared.names ∧
      shared'.channels = Function.update shared.channels segment
        { shared.channels segment with items := (shared.channels segment).items ++ [item] } := by
  simp only [mc_put] at h
  split at h
  · obtain rfl := Option.some.inj h
    exact ⟨rfl, rfl⟩
  · cases h

theorem mc_put_isSome {segment : Segment C} {item : echomsg_t}
    (h : (shared.channels segment).items.length < (shared.channels segment).capacity) :
    (mc_put segment item shared).isSome := by
  unfold mc_put
  rw [if_pos h]
  rfl

theorem mc_get_eq_some {segment : Segment C} {item : echomsg_t}
    (h : mc_get segment shared = some (item, shared')) :
    shared'.names = shared.names ∧ ∃ items, (shared.channels segment).items = item :: items ∧
      shared'.channels = Function.update shared.channels segment
        { shared.channels segment with items } := by
  simp only [mc_get] at h
  split at h
  · cases h
  · rename_i first items hitems
    obtain ⟨rfl, rfl⟩ := Prod.mk.inj (Option.some.inj h)
    exact ⟨rfl, items, hitems, rfl⟩

/-- What the server does, case by case. -/
inductive ServerMove (server_pid : Int32) (shared : Shared C) (server : Server C) :
    ServerLabel → Shared C → Server C → Prop where
  | create {shared' : Shared C} (hpc : server.pc = .start)
      (hcreate : mc_create .server 8 ECHO_SERVICE_SERVER_ID shared = some shared') :
      ServerMove server_pid shared server .mc_create shared' { server with
        pc := .waiting
        resp_ch_name := server.resp_ch_name.store 0 (ECHO_SERVICE_CLIENT_ID_BASE ++ [0]) }
  | create_failed (hpc : server.pc = .start)
      (hcreate : mc_create .server 8 ECHO_SERVICE_SERVER_ID shared = none) :
      ServerMove server_pid shared server .mc_create shared { server with pc := .failed }
  | stop {msg : echomsg_t} {shared' : Shared C} (hpc : server.pc = .waiting)
      (hget : mc_get .server shared = some (msg, shared')) (hmsg : msg.isTermination) :
      ServerMove server_pid shared server .mc_get shared' { server with pc := .stopping, msg }
  | get {msg : echomsg_t} {shared' : Shared C} (hpc : server.pc = .waiting)
      (hget : mc_get .server shared = some (msg, shared')) (hmsg : ¬ msg.isTermination) :
      ServerMove server_pid shared server .mc_get shared'
        { pc := .received
          msg
          resp_ch_name := server.resp_ch_name.store PID_IDX (sprintf_d msg.sender ++ [0]) }
  | open_found {rmc : Segment C} (hpc : server.pc = .received)
      (hopen : mc_open server.name shared = some rmc) :
      ServerMove server_pid shared server .mc_open shared { server with
        pc := .replying rmc
        msg := { server.msg with sender := server_pid } }
  | open_failed (hpc : server.pc = .received) (hopen : mc_open server.name shared = none) :
      ServerMove server_pid shared server .mc_open shared { server with pc := .waiting }
  | put {rmc : Segment C} {shared' : Shared C} (hpc : server.pc = .replying rmc)
      (hput : mc_put rmc server.msg shared = some shared') :
      ServerMove server_pid shared server .mc_put shared' { server with pc := .waiting }
  | destroy (hpc : server.pc = .stopping) :
      ServerMove server_pid shared server .mc_destroy (mc_destroy ECHO_SERVICE_SERVER_ID shared)
        { server with pc := .ended }

theorem serverMove_of_step {server_pid : Int32} {server server' : Server C} {label : ServerLabel}
    (h : server_step server_pid shared server label = some (shared', server')) :
    ServerMove server_pid shared server label shared' server' := by
  cases label with
  | mc_create =>
    simp only [server_step] at h
    split at h
    · split at h
      · obtain ⟨rfl, rfl⟩ := Prod.mk.inj (Option.some.inj h)
        exact .create ‹_› ‹_›
      · obtain ⟨rfl, rfl⟩ := Prod.mk.inj (Option.some.inj h)
        exact .create_failed ‹_› ‹_›
    · cases h
  | mc_get =>
    simp only [server_step] at h
    split at h
    · obtain ⟨⟨msg, after⟩, hget, h⟩ := Option.bind_eq_some_iff.1 h
      split at h
      · obtain ⟨rfl, rfl⟩ := Prod.mk.inj (Option.some.inj h)
        exact .stop ‹_› hget ‹_›
      · obtain ⟨rfl, rfl⟩ := Prod.mk.inj (Option.some.inj h)
        exact .get ‹_› hget ‹_›
    · cases h
  | mc_open =>
    simp only [server_step] at h
    split at h
    · split at h
      · obtain ⟨rfl, rfl⟩ := Prod.mk.inj (Option.some.inj h)
        exact .open_found ‹_› ‹_›
      · obtain ⟨rfl, rfl⟩ := Prod.mk.inj (Option.some.inj h)
        exact .open_failed ‹_› ‹_›
    · cases h
  | mc_put =>
    simp only [server_step] at h
    split at h
    · obtain ⟨after, hput, h⟩ := Option.bind_eq_some_iff.1 h
      obtain ⟨rfl, rfl⟩ := Prod.mk.inj (Option.some.inj h)
      exact .put ‹_› hput
    · cases h
  | mc_destroy =>
    simp only [server_step] at h
    split at h
    · obtain ⟨rfl, rfl⟩ := Prod.mk.inj (Option.some.inj h)
      exact .destroy ‹_›
    · cases h

/-- The message that `fgets` and the cut of its last character leave. -/
def line_msg (smsg : echomsg_t) (line : List UInt8) : echomsg_t :=
  chop { smsg with msg := fgets smsg.msg line }

/-- What a client does, case by case. -/
inductive ClientMove (pid : Int32) (c : C) (shared : Shared C) (client : Client C) :
    ClientLabel → Shared C → Client C → Prop where
  | create {shared' : Shared C} (hpc : client.pc = .start)
      (hcreate : mc_create (.client c) 1 (client_name pid) shared = some shared') :
      ClientMove pid c shared client .mc_create shared' { client with pc := .created }
  | create_failed (hpc : client.pc = .start) :
      ClientMove pid c shared client .mc_create shared { client with pc := .failed }
  | connect {smc : Segment C} (hpc : client.pc = .created)
      (hopen : mc_open ECHO_SERVICE_SERVER_ID shared = some smc) :
      ClientMove pid c shared client .mc_open shared { client with
        pc := .prompt
        smc
        smsg := { sender := pid, msg := List.replicate ECHO_MSG_MAX_LEN 0 } }
  | connect_failed (hpc : client.pc = .created) :
      ClientMove pid c shared client .mc_open (mc_destroy (client_name pid) shared)
        { client with pc := .failed }
  | eof (hpc : client.pc = .prompt) :
      ClientMove pid c shared client (.fgets none) shared { client with pc := .closing }
  | empty {line : List UInt8} (hpc : client.pc = .prompt) (hline : Line line)
      (hempty : (line_msg client.smsg line).isEmpty) :
      ClientMove pid c shared client (.fgets (some line)) shared
        { client with pc := .closing, smsg := line_msg client.smsg line }
  | line {line : List UInt8} (hpc : client.pc = .prompt) (hline : Line line)
      (hempty : ¬ (line_msg client.smsg line).isEmpty) :
      ClientMove pid c shared client (.fgets (some line)) shared
        { client with pc := .ready, smsg := line_msg client.smsg line }
  | put {shared' : Shared C} (hpc : client.pc = .ready)
      (hput : mc_put client.smc client.smsg shared = some shared') :
      ClientMove pid c shared client .mc_put shared'
        { client with pc := .awaiting, sent := client.sent ++ [client.smsg] }
  | get {rmsg : echomsg_t} {shared' : Shared C} (hpc : client.pc = .awaiting)
      (hget : mc_get (.client c) shared = some (rmsg, shared')) :
      ClientMove pid c shared client .mc_get shared'
        { client with pc := .prompt, received := client.received ++ [rmsg] }
  | cleanup (hpc : client.pc = .closing) :
      ClientMove pid c shared client .cleanup (mc_destroy (client_name pid) shared)
        { client with pc := .ended }

theorem clientMove_of_step {pid : Int32} {c : C} {client client' : Client C} {label : ClientLabel}
    (h : client_step pid c shared client label = some (shared', client')) :
    ClientMove pid c shared client label shared' client' := by
  cases label with
  | mc_create =>
    simp only [client_step] at h
    split at h
    · split at h
      · obtain ⟨rfl, rfl⟩ := Prod.mk.inj (Option.some.inj h)
        exact .create ‹_› ‹_›
      · obtain ⟨rfl, rfl⟩ := Prod.mk.inj (Option.some.inj h)
        exact .create_failed ‹_›
    · cases h
  | mc_open =>
    simp only [client_step] at h
    split at h
    · split at h
      · obtain ⟨rfl, rfl⟩ := Prod.mk.inj (Option.some.inj h)
        exact .connect ‹_› ‹_›
      · obtain ⟨rfl, rfl⟩ := Prod.mk.inj (Option.some.inj h)
        exact .connect_failed ‹_›
    · cases h
  | fgets line =>
    cases line with
    | none =>
      simp only [client_step] at h
      split at h
      · obtain ⟨rfl, rfl⟩ := Prod.mk.inj (Option.some.inj h)
        exact .eof ‹_›
      · cases h
    | some line =>
      simp only [client_step] at h
      split at h
      · split at h
        · obtain ⟨rfl, rfl⟩ := Prod.mk.inj (Option.some.inj h)
          split
          · exact .empty ‹_› ‹_› ‹_›
          · exact .line ‹_› ‹_› ‹_›
        · cases h
      · cases h
  | mc_put =>
    simp only [client_step] at h
    split at h
    · obtain ⟨after, hput, h⟩ := Option.bind_eq_some_iff.1 h
      obtain ⟨rfl, rfl⟩ := Prod.mk.inj (Option.some.inj h)
      exact .put ‹_› hput
    · cases h
  | mc_get =>
    simp only [client_step] at h
    split at h
    · obtain ⟨⟨rmsg, after⟩, hget, h⟩ := Option.bind_eq_some_iff.1 h
      obtain ⟨rfl, rfl⟩ := Prod.mk.inj (Option.some.inj h)
      exact .get ‹_› hget
    · cases h
  | cleanup =>
    simp only [client_step] at h
    split at h
    · obtain ⟨rfl, rfl⟩ := Prod.mk.inj (Option.some.inj h)
      exact .cleanup ‹_›
    · cases h

/-- A terminator changes the shared memory by its one message only. -/
theorem term_step_cases {term term' : TermPc C} {label : TermLabel}
    (h : term_step shared term label = some (shared', term')) :
    (shared' = shared ∧ ∀ smc, term' = .connected smc →
      mc_open ECHO_SERVICE_SERVER_ID shared = some smc) ∨
    ∃ smc, term = .connected smc ∧ term' = .ended ∧ mc_put smc tmsg shared = some shared' := by
  unfold term_step at h
  split at h
  · split at h
    · rename_i smc hopen
      obtain ⟨rfl, rfl⟩ := Prod.mk.inj (Option.some.inj h)
      refine .inl ⟨rfl, ?_⟩
      rintro smc' ⟨⟩
      exact hopen
    · obtain ⟨rfl, rfl⟩ := Prod.mk.inj (Option.some.inj h)
      refine .inl ⟨rfl, ?_⟩
      rintro smc' ⟨⟩
  · rename_i smc
    obtain ⟨after, hput, h⟩ := Option.bind_eq_some_iff.1 h
    obtain ⟨rfl, rfl⟩ := Prod.mk.inj (Option.some.inj h)
    exact .inr ⟨smc, rfl, rfl, hput⟩
  · cases h

end oslabs.echo
