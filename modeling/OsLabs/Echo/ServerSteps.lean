import OsLabs.Echo.Pipeline

open oslabs.memory oslabs.printf

namespace oslabs.echo

variable {C : Type} [DecidableEq C] {server_pid : Int32} {pid : C → Int32}
  {shared shared' : Shared C} {server server' : Server C} {c : C} {client : Client C}
  {label : ServerLabel}

/-- A client whose name, channel and outstanding replies stay is not disturbed. -/
theorem ClientOk.frame (h : ClientOk server_pid pid shared server c client)
    (hname : mc_open (client_name (pid c)) shared' = mc_open (client_name (pid c)) shared)
    (hcapacity : (shared'.channels (.client c)).capacity = (shared.channels (.client c)).capacity)
    (hstart : server.pc ≠ .start → server'.pc ≠ .start)
    (houtstanding : outstanding server_pid pid shared' server' c =
      outstanding server_pid pid shared server c) :
    ClientOk server_pid pid shared' server' c client where
  name hlive := hname.trans (h.name hlive)
  capacity hlive := hcapacity.trans (h.capacity hlive)
  smc hconnected := ⟨(h.smc hconnected).1, hstart (h.smc hconnected).2⟩
  sender := h.sender
  sent := h.sent
  replies := by rw [houtstanding, h.replies]
  awaited := by rw [houtstanding, h.awaited]

section Held

theorem held_eq_nil (hreceived : server.pc ≠ .received) (hreplying : ∀ rmc, server.pc ≠ .replying rmc) :
    held server_pid pid server c = [] := by
  unfold held
  split
  · contradiction
  · rename_i rmc hpc
    exact absurd hpc (hreplying rmc)
  · rfl

theorem held_received (hpc : server.pc = .received) :
    held server_pid pid server c = (requests (pid c) [server.msg]).map (reply server_pid) := by
  simp only [held, hpc, requests, List.filter_cons, decide_eq_true_eq, List.filter_nil]
  split <;> rfl

theorem held_replying {rmc : Segment C} (hpc : server.pc = .replying rmc) :
    held server_pid pid server c = if rmc = .client c then [server.msg] else [] := by
  simp only [held, hpc]

theorem requests_cons (x : Int32) (m : echomsg_t) (items : List echomsg_t) :
    requests x (m :: items) = requests x [m] ++ requests x items :=
  List.filter_append [m] items

theorem requests_eq_nil {x : Int32} {m : echomsg_t} (h : m.sender ≠ x) : requests x [m] = [] := by
  simp [requests, h]

/-- A termination message comes from no process with a positive number. -/
theorem sender_ne_of_isTermination {m : echomsg_t} {x : Int32} (hm : m.isTermination) (hx : 0 < x) :
    m.sender ≠ x := by
  simp only [echomsg_t.isTermination, decide_eq_true_eq] at hm
  rw [hm.1]
  rintro rfl
  exact Int32.lt_irrefl hx

/-- A client the server holds a reply for waits for it, with an empty channel. -/
theorem ClientOk.of_held (h : ClientOk server_pid pid shared server c client) {m : echomsg_t}
    (hheld : held server_pid pid server c = [m]) :
    client.pc = .awaiting ∧ (shared.channels (.client c)).items = [] := by
  have hawaited := h.awaited
  rw [outstanding, hheld, List.length_append, List.length_append, List.length_singleton] at hawaited
  split at hawaited
  · exact ⟨‹_›, List.eq_nil_of_length_eq_zero (by omega)⟩
  · omega

end Held

/-- What a message that leaves the server's channel was outstanding for, the server holds then. -/
theorem outstanding_get {msg : echomsg_t} (hget : mc_get .server shared = some (msg, shared'))
    (hnone : held server_pid pid server c = [])
    (hheld : held server_pid pid server' c = (requests (pid c) [msg]).map (reply server_pid)) :
    outstanding server_pid pid shared' server' c = outstanding server_pid pid shared server c := by
  obtain ⟨_, items, hitems, hchannels⟩ := mc_get_eq_some hget
  simp only [outstanding, hchannels, ne_eq, reduceCtorEq, not_false_eq_true, Function.update_of_ne,
    Function.update_self, hnone, hheld, hitems, requests_cons _ msg items, List.map_append,
    List.append_nil, List.append_assoc]

/-- What the server and the clients have to do with each other, between two steps. -/
structure ServiceOk (server_pid : Int32) (pid : C → Int32) (shared : Shared C) (server : Server C)
    (clients : C → Client C) : Prop where
  of_server : ServerOk pid shared server
  of_client : ∀ c, ClientOk server_pid pid shared server c (clients c)

variable {clients : C → Client C}

/-- The reply channel that the server looks for is that of a client that waits. -/
theorem ServiceOk.found (h : ServiceOk server_pid pid shared server clients)
    (hpc : server.pc = .received) :
    ∃ d, (clients d).pc = .awaiting ∧ server.msg.sender = pid d ∧
      mc_open server.name shared = some (.client d) := by
  obtain ⟨d, hsender, hname⟩ := h.of_server.name hpc
  have hheld : held server_pid pid server d = [reply server_pid server.msg] := by
    rw [held_received hpc, requests, List.filter_cons_of_pos (by simpa using hsender)]
    rfl
  have hawaiting := ((h.of_client d).of_held hheld).1
  refine ⟨d, hawaiting, hsender, ?_⟩
  rw [hname]
  apply (h.of_client d).name
  rw [hawaiting]
  trivial

/-- The reply channel that the server has opened belongs to a client that waits, and is empty. -/
theorem ServiceOk.reply_channel (h : ServiceOk server_pid pid shared server clients)
    {rmc : Segment C} (hpc : server.pc = .replying rmc) :
    ∃ d, rmc = .client d ∧ (clients d).pc = .awaiting ∧ (shared.channels rmc).items = [] ∧
      (shared.channels rmc).capacity = 1 := by
  obtain ⟨d, rfl⟩ := h.of_server.rmc rmc hpc
  have hheld : held server_pid pid server d = [server.msg] := by
    rw [held_replying hpc, if_pos rfl]
  obtain ⟨hawaiting, hitems⟩ := (h.of_client d).of_held hheld
  refine ⟨d, rfl, hawaiting, hitems, ?_⟩
  apply (h.of_client d).capacity
  rw [hawaiting]
  trivial

/-- What the move of the server leaves alone: all names but its own, and the sizes of the reply
    channels. Once it has started, it does not start again. -/
structure ServerFrame (shared shared' : Shared C) (server' : Server C) : Prop where
  names : ∀ name, name ≠ ECHO_SERVICE_SERVER_ID → mc_open name shared' = mc_open name shared
  capacity : ∀ c, (shared'.channels (.client c)).capacity = (shared.channels (.client c)).capacity
  started : server'.pc ≠ .start

theorem ServerMove.serverFrame (hmove : ServerMove server_pid shared server label shared' server') :
    ServerFrame shared shared' server' := by
  cases hmove with
  | create hpc hcreate =>
    obtain ⟨_, hnames, hchannels⟩ := mc_create_eq_some hcreate
    refine ⟨?_, ?_, by simp⟩
    · intro name hname
      simp only [mc_open, hnames, Function.update_of_ne hname]
    · intro c
      rw [hchannels, Function.update_of_ne (by simp)]
  | stop hpc hget | get hpc hget =>
    obtain ⟨hnames, _, _, hchannels⟩ := mc_get_eq_some hget
    refine ⟨?_, ?_, by simp⟩
    · intro name _
      rw [mc_open, mc_open, hnames]
    · intro c
      rw [hchannels, Function.update_of_ne (by simp)]
  | @put rmc _ hpc hput =>
    obtain ⟨hnames, hchannels⟩ := mc_put_eq_some hput
    refine ⟨?_, ?_, by simp⟩
    · intro name _
      rw [mc_open, mc_open, hnames]
    · intro c
      rw [hchannels]
      by_cases hrmc : .client c = rmc
      · rw [hrmc, Function.update_self]
      · rw [Function.update_of_ne hrmc]
  | destroy hpc =>
    refine ⟨?_, fun _ => rfl, by simp⟩
    intro name hname
    simp only [mc_open, mc_destroy, Function.update_of_ne hname]
  | create_failed | open_found | open_failed => exact ⟨fun _ _ => rfl, fun _ => rfl, by simp⟩

/-- Each move of the server takes what is outstanding for a client one place further, or leaves
    it where it is. -/
theorem ServiceOk.outstanding_server_move (h : ServiceOk server_pid pid shared server clients)
    (hinj : Function.Injective pid) (hpos : ∀ c, 0 < pid c)
    (hmove : ServerMove server_pid shared server label shared' server') (c : C) :
    outstanding server_pid pid shared' server' c = outstanding server_pid pid shared server c := by
  cases hmove with
  | create hpc hcreate =>
    obtain ⟨_, _, hchannels⟩ := mc_create_eq_some hcreate
    have hbefore : held server_pid pid server c = [] := held_eq_nil (by simp [hpc]) (by simp [hpc])
    simp [outstanding, hchannels, hbefore, (h.of_server.unopened hpc).2, held_eq_nil, requests]
  | create_failed hpc hcreate =>
    exact absurd (h.of_server.unopened hpc).1 (mc_create_eq_none hcreate)
  | stop hpc hget hmsg =>
    apply outstanding_get hget (held_eq_nil (by simp [hpc]) (by simp [hpc]))
    rw [requests_eq_nil (sender_ne_of_isTermination hmsg (hpos c)), held_eq_nil (by simp) (by simp),
      List.map_nil]
  | get hpc hget hmsg =>
    exact outstanding_get hget (held_eq_nil (by simp [hpc]) (by simp [hpc])) (held_received rfl)
  | open_found hpc hopen =>
    obtain ⟨d, _, hsender, hfound⟩ := h.found hpc
    obtain rfl := Option.some.inj (hopen.symm.trans hfound)
    -- The segment that is found names the same client as the sender that is overwritten.
    have hsame : server.msg.sender = pid c ↔ Segment.client d = .client c := by
      rw [hsender, hinj.eq_iff, Segment.client.injEq]
    have hafter : held server_pid pid { server with
        pc := .replying (.client d), msg := { server.msg with sender := server_pid } } c =
        held server_pid pid server c := by
      simp only [held, hpc, hsame, reply]
    simp only [outstanding, hafter]
  | open_failed hpc hopen =>
    obtain ⟨d, _, _, hfound⟩ := h.found hpc
    rw [hfound] at hopen
    cases hopen
  | put hpc hput =>
    obtain ⟨_, hchannels⟩ := mc_put_eq_some hput
    obtain ⟨d, rfl, _⟩ := h.reply_channel hpc
    have hafter : held server_pid pid { server with pc := .waiting } c = [] :=
      held_eq_nil (by simp) (by simp)
    simp only [outstanding, hafter, held_replying hpc, hchannels, List.append_nil]
    by_cases hcd : c = d
    · subst hcd
      simp
    · rw [if_neg (by simpa using Ne.symm hcd), Function.update_of_ne (by simpa using hcd),
        Function.update_of_ne (by simp), List.append_nil]
  | destroy hpc =>
    have hbefore : held server_pid pid server c = [] := held_eq_nil (by simp [hpc]) (by simp [hpc])
    simp only [outstanding, hbefore, mc_destroy]
    rw [held_eq_nil (by simp) (by simp)]

theorem ServiceOk.client_server_move (h : ServiceOk server_pid pid shared server clients)
    (hinj : Function.Injective pid) (hpos : ∀ c, 0 < pid c)
    (hmove : ServerMove server_pid shared server label shared' server') (c : C) :
    ClientOk server_pid pid shared' server' c (clients c) := by
  have hframe := hmove.serverFrame
  apply (h.of_client c).frame
  · exact hframe.names _ (client_name_ne_server (pid c))
  · exact hframe.capacity c
  · exact fun _ => hframe.started
  · exact h.outstanding_server_move hinj hpos hmove c

/-- A server that is neither about to start nor busy with a request. -/
def ServerPc.quiet : ServerPc C → Prop
  | .waiting | .stopping | .ended => True
  | _ => False

omit [DecidableEq C] in
/-- The server's part stays when the server becomes quiet and nothing new stands in its channel. -/
theorem ServerOk.of_quiet (h : ServerOk pid shared server) (hquiet : server'.pc.quiet)
    (hbase : server'.resp_ch_name.load 0 PID_IDX = ECHO_SERVICE_CLIENT_ID_BASE)
    (hopen : ∀ segment, mc_open ECHO_SERVICE_SERVER_ID shared' = some segment → segment = .server)
    (hitems : ∀ m ∈ (shared'.channels .server).items, m ∈ (shared.channels .server).items) :
    ServerOk pid shared' server' where
  unopened hpc := by simp [hpc, ServerPc.quiet] at hquiet
  opened := hopen
  running hpc := by simp [hpc, ServerPc.quiet] at hquiet
  base _ := hbase
  name hpc := by simp [hpc, ServerPc.quiet] at hquiet
  rmc segment hpc := by simp [hpc, ServerPc.quiet] at hquiet
  senders m hm := h.senders m (hitems m hm)

theorem ServiceOk.server_server_move (hservice : ServiceOk server_pid pid shared server clients)
    (hpos : ∀ c, 0 < pid c)
    (hmove : ServerMove server_pid shared server label shared' server') :
    ServerOk pid shared' server' := by
  have h := hservice.of_server
  cases hmove with
  | create hpc hcreate =>
    obtain ⟨_, hnames, hchannels⟩ := mc_create_eq_some hcreate
    apply h.of_quiet
    · trivial
    · exact load_base_store _
    · intro segment hopen
      rw [mc_open, hnames, Function.update_self] at hopen
      exact (Option.some.inj hopen).symm
    · simp [hchannels]
  | create_failed hpc hcreate => exact absurd (h.unopened hpc).1 (mc_create_eq_none hcreate)
  | stop hpc hget hmsg =>
    obtain ⟨hnames, items, hitems, hchannels⟩ := mc_get_eq_some hget
    apply h.of_quiet
    · trivial
    · exact h.base (by simp [hpc])
    · rw [mc_open, hnames]
      exact h.opened
    · intro m hm
      rw [hchannels, Function.update_self] at hm
      rw [hitems]
      exact List.mem_cons_of_mem _ hm
  | @get msg _ hpc hget hmsg =>
    obtain ⟨hnames, items, hitems, hchannels⟩ := mc_get_eq_some hget
    have hload := h.base (by simp [hpc])
    refine ⟨by simp, ?_, by simp, ?_, ?_, by simp, ?_⟩
    · rw [mc_open, hnames]
      exact h.opened
    · intro _
      rw [Memory.load_store_of_disjoint _ (.inl (Nat.le_of_eq (Nat.zero_add _))), hload]
    · intro _
      have hsender := h.senders msg (by rw [hitems]; exact List.mem_cons_self)
      obtain ⟨c, hc⟩ := hsender.resolve_left hmsg
      refine ⟨c, hc, ?_⟩
      rw [Server.name, hc]
      exact string_store_client_name (hpos c) hload
    · intro m hm
      rw [hchannels, Function.update_self] at hm
      apply h.senders
      rw [hitems]
      exact List.mem_cons_of_mem _ hm
  | open_found hpc hopen =>
    refine ⟨by simp, h.opened, by simp, fun _ => h.base (by simp [hpc]), by simp, ?_, h.senders⟩
    obtain ⟨d, _, _, hfound⟩ := hservice.found hpc
    rintro segment ⟨⟩
    exact ⟨d, Option.some.inj (hopen.symm.trans hfound)⟩
  | open_failed hpc hopen =>
    apply h.of_quiet
    · trivial
    · exact h.base (by simp [hpc])
    · exact h.opened
    · exact fun _ hm => hm
  | put hpc hput =>
    obtain ⟨hnames, hchannels⟩ := mc_put_eq_some hput
    apply h.of_quiet
    · trivial
    · exact h.base (by simp [hpc])
    · rw [mc_open, hnames]
      exact h.opened
    · intro m hm
      obtain ⟨c, rfl⟩ := h.rmc _ hpc
      rwa [hchannels, Function.update_of_ne (by simp)] at hm
  | destroy hpc =>
    apply h.of_quiet
    · trivial
    · exact h.base (by simp [hpc])
    · simp [mc_open, mc_destroy]
    · exact fun _ hm => hm

theorem ServiceOk.server_move (h : ServiceOk server_pid pid shared server clients)
    (hinj : Function.Injective pid) (hpos : ∀ c, 0 < pid c)
    (hmove : ServerMove server_pid shared server label shared' server') :
    ServiceOk server_pid pid shared' server' clients :=
  ⟨h.server_server_move hpos hmove, h.client_server_move hinj hpos hmove⟩

end oslabs.echo
