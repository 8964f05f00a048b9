import OsLabs.Echo.ServerSteps

open oslabs.memory oslabs.printf

namespace oslabs.echo

variable {C : Type} [DecidableEq C] {server_pid : Int32} {pid : C → Int32}
  {shared shared' : Shared C} {server : Server C} {c d : C} {clients : C → Client C}
  {client' : Client C} {label : ClientLabel}

/-- What the move of a client leaves alone: all names but its own, the channels of the
    other clients, and the server's channel but for a message that it adds. -/
structure ClientFrame (x : Int32) (d : C) (client : Client C) (shared shared' : Shared C) : Prop where
  names : ∀ name, name ≠ client_name x → mc_open name shared' = mc_open name shared
  channels : ∀ c ≠ d, shared'.channels (.client c) = shared.channels (.client c)
  server : (shared'.channels .server).items = (shared.channels .server).items ∨
    client.pc.connected ∧ (shared'.channels .server).items =
      (shared.channels .server).items ++ [client.smsg]

omit [DecidableEq C] in
theorem ClientFrame.refl (x : Int32) (d : C) (client : Client C) (shared : Shared C) :
    ClientFrame x d client shared shared :=
  ⟨fun _ _ => rfl, fun _ _ => rfl, .inl rfl⟩

omit [DecidableEq C] in
theorem ClientFrame.destroy (x : Int32) (d : C) (client : Client C) (shared : Shared C) :
    ClientFrame x d client shared (mc_destroy (client_name x) shared) := by
  refine ⟨?_, fun _ _ => rfl, .inl rfl⟩
  intro name hname
  simp only [mc_open, mc_destroy, Function.update_of_ne hname]

theorem ClientMove.clientFrame {x : Int32} {client : Client C}
    (hmove : ClientMove x d shared client label shared' client')
    (hsmc : client.pc.connected → client.smc = .server) : ClientFrame x d client shared shared' := by
  cases hmove with
  | create hpc hcreate =>
    obtain ⟨_, hnames, hchannels⟩ := mc_create_eq_some hcreate
    refine ⟨?_, ?_, .inl ?_⟩
    · intro name hname
      simp only [mc_open, hnames, Function.update_of_ne hname]
    · intro c hcd
      rw [hchannels, Function.update_of_ne (by simpa using hcd)]
    · rw [hchannels, Function.update_of_ne (by simp)]
  | put hpc hput =>
    obtain ⟨hnames, hchannels⟩ := mc_put_eq_some hput
    have hconnected : client.pc.connected := by simp [hpc, ClientPc.connected]
    rw [hsmc hconnected] at hchannels
    refine ⟨?_, ?_, .inr ⟨hconnected, ?_⟩⟩
    · intro name _
      rw [mc_open, mc_open, hnames]
    · intro c _
      rw [hchannels, Function.update_of_ne (by simp)]
    · rw [hchannels, Function.update_self]
  | get hpc hget =>
    obtain ⟨hnames, _, _, hchannels⟩ := mc_get_eq_some hget
    refine ⟨?_, ?_, .inl ?_⟩
    · intro name _
      rw [mc_open, mc_open, hnames]
    · intro c hcd
      rw [hchannels, Function.update_of_ne (by simpa using hcd)]
    · rw [hchannels, Function.update_of_ne (by simp)]
  | create_failed | connect | eof | empty | line => exact .refl x d client shared
  | connect_failed | cleanup => exact .destroy x d client shared

theorem ServerOk.client_frame (h : ServerOk pid shared server)
    (hclient : ClientOk server_pid pid shared server d (clients d))
    (hframe : ClientFrame (pid d) d (clients d) shared shared') : ServerOk pid shared' server := by
  have hopen := hframe.names _ (client_name_ne_server (pid d)).symm
  refine ⟨?_, ?_, h.running, h.base, h.name, h.rmc, ?_⟩
  · intro hpc
    obtain ⟨hnone, hitems⟩ := h.unopened hpc
    rw [hopen]
    refine ⟨hnone, ?_⟩
    rcases hframe.server with hsame | ⟨hconnected, _⟩
    · rw [hsame, hitems]
    · exact absurd hpc (hclient.smc hconnected).2
  · rw [hopen]
    exact h.opened
  · intro m hm
    rcases hframe.server with hsame | ⟨hconnected, hadded⟩
    · rw [hsame] at hm
      exact h.senders m hm
    · rw [hadded, List.mem_append, List.mem_singleton] at hm
      rcases hm with hm | rfl
      · exact h.senders m hm
      · exact .inr ⟨d, hclient.sender hconnected⟩

theorem requests_append (x : Int32) (items : List echomsg_t) (m : echomsg_t) :
    requests x (items ++ [m]) = requests x items ++ requests x [m] :=
  List.filter_append items [m]

/-- The other clients see nothing of the move. -/
theorem ClientOk.other (h : ClientOk server_pid pid shared server c (clients c))
    (hclient : ClientOk server_pid pid shared server d (clients d))
    (hinj : Function.Injective pid) (hcd : c ≠ d) (hframe : ClientFrame (pid d) d (clients d) shared shared') :
    ClientOk server_pid pid shared' server c (clients c) := by
  have hchannel := hframe.channels c hcd
  apply h.frame
  · apply hframe.names
    intro hname
    exact hcd (hinj (client_name_injective hname))
  · rw [hchannel]
  · exact id
  · rcases hframe.server with hsame | ⟨hconnected, hadded⟩
    · simp only [outstanding, hchannel, hsame]
    · have hsender : (clients d).smsg.sender ≠ pid c := by
        rw [hclient.sender hconnected]
        exact fun heq => hcd (hinj heq).symm
      simp only [outstanding, hchannel, hadded, requests_append, requests_eq_nil hsender,
        List.append_nil]

/-- Cutting the last character of a line keeps the sender, unless the line is empty. -/
theorem line_msg_sender {smsg : echomsg_t} {line : List UInt8} (hline : Line line)
    (hempty : ¬ (line_msg smsg line).isEmpty) : (line_msg smsg line).sender = smsg.sender := by
  unfold line_msg chop at *
  split at hempty
  · rename_i hlen
    simp only [strlen, List.length_eq_zero_iff] at hlen
    exfalso
    apply hempty
    obtain ⟨b, rest, rfl⟩ := List.exists_cons_of_length_pos hline.1
    simpa [fgets, List.takeWhile_cons, echomsg_t.isEmpty] using hlen
  · rfl

/-- A client that moves without touching its replies stays what it is. -/
theorem ClientOk.own (h : ClientOk server_pid pid shared server d (clients d))
    (hname : client'.pc.live → mc_open (client_name (pid d)) shared' = some (.client d))
    (hlive : client'.pc.live → (clients d).pc.live)
    (hchannels : shared'.channels = shared.channels)
    (hsmc : client'.pc.connected → client'.smc = .server ∧ server.pc ≠ .start)
    (hsender : client'.pc.connected → client'.smsg.sender = pid d)
    (hsent : client'.sent = (clients d).sent) (hreceived : client'.received = (clients d).received)
    (hawaiting : client'.pc = .awaiting ↔ (clients d).pc = .awaiting) :
    ClientOk server_pid pid shared' server d client' where
  name := hname
  capacity hpc := by rw [hchannels, h.capacity (hlive hpc)]
  smc := hsmc
  sender := hsender
  sent := by rw [hsent]; exact h.sent
  replies := by
    rw [hsent, hreceived, ← h.replies]
    simp only [outstanding, hchannels]
  awaited := by
    simp only [hawaiting, ← h.awaited]
    simp only [outstanding, hchannels]

/-- A client that is about to clean up asks for nothing any more. -/
theorem ClientOk.close (h : ClientOk server_pid pid shared server d (clients d)) (smsg : echomsg_t)
    (hlive : (clients d).pc.live) (hpc : (clients d).pc ≠ .awaiting) :
    ClientOk server_pid pid shared server d { clients d with pc := .closing, smsg } := by
  apply h.own
  · exact fun _ => h.name hlive
  · exact fun _ => hlive
  · rfl
  · exact fun hconnected => hconnected.elim
  · exact fun hconnected => hconnected.elim
  · rfl
  · rfl
  · simp [hpc]

/-- A client at an end owns nothing, and what it has got stays. -/
theorem ClientOk.leave (h : ClientOk server_pid pid shared server d (clients d)) {pc : ClientPc}
    (hchannels : shared'.channels = shared.channels) (hend : pc = .ended ∨ pc = .failed)
    (hpc : (clients d).pc ≠ .awaiting) :
    ClientOk server_pid pid shared' server d { clients d with pc } := by
  have hdead : ¬ pc.live := by
    rcases hend with rfl | rfl <;> exact id
  have hunconnected : ¬ pc.connected := fun hconnected => hdead (ClientPc.live_of_connected hconnected)
  apply h.own
  · exact fun hlive => absurd hlive hdead
  · exact fun hlive => absurd hlive hdead
  · exact hchannels
  · exact fun hconnected => absurd hconnected hunconnected
  · exact fun hconnected => absurd hconnected hunconnected
  · rfl
  · rfl
  · rcases hend with rfl | rfl <;> simp [hpc]

/-- Outstanding replies come to the client in the order in which it has asked. -/
theorem ClientOk.get (h : ClientOk server_pid pid shared server d (clients d)) {rmsg : echomsg_t}
    (hpc : (clients d).pc = .awaiting) (hget : mc_get (.client d) shared = some (rmsg, shared')) :
    ClientOk server_pid pid shared' server d { clients d with
      pc := .prompt, received := (clients d).received ++ [rmsg] } := by
  obtain ⟨hnames, items, hitems, hchannels⟩ := mc_get_eq_some hget
  have hlive : (clients d).pc.live := by simp [hpc, ClientPc.live]
  have hconnected : (clients d).pc.connected := by simp [hpc, ClientPc.connected]
  have hserver : shared'.channels .server = shared.channels .server := by
    rw [hchannels, Function.update_of_ne (by simp)]
  have hown : (shared'.channels (.client d)).items = items := by
    rw [hchannels, Function.update_self]
  have houtstanding : outstanding server_pid pid shared server d =
      rmsg :: outstanding server_pid pid shared' server d := by
    simp only [outstanding, hserver, hown, hitems, List.cons_append]
  refine ⟨?_, ?_, fun _ => h.smc hconnected, fun _ => h.sender hconnected, h.sent, ?_, ?_⟩
  · intro _
    rw [mc_open, hnames]
    exact h.name hlive
  · intro _
    rw [hchannels, Function.update_self]
    exact h.capacity hlive
  · rw [← h.replies, houtstanding, List.append_assoc, List.singleton_append]
  · have hawaited := h.awaited
    rw [houtstanding, if_pos hpc, List.length_cons] at hawaited
    rw [if_neg (by simp)]
    omega

theorem ClientOk.put (h : ClientOk server_pid pid shared server d (clients d))
    (hpc : (clients d).pc = .ready)
    (hput : mc_put (clients d).smc (clients d).smsg shared = some shared') :
    ClientOk server_pid pid shared' server d { clients d with
      pc := .awaiting, sent := (clients d).sent ++ [(clients d).smsg] } := by
  obtain ⟨hnames, hchannels⟩ := mc_put_eq_some hput
  have hlive : (clients d).pc.live := by simp [hpc, ClientPc.live]
  have hconnected : (clients d).pc.connected := by simp [hpc, ClientPc.connected]
  rw [(h.smc hconnected).1] at hchannels
  have hown : shared'.channels (.client d) = shared.channels (.client d) := by
    rw [hchannels, Function.update_of_ne (by simp)]
  have hserver : (shared'.channels .server).items =
      (shared.channels .server).items ++ [(clients d).smsg] := by
    rw [hchannels, Function.update_self]
  have hrequest : requests (pid d) [(clients d).smsg] = [(clients d).smsg] :=
    List.filter_cons_of_pos (by simpa using h.sender hconnected)
  have houtstanding : outstanding server_pid pid shared' server d =
      outstanding server_pid pid shared server d ++ [reply server_pid (clients d).smsg] := by
    simp only [outstanding, hown, hserver, requests_append, hrequest, List.map_append, List.map_cons,
      List.map_nil, List.append_assoc]
  refine ⟨?_, ?_, fun _ => h.smc hconnected, fun _ => h.sender hconnected, ?_, ?_, ?_⟩
  · intro _
    rw [mc_open, hnames]
    exact h.name hlive
  · intro _
    rw [hown]
    exact h.capacity hlive
  · intro m hm
    rcases List.mem_append.1 hm with hm | hm
    · exact h.sent m hm
    · obtain rfl := List.mem_singleton.1 hm
      exact h.sender hconnected
  · rw [houtstanding, ← List.append_assoc, h.replies, List.map_append, List.map_singleton]
  · have hawaited := h.awaited
    rw [if_neg (by simp [hpc])] at hawaited
    rw [houtstanding, List.length_append, hawaited, if_pos rfl, List.length_singleton]

theorem ClientOk.create (h : ClientOk server_pid pid shared server d (clients d))
    (hpc : (clients d).pc = .start)
    (hcreate : mc_create (.client d) 1 (client_name (pid d)) shared = some shared') :
    ClientOk server_pid pid shared' server d { clients d with pc := .created } := by
  obtain ⟨_, hnames, hchannels⟩ := mc_create_eq_some hcreate
  -- Nothing is outstanding, so the channel that is replaced was empty.
  have hnone : outstanding server_pid pid shared server d = [] := by
    apply List.eq_nil_of_length_eq_zero
    rw [h.awaited, if_neg (by simp [hpc])]
  have hafter : outstanding server_pid pid shared' server d = [] := by
    simp only [outstanding, List.append_eq_nil_iff] at hnone
    simp only [outstanding, hchannels, Function.update_self, ne_eq, reduceCtorEq, not_false_eq_true,
      Function.update_of_ne, hnone, List.append_nil]
  refine ⟨?_, ?_, fun hconnected => hconnected.elim, fun hconnected => hconnected.elim, h.sent, ?_, ?_⟩
  · intro _
    rw [mc_open, hnames, Function.update_self]
  · intro _
    rw [hchannels, Function.update_self]
  · rw [hafter, ← h.replies, hnone]
  · rw [hafter]
    rfl

theorem ServiceOk.client_client_move (h : ServiceOk server_pid pid shared server clients)
    (hmove : ClientMove (pid d) d shared (clients d) label shared' client') :
    ClientOk server_pid pid shared' server d client' := by
  have hclient := h.of_client d
  cases hmove with
  | create hpc hcreate => exact hclient.create hpc hcreate
  | create_failed hpc => exact hclient.leave rfl (.inr rfl) (by simp [hpc])
  | connect hpc hopen =>
    have hlive : (clients d).pc.live := by simp [hpc, ClientPc.live]
    have hstarted : server.pc ≠ .start := by
      intro hstart
      rw [(h.of_server.unopened hstart).1] at hopen
      cases hopen
    exact hclient.own (fun _ => hclient.name hlive) (fun _ => hlive) rfl
      (fun _ => ⟨h.of_server.opened _ hopen, hstarted⟩) (fun _ => rfl) rfl rfl (by simp [hpc])
  | connect_failed hpc => exact hclient.leave rfl (.inr rfl) (by simp [hpc])
  | eof hpc => exact hclient.close _ (by simp [hpc, ClientPc.live]) (by simp [hpc])
  | empty hpc hline hempty => exact hclient.close _ (by simp [hpc, ClientPc.live]) (by simp [hpc])
  | line hpc hline hempty =>
    have hlive : (clients d).pc.live := by simp [hpc, ClientPc.live]
    have hconnected : (clients d).pc.connected := by simp [hpc, ClientPc.connected]
    exact hclient.own (fun _ => hclient.name hlive) (fun _ => hlive) rfl
      (fun _ => hclient.smc hconnected)
      (fun _ => (line_msg_sender hline hempty).trans (hclient.sender hconnected)) rfl rfl
      (by simp [hpc])
  | put hpc hput => exact hclient.put hpc hput
  | get hpc hget => exact hclient.get hpc hget
  | cleanup hpc => exact hclient.leave rfl (.inl rfl) (by simp [hpc])

theorem ServiceOk.client_move (h : ServiceOk server_pid pid shared server clients)
    (hinj : Function.Injective pid)
    (hmove : ClientMove (pid d) d shared (clients d) label shared' client') :
    ServiceOk server_pid pid shared' server (Function.update clients d client') := by
  have hframe := hmove.clientFrame fun hconnected => ((h.of_client d).smc hconnected).1
  refine ⟨h.of_server.client_frame (h.of_client d) hframe, ?_⟩
  intro c
  by_cases hcd : c = d
  · subst hcd
    rw [Function.update_self]
    exact h.client_client_move hmove
  · rw [Function.update_of_ne hcd]
    exact (h.of_client c).other (h.of_client d) hinj hcd hframe

end oslabs.echo
