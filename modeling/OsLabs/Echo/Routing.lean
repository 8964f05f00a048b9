import OsLabs.Echo.ClientSteps

open oslabs.memory oslabs.printf oslabs.run

namespace oslabs.echo

variable {C K : Type} [DecidableEq C] {server_pid : Int32} {pid : C → Int32}
  {shared shared' : Shared C} {server server' : Server C} {clients : C → Client C}
  {s s' : State C K}

theorem tmsg_isTermination : tmsg.isTermination = true := by decide

/-- A termination message in the server's channel is nobody's request. -/
theorem ServiceOk.term_put (h : ServiceOk server_pid pid shared server clients)
    (hpos : ∀ c, 0 < pid c) (hstart : server.pc ≠ .start)
    (hput : mc_put .server tmsg shared = some shared') :
    ServiceOk server_pid pid shared' server clients := by
  obtain ⟨hnames, hchannels⟩ := mc_put_eq_some hput
  refine ⟨⟨fun hpc => absurd hpc hstart, ?_, h.of_server.running, h.of_server.base, h.of_server.name,
    h.of_server.rmc, ?_⟩, ?_⟩
  · rw [mc_open, hnames]
    exact h.of_server.opened
  · intro m hm
    rw [hchannels, Function.update_self, List.mem_append, List.mem_singleton] at hm
    rcases hm with hm | rfl
    · exact h.of_server.senders m hm
    · exact .inl tmsg_isTermination
  · intro c
    have hsender := sender_ne_of_isTermination tmsg_isTermination (hpos c)
    apply (h.of_client c).frame
    · rw [mc_open, mc_open, hnames]
    · rw [hchannels, Function.update_of_ne (by simp)]
    · exact id
    · simp only [outstanding, hchannels, ne_eq, reduceCtorEq, not_false_eq_true, Function.update_of_ne,
        Function.update_self, requests_append, requests_eq_nil hsender, List.append_nil]

/-- The service is in order, and terminators know the server's channel only. -/
structure Routed (server_pid : Int32) (pid : C → Int32) (s : State C K) : Prop where
  service : ServiceOk server_pid pid s.shared s.server s.clients
  terms : ∀ k smc, s.terms k = .connected smc → smc = .server ∧ s.server.pc ≠ .start

theorem start_routed {names : List UInt8 → Option (Segment C)} (hfree : names ECHO_SERVICE_SERVER_ID = none)
    (msg smsg : echomsg_t) (resp_ch_name : Memory) :
    Routed server_pid pid (start names msg smsg resp_ch_name : State C K) := by
  refine ⟨⟨⟨fun _ => ⟨hfree, rfl⟩, ?_, by simp [start], fun hpc => absurd rfl hpc, by simp [start],
    by simp [start], by simp [start]⟩, ?_⟩, by simp [start]⟩
  · intro segment hopen
    simp [mc_open, start, hfree] at hopen
  · intro c
    exact ⟨fun hlive => hlive.elim, fun hlive => hlive.elim, fun hconnected => hconnected.elim,
      fun hconnected => hconnected.elim, by simp [start], rfl, rfl⟩

variable [DecidableEq K]

theorem Routed.update_term (h : Routed server_pid pid s) {k : K} {term : TermPc C}
    (hservice : ServiceOk server_pid pid shared s.server s.clients)
    (hterm : ∀ smc, term = .connected smc → smc = .server ∧ s.server.pc ≠ .start) :
    Routed server_pid pid { s with shared, terms := Function.update s.terms k term } := by
  refine ⟨hservice, ?_⟩
  intro j smc hj
  by_cases hjk : j = k
  · subst hjk
    simp only [Function.update_self] at hj
    exact hterm smc hj
  · simp only [Function.update_of_ne hjk] at hj
    exact h.terms j smc hj

theorem Routed.step {label : Label C K} (h : Routed server_pid pid s)
    (hinj : Function.Injective pid) (hpos : ∀ c, 0 < pid c)
    (hstep : step server_pid pid s label = some s') : Routed server_pid pid s' := by
  cases label with
  | server label =>
    obtain ⟨⟨shared, server⟩, hserver, hstep⟩ := Option.bind_eq_some_iff.1 hstep
    obtain rfl := Option.some.inj hstep
    have hmove := serverMove_of_step hserver
    refine ⟨h.service.server_move hinj hpos hmove, ?_⟩
    intro k smc hk
    exact ⟨(h.terms k smc hk).1, hmove.serverFrame.started⟩
  | client c label =>
    obtain ⟨⟨shared, client⟩, hclient, hstep⟩ := Option.bind_eq_some_iff.1 hstep
    obtain rfl := Option.some.inj hstep
    exact ⟨h.service.client_move hinj (clientMove_of_step hclient), h.terms⟩
  | term k label =>
    obtain ⟨⟨shared, term⟩, hterm, hstep⟩ := Option.bind_eq_some_iff.1 hstep
    obtain rfl := Option.some.inj hstep
    rcases term_step_cases hterm with ⟨rfl, hopened⟩ | ⟨smc, hconnected, rfl, hput⟩
    · apply h.update_term h.service
      intro smc hsmc
      have hopen := hopened smc hsmc
      refine ⟨h.service.of_server.opened smc hopen, fun hstart => ?_⟩
      rw [(h.service.of_server.unopened hstart).1] at hopen
      cases hopen
    · obtain ⟨rfl, hstart⟩ := h.terms k smc hconnected
      exact h.update_term (h.service.term_put hpos hstart hput) (by simp)

theorem mc_get_isSome {segment : Segment C} (h : (shared.channels segment).items ≠ []) :
    (mc_get segment shared).isSome := by
  simp only [mc_get]
  split
  · contradiction
  · rfl

/-- While a client waits, the server has something to do or the client has something to get. -/
theorem ServiceOk.progress (h : ServiceOk server_pid pid shared server clients) {c : C}
    (hawaiting : (clients c).pc = .awaiting) (hstopping : server.pc ≠ .stopping)
    (hended : server.pc ≠ .ended) :
    (∃ label, (server_step server_pid shared server label).isSome) ∨
      (client_step (pid c) c shared (clients c) .mc_get).isSome := by
  cases hpc : server.pc with
  | start =>
    refine absurd hpc ((h.of_client c).smc ?_).2
    simp [hawaiting, ClientPc.connected]
  | waiting =>
    by_cases hitems : (shared.channels (.client c)).items = []
    · have hawaited := (h.of_client c).awaited
      have hnone : held server_pid pid server c = [] := held_eq_nil (by simp [hpc]) (by simp [hpc])
      rw [outstanding, hitems, hnone, if_pos hawaiting] at hawaited
      have hrequest : (shared.channels .server).items ≠ [] := by
        intro hempty
        simp [hempty, requests] at hawaited
      obtain ⟨result, hget⟩ := Option.isSome_iff_exists.1 (mc_get_isSome hrequest)
      refine .inl ⟨.mc_get, ?_⟩
      simp only [server_step, hpc, hget, Option.bind_eq_bind, Option.bind_some]
      split <;> rfl
    · obtain ⟨result, hget⟩ := Option.isSome_iff_exists.1 (mc_get_isSome hitems)
      refine .inr ?_
      simp [client_step, hawaiting, hget]
  | received =>
    refine .inl ⟨.mc_open, ?_⟩
    simp only [server_step, hpc]
    split <;> rfl
  | replying rmc =>
    obtain ⟨_, _, _, hitems, hcapacity⟩ := h.reply_channel hpc
    have hput : (mc_put rmc server.msg shared).isSome := by
      apply mc_put_isSome
      rw [hitems, hcapacity]
      exact Nat.zero_lt_one
    obtain ⟨shared', hput⟩ := Option.isSome_iff_exists.1 hput
    refine .inl ⟨.mc_put, ?_⟩
    simp [server_step, hpc, hput]
  | stopping => exact absurd hpc hstopping
  | ended => exact absurd hpc hended
  | failed => exact absurd hpc h.of_server.running

section Run

variable {names : List UInt8 → Option (Segment C)} {msg smsg : echomsg_t} {resp_ch_name : Memory}
  {labels : List (Label C K)}

theorem routed_of_run (hinj : Function.Injective pid) (hpos : ∀ c, 0 < pid c)
    (hfree : names ECHO_SERVICE_SERVER_ID = none)
    (hrun : Run (StepOf (step server_pid pid)) (start names msg smsg resp_ch_name) labels s) :
    Routed server_pid pid s :=
  hrun.invariant _ (start_routed hfree msg smsg resp_ch_name) fun _ _ _ h hstep => h.step hinj hpos hstep

/-- Each client gets the texts it has sent, in order and from the server. What it misses, one
    at most and while it waits, is in its channel, in the hands of the server, or the reply
    to its message in the server's channel. None of its messages ends the server. The reply
    channel that the server looks for is found, and has space when the server puts the reply. -/
theorem echo_of_run (hinj : Function.Injective pid) (hpos : ∀ c, 0 < pid c)
    (hfree : names ECHO_SERVICE_SERVER_ID = none)
    (hrun : Run (StepOf (step server_pid pid)) (start names msg smsg resp_ch_name) labels s) :
    (∀ c, (s.clients c).received ++ outstanding server_pid pid s.shared s.server c =
          (s.clients c).sent.map (reply server_pid) ∧
        (outstanding server_pid pid s.shared s.server c).length =
          if (s.clients c).pc = .awaiting then 1 else 0) ∧
      (∀ c, ∀ m ∈ (s.clients c).sent, m.sender = pid c ∧ ¬ m.isTermination) ∧
      (s.server.pc = .received → ∃ c, s.server.msg.sender = pid c ∧ (s.clients c).pc = .awaiting ∧
        mc_open s.server.name s.shared = some (.client c)) ∧
      ∀ rmc, s.server.pc = .replying rmc →
        (∃ c, rmc = .client c ∧ (s.clients c).pc = .awaiting) ∧
          (mc_put rmc s.server.msg s.shared).isSome := by
  have h := (routed_of_run hinj hpos hfree hrun).service
  refine ⟨?_, ?_, ?_, ?_⟩
  · intro c
    exact ⟨(h.of_client c).replies, (h.of_client c).awaited⟩
  · intro c m hm
    have hsender := (h.of_client c).sent m hm
    refine ⟨hsender, fun hterm => ?_⟩
    exact sender_ne_of_isTermination hterm (hpos c) hsender
  · intro hpc
    obtain ⟨c, hawaiting, hsender, hfound⟩ := h.found hpc
    exact ⟨c, hsender, hawaiting, hfound⟩
  · intro rmc hpc
    obtain ⟨c, hrmc, hawaiting, hitems, hcapacity⟩ := h.reply_channel hpc
    refine ⟨⟨c, hrmc, hawaiting⟩, mc_put_isSome ?_⟩
    rw [hitems, hcapacity]
    exact Nat.zero_lt_one

/-- The text of a message, and what `fgets` has left behind it. -/
def text (line : List UInt8) : List UInt8 := line ++ List.replicate (ECHO_MSG_MAX_LEN - line.length) 0

/-- Two clients have sent a line each. The server has answered one, who has got the text
    back, and holds the message of the other. -/
theorem echo_of_run_two : ∃ (labels : List (Label (Fin 2) Unit)) (s : State (Fin 2) Unit),
    Run (StepOf (step 7 fun c => if c = 0 then 41 else 42))
      (start (fun _ => none) ⟨0, []⟩ ⟨0, []⟩ fun _ => 0) labels s ∧
      (s.clients 1).sent = [⟨42, text [104, 105]⟩] ∧ (s.clients 1).received = [⟨7, text [104, 105]⟩] ∧
      (s.clients 0).sent = [⟨41, text [120]⟩] ∧ (s.clients 0).received = [] ∧
      held 7 (fun c => if c = 0 then 41 else 42) s.server 0 = [⟨7, text [120]⟩] ∧
      ∃ c, mc_open s.server.name s.shared = some (.client c) := by
  obtain ⟨s, hexec, hprompt, hpc, hsent, hsent', hreceived', hitems, hrequests⟩ :
      ∃ s, exec (step 7 fun c => if c = 0 then 41 else 42)
        (start (fun _ => none) ⟨0, []⟩ ⟨0, []⟩ fun _ => 0 : State (Fin 2) Unit)
        [.server .mc_create, .client 0 .mc_create, .client 0 .mc_open, .client 1 .mc_create,
          .client 1 .mc_open, .client 1 (.fgets (some [104, 105, 10])), .client 1 .mc_put,
          .client 0 (.fgets (some [120, 10])), .client 0 .mc_put, .server .mc_get, .server .mc_open,
          .server .mc_put, .client 1 .mc_get, .server .mc_get] = some s ∧
        (s.clients 1).pc = .prompt ∧ s.server.pc = .received ∧
        (s.clients 1).sent = [⟨42, text [104, 105]⟩] ∧ (s.clients 0).sent = [⟨41, text [120]⟩] ∧
        (s.clients 0).received = [] ∧ (s.shared.channels (.client 0)).items = [] ∧
        (s.shared.channels .server).items = [] := ⟨_, rfl, rfl, rfl, rfl, rfl, rfl, rfl, rfl⟩
  have hrun := run_stepOf_iff.2 hexec
  obtain ⟨hreplies, _, hfound, _⟩ := echo_of_run (by decide) (by decide) rfl hrun
  obtain ⟨hreceived, hlength⟩ := hreplies 1
  rw [hprompt, if_neg (by simp), List.length_eq_zero_iff] at hlength
  rw [hlength, List.append_nil, hsent] at hreceived
  obtain ⟨hheld, _⟩ := hreplies 0
  rw [outstanding, hreceived', hsent', hitems, hrequests] at hheld
  simp only [requests, List.filter_nil, List.map_nil, List.append_nil, List.nil_append] at hheld
  obtain ⟨c, _, _, hopen⟩ := hfound hpc
  exact ⟨_, s, hrun, hsent, hreceived, hsent', hreceived', hheld, c, hopen⟩

/-- No client waits for ever on a server that has stopped to do anything. -/
theorem echo_progress_of_run (hinj : Function.Injective pid) (hpos : ∀ c, 0 < pid c)
    (hfree : names ECHO_SERVICE_SERVER_ID = none)
    (hrun : Run (StepOf (step server_pid pid)) (start names msg smsg resp_ch_name) labels s) {c : C}
    (hawaiting : (s.clients c).pc = .awaiting) (hstopping : s.server.pc ≠ .stopping)
    (hended : s.server.pc ≠ .ended) :
    (∃ label, (step server_pid pid s (.server label)).isSome) ∨
      (step server_pid pid s (.client c .mc_get)).isSome := by
  rcases (routed_of_run hinj hpos hfree hrun).service.progress hawaiting hstopping hended with
    ⟨label, hserver⟩ | hclient
  · obtain ⟨result, hserver⟩ := Option.isSome_iff_exists.1 hserver
    refine .inl ⟨label, ?_⟩
    simp [step, hserver]
  · obtain ⟨result, hclient⟩ := Option.isSome_iff_exists.1 hclient
    refine .inr ?_
    simp [step, hclient]

end Run

end oslabs.echo
