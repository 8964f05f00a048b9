import OsLabs.Async.Capacity
import OsLabs.Async.Connections
import OsLabs.Async.Exchange

open oslabs.memory oslabs.run oslabs.sweep

namespace oslabs.async.polling

/-- A call with what it returns in a round. -/
def heard (data : Nat → List UInt8) : Event → Io
  | .accept fd => .accept fd
  | .read fd => .read fd (data fd)
  | .write fd bytes => .write fd bytes
  | .close fd => .close fd

/-- A step of the server, with the calls so far. -/
def Observed (t : State × List Io) (round : Round) (t' : State × List Io) : Prop :=
  Step t.1 round t'.1 ∧
    t'.2 = t.2 ++ (t'.1.history.drop t.1.history.length).map (heard round.data)

variable {s s' : State} {round : Round} {data : Nat → List UInt8} {buf : Memory} {calls : List Io}

theorem observed_of_step (h : Step s round s') :
    Observed (s, calls) round
      (s', calls ++ (s'.history.drop s.history.length).map (heard round.data)) :=
  ⟨h, rfl⟩

theorem turns_visit (client : pollfd) :
    Turns ((visit buf data client).map (heard data)) (uses buf (data client.fd)) := by
  have hvisit : (visit buf data client).map (heard data) = .read client.fd (data client.fd) ::
      ((if (data client.fd).length > 0 then [.write client.fd (data client.fd)] else []) ++
        if leaves buf data client then [.close client.fd] else []) := by
    unfold visit
    split <;> split <;> rfl
  rw [hvisit]
  exact turns_message _ _ _ _

theorem turns_visits (visited : List pollfd) :
    Turns ((visited.flatMap (visit buf data)).map (heard data))
      (visited.flatMap fun client => uses buf (data client.fd)) := by
  induction visited with
  | nil => exact .nil
  | cons client visited ih =>
    rw [List.flatMap_cons, List.flatMap_cons, List.map_append]
    exact (turns_visit client).append ih

theorem turns_arrivals (s : State) (round : Round) (data : Nat → List UInt8) :
    Turns ((arrivals s round).map (heard data)) [] := by
  unfold arrivals
  split
  · split
    · exact Turns.nil.accept.close
    · exact Turns.nil.accept
  · exact .nil

theorem turns_closes (fds : List Nat) : Turns ((fds.map Event.close).map (heard data)) [] := by
  induction fds using List.reverseRecOn with
  | nil => exact .nil
  | append_singleton fds fd ih =>
    rw [List.map_append, List.map_append]
    exact ih.close

/-- In a pass through its loop the server takes the clients in turn. -/
theorem turns_iteration (h : Table s) (hlegal : Legal s round) (hiteration : iteration s round = some s') :
    ∃ events log, s'.history = s.history ++ events ∧ s'.uses = s.uses ++ log ∧
      Turns (events.map (heard round.data)) log := by
  by_cases hexits : Exits round
  · obtain ⟨last, hlast, _, _, huses, hhistory⟩ := shutdown_history (h.polled hlegal)
    rw [iteration_of_exits h hlegal hexits, hlast] at hiteration
    obtain rfl := Option.some.inj hiteration
    refine ⟨((entries (polled s round)).map (·.fd) ++ [(polled s round).main_fd]).map Event.close, [],
      ?_, ?_, turns_closes _⟩
    · rw [hhistory, List.map_append, List.map_map, ← List.append_assoc]
      rfl
    · rw [huses, List.append_nil]
      rfl
  · obtain ⟨budget, hbudget, _⟩ := budget_eq h hlegal
    obtain ⟨hlow, hroom⟩ := arrived_room h hlegal
    obtain ⟨last, visited, kept, hserve, _, _, _, hvisits⟩ :=
      serve_clients_sweep s.buf round.data budget hlow hroom
    rw [iteration_of_not_exits h hlegal hexits, hbudget, hserve] at hiteration
    obtain rfl := Option.some.inj hiteration
    refine ⟨arrivals s round ++ visited.flatMap (visit s.buf round.data),
      visited.flatMap fun client => uses s.buf (round.data client.fd), ?_, ?_, ?_⟩
    · rw [hvisits.history, arrived_history, List.append_assoc]
    · rw [hvisits.uses, arrived_uses]
    · rw [List.map_append]
      exact (turns_arrivals s round round.data).append (turns_visits visited)

theorem turns_of_run {main_fd : Nat} {clients : List pollfd} {rounds : List Round}
    (hclients : clients.length = MAX_CLIENTS) (hmain : main_fd ≠ 0)
    (hrun : Run Observed (start main_fd clients buf, []) rounds (s, calls)) : Turns calls s.uses := by
  have hkept := hrun.invariant (fun t => (t.1.ended = false → Connected t.1) ∧ Turns t.2 t.1.uses)
    ⟨fun _ => start_connected buf hclients hmain, .nil⟩ ?_
  · exact hkept.2
  rintro ⟨s, calls⟩ round ⟨s', calls'⟩ ⟨hconnected, hturns⟩ ⟨⟨hended, hlegal, hiteration⟩, hcalls⟩
  have hconnected := hconnected hended
  obtain ⟨last, hlast, _, hnext⟩ := hconnected.iteration hlegal hended
  obtain rfl := Option.some.inj (hlast.symm.trans hiteration)
  refine ⟨fun hrunning => ?_, ?_⟩
  · rwa [if_neg (Bool.eq_false_iff.1 hrunning)] at hnext
  · obtain ⟨events, log, hhistory, huses, hevents⟩ := turns_iteration hconnected.toTable hlegal hiteration
    simp only at hcalls
    rw [hcalls, hhistory, List.drop_left, huses]
    exact hturns.append hevents

end oslabs.async.polling

namespace oslabs.async.epoll

/-- The calls that a step makes on the descriptors of connections. -/
def calls (s : State) (label : Label) (s' : State) : List Io :=
  match label, s.pending with
  | .event conn_fd data, pev :: _ =>
    if isExit pev then []
    else if isConnection s pev then
      .accept conn_fd :: if s.nevents = MAX_CLIENTS then [.close conn_fd] else []
    else if isMessage pev then
      .read pev.fd data :: (s'.written.drop s.written.length).map (fun w => .write w.1 w.2) ++
        if closing s'.buf data.length then [.close pev.fd] else []
    else []
  | _, _ => []

/-- A step of the server, with the calls so far. -/
def Observed (t : State × List Io) (label : Label) (t' : State × List Io) : Prop :=
  StepOf step t.1 label t'.1 ∧ t'.2 = t.2 ++ calls t.1 label t'.1

variable {s s' : State} {label : Label} {conn_fd : Nat} {data : List UInt8}

theorem observed_of_step {io : List Io} (h : step s label = some s') :
    Observed (s, io) label (s', io ++ calls s label s') :=
  ⟨h, rfl⟩

/-- Every run can be observed. -/
theorem observed_of_run {first : State} {labels : List Label} (hrun : Run (StepOf step) first labels s) :
    ∃ io, Run Observed (first, []) labels (s, io) := by
  induction hrun with
  | nil => exact ⟨[], .nil⟩
  | snoc _ hstep ih =>
    obtain ⟨io, hobserved⟩ := ih
    exact ⟨_, hobserved.snoc (observed_of_step hstep)⟩

/-- To close a connection or not is nothing that its client is sent, and needs no buffer. -/
theorem written_of_close {last : Prop} [Decidable last] (h : (if last then do
      let s ← epoll_ctl_del s conn_fd
      some (close s conn_fd)
    else some s) = some s') : s'.written = s.written ∧ s'.uses = s.uses := by
  split at h
  · unfold epoll_ctl_del at h
    split at h
    · obtain rfl := Option.some.inj h
      exact ⟨rfl, rfl⟩
    · cases h
  · obtain rfl := Option.some.inj h
    exact ⟨rfl, rfl⟩

/-- What the server writes is the message. -/
theorem serve_client_written (h : serve_client s conn_fd data = some s') :
    s'.written = s.written ++ (if data.length > 0 then [(conn_fd, data)] else []) ∧
      s'.uses = s.uses ++ uses s.buf data := by
  simp only [serve_client, load_received] at h
  by_cases hlen : data.length > 0
  · rw [if_pos hlen] at h ⊢
    obtain ⟨hwritten, huses⟩ := written_of_close h
    exact ⟨hwritten, by simp [huses, uses, hlen]⟩
  · rw [if_neg hlen] at h ⊢
    obtain ⟨hwritten, huses⟩ := written_of_close h
    exact ⟨by rw [hwritten, List.append_nil], by simp [huses, uses, hlen]⟩

/-- The branch of a new connection has no use for the buffer. -/
theorem serve_connection_uses (h : serve_connection s conn_fd = some s') : s'.uses = s.uses := by
  simp only [serve_connection, epoll_ctl_add] at h
  split at h
  · obtain rfl := Option.some.inj h
    rfl
  · split at h
    · cases h
    · obtain rfl := Option.some.inj h
      rfl

/-- A step of the server takes one client in turn. -/
theorem turns_step (hstep : step s label = some s') :
    ∃ log, s'.uses = s.uses ++ log ∧ Turns (calls s label s') log := by
  cases label with
  | epoll_wait =>
    obtain ⟨_, hnext⟩ := Option.ite_none_right_eq_some.1 hstep
    obtain rfl := Option.some.inj hnext
    exact ⟨[], (List.append_nil _).symm, .nil⟩
  | event conn_fd data =>
    cases hpending : s.pending with
    | nil =>
      rw [step, hpending] at hstep
      cases hstep
    | cons pev pending =>
      simp only [step, hpending] at hstep
      obtain ⟨_, hserve⟩ := Option.ite_none_right_eq_some.1 hstep
      simp only [calls, hpending]
      by_cases hexit : isExit pev
      · simp [serve, hexit] at hserve
      rw [if_neg hexit]
      by_cases hconnection : isConnection s pev
      · rw [serve_of_isConnection hexit hconnection] at hserve
        refine ⟨[], by rw [serve_connection_uses hserve, List.append_nil], ?_⟩
        rw [if_pos hconnection]
        split
        · exact Turns.nil.accept.close
        · exact Turns.nil.accept
      rw [if_neg hconnection]
      by_cases hmessage : isMessage pev
      · rw [if_pos hmessage]
        rw [serve_of_isMessage hexit hconnection hmessage] at hserve
        obtain ⟨hwritten, huses⟩ := serve_client_written hserve
        have hwrite : (s'.written.drop s.written.length).map (fun w => Io.write w.1 w.2) =
            if data.length > 0 then [.write pev.fd data] else [] := by
          rw [hwritten, List.drop_left]
          split <;> rfl
        rw [hwrite, List.cons_append]
        exact ⟨uses s.buf data, huses, turns_message _ _ _ _⟩
      · rw [serve_of_not_isMessage hexit hconnection hmessage] at hserve
        obtain rfl := Option.some.inj hserve
        rw [if_neg hmessage]
        exact ⟨[], (List.append_nil _).symm, .nil⟩

theorem turns_of_run {main_fd events_fd : Nat} {buf : Memory} {labels : List Label} {io : List Io}
    (hrun : Run Observed (start main_fd events_fd buf, []) labels (s, io)) : Turns io s.uses := by
  refine hrun.invariant (fun t => Turns t.2 t.1.uses) .nil ?_
  rintro ⟨s, io⟩ label ⟨s', io'⟩ hturns ⟨hstep, hcalls⟩
  obtain ⟨log, huses, hlog⟩ := turns_step hstep
  simp only at hcalls
  rw [hcalls, huses]
  exact hturns.append hlog

end oslabs.async.epoll

namespace oslabs.async

/-- In every run of either server all clients are echoed, and all that the server has used of
    the buffer is inside it just when no message fills the buffer. -/
theorem echoes_inside_iff {main_fd : Nat} {clients : List polling.pollfd} {buf : Memory}
    (hclients : clients.length = MAX_CLIENTS) (hmain : main_fd ≠ 0) :
    (∀ rounds s calls, Run polling.Observed (polling.start main_fd clients buf, []) rounds (s, calls) →
      (Echoes calls ∧ Inside s.uses ↔ Short calls)) ∧
    ∀ events_fd labels s calls, Run epoll.Observed (epoll.start main_fd events_fd buf, []) labels (s, calls) →
      (Echoes calls ∧ Inside s.uses ↔ Short calls) :=
  ⟨fun _ _ _ hrun => (polling.turns_of_run hclients hmain hrun).echoes_inside_iff_short,
    fun _ _ _ _ hrun => (epoll.turns_of_run hrun).echoes_inside_iff_short⟩

/-- The first client says `hi`. -/
def hiRound : polling.Round where
  revents := [0, 0, polling.POLLRDNORM]
  conn_fd := 5
  data _ := [104, 105]

theorem echoes_inside_iff_hi :
    ∃ s calls, Run polling.Observed (polling.start 3 (List.replicate MAX_CLIENTS ⟨0, 0, 0⟩) fun _ => 0, [])
        [polling.firstRound, hiRound] (s, calls) ∧
      calls = [.accept 4, .read 4 [104, 105], .write 4 [104, 105]] ∧
      s.uses = [(0, 2), (2, 1), (0, 3), (0, 2), (0, 4)] ∧ Echoes calls ∧ Inside s.uses := by
  have hrun : Run polling.Observed (polling.start 3 (List.replicate MAX_CLIENTS ⟨0, 0, 0⟩) fun _ => 0, [])
      ([] ++ [polling.firstRound] ++ [hiRound]) _ :=
    .snoc (.snoc .nil (polling.observed_of_step ⟨rfl, ⟨rfl, by decide, fun _ => Nat.zero_le _⟩, rfl⟩))
      (polling.observed_of_step ⟨rfl, ⟨rfl, by decide, fun _ => show 2 ≤ 1024 by decide⟩, rfl⟩)
  have hiff := (echoes_inside_iff (by decide) (by decide)).1 _ _ _ hrun
  refine ⟨_, _, hrun, rfl, by decide +kernel, hiff.mpr ?_⟩
  intro fd data hread
  replace hread : Io.read fd data ∈ [Io.accept 4, .read 4 [104, 105], .write 4 [104, 105]] := hread
  simp only [List.mem_cons, List.not_mem_nil, or_false, Io.read.injEq, reduceCtorEq, false_or] at hread
  obtain ⟨_, rfl⟩ := hread
  decide

/-- A client that has connected has something to read. -/
def hearing : List epoll.Label :=
  [.epoll_wait [⟨3, epoll.EPOLLIN⟩], .event 5 [], .epoll_wait [⟨5, epoll.EPOLLIN⟩]]

/-- It is a message that fills the buffer. -/
theorem echoes_inside_fails : ∃ s calls,
    Run epoll.Observed (epoll.start 3 4 fun _ => 0, []) (hearing ++ [.event 6 (List.replicate BUFSIZE 97)])
      (s, calls) ∧ Echoes calls ∧ ¬ Inside s.uses := by
  have hheard : ∃ s, exec epoll.step (epoll.start 3 4 fun _ => 0) hearing = some s ∧
      (epoll.step s (.event 6 (List.replicate BUFSIZE 97))).isSome ∧
      ∀ s', .read 5 (List.replicate BUFSIZE 97) ∈ epoll.calls s (.event 6 (List.replicate BUFSIZE 97)) s' :=
    ⟨_, rfl, by decide +kernel, fun s' => List.mem_cons_self⟩
  obtain ⟨s, hhearing, hserved, hread⟩ := hheard
  obtain ⟨s', hstep⟩ := Option.isSome_iff_exists.1 hserved
  obtain ⟨before, hbefore⟩ := epoll.observed_of_run (run_stepOf_iff.2 hhearing)
  have hrun := hbefore.snoc (epoll.observed_of_step hstep)
  have hturns := epoll.turns_of_run hrun
  refine ⟨s', _, hrun, hturns.echoes, fun hinside => ?_⟩
  have hshort := hturns.inside_iff_short.1 hinside 5 _ (List.mem_append_right _ (hread s'))
  rw [List.length_replicate] at hshort
  exact lt_irrefl _ hshort

end oslabs.async
