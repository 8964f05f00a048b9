import Mathlib.Data.Fintype.EquivFin
import OsLabs.Async.Delivery
import OsLabs.Async.Fidelity

open oslabs.memory oslabs.run oslabs.sweep

namespace oslabs.async

/-- What has come from the last client of a descriptor, message by message, and whether its
    connection is open. -/
structure Talk where
  reads : List (List UInt8)
  isOpen : Bool

def Talk.after (fd : Nat) (t : Talk) : Io → Talk
  | .accept conn_fd => if conn_fd = fd then ⟨[], true⟩ else t
  | .read conn_fd bytes => if conn_fd = fd then { t with reads := t.reads ++ [bytes] } else t
  | .write _ _ => t
  | .close conn_fd => if conn_fd = fd then { t with isOpen := false } else t

def talk (fd : Nat) (calls : List Io) : Talk :=
  calls.foldl (Talk.after fd) ⟨[], false⟩

/-- A message that closes a connection: the end of the stream, or the command. -/
def Final (data : List UInt8) : Prop := data = [] ∨ Command QUIT data

instance (data : List UInt8) : Decidable (Final data) := inferInstanceAs (Decidable (_ ∨ _))

/-- A connection goes on with a message. -/
def Talk.hear (t : Talk) (data : List UInt8) : Talk :=
  ⟨t.reads ++ [data], t.isOpen && !decide (Final data)⟩

/-- A connection is open as long as no message has closed it. When it is closed, the last message
    has closed it, if there is one. -/
def Talk.Prompt (t : Talk) : Prop :=
  if t.isOpen then ∀ data ∈ t.reads, ¬ Final data
  else t.reads = [] ∨ ∃ before data, t.reads = before ++ [data] ∧ Final data ∧ ∀ other ∈ before, ¬ Final other

variable {t : Talk} {fd conn_fd : Nat} {data : List UInt8} {calls more : List Io} {buf : Memory}

theorem talk_append (fd : Nat) (calls more : List Io) :
    talk fd (calls ++ more) = more.foldl (Talk.after fd) (talk fd calls) := List.foldl_append

theorem closes_iff_final : closes buf data = true ↔ Final data := by
  have hquit : is_command (received buf data) QUIT = true ↔ Command QUIT data :=
    is_command_received_iff buf rfl (by decide)
  rw [closes, closing, Bool.or_eq_true, decide_eq_true_iff, List.length_eq_zero_iff]
  exact or_congr_right hquit

theorem Talk.Prompt.hear (h : t.Prompt) (hopen : t.isOpen = true) (data : List UInt8) : (t.hear data).Prompt := by
  rw [Prompt, if_pos hopen] at h
  by_cases hfinal : Final data
  · rw [Prompt, if_neg (by simp [Talk.hear, hfinal])]
    exact .inr ⟨t.reads, data, rfl, hfinal, h⟩
  · rw [Prompt, if_pos (by simp [Talk.hear, hfinal, hopen])]
    intro other hother
    rcases List.mem_append.1 hother with hold | hnew
    · exact h other hold
    · rwa [List.mem_singleton.1 hnew]

/-- A connection on which nothing has come is closed promptly, whether it is open or refused. -/
theorem Talk.prompt_of_nil (h : t.reads = []) : t.Prompt := by
  rw [Prompt, h]
  split
  · simp
  · exact .inl rfl

end oslabs.async

namespace oslabs.async.polling

/-- A call without what it returns. -/
def made : Io → Event
  | .accept fd => .accept fd
  | .read fd _ => .read fd
  | .write fd bytes => .write fd bytes
  | .close fd => .close fd

variable {s s' : State} {round : Round} {data : Nat → List UInt8} {buf : Memory} {calls : List Io} {fd : Nat}

theorem map_made_heard (data : Nat → List UInt8) (events : List Event) :
    (events.map (heard data)).map made = events := by
  have hmade : made ∘ heard data = id := by
    funext event
    cases event <;> rfl
  rw [List.map_map, hmade, List.map_id]

/-- A connection is open for the calls when it is open for the server's history. -/
theorem isOpen_of_lifetime {isOpen : Bool} (h : lifetime fd (calls.map made) = some isOpen) :
    (talk fd calls).isOpen = isOpen := by
  induction calls using List.reverseRecOn generalizing isOpen with
  | nil => exact Option.some.inj h
  | append_singleton calls call ih =>
    rw [List.map_append, lifetime, List.foldlM_append] at h
    obtain ⟨before, hbefore, hlast⟩ := Option.bind_eq_some_iff.1 h
    have hlast : follow fd before (made call) = some isOpen := by simpa using hlast
    have hopen := ih hbefore
    rw [talk_append, List.foldl_cons, List.foldl_nil]
    unfold follow at hlast
    cases call with
    | accept conn_fd =>
      by_cases hfd : conn_fd = fd
      · simp_all [made, Talk.after]
      · simp_all [made, Talk.after]
    | read conn_fd bytes =>
      by_cases hfd : conn_fd = fd
      · simp_all [made, Talk.after]
      · simp_all [made, Talk.after]
    | write conn_fd bytes => simp_all [made, Talk.after]
    | close conn_fd =>
      by_cases hfd : conn_fd = fd
      · simp_all [made, Talk.after]
      · simp_all [made, Talk.after]

section Visits

theorem talk_visit (client : pollfd) (fd : Nat) :
    talk fd (calls ++ (visit buf data client).map (heard data)) =
      if client.fd = fd then (talk fd calls).hear (data fd) else talk fd calls := by
  have hwrite : ∀ t : Talk, ((if (data client.fd).length > 0 then [Event.write client.fd (data client.fd)]
      else []).map (heard data)).foldl (Talk.after fd) t = t := by
    intro t
    split <;> rfl
  have hleaves : leaves buf data client ↔ Final (data client.fd) := closes_iff_final
  rw [talk_append, visit, List.map_cons, List.foldl_cons, List.map_append, List.foldl_append, hwrite]
  by_cases hfd : client.fd = fd
  · subst hfd
    by_cases hfinal : Final (data client.fd)
    · rw [if_pos (hleaves.2 hfinal)]
      simp [heard, Talk.after, Talk.hear, hfinal]
    · rw [if_neg (fun h => hfinal (hleaves.1 h))]
      simp [heard, Talk.after, Talk.hear, hfinal]
  · rw [if_neg hfd]
    split
    · simp [heard, Talk.after, hfd]
    · simp [heard, Talk.after, hfd]

/-- Visits to some clients, each but once, take each of their connections one message further. -/
theorem talk_visits {visited : List pollfd} (fd : Nat) (hdistinct : (visited.map (·.fd)).Nodup) :
    talk fd (calls ++ (visited.flatMap (visit buf data)).map (heard data)) =
      if fd ∈ visited.map (·.fd) then (talk fd calls).hear (data fd) else talk fd calls := by
  induction visited generalizing calls with
  | nil => simp
  | cons client visited ih =>
    rw [List.map_cons] at hdistinct ⊢
    obtain ⟨hother, hdistinct⟩ := List.nodup_cons.1 hdistinct
    rw [List.flatMap_cons, List.map_append, ← List.append_assoc, ih hdistinct, talk_visit]
    by_cases hfd : client.fd = fd
    · subst hfd
      rw [if_neg hother, if_pos rfl, if_pos List.mem_cons_self]
    · have hmem : fd ∈ client.fd :: visited.map (·.fd) ↔ fd ∈ visited.map (·.fd) := by simp [Ne.symm hfd]
      rw [if_neg hfd]
      simp only [hmem]

end Visits

section Runs

/-- A pass that does not exit visits some of the connections, each but once, and all that `poll`
    has reported when it accepts no other one. -/
theorem exists_visited (h : Connected s) (hlegal : Legal s round) (hstays : ¬ Exits round) :
    ∃ s' visited, iteration s round = some s' ∧ Visits s.buf round.data (arrived s round) visited s' ∧
      (visited.map (·.fd)).Nodup ∧ (∀ fd ∈ visited.map (·.fd), fd ∈ connections (arrived s round)) ∧
      (¬ Accepts round → ∀ client ∈ reported s round, client ∈ visited) := by
  obtain ⟨budget, hbudget, hreported, _⟩ := budget_eq h.toTable hlegal
  have harrived := h.arrived hlegal
  obtain ⟨s', visited, kept, hserve, hsweep, _, _, hvisits⟩ :=
    serve_clients_sweep s.buf round.data budget harrived.low harrived.room
  have hdistinct : (connections (arrived s round)).Nodup :=
    (List.nodup_cons.1 (List.nodup_cons.1 harrived.distinct).2).2
  obtain ⟨same, hperm, hsublist⟩ := hsweep.visited_subperm
  have hfds : (same.map (·.fd)).Sublist (connections (arrived s round)) := hsublist.map _
  refine ⟨s', visited, ?_, hvisits, ?_, ?_, ?_⟩
  · rw [iteration_of_not_exits h.toTable hlegal hstays, hbudget, hserve]
  · exact (hperm.map _).nodup_iff.1 (hdistinct.sublist hfds)
  · intro fd hfd
    exact hfds.subset ((hperm.map _).mem_iff.2 hfd)
  · intro haccept client hclient
    rw [entries_arrived fun hplaces => haccept hplaces.1] at hsweep
    exact (hsweep.visited_perm hreported).mem_iff.2 hclient

/-- The calls so far are those of the server, and every connection is closed promptly. -/
structure Talking (t : State × List Io) : Prop where
  connected : Connected t.1
  calls : t.2.map made = t.1.history
  prompt : ∀ fd, (talk fd t.2).Prompt

theorem Talking.isOpen (h : Talking (s, calls)) (fd : Nat) :
    (talk fd calls).isOpen = decide (fd ∈ connections s) := by
  apply isOpen_of_lifetime
  rw [h.calls]
  exact h.connected.lifetimes fd

/-- A connection that was just accepted has sent nothing, and the others are as they were. -/
theorem talk_arrivals (s : State) (round : Round) (data : Nat → List UInt8) (fd : Nat) :
    talk fd (calls ++ (arrivals s round).map (heard data)) = talk fd calls ∨
      (talk fd (calls ++ (arrivals s round).map (heard data))).reads = [] := by
  rw [talk_append]
  by_cases hfd : round.conn_fd = fd
  · unfold arrivals
    split
    · right
      split <;> simp [heard, Talk.after, hfd]
    · exact .inl rfl
  · left
    unfold arrivals
    split
    · split <;> simp [heard, Talk.after, hfd]
    · rfl

/-- To accept a connection, or to refuse it, leaves all of them closed promptly. -/
theorem Talking.arrived (h : Talking (s, calls)) (hlegal : Legal s round) (data : Nat → List UInt8) :
    Talking (arrived s round, calls ++ (arrivals s round).map (heard data)) := by
  refine ⟨h.connected.arrived hlegal, ?_, fun fd => ?_⟩
  · rw [List.map_append, map_made_heard, h.calls, arrived_history]
  · rcases talk_arrivals s round data fd with hsame | hnone
    · rw [hsame]
      exact h.prompt fd
    · exact Talk.prompt_of_nil hnone

/-- Visits to some connections, each but once, leave all of them closed promptly. -/
theorem Talking.visited (h : Talking (s, calls)) {visited : List pollfd} (hconnected : Connected s')
    (hvisits : Visits buf data s visited s') (hdistinct : (visited.map (·.fd)).Nodup)
    (hopen : ∀ fd ∈ visited.map (·.fd), fd ∈ connections s) :
    Talking (s', calls ++ (visited.flatMap (visit buf data)).map (heard data)) := by
  refine ⟨hconnected, ?_, fun fd => ?_⟩
  · rw [List.map_append, map_made_heard, h.calls, hvisits.history]
  · rw [talk_visits fd hdistinct]
    split
    · apply (h.prompt fd).hear
      rw [h.isOpen, decide_eq_true_iff]
      exact hopen fd ‹_›
    · exact h.prompt fd

/-- A step that does not end the server keeps all connections closed promptly. -/
theorem Talking.step {calls' : List Io} (h : Talking (s, calls)) (hstep : Observed (s, calls) round (s', calls'))
    (hrunning : s'.ended = false) : Talking (s', calls') := by
  obtain ⟨⟨hended, hlegal, hiteration⟩, hcalls⟩ := hstep
  have hstays : ¬ Exits round := by
    intro hexits
    obtain ⟨last, hlast, hlast_ended, _⟩ := shutdown_history (h.connected.toTable.polled hlegal)
    rw [iteration_of_exits h.connected.toTable hlegal hexits, hlast] at hiteration
    obtain rfl := Option.some.inj hiteration
    rw [hlast_ended] at hrunning
    cases hrunning
  obtain ⟨last, hlast, _, hnext⟩ := h.connected.iteration hlegal hended
  obtain rfl := Option.some.inj (hlast.symm.trans hiteration)
  rw [if_neg (by simp [hrunning])] at hnext
  obtain ⟨_, visited, hsame, hvisits, hdistinct, hopen, _⟩ := exists_visited h.connected hlegal hstays
  obtain rfl := Option.some.inj (hsame.symm.trans hiteration)
  have hvisited := (h.arrived hlegal round.data).visited hnext hvisits hdistinct hopen
  have hdrop : ∀ more, (s.history ++ more).drop s.history.length = more := fun more => List.drop_left
  simp only at hcalls
  rwa [hcalls, hvisits.history, arrived_history, List.append_assoc, hdrop, List.map_append, ← List.append_assoc]

theorem talking_of_run {main_fd : Nat} {clients : List pollfd} {rounds : List Round}
    (hclients : clients.length = MAX_CLIENTS) (hmain : main_fd ≠ 0)
    (hrun : Run Observed (start main_fd clients buf, []) rounds (s, calls)) (hrunning : s.ended = false) :
    Talking (s, calls) := by
  refine hrun.invariant (fun t => t.1.ended = false → Talking t) ?_ ?_ hrunning
  · exact fun _ => ⟨start_connected buf hclients hmain, rfl, fun fd => .inl rfl⟩
  · rintro ⟨s, calls⟩ round ⟨s', calls'⟩ htalking hstep hrunning
    exact (htalking hstep.1.1).step hstep hrunning

end Runs

/-- A client that sends some messages and goes away has been served in some calls of the server:
    it has been read, as far as it was, and its connection has been closed. -/
structure Served (chunks : List (List UInt8)) (fd : Nat) (calls : List Io) : Prop where
  run : ∃ main_fd clients buf rounds s, clients.length = MAX_CLIENTS ∧ main_fd ≠ 0 ∧
    Run Observed (start main_fd clients buf, []) rounds (s, calls) ∧ s.ended = false
  heard : (talk fd calls).reads ≠ []
  sent : (talk fd calls).reads <+: chunks ++ [[]]
  closed : (talk fd calls).isOpen = false

/-- What has ended the connection: the one command there is, by the place in the stream where its
    message begins, or the end of the stream. -/
def EndedBy (fd : Nat) (calls : List Io) : Option (Nat × List UInt8) → Prop
  | some (p, word) => ∃ before data, (talk fd calls).reads = before ++ [data] ∧ data ≠ [] ∧
      word = QUIT ∧ p = before.flatten.length
  | none => ∃ before, (talk fd calls).reads = before ++ [[]]

theorem EndedBy.eq {e e' : Option (Nat × List UInt8)} (h : EndedBy fd calls e) (h' : EndedBy fd calls e') :
    e = e' := by
  have hlast : ∀ {before before' : List (List UInt8)} {data data' : List UInt8},
      (talk fd calls).reads = before ++ [data] → (talk fd calls).reads = before' ++ [data'] →
        before = before' ∧ data = data' := by
    intro before before' data data' hreads hreads'
    obtain ⟨hbefore, hdata⟩ := List.append_inj' (hreads.symm.trans hreads') rfl
    exact ⟨hbefore, List.singleton_inj.1 hdata⟩
  match e, e' with
  | none, none => rfl
  | none, some _ =>
    obtain ⟨before, hreads⟩ := h
    obtain ⟨before', data, hreads', hdata, _⟩ := h'
    exact absurd (hlast hreads hreads').2.symm hdata
  | some _, none =>
    obtain ⟨before, data, hreads, hdata, _⟩ := h
    obtain ⟨before', hreads'⟩ := h'
    exact absurd (hlast hreads hreads').2 hdata
  | some (p, word), some (p', word') =>
    obtain ⟨before, data, hreads, _, rfl, rfl⟩ := h
    obtain ⟨before', data', hreads', _, rfl, rfl⟩ := h'
    rw [(hlast hreads hreads').1]

/-- A client that has been served was closed by the first command there is. -/
theorem Served.exists_endedBy {bytes : List UInt8} {chunks : List (List UInt8)} (h : Served chunks fd calls)
    (hcut : Cutting bytes chunks) : ∃ e, EndedBy fd calls e ∧ Ends [QUIT] chunks e := by
  obtain ⟨⟨main_fd, clients, buf, rounds, s, hclients, hmain, hrun, hrunning⟩, hheard, hsent, hclosed⟩ := h
  have hlength : ∀ word ∈ [QUIT], word.length = 4 := by decide
  have hprompt := (talking_of_run hclients hmain hrun hrunning).prompt fd
  rw [Talk.Prompt, if_neg (by simp [hclosed])] at hprompt
  obtain ⟨before, data, hreads, hfinal, hearlier⟩ := hprompt.resolve_left hheard
  rw [hreads] at hsent
  simp only [Final, not_or] at hearlier
  rcases hfinal with rfl | hcommand
  · -- The stream has been read to its end, and there was no command.
    obtain ⟨more, hmore⟩ := hsent
    rw [List.append_assoc, List.singleton_append] at hmore
    obtain ⟨rfl, _⟩ := (List.append_cons_inj_of_notMem hcut.nil_notMem (by simp)).1 hmore.symm
    refine ⟨none, ⟨chunks, hreads⟩, ?_⟩
    rw [ends_none_iff hlength hcut.nil_notMem]
    intro other hother word hword
    rw [List.mem_singleton.1 hword]
    exact (hearlier other hother).2
  · have hdata : data ≠ [] := by
      rintro rfl
      exact absurd hcommand (by decide)
    have hinside : before ++ [data] <+: chunks := by
      rcases List.prefix_concat_iff.1 hsent with hall | hinside
      · obtain ⟨_, hlast⟩ := List.append_inj' hall rfl
        exact absurd (List.singleton_inj.1 hlast) hdata
      · exact hinside
    obtain ⟨after, rfl⟩ := hinside
    have hsplit : before ++ [data] ++ after = before ++ data :: after := by simp
    have hdelivered := (command_iff_delivered rfl hcut.nil_notMem hsplit).1 hcommand
    refine ⟨some (before.flatten.length, QUIT), ⟨before, data, hreads, hdata, rfl, rfl⟩, ?_⟩
    rw [ends_some_iff hlength hcut.nil_notMem]
    refine ⟨by simp, hdelivered, before, data, after, hsplit, rfl, ⟨QUIT, by simp, hcommand⟩, ?_⟩
    rintro other hother ⟨word, hword, hother_command⟩
    rw [List.mem_singleton.1 hword] at hother_command
    exact (hearlier other hother).2 hother_command

/-- The poll server ends a connection by the first word that comes as a command. -/
theorem endedBy_iff_ends {bytes : List UInt8} {chunks : List (List UInt8)} (hcut : Cutting bytes chunks)
    (hserved : Served chunks fd calls) (e : Option (Nat × List UInt8)) :
    EndedBy fd calls e ↔ Ends [QUIT] chunks e := by
  obtain ⟨first, hended, hends⟩ := hserved.exists_endedBy hcut
  constructor
  · intro h
    rwa [h.eq hended]
  · intro h
    rwa [h.eq (by decide) hends]

section Exists

/-- `poll` reports all clients, and each has sent the same. -/
def hearing (s : State) (conn_fd : Nat) (data : List UInt8) : Round where
  revents := 0 :: 0 :: List.replicate (s.nclients - 2) POLLRDNORM
  conn_fd
  data _ := data

theorem hearing_legal (h : Table s) {conn_fd : Nat} (hfresh : conn_fd ∉ s.opened) {data : List UInt8}
    (hsize : data.length ≤ BUFSIZE) : Legal s (hearing s conn_fd data) where
  revents := by
    have hlow := h.low
    simp only [hearing, List.length_cons, List.length_replicate]
    omega
  fresh := hfresh
  data _ := hsize

theorem hearing_reported (h : Connected s) {conn_fd : Nat} {data : List UInt8}
    (hlegal : Legal s (hearing s conn_fd data)) (hfd : fd ∈ connections s) :
    ∃ client ∈ reported s (hearing s conn_fd data), client.fd = fd := by
  have hfds := fds_polled h.toTable hlegal
  have hrevents := congrArg (List.drop 2) (revents_polled h.toTable hlegal)
  rw [connections, List.map_drop, ← hfds, ← List.map_drop] at hfd
  obtain ⟨client, hclient, rfl⟩ := List.mem_map.1 hfd
  refine ⟨client, List.mem_filter.2 ⟨hclient, ?_⟩, rfl⟩
  have hmem : client.revents ∈ List.replicate (s.nclients - 2) POLLRDNORM := by
    rw [← List.map_drop] at hrevents
    have hdrop : (hearing s conn_fd data).revents.drop 2 = List.replicate (s.nclients - 2) POLLRDNORM := rfl
    rw [← hdrop, ← hrevents]
    exact List.mem_map_of_mem hclient
  rw [decide_eq_true_iff, ready, List.eq_of_mem_replicate hmem]
  decide

/-- An open connection can go on with any message. -/
theorem Talking.exists_hear (h : Talking (s, calls)) (hrunning : s.ended = false)
    (hopen : (talk fd calls).isOpen = true) {data : List UInt8} (hsize : data.length ≤ BUFSIZE) :
    ∃ round s' calls', Observed (s, calls) round (s', calls') ∧ s'.ended = false ∧
      talk fd calls' = (talk fd calls).hear data := by
  obtain ⟨conn_fd, hfresh⟩ := Infinite.exists_notMem_finset s.opened
  have hlegal := hearing_legal h.connected.toTable hfresh hsize
  have hstays : ¬ Exits (hearing s conn_fd data) := by simp [Exits, hearing]
  have haccept : ¬ Accepts (hearing s conn_fd data) := by simp [Accepts, hearing]
  obtain ⟨s', visited, hiteration, hvisits, hdistinct, _, hreported⟩ :=
    exists_visited h.connected hlegal hstays
  have hnone : arrivals s (hearing s conn_fd data) = [] := if_neg haccept
  have hhistory : s'.history = s.history ++ visited.flatMap (visit s.buf fun _ => data) := by
    rw [hvisits.history, arrived_history, hnone, List.append_nil]
    rfl
  refine ⟨hearing s conn_fd data, s', _, observed_of_step ⟨hrunning, hlegal, hiteration⟩, ?_, ?_⟩
  · rw [hvisits.ended, arrived_ended, hrunning]
  · rw [h.isOpen, decide_eq_true_iff] at hopen
    obtain ⟨client, hclient, rfl⟩ := hearing_reported h.connected hlegal hopen
    have hvisited := List.mem_map_of_mem (f := (·.fd)) (hreported haccept client hclient)
    rw [hhistory, List.drop_left]
    exact (talk_visits _ hdistinct).trans (if_pos hvisited)

/-- A first client can send anything, up to the message that closes its connection. -/
theorem exists_heard {messages : List (List UInt8)} (hsize : ∀ data ∈ messages, data.length ≤ BUFSIZE) :
    ∃ rounds s calls, Run Observed (start 3 (List.replicate MAX_CLIENTS ⟨0, 0, 0⟩) fun _ => 0, []) rounds
      (s, calls) ∧ s.ended = false ∧ (talk 4 calls).reads <+: messages ∧
        ((talk 4 calls).reads = messages ∧ (talk 4 calls).isOpen = true ∨
          (talk 4 calls).reads ≠ [] ∧ (talk 4 calls).isOpen = false) := by
  induction messages using List.reverseRecOn with
  | nil =>
    have hlegal : Legal (start 3 (List.replicate MAX_CLIENTS ⟨0, 0, 0⟩) fun _ => 0) firstRound :=
      ⟨rfl, by decide, fun _ => Nat.zero_le _⟩
    refine ⟨_, _, _, .snoc .nil (observed_of_step ⟨rfl, hlegal, rfl⟩), rfl, ?_, .inl ⟨rfl, rfl⟩⟩
    exact List.prefix_refl []
  | append_singleton messages data ih =>
    obtain ⟨rounds, s, calls, hrun, hrunning, hsent, ⟨hreads, hopen⟩ | hclosed⟩ :=
      ih fun data hdata => hsize data (List.mem_append_left _ hdata)
    · have htalking := talking_of_run (by decide) (by decide) hrun hrunning
      obtain ⟨round, s', calls', hstep, hrunning', htalk⟩ :=
        htalking.exists_hear hrunning hopen (hsize data (by simp))
      have hreads' : (talk 4 calls').reads = messages ++ [data] := by rw [htalk, Talk.hear, hreads]
      refine ⟨_, s', calls', hrun.snoc hstep, hrunning', hreads' ▸ List.prefix_refl _, ?_⟩
      cases hopen' : (talk 4 calls').isOpen with
      | true => exact .inl ⟨hreads', rfl⟩
      | false => exact .inr ⟨by simp [hreads'], rfl⟩
    · exact ⟨rounds, s, calls, hrun, hrunning, hsent.trans (List.prefix_append _ _), .inr hclosed⟩

/-- Whatever a client sends, there is a server that serves it. -/
theorem exists_served {bytes : List UInt8} {chunks : List (List UInt8)} (hcut : Cutting bytes chunks) :
    ∃ fd calls, Served chunks fd calls := by
  have hall : ∀ data ∈ chunks ++ [[]], data.length ≤ BUFSIZE := by
    intro data hdata
    rcases List.mem_append.1 hdata with hold | hnil
    · exact Nat.le_of_lt (hcut.sizes data hold).2
    · rw [List.mem_singleton.1 hnil]
      exact Nat.zero_le _
  obtain ⟨rounds, s, calls, hrun, hrunning, hsent, ⟨hreads, hopen⟩ | ⟨hheard, hclosed⟩⟩ := exists_heard hall
  · -- The end of the stream closes the connection.
    have hprompt := (talking_of_run (by decide) (by decide) hrun hrunning).prompt 4
    rw [Talk.Prompt, if_pos hopen, hreads] at hprompt
    exact absurd (.inl rfl) (hprompt [] (by simp))
  · exact ⟨4, calls, ⟨3, _, _, rounds, s, by decide, by decide, hrun, hrunning⟩, hheard, hsent, hclosed⟩

end Exists

end oslabs.async.polling
