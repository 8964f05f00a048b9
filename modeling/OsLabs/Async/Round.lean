import OsLabs.Async.Scan

open oslabs.memory oslabs.loop oslabs.sweep

namespace oslabs.async.polling

/-- The table has the entries that are in use inside it, among them the ones of stdin
    and the listening socket, and what they name is open. -/
structure Table (s : State) : Prop where
  length : s.clients.length = MAX_CLIENTS
  low : 2 ≤ s.nclients
  high : s.nclients ≤ MAX_CLIENTS
  opened : ∀ client ∈ entries s, client.fd ∈ s.opened

theorem Table.room {s : State} (h : Table s) : s.nclients ≤ s.clients.length := by
  rw [h.length]
  exact h.high

/-- The server after the call of `poll`. -/
def polled (s : State) (round : Round) : State := (poll s round.revents).1

/-- `poll` tells the server to exit. -/
def Exits (round : Round) : Prop := ∃ revents ∈ round.revents[0]?, revents &&& POLLRDNORM ≠ 0

/-- `poll` tells the server to accept a connection. -/
def Accepts (round : Round) : Prop := ∃ revents ∈ round.revents[1]?, revents &&& POLLRDNORM ≠ 0

instance (round : Round) : Decidable (Exits round) := inferInstanceAs (Decidable (∃ _ ∈ _, _))

instance (round : Round) : Decidable (Accepts round) := inferInstanceAs (Decidable (∃ _ ∈ _, _))

/-- `poll` reports something for stdin. -/
def StdinReported (round : Round) : Prop := ∃ revents ∈ round.revents[0]?, revents ≠ 0

instance (round : Round) : Decidable (StdinReported round) :=
  inferInstanceAs (Decidable (∃ _ ∈ _, _))

/-- The clients that `poll` has reported, in the order of the table. -/
def reported (s : State) (round : Round) : List pollfd :=
  ((entries (polled s round)).drop 2).filter ready

section Poll

variable {s : State} {round : Round}

theorem entries_polled (h : Table s) (hlegal : Legal s round) :
    entries (polled s round) =
      (entries s).zipWith (fun client revents => { client with revents }) round.revents := by
  have hroom := h.room
  have hlength : ((entries s).zipWith (fun client revents => { client with revents })
      round.revents).length = s.nclients := by
    rw [List.length_zipWith, hlegal.revents, entries, List.length_take]
    omega
  exact List.take_left' hlength

@[simp] theorem length_entries (h : Table s) : (entries s).length = s.nclients := by
  rw [entries, List.length_take, Nat.min_eq_left h.room]

theorem length_polled (h : Table s) (hlegal : Legal s round) :
    (polled s round).clients.length = s.clients.length := by
  have hroom := h.room
  have hrevents := hlegal.revents
  simp [polled, poll]
  omega

/-- `poll` leaves the places behind the table as they are. -/
theorem polled_free (h : Table s) (hlegal : Legal s round) :
    (polled s round).clients[s.nclients]? = s.clients[s.nclients]? := by
  have hroom := h.room
  have hrevents := hlegal.revents
  simp [polled, poll, List.getElem?_append, hrevents, Nat.min_eq_left hroom]

theorem fds_polled (h : Table s) (hlegal : Legal s round) :
    (entries (polled s round)).map (·.fd) = (entries s).map (·.fd) := by
  have hlength : (entries s).length = round.revents.length := by
    rw [length_entries h, hlegal.revents]
  rw [entries_polled h hlegal]
  apply List.ext_getElem
  · simp [hlength]
  · simp

theorem revents_polled (h : Table s) (hlegal : Legal s round) :
    (entries (polled s round)).map (·.revents) = round.revents := by
  have hlength : (entries s).length = round.revents.length := by
    rw [length_entries h, hlegal.revents]
  rw [entries_polled h hlegal]
  apply List.ext_getElem
  · simp [hlength]
  · simp

theorem polled_entry (h : Table s) (hlegal : Legal s round) {i : Nat} (hi : i < s.nclients) :
    ∃ client, (polled s round).clients[i]? = some client ∧
      round.revents[i]? = some client.revents := by
  have hlt : i < (polled s round).clients.length := by
    rw [length_polled h hlegal]
    exact Nat.lt_of_lt_of_le hi h.room
  refine ⟨_, List.getElem?_eq_getElem hlt, ?_⟩
  rw [← revents_polled h hlegal, List.getElem?_map, entries,
    List.getElem?_take_of_lt (show i < (polled s round).nclients from hi),
    List.getElem?_eq_getElem hlt]
  rfl

/-- `poll` returns the number of entries it has reported. -/
theorem poll_nready (h : Table s) (hlegal : Legal s round) :
    (poll s round.revents).2 = ((entries (polled s round)).filter ready).length := by
  show ((round.revents.countP (· ≠ 0) : Nat) : Int) = _
  rw [← List.countP_eq_length_filter, ← revents_polled h hlegal, List.countP_map]
  rfl

theorem Table.polled (h : Table s) (hlegal : Legal s round) : Table (polled s round) where
  length := by rw [length_polled h hlegal, h.length]
  low := h.low
  high := h.high
  opened := by
    intro client hclient
    have hfd : client.fd ∈ (entries s).map (·.fd) := by
      rw [← fds_polled h hlegal]
      exact List.mem_map_of_mem hclient
    obtain ⟨old, hold, hsame⟩ := List.mem_map.1 hfd
    rw [← hsame]
    exact h.opened old hold

/-- How many clients the loop serves at most. -/
theorem budget_eq (h : Table s) (hlegal : Legal s round) :
    ∃ budget : Nat, (poll s round.revents).2 - (if Accepts round then 1 else 0) = (budget : Int) ∧
      (reported s round).length ≤ budget ∧
      (Accepts round →
        budget = (reported s round).length + if StdinReported round then 1 else 0) := by
  have hlength := length_entries (h.polled hlegal)
  have hrevents := revents_polled h hlegal
  have hnready := poll_nready h hlegal
  have hlow : 2 ≤ (polled s round).nclients := h.low
  rw [hnready, reported]
  match hentries : entries (polled s round) with
  | [] => simp [hentries] at hlength; omega
  | [_] => simp [hentries] at hlength; omega
  | stdin :: listening :: clients =>
    rw [hentries] at hrevents
    have hstdin : StdinReported round ↔ ready stdin := by simp [StdinReported, ready, ← hrevents]
    have hlistening : Accepts round → ready listening := by
      rintro ⟨revents, hget, haccept⟩ hnone
      simp only [← hrevents, List.map_cons, List.getElem?_cons_succ, List.getElem?_cons_zero,
        Option.mem_def, Option.some.injEq] at hget
      rw [← hget, hnone] at haccept
      exact haccept (by simp)
    by_cases haccept : Accepts round
    · refine ⟨(clients.filter ready).length + if StdinReported round then 1 else 0, ?_, ?_, fun _ => rfl⟩
      · by_cases hs : ready stdin
        · simp [haccept, hstdin, hs, hlistening haccept]
        · simp [haccept, hstdin, hs, hlistening haccept]
      · exact Nat.le_add_right _ _
    · refine ⟨((stdin :: listening :: clients).filter ready).length, by simp [haccept], ?_,
        fun h => absurd h haccept⟩
      apply List.Sublist.length_le
      apply List.Sublist.filter
      exact List.drop_sublist 2 _

end Poll

/-- The server after a connection for which it has no place. -/
def refused (s : State) (conn_fd : Nat) : State :=
  close { s with opened := insert conn_fd s.opened, history := s.history ++ [.accept conn_fd] } conn_fd

/-- The server after a connection that it keeps. The entry behind the others has what
    it had in `revents`. -/
def kept (s : State) (conn_fd : Nat) : State :=
  { s with
    clients := s.clients.modify s.nclients fun client =>
      { client with fd := conn_fd, events := POLLRDNORM }
    nclients := s.nclients + 1
    opened := insert conn_fd s.opened
    history := s.history ++ [.accept conn_fd] }

/-- The server when it comes to the loop that serves the clients. -/
def arrived (s : State) (round : Round) : State :=
  if Accepts round then
    if s.nclients = MAX_CLIENTS then refused (polled s round) round.conn_fd
    else kept (polled s round) round.conn_fd
  else polled s round

/-- The calls the server makes before it comes there. -/
def arrivals (s : State) (round : Round) : List Event :=
  if Accepts round then
    .accept round.conn_fd :: if s.nclients = MAX_CLIENTS then [.close round.conn_fd] else []
  else []

section Arrival

variable {s : State} {round : Round} {conn_fd : Nat}

theorem arrived_history : (arrived s round).history = s.history ++ arrivals s round := by
  unfold arrived arrivals
  split
  · split
    · exact List.append_assoc _ _ _
    · rfl
  · exact (List.append_nil _).symm

theorem arrived_uses : (arrived s round).uses = s.uses := by
  unfold arrived
  split
  · split <;> rfl
  · rfl

theorem serve_connection_full (hfull : s.nclients = MAX_CLIENTS) :
    serve_connection s conn_fd = some (refused s conn_fd) := if_pos hfull

theorem serve_connection_room (h : Table s) (hfree : s.nclients ≠ MAX_CLIENTS) :
    serve_connection s conn_fd = some (kept s conn_fd) := by
  have hplace : s.nclients < s.clients.length := by
    rw [h.length]
    exact Nat.lt_of_le_of_ne h.high hfree
  simp [serve_connection, State.store, hfree, hplace, kept]

theorem entries_kept {slot : pollfd} (hslot : s.clients[s.nclients]? = some slot) :
    entries (kept s conn_fd) =
      entries s ++ [{ slot with fd := conn_fd, events := POLLRDNORM }] := by
  have hshort : (s.clients.take s.nclients).length ≤ s.nclients := by simp
  show (s.clients.modify s.nclients _).take (s.nclients + 1) = _
  rw [List.take_add_one, List.getElem?_modify_eq, hslot, List.take_modify,
    List.modify_eq_self hshort]
  rfl

theorem entries_arrived (hplaces : ¬ (Accepts round ∧ s.nclients ≠ MAX_CLIENTS)) :
    entries (arrived s round) = entries (polled s round) := by
  unfold arrived
  split
  · split
    · rfl
    · exact absurd ⟨‹_›, ‹_›⟩ hplaces
  · rfl

theorem entries_arrived_room (h : Table s) (hlegal : Legal s round) (haccept : Accepts round)
    (hfree : s.nclients ≠ MAX_CLIENTS) {slot : pollfd} (hslot : s.clients[s.nclients]? = some slot) :
    entries (arrived s round) = entries (polled s round) ++
      [{ slot with fd := round.conn_fd, events := POLLRDNORM }] := by
  rw [arrived, if_pos haccept, if_neg hfree]
  apply entries_kept
  exact (polled_free h hlegal).trans hslot

theorem arrived_ended : (arrived s round).ended = s.ended := by
  unfold arrived
  split
  · split <;> rfl
  · rfl

theorem arrived_main_fd : (arrived s round).main_fd = s.main_fd := by
  unfold arrived
  split
  · split <;> rfl
  · rfl

/-- A loop with nothing to serve does nothing. -/
theorem serve_clients_none (data : Nat → List UInt8) (s : State) : serve_clients data s 0 = some s := by
  rw [serve_clients, whileLoop, if_neg (by simp)]
  rfl

theorem arrived_room (h : Table s) (hlegal : Legal s round) :
    2 ≤ (arrived s round).nclients ∧ (arrived s round).nclients ≤ (arrived s round).clients.length := by
  have hroom := h.room
  have hlow := h.low
  have hpolled := length_polled h hlegal
  unfold arrived
  split
  · split
    · exact ⟨hlow, hpolled.symm ▸ hroom⟩
    · rename_i hfree
      have hlength := h.length
      refine ⟨Nat.le_succ_of_le hlow, ?_⟩
      show s.nclients + 1 ≤ ((polled s round).clients.modify _ _).length
      rw [List.length_modify, hpolled]
      omega
  · exact ⟨hlow, hpolled.symm ▸ hroom⟩

/-- A pass that does not exit serves the clients, after it has accepted a connection
    or not. -/
theorem iteration_of_not_exits (h : Table s) (hlegal : Legal s round) (hstays : ¬ Exits round) :
    iteration s round = serve_clients round.data (arrived s round)
      ((poll s round.revents).2 - if Accepts round then 1 else 0) := by
  have hpolled := h.polled hlegal
  have hpos : 0 < s.nclients := Nat.lt_of_lt_of_le (by decide) h.low
  obtain ⟨stdin, hstdin, hrevents0⟩ := polled_entry h hlegal hpos
  obtain ⟨listening, hlistening, hrevents1⟩ := polled_entry h hlegal h.low
  have hexit : stdin.revents &&& POLLRDNORM = 0 := by
    by_contra hexit
    exact hstays ⟨_, hrevents0, hexit⟩
  have haccepts : Accepts round ↔ listening.revents &&& POLLRDNORM ≠ 0 := by
    simp [Accepts, hrevents1]
  -- What comes out of a pass that does not leave the loop goes on as it is.
  have hagain (served : Option State) (next : Flow State → Option State)
      (hnext : ∀ s, next (.again s) = some s) : (served.map Flow.again).bind next = served := by
    rw [Option.bind_map, show next ∘ Flow.again = some from funext hnext, Option.bind_fun_some]
  unfold polled at hstdin hlistening
  simp only [iteration, serve, hstdin, hlistening, Option.bind_eq_bind, Option.bind_some, hexit,
    ne_eq, not_true_eq_false, if_false]
  by_cases haccept : Accepts round
  · have hserved : serve_connection (poll s round.revents).1 round.conn_fd =
        some (arrived s round) := by
      rw [arrived, if_pos haccept]
      split
      · exact serve_connection_full ‹_›
      · exact serve_connection_room hpolled ‹_›
    rw [if_pos (haccepts.1 haccept), if_pos haccept, hserved, Option.bind_some]
    split
    · rename_i hnone
      rw [hnone, serve_clients_none]
      rfl
    · exact hagain _ _ fun _ => rfl
  · rw [if_neg (fun hlisten => haccept (haccepts.2 hlisten)), if_neg haccept, arrived, if_neg haccept,
      Int.sub_zero]
    exact hagain _ _ fun _ => rfl

/-- A pass that exits goes to what is behind the loop at once. -/
theorem iteration_of_exits (h : Table s) (hlegal : Legal s round) (hexits : Exits round) :
    iteration s round = shutdown (polled s round) := by
  have hpos : 0 < s.nclients := Nat.lt_of_lt_of_le (by decide) h.low
  obtain ⟨stdin, hstdin, hrevents⟩ := polled_entry h hlegal hpos
  have hexit : stdin.revents &&& POLLRDNORM ≠ 0 := by
    obtain ⟨revents, hget, hexit⟩ := hexits
    obtain rfl := Option.some.inj (hrevents.symm.trans hget)
    exact hexit
  unfold polled at hstdin ⊢
  simp [iteration, serve, hstdin, hexit]

end Arrival

end oslabs.async.polling
