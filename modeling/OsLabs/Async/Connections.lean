import Mathlib.Data.Finset.Basic
import OsLabs.Async.Round

open oslabs.memory oslabs.loop oslabs.run oslabs.sweep

namespace oslabs.async.polling

/-- Whether the connection of a descriptor is open after a call. There is none when the
    call accepts a connection on a descriptor that has one, or closes one that is not
    open. -/
def follow (fd : Nat) (isOpen : Bool) (event : Event) : Option Bool :=
  if event = .accept fd then
    if isOpen then none else some true
  else if event = .close fd then
    if isOpen then some false else none
  else some isOpen

/-- Whether the connection of a descriptor is open after some calls, if every
    connection that was accepted on it before has been closed once. -/
def lifetime (fd : Nat) (history : List Event) : Option Bool :=
  history.foldlM (follow fd) false

/-- The descriptors of the clients in the table. -/
def connections (s : State) : List Nat := ((entries s).drop 2).map (·.fd)

/-- The table has stdin and the listening socket, and behind them the connections that
    are open. -/
structure Connected (s : State) : Prop extends Table s where
  first : ((entries s).take 2).map (·.fd) = [0, s.main_fd]
  distinct : (0 :: s.main_fd :: connections s).Nodup
  lifetimes : ∀ fd, lifetime fd s.history = some (decide (fd ∈ connections s))
  accepted : ∀ fd, .accept fd ∈ s.history → fd ≠ 0 ∧ fd ≠ s.main_fd

theorem lifetime_append {fd : Nat} {before after : List Event} {isOpen : Bool}
    (h : lifetime fd before = some isOpen) :
    lifetime fd (before ++ after) = after.foldlM (follow fd) isOpen := by
  unfold lifetime at *
  rw [List.foldlM_append, h]
  rfl

theorem lifetime_accept {fd conn_fd : Nat} {history : List Event} {isOpen : Bool}
    (h : lifetime fd history = some isOpen) (hnew : lifetime conn_fd history = some false) :
    lifetime fd (history ++ [.accept conn_fd]) = some (isOpen || fd = conn_fd) := by
  rw [lifetime_append h]
  by_cases hfd : fd = conn_fd
  · subst hfd
    obtain rfl := Option.some.inj (h.symm.trans hnew)
    simp [follow]
  · simp [follow, hfd, Ne.symm hfd]

theorem lifetime_close {fd conn_fd : Nat} {history : List Event} {isOpen : Bool}
    (h : lifetime fd history = some isOpen) (hold : lifetime conn_fd history = some true) :
    lifetime fd (history ++ [.close conn_fd]) = some (isOpen && fd ≠ conn_fd) := by
  rw [lifetime_append h]
  by_cases hfd : fd = conn_fd
  · subst hfd
    obtain rfl := Option.some.inj (h.symm.trans hold)
    simp [follow]
  · simp [follow, hfd, Ne.symm hfd]

section Visits

variable {buf : Memory} {data : Nat → List UInt8}

/-- A visit closes a connection only when its client leaves. -/
theorem follow_visit (client : pollfd) (fd : Nat) (isOpen : Bool) :
    (visit buf data client).foldlM (follow fd) isOpen =
      if leaves buf data client ∧ client.fd = fd then (if isOpen then some false else none)
      else some isOpen := by
  have hwrite : (if (data client.fd).length > 0 then [Event.write client.fd (data client.fd)]
      else []).foldlM (follow fd) isOpen = some isOpen := by
    split <;> rfl
  have hread : follow fd isOpen (.read client.fd) = some isOpen := rfl
  rw [visit, List.foldlM_cons, hread, Option.bind_eq_bind, Option.bind_some, List.foldlM_append, hwrite,
    Option.bind_eq_bind, Option.bind_some]
  by_cases hleaves : leaves buf data client
  · by_cases hfd : client.fd = fd
    · simp [follow, hleaves, hfd]
    · simp [follow, hleaves, hfd]
  · simp [hleaves]

theorem follow_visits {visited : List pollfd} (fd : Nat) (isOpen : Bool)
    (hdistinct : ((visited.filter (leaves buf data)).map (·.fd)).Nodup) :
    (visited.flatMap (visit buf data)).foldlM (follow fd) isOpen =
      if fd ∈ (visited.filter (leaves buf data)).map (·.fd) then
        (if isOpen then some false else none)
      else some isOpen := by
  induction visited generalizing isOpen with
  | nil => simp
  | cons client visited ih =>
    rw [List.flatMap_cons, List.foldlM_append, follow_visit]
    by_cases hleaves : leaves buf data client
    · rw [List.filter_cons_of_pos (by simpa using hleaves), List.map_cons] at hdistinct ⊢
      obtain ⟨hother, hdistinct⟩ := List.nodup_cons.1 hdistinct
      by_cases hfd : client.fd = fd
      · rw [if_pos ⟨hleaves, hfd⟩, if_pos (List.mem_cons.2 (.inl hfd.symm))]
        cases isOpen with
        | true =>
          show List.foldlM _ _ _ = _
          rw [ih false hdistinct, if_neg (hfd ▸ hother)]
          rfl
        | false => rfl
      · rw [if_neg (fun h => hfd h.2)]
        show List.foldlM _ _ _ = _
        rw [ih isOpen hdistinct]
        have hmem (fds : List Nat) : fd ∈ client.fd :: fds ↔ fd ∈ fds := by simp [Ne.symm hfd]
        simp only [hmem]
    · rw [List.filter_cons_of_neg (by simpa using hleaves)] at hdistinct ⊢
      rw [if_neg (fun h => hleaves h.1)]
      exact ih isOpen hdistinct

end Visits

section Steps

variable {s s' : State} {round : Round} {conn_fd : Nat}

theorem Connected.fds (h : Connected s) : (entries s).map (·.fd) = 0 :: s.main_fd :: connections s := by
  rw [← List.take_append_drop 2 (entries s), List.map_append, h.first]
  rfl

theorem Connected.fresh (h : Connected s) (hfresh : conn_fd ∉ s.opened) :
    conn_fd ∉ 0 :: s.main_fd :: connections s := by
  intro hmem
  rw [← h.fds] at hmem
  obtain ⟨client, hclient, rfl⟩ := List.mem_map.1 hmem
  exact hfresh (h.opened client hclient)

theorem Connected.polled (h : Connected s) (hlegal : Legal s round) : Connected (polled s round) := by
  have hfds := fds_polled h.toTable hlegal
  have hconnections : connections (polling.polled s round) = connections s := by
    rw [connections, List.map_drop, hfds, ← List.map_drop]
    rfl
  refine ⟨h.toTable.polled hlegal, ?_, ?_, ?_, h.accepted⟩
  · rw [List.map_take, hfds, ← List.map_take, h.first]
    rfl
  · rw [hconnections]
    exact h.distinct
  · intro fd
    rw [hconnections]
    exact h.lifetimes fd

theorem Connected.new_lifetime (h : Connected s) (hfresh : conn_fd ∉ s.opened) :
    lifetime conn_fd s.history = some false := by
  have hnew := h.fresh hfresh
  simp only [List.mem_cons, not_or] at hnew
  rw [h.lifetimes, decide_eq_false hnew.2.2]

theorem Connected.refused (h : Connected s) (hfresh : conn_fd ∉ s.opened) :
    Connected (refused s conn_fd) := by
  have hopened : (polling.refused s conn_fd).opened = s.opened := Finset.erase_insert hfresh
  have hhistory : (polling.refused s conn_fd).history =
      s.history ++ [.accept conn_fd] ++ [.close conn_fd] := rfl
  have hnew := h.fresh hfresh
  simp only [List.mem_cons, not_or] at hnew
  refine ⟨⟨h.length, h.low, h.high, hopened ▸ h.opened⟩, h.first, h.distinct, ?_, ?_⟩
  · intro fd
    have hlifetime := h.new_lifetime hfresh
    have haccept := lifetime_accept hlifetime hlifetime
    rw [hhistory, lifetime_close (lifetime_accept (h.lifetimes fd) hlifetime) (by simpa using haccept)]
    by_cases hfd : fd = conn_fd
    · have hconnection : conn_fd ∉ connections (polling.refused s conn_fd) := hnew.2.2
      simp [hfd, hconnection]
    · have hconnection : connections (polling.refused s conn_fd) = connections s := rfl
      simp [hfd, hconnection]
  · intro fd hfd
    rw [hhistory] at hfd
    have hmem : .accept fd ∈ s.history ∨ fd = conn_fd := by simpa using hfd
    rcases hmem with hold | rfl
    · exact h.accepted fd hold
    · exact ⟨hnew.1, hnew.2.1⟩

theorem Connected.kept (h : Connected s) (hfresh : conn_fd ∉ s.opened)
    (hfree : s.nclients ≠ MAX_CLIENTS) : Connected (kept s conn_fd) := by
  have hnew := h.fresh hfresh
  have hlow : 2 ≤ (entries s).length := by
    rw [length_entries h.toTable]
    exact h.low
  have hplace : s.nclients < MAX_CLIENTS := Nat.lt_of_le_of_ne h.high hfree
  have hslot := List.getElem?_eq_getElem (h.length.symm ▸ hplace : s.nclients < s.clients.length)
  have hentries : entries (polling.kept s conn_fd) = _ := entries_kept hslot
  have hconnections : connections (polling.kept s conn_fd) = connections s ++ [conn_fd] := by
    rw [connections, hentries, List.drop_append_of_le_length hlow, List.map_append]
    rfl
  refine ⟨⟨?_, Nat.le_succ_of_le h.low, hplace, ?_⟩, ?_, ?_, ?_, ?_⟩
  · exact (List.length_modify ..).trans h.length
  · intro client hclient
    rw [hentries, List.mem_append] at hclient
    rcases hclient with hold | hclient
    · exact Finset.mem_insert_of_mem (h.opened client hold)
    · obtain rfl := List.mem_singleton.1 hclient
      exact Finset.mem_insert_self _ _
  · rw [hentries, List.take_append_of_le_length hlow]
    exact h.first
  · rw [hconnections]
    show (0 :: s.main_fd :: connections s ++ [conn_fd]).Nodup
    exact List.nodup_append_comm.1 (List.nodup_cons.2 ⟨hnew, h.distinct⟩)
  · intro fd
    have hhistory : (polling.kept s conn_fd).history = s.history ++ [.accept conn_fd] := rfl
    rw [hconnections, hhistory, lifetime_accept (h.lifetimes fd) (h.new_lifetime hfresh)]
    simp
  · intro fd hfd
    have hmem : .accept fd ∈ s.history ∨ fd = conn_fd := by
      simpa [polling.kept] using hfd
    simp only [List.mem_cons, not_or] at hnew
    rcases hmem with hold | rfl
    · exact h.accepted fd hold
    · exact ⟨hnew.1, hnew.2.1⟩

theorem Connected.arrived (h : Connected s) (hlegal : Legal s round) : Connected (arrived s round) := by
  have hpolled := h.polled hlegal
  unfold polling.arrived
  split
  · split
    · exact hpolled.refused hlegal.fresh
    · exact hpolled.kept hlegal.fresh ‹_›
  · exact hpolled

/-- The loop that serves the clients keeps the table in step with the connections. -/
theorem Connected.swept {buf : Memory} {data : Nat → List UInt8} {budget : Nat}
    {visited kept : List pollfd} (h : Connected s)
    (hsweep : Sweep ready (leaves buf data) budget ((entries s).drop 2) visited kept)
    (hentries : entries s' = (entries s).take 2 ++ kept) (hroom : s'.nclients ≤ s'.clients.length)
    (hvisits : Visits buf data s visited s') : Connected s' := by
  have hlength := h.length
  have htake : ((entries s).take 2).length = 2 := by
    rw [List.length_take, length_entries h.toTable, Nat.min_eq_left h.low]
  have hperm : ((kept ++ visited.filter (leaves buf data)).map (·.fd)).Perm (connections s) :=
    hsweep.perm.map _
  rw [List.map_append] at hperm
  have hconnections : connections s' = kept.map (·.fd) := by
    rw [connections, hentries, List.drop_left' htake]
  have hcount : (entries s').length = s'.nclients := by
    rw [entries, List.length_take, Nat.min_eq_left hroom]
  have hfds : (entries s').map (·.fd) = 0 :: s.main_fd :: kept.map (·.fd) := by
    rw [hentries, List.map_append, h.first]
    rfl
  have hall := ((hperm.cons s.main_fd).cons 0).nodup_iff.2 h.distinct
  rw [← List.cons_append, ← List.cons_append] at hall
  obtain ⟨hdistinct, hleft, hdisjoint⟩ := List.nodup_append'.1 hall
  refine ⟨⟨hvisits.length.trans h.length, ?_, ?_, ?_⟩, ?_, ?_, ?_, ?_⟩
  · rw [← hcount, hentries, List.length_append, htake]
    exact Nat.le_add_right 2 _
  · rw [← h.length, ← hvisits.length]
    exact hroom
  · intro client hclient
    have hmem : client.fd ∈ 0 :: s.main_fd :: kept.map (·.fd) :=
      hfds ▸ List.mem_map_of_mem hclient
    refine (hvisits.opened _).2 ⟨?_, fun hgone => hdisjoint hmem hgone⟩
    by_contra hfresh
    apply h.fresh hfresh
    rw [← ((hperm.cons s.main_fd).cons 0).mem_iff, ← List.cons_append, ← List.cons_append]
    exact List.mem_append_left _ hmem
  · rw [hentries, List.take_left' htake, hvisits.main_fd]
    exact h.first
  · rw [hconnections, hvisits.main_fd]
    exact hdistinct
  · intro fd
    rw [hconnections, hvisits.history, lifetime_append (h.lifetimes fd), follow_visits _ _ hleft]
    have hmem : fd ∈ connections s ↔ _ := hperm.mem_iff.symm.trans List.mem_append
    split
    · rename_i hgone
      have hnot : fd ∉ kept.map (·.fd) := fun hkept =>
        hdisjoint (List.mem_cons_of_mem _ (List.mem_cons_of_mem _ hkept)) hgone
      rw [if_pos (decide_eq_true (hmem.2 (.inr hgone))), decide_eq_false hnot]
    · rename_i hstays
      congr 2
      exact propext (hmem.trans (or_iff_left hstays))
  · intro fd hfd
    rw [hvisits.main_fd]
    apply h.accepted
    rw [hvisits.history, List.mem_append] at hfd
    refine hfd.resolve_right fun hvisit => ?_
    obtain ⟨client, _, hvisit⟩ := List.mem_flatMap.1 hvisit
    unfold visit at hvisit
    split at hvisit <;> split at hvisit <;> simp at hvisit

end Steps

/-- The loop that closes the descriptors closes the ones of all entries that are left. -/
theorem close_loop {fuel : Nat} {s : State} {front rest : List pollfd}
    (hroom : s.nclients ≤ s.clients.length) (hsplit : entries s = front ++ rest)
    (hfuel : rest.length < fuel) :
    ∃ opened, whileLoop (fun s => s.2 < s.1.nclients) (fun s => (close_pass s).map .again) fuel
        (s, front.length) =
      some ({ s with opened, history := s.history ++ rest.map fun client => .close client.fd },
        s.nclients) := by
  induction fuel generalizing s front rest with
  | zero => omega
  | succ fuel ih =>
    have hlength : front.length + rest.length = s.nclients := by
      rw [← List.length_append, ← hsplit, entries, List.length_take, Nat.min_eq_left hroom]
    cases rest with
    | nil =>
      rw [List.length_nil, Nat.add_zero] at hlength
      refine ⟨s.opened, ?_⟩
      rw [whileLoop, if_neg (by simp [hlength])]
      simp [hlength]
    | cons client rest =>
      rw [List.length_cons] at hlength hfuel
      have hclient := getElem_of_entries hsplit
      have hsplit' : entries (close s client.fd) = (front ++ [client]) ++ rest :=
        hsplit.trans (by simp)
      have hroom' : (close s client.fd).nclients ≤ (close s client.fd).clients.length := hroom
      obtain ⟨opened, hloop⟩ := ih hroom' hsplit' (by omega)
      refine ⟨opened, ?_⟩
      have hpass : close_pass (s, front.length) = some (close s client.fd, front.length + 1) := by
        simp [close_pass, hclient]
      rw [List.length_append, List.length_singleton] at hloop
      rw [whileLoop, if_pos (by simp; omega), hpass]
      show whileLoop _ _ fuel (close s client.fd, front.length + 1) = _
      rw [hloop]
      simp [close]

theorem shutdown_history {s : State} (h : Table s) :
    ∃ s', shutdown s = some s' ∧ s'.ended = true ∧ s'.main_fd = s.main_fd ∧ s'.uses = s.uses ∧
      s'.history = s.history ++ (entries s).map (fun client => .close client.fd) ++ [.close s.main_fd] := by
  have hfuel : (entries s).length < s.nclients + 1 := by
    rw [length_entries h]
    exact Nat.lt_succ_self _
  have hsplit : entries s = [] ++ entries s := rfl
  obtain ⟨opened, hloop⟩ := close_loop h.room hsplit hfuel
  rw [List.length_nil] at hloop
  refine ⟨{ close { s with opened, history := s.history ++ (entries s).map fun client => .close client.fd }
    s.main_fd with ended := true }, ?_, rfl, rfl, rfl, rfl⟩
  rw [shutdown, hloop]
  rfl

/-- A connection that is open is closed when its descriptor comes once. -/
theorem follow_closes {fd : Nat} {fds : List Nat} {isOpen : Bool}
    (hcount : fds.count fd = isOpen.toNat) :
    (fds.map Event.close).foldlM (follow fd) isOpen = some false := by
  induction fds generalizing isOpen with
  | nil =>
    obtain rfl : isOpen = false := by simpa using hcount.symm
    rfl
  | cons other fds ih =>
    rw [List.map_cons, List.foldlM_cons]
    by_cases hfd : other = fd
    · subst hfd
      rw [List.count_cons_self] at hcount
      cases isOpen with
      | true =>
        have hrest : fds.count other = false.toNat := by simpa using hcount
        simpa [follow] using ih hrest
      | false => simp at hcount
    · rw [List.count_cons_of_ne hfd] at hcount
      simpa [follow, hfd] using ih hcount

/-- Behind the loop, the connections that are open are closed. -/
theorem Connected.shutdown {s s' : State} (h : Connected s)
    (hhistory : s'.history =
      s.history ++ (entries s).map (fun client => .close client.fd) ++ [.close s.main_fd])
    {fd : Nat} (hfd : .accept fd ∈ s'.history) : lifetime fd s'.history = some false := by
  have hcloses : s'.history =
      s.history ++ (0 :: s.main_fd :: connections s ++ [s.main_fd]).map Event.close := by
    rw [hhistory, ← h.fds]
    simp
  have haccepted : .accept fd ∈ s.history := by
    rw [hcloses, List.mem_append] at hfd
    exact hfd.resolve_right (by simp)
  obtain ⟨hstdin, hmain⟩ := h.accepted fd haccepted
  have hdistinct := (List.nodup_cons.1 (List.nodup_cons.1 h.distinct).2).2
  rw [hcloses, lifetime_append (h.lifetimes fd)]
  apply follow_closes
  rw [List.count_append, List.count_cons_of_ne hstdin.symm, List.count_cons_of_ne hmain.symm,
    List.count_cons_of_ne hmain.symm, List.count_nil, hdistinct.count]
  split <;> simp [*]

/-- A pass through the server's loop ends with no index outside the table. The table
    has the open connections after it, or all are closed. -/
theorem Connected.iteration {s : State} {round : Round} (h : Connected s) (hlegal : Legal s round)
    (hended : s.ended = false) :
    ∃ s', iteration s round = some s' ∧ s'.main_fd = s.main_fd ∧
      if s'.ended then ∀ fd, .accept fd ∈ s'.history → lifetime fd s'.history = some false
      else Connected s' := by
  by_cases hexits : Exits round
  · have hpolled := h.polled hlegal
    obtain ⟨s', hs', hended', hmain, _, hhistory⟩ := shutdown_history hpolled.toTable
    refine ⟨s', by rw [iteration_of_exits h.toTable hlegal hexits, hs'], hmain, ?_⟩
    rw [if_pos hended']
    exact fun fd hfd => hpolled.shutdown hhistory hfd
  · obtain ⟨budget, hbudget, _⟩ := budget_eq h.toTable hlegal
    have harrived := h.arrived hlegal
    obtain ⟨s', visited, kept, hserve, hsweep, hentries, hroom, hvisits⟩ :=
      serve_clients_sweep s.buf round.data budget harrived.low harrived.room
    have hswept := harrived.swept hsweep hentries hroom hvisits
    have hended' : s'.ended = false := by
      rw [hvisits.ended, arrived_ended, hended]
    refine ⟨s', by rw [iteration_of_not_exits h.toTable hlegal hexits, hbudget, hserve],
      hvisits.main_fd.trans arrived_main_fd, ?_⟩
    rw [if_neg (by simp [hended'])]
    exact hswept

theorem start_connected {main_fd : Nat} {clients : List pollfd} (buf : Memory)
    (hclients : clients.length = MAX_CLIENTS) (hmain : main_fd ≠ 0) :
    Connected (start main_fd clients buf) := by
  match clients, hclients with
  | first :: second :: clients, hclients =>
    have hentries : entries (start main_fd (first :: second :: clients) buf) =
        [{ first with fd := 0, events := POLLRDNORM },
          { second with fd := main_fd, events := POLLRDNORM }] := rfl
    refine ⟨⟨hclients, Nat.le_refl 2, show 2 ≤ MAX_CLIENTS by decide, ?_⟩, ?_, ?_, ?_, ?_⟩
    · rw [hentries]
      simp [start]
    · rw [hentries]
      rfl
    · rw [connections, hentries]
      simpa [start] using hmain.symm
    · intro fd
      rfl
    · intro fd hfd
      cases hfd

/-- In every run, the table has stdin, the listening socket and the open connections
    before each pass through the server's loop, and no pass goes outside the table.
    When the server has ended, each of its connections has been closed once. -/
theorem table_of_run {main_fd : Nat} {clients : List pollfd} {buf : Memory} {rounds : List Round}
    {s : State} (hclients : clients.length = MAX_CLIENTS) (hmain : main_fd ≠ 0)
    (hrun : Run Step (start main_fd clients buf) rounds s) :
    if s.ended then ∀ fd, .accept fd ∈ s.history → lifetime fd s.history = some false
    else s.main_fd = main_fd ∧ Connected s ∧ ∀ round, Legal s round → ∃ s', Step s round s' := by
  have hprogress {s : State} (h : Connected s) (hended : s.ended = false) {round : Round}
      (hlegal : Legal s round) : ∃ s', Step s round s' := by
    obtain ⟨s', hs', _⟩ := h.iteration hlegal hended
    exact ⟨s', hended, hlegal, hs'⟩
  induction hrun with
  | nil =>
    have hstart := start_connected buf hclients hmain
    rw [if_neg (show ¬ (start main_fd clients buf).ended = true from Bool.false_ne_true)]
    exact ⟨rfl, hstart, fun round hlegal => hprogress hstart rfl hlegal⟩
  | snoc _ hstep ih =>
    obtain ⟨hended, hlegal, hiteration⟩ := hstep
    rw [if_neg (by simp [hended])] at ih
    obtain ⟨hmain', hconnected, _⟩ := ih
    obtain ⟨s', hs', hsame, hnext⟩ := hconnected.iteration hlegal hended
    obtain rfl := Option.some.inj (hs'.symm.trans hiteration)
    split at hnext
    · rw [if_pos ‹_›]
      exact hnext
    · rename_i hrunning
      rw [if_neg hrunning]
      exact ⟨hsame.trans hmain', hnext,
        fun round hlegal => hprogress hnext (Bool.eq_false_iff.2 hrunning) hlegal⟩

/-- The first client connects. -/
def firstRound : Round where
  revents := [0, POLLRDNORM]
  conn_fd := 4
  data _ := []

/-- Some passes, as far as they are legal. -/
def plays (s : State) : List Round → Option State
  | [] => some s
  | round :: rounds =>
    if s.ended = false ∧ round.revents.length = s.nclients ∧ round.conn_fd ∉ s.opened then do
      let s ← iteration s round
      plays s rounds
    else none

theorem run_of_plays {s last : State} {rounds : List Round}
    (hdata : ∀ round ∈ rounds, ∀ fd, (round.data fd).length ≤ BUFSIZE) (hplays : plays s rounds = some last) :
    Run Step s rounds last := by
  induction rounds generalizing s with
  | nil =>
    obtain rfl := Option.some.inj hplays
    exact .nil
  | cons round rounds ih =>
    obtain ⟨hround, hrounds⟩ := List.forall_mem_cons.1 hdata
    obtain ⟨⟨hended, hrevents, hfresh⟩, hnext⟩ := Option.ite_none_right_eq_some.1 hplays
    obtain ⟨s', hiteration, hrest⟩ := Option.bind_eq_some_iff.1 hnext
    have hfirst : Run Step s [round] s' := .single ⟨hended, ⟨hrevents, hfresh, hround⟩, hiteration⟩
    exact hfirst.append (ih hrounds hrest)

/-- Two more clients connect. With the second of them the first one says `quit`, and at last
    there is a key on stdin. -/
def laterRounds : List Round :=
  [⟨[0, POLLRDNORM, 0], 5, fun _ => []⟩, ⟨[0, POLLRDNORM, POLLRDNORM, 0], 6, fun _ => QUIT ++ [10]⟩]

def lastRound : Round := ⟨[POLLRDNORM, 0, 0, 0], 7, fun _ => []⟩

theorem short_rounds (round : Round) (hround : round ∈ firstRound :: (laterRounds ++ [lastRound])) (fd : Nat) :
    (round.data fd).length ≤ BUFSIZE := by
  simp only [laterRounds, List.mem_append, List.mem_cons, List.not_mem_nil, or_false] at hround
  obtain rfl | (rfl | rfl) | rfl := hround
  all_goals
    simp only [firstRound, lastRound]
    decide

/-- The last client takes the place of the first one, and is closed at the end. -/
theorem table_of_run_first :
    ∃ s last, Run Step (start 3 (List.replicate MAX_CLIENTS ⟨0, 0, 0⟩) fun _ => 0) (firstRound :: laterRounds) s ∧
      (entries s).map (·.fd) = [0, 3, 6, 5] ∧ Connected s ∧
      Run Step s [lastRound] last ∧ last.ended = true ∧ lifetime 6 last.history = some false := by
  let first := start 3 (List.replicate MAX_CLIENTS ⟨0, 0, 0⟩) fun _ => 0
  obtain ⟨s, hs, hfds⟩ : ∃ s, plays first (firstRound :: laterRounds) = some s ∧
      (s.ended, (entries s).map (·.fd)) = (false, [0, 3, 6, 5]) := by
    apply Option.map_eq_some_iff.1
    decide +kernel
  obtain ⟨last, hlast, hended⟩ : ∃ last, (plays first (firstRound :: laterRounds)).bind (plays · [lastRound]) =
      some last ∧ (last.ended, decide (.accept 6 ∈ last.history)) = (true, true) := by
    apply Option.map_eq_some_iff.1
    decide +kernel
  rw [hs, Option.bind_some] at hlast
  obtain ⟨hrunning, hfds⟩ := Prod.mk.inj hfds
  obtain ⟨hended, haccepted⟩ := Prod.mk.inj hended
  have hrun := run_of_plays (fun round hround => short_rounds round (List.mem_append_left _ hround)) hs
  have hend := run_of_plays (fun round hround => short_rounds round (by simp [List.mem_singleton.1 hround])) hlast
  have htable := table_of_run rfl (by decide) hrun
  rw [if_neg (by simp [hrunning])] at htable
  have hclosed := table_of_run rfl (by decide) (hrun.append hend)
  rw [if_pos hended] at hclosed
  exact ⟨s, last, hrun, hfds, htable.2.1, hend, hended, hclosed 6 (of_decide_eq_true haccepted)⟩

end oslabs.async.polling
