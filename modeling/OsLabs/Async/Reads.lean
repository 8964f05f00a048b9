import OsLabs.Async.Round

open oslabs.memory oslabs.loop oslabs.sweep

namespace oslabs.async.polling

/-- The descriptors that are read in some calls. -/
def reads (calls : List Event) : List Nat :=
  calls.filterMap fun
    | .read fd => some fd
    | _ => none

/-- The place behind the table has something in `revents`, a connection that the
    server accepts goes to that place, and the loop that serves the clients comes to
    it before it has counted down to zero: the count has one for stdin too, or a
    client leaves that is not the last one to be served. -/
def ReadsStale (s : State) (round : Round) : Prop :=
  Accepts round ∧ (∃ slot ∈ s.clients[s.nclients]?, ready slot) ∧
    (StdinReported round ∨ ∃ client ∈ (reported s round).dropLast, leaves s.buf round.data client)

instance (s : State) (round : Round) : Decidable (ReadsStale s round) :=
  inferInstanceAs (Decidable (_ ∧ _ ∧ _))

/-- Between two states of the server, it reads once from each client that `poll` has
    reported, and from nothing else. -/
def ReadsReported (s : State) (round : Round) (s' : State) : Prop :=
  ∃ calls, s'.history = s.history ++ calls ∧ (reads calls).Perm ((reported s round).map (·.fd))

@[simp] theorem reads_append (first second : List Event) :
    reads (first ++ second) = reads first ++ reads second := List.filterMap_append

/-- A visit reads from its client once. -/
theorem reads_visit (buf : Memory) (data : Nat → List UInt8) (client : pollfd) :
    reads (visit buf data client) = [client.fd] := by
  unfold visit reads
  split <;> split <;> rfl

theorem reads_visits (buf : Memory) (data : Nat → List UInt8) (visited : List pollfd) :
    reads (visited.flatMap (visit buf data)) = visited.map (·.fd) := by
  induction visited with
  | nil => rfl
  | cons client visited ih =>
    rw [List.flatMap_cons, reads_append, reads_visit, ih]
    rfl

section Pass

variable {s : State} {round : Round}

/-- Accepting a connection is no read. -/
theorem reads_arrivals : reads (arrivals s round) = [] := by
  unfold arrivals
  split
  · split <;> rfl
  · rfl

/-- What a pass reads is what its loop visits. -/
theorem readsReported_iff {buf : Memory} {visited : List pollfd} {s' : State}
    (hvisits : Visits buf round.data (arrived s round) visited s') :
    ReadsReported s round s' ↔ (visited.map (·.fd)).Perm ((reported s round).map (·.fd)) := by
  have hhistory : s'.history = s.history ++ (arrivals s round ++ visited.flatMap (visit buf round.data)) := by
    rw [hvisits.history, arrived_history, List.append_assoc]
  have hreads : reads (arrivals s round ++ visited.flatMap (visit buf round.data)) = visited.map (·.fd) := by
    rw [reads_append, reads_arrivals, reads_visits, List.nil_append]
  constructor
  · rintro ⟨calls, hcalls, hperm⟩
    obtain rfl := List.append_cancel_left (hcalls.symm.trans hhistory)
    rwa [hreads] at hperm
  · intro hperm
    exact ⟨_, hhistory, hreads ▸ hperm⟩

/-- A connection that is accepted is none of the clients that were reported. -/
theorem fresh_not_reported (h : Table s) (hlegal : Legal s round) :
    round.conn_fd ∉ (reported s round).map (·.fd) := by
  intro hmem
  obtain ⟨client, hclient, hfd⟩ := List.mem_map.1 hmem
  apply hlegal.fresh
  rw [← hfd]
  exact (h.polled hlegal).opened client (List.mem_of_mem_drop (List.mem_of_mem_filter hclient))

end Pass

/-- What a sweep visits when there is one more entry behind the clients and the budget
    is the number of clients that are ready, with or without one more. -/
theorem sweep_extra_iff {buf : Memory} {data : Nat → List UInt8} {clients visited kept : List pollfd}
    {extra : pollfd} {early : Prop} [Decidable early]
    (hsweep : Sweep ready (leaves buf data)
      ((clients.filter ready).length + if early then 1 else 0) (clients ++ [extra]) visited kept)
    (hextra : extra.fd ∉ (clients.filter ready).map (·.fd)) :
    (visited.map (·.fd)).Perm ((clients.filter ready).map (·.fd)) ↔
      ¬ (ready extra ∧
        (early ∨ ∃ client ∈ (clients.filter ready).dropLast, leaves buf data client)) := by
  have hnot (hvisited : extra ∈ visited) :
      ¬ (visited.map (·.fd)).Perm ((clients.filter ready).map (·.fd)) :=
    fun hperm => hextra (hperm.mem_iff.1 (List.mem_map_of_mem hvisited))
  by_cases hready : ready extra
  · have hfilter : (clients ++ [extra]).filter ready = clients.filter ready ++ [extra] := by
      simp [List.filter_append, hready]
    by_cases hearly : early
    · have hperm : visited.Perm (clients.filter ready ++ [extra]) := by
        rw [← hfilter]
        apply hsweep.visited_perm
        simp [hfilter, hearly]
      exact iff_of_false (hnot (hperm.mem_iff.2 (by simp))) fun h => h ⟨hready, .inl hearly⟩
    · rw [if_neg hearly, Nat.add_zero] at hsweep
      by_cases hleave : ∃ client ∈ (clients.filter ready).dropLast, leaves buf data client
      · exact iff_of_false (hnot (hsweep.last_mem_visited hready hleave))
          fun h => h ⟨hready, .inr hleave⟩
      · have hvisited := hsweep.visited_eq fun client hclient hleaves =>
          hleave ⟨client, hclient, hleaves⟩
        apply iff_of_true
        · rw [hvisited]
        · rintro ⟨_, hbad⟩
          exact hbad.elim hearly hleave
  · have hfilter : (clients ++ [extra]).filter ready = clients.filter ready := by
      simp [List.filter_append, hready]
    apply iff_of_true
    · rw [← hfilter]
      apply List.Perm.map
      apply hsweep.visited_perm
      rw [hfilter]
      exact Nat.le_add_right _ _
    · exact fun h => hready h.1

/-- A pass through the server's loop that does not exit ends, and it reads once from
    each client that `poll` has reported and from nothing else, just when it does not
    read from a connection it has accepted because of what the table has in its place. -/
theorem reads_reported_iff {s : State} {round : Round} (h : Table s) (hlegal : Legal s round)
    (hstays : ¬ Exits round) :
    ∃ s', iteration s round = some s' ∧ (ReadsReported s round s' ↔ ¬ ReadsStale s round) := by
  obtain ⟨budget, hbudget, hreported, haccepted⟩ := budget_eq h hlegal
  obtain ⟨hlow, hroom⟩ := arrived_room h hlegal
  obtain ⟨s', visited, kept, hserve, hsweep, _, _, hvisits⟩ :=
    serve_clients_sweep s.buf round.data budget hlow hroom
  have htwo := length_entries (h.polled hlegal)
  have hpolled : 2 ≤ (entries (polled s round)).length := htwo ▸ h.low
  refine ⟨s', ?_, ?_⟩
  · rw [iteration_of_not_exits h hlegal hstays, hbudget, hserve]
  rw [readsReported_iff hvisits]
  by_cases hplaces : Accepts round ∧ s.nclients ≠ MAX_CLIENTS
  · obtain ⟨haccept, hfree⟩ := hplaces
    obtain ⟨slot, hslot⟩ : ∃ slot, s.clients[s.nclients]? = some slot := by
      refine ⟨_, List.getElem?_eq_getElem ?_⟩
      rw [h.length]
      exact Nat.lt_of_le_of_ne h.high hfree
    rw [entries_arrived_room h hlegal haccept hfree hslot, List.drop_append_of_le_length hpolled,
      haccepted haccept] at hsweep
    rw [reported] at hsweep ⊢
    rw [sweep_extra_iff hsweep (fresh_not_reported h hlegal)]
    simp only [ReadsStale, haccept, hslot, Option.mem_def, Option.some.injEq, exists_eq_left', true_and]
    rfl
  · rw [entries_arrived hplaces] at hsweep
    have hperm := (hsweep.visited_perm hreported).map (·.fd)
    have hsafe : ¬ ReadsStale s round := by
      rintro ⟨haccept, ⟨slot, hslot, _⟩, _⟩
      apply hplaces ⟨haccept, ?_⟩
      obtain ⟨hlt, _⟩ := List.getElem?_eq_some_iff.1 hslot
      rw [h.length] at hlt
      exact Nat.ne_of_lt hlt
    exact iff_of_true hperm hsafe

/-- A server with two clients and something in the `revents` of the places behind
    them. -/
def twoClients (revents : UInt16) : State where
  main_fd := 3
  clients := [0, 3, 4, 5].map (fun fd => ⟨fd, POLLRDNORM, 0⟩) ++ List.replicate 12 ⟨0, 0, revents⟩
  nclients := 4
  buf := fun _ => 0
  opened := {0, 3, 4, 5}
  history := []
  uses := []
  ended := false

/-- A third client connects, the first one goes away and the second one sends `hi`. -/
def busyRound : Round where
  revents := [0, POLLRDNORM, POLLRDNORM, POLLRDNORM]
  conn_fd := 6
  data fd := if fd = 5 then [104, 105] else []

theorem twoClients_table (revents : UInt16) : Table (twoClients revents) where
  length := rfl
  low := show 2 ≤ 4 by decide
  high := show 4 ≤ MAX_CLIENTS by decide
  opened := by
    intro client hclient
    have hclient : client ∈ [0, 3, 4, 5].map fun fd => (⟨fd, POLLRDNORM, 0⟩ : pollfd) := hclient
    obtain ⟨fd, hfd, rfl⟩ := List.mem_map.1 hclient
    show fd ∈ ({0, 3, 4, 5} : Finset Nat)
    simpa using hfd

theorem busyRound_legal (revents : UInt16) : Legal (twoClients revents) busyRound where
  revents := rfl
  fresh := show 6 ∉ ({0, 3, 4, 5} : Finset Nat) by decide
  data fd := by
    show (if fd = 5 then [104, 105] else [] : List UInt8).length ≤ BUFSIZE
    split <;> decide

theorem reads_reported_iff_clean :
    ∃ s', iteration (twoClients 0) busyRound = some s' ∧ ReadsReported (twoClients 0) busyRound s' := by
  obtain ⟨s', hs', hiff⟩ :=
    reads_reported_iff (twoClients_table 0) (busyRound_legal 0) (by decide)
  exact ⟨s', hs', hiff.2 (by decide)⟩

/-- The connection that was just accepted is read, though `poll` has not reported it. -/
theorem reads_reported_fails :
    ¬ ∀ s round, Table s → Legal s round → ¬ Exits round →
      ∃ s', iteration s round = some s' ∧ ReadsReported s round s' := by
  intro h
  obtain ⟨s', hs', calls, hcalls, hperm⟩ :=
    h (twoClients 1) busyRound (twoClients_table 1) (busyRound_legal 1) (by decide)
  have hhistory : (iteration (twoClients 1) busyRound).map State.history =
      some [.accept 6, .read 4, .close 4, .read 6, .close 6] := by decide
  rw [hs'] at hhistory
  have hread : reads calls = [4, 6] := by
    obtain rfl := (Option.some.inj hhistory).symm.trans hcalls
    rfl
  rw [hread] at hperm
  exact absurd (hperm.mem_iff.1 (show 6 ∈ [4, 6] by simp)) (by decide)

end oslabs.async.polling
