import OsLabs.Async.EpollServer

open oslabs.memory oslabs.run

namespace oslabs.async.epoll

/-- What a step does, case by case. -/
inductive Move (s : State) : Label → State → Prop where
  | epoll_wait {events : List epoll_event} :
      Move s (.epoll_wait events) { s with pending := events }
  | refuse {pev : epoll_event} {pending : List epoll_event} {conn_fd : Nat} {data : List UInt8}
      (hpending : s.pending = pev :: pending) (hexit : ¬ isExit pev) (hconnection : isConnection s pev)
      (hfresh : conn_fd ∉ s.opened) (hfull : s.nevents = MAX_CLIENTS) :
      Move s (.event conn_fd data)
        (close { s with pending, opened := insert conn_fd s.opened } conn_fd)
  | keep {pev : epoll_event} {pending : List epoll_event} {conn_fd : Nat} {data : List UInt8}
      (hpending : s.pending = pev :: pending) (hconnection : isConnection s pev)
      (hfresh : conn_fd ∉ s.opened) (hroom : s.nevents ≠ MAX_CLIENTS) (hnew : conn_fd ∉ s.registered) :
      Move s (.event conn_fd data) { s with
        pending
        opened := insert conn_fd s.opened
        registered := insert conn_fd s.registered
        nevents := s.nevents + 1
        clients := insert conn_fd s.clients }
  | message {pev : epoll_event} {pending : List epoll_event} {conn_fd : Nat} {data : List UInt8}
      (hpending : s.pending = pev :: pending) (hopen : ¬ closes s.buf data)
      (written : List (Nat × List UInt8)) (uses : List (Nat × Nat)) :
      Move s (.event conn_fd data) { s with pending, buf := received s.buf data, written, uses }
  | leave {pev : epoll_event} {pending : List epoll_event} {conn_fd : Nat} {data : List UInt8}
      (hpending : s.pending = pev :: pending) (hexit : ¬ isExit pev) (hconnection : ¬ isConnection s pev)
      (hmessage : isMessage pev) (hcloses : closes s.buf data) (hmem : pev.fd ∈ s.registered)
      (written : List (Nat × List UInt8)) (uses : List (Nat × Nat)) :
      Move s (.event conn_fd data) (close { s with
        pending
        buf := received s.buf data
        written
        uses
        registered := s.registered.erase pev.fd } pev.fd)
  | ignore {pev : epoll_event} {pending : List epoll_event} {conn_fd : Nat} {data : List UInt8}
      (hpending : s.pending = pev :: pending) (hmessage : ¬ isMessage pev) :
      Move s (.event conn_fd data) { s with pending }

section Serve

variable {s : State} {pev : epoll_event} {pending : List epoll_event} {conn_fd : Nat}
  {data : List UInt8}

theorem isConnection_pending : isConnection { s with pending } pev = isConnection s pev := rfl

theorem serve_of_isConnection (hexit : ¬ isExit pev) (hconnection : isConnection s pev) :
    serve { s with pending } pev conn_fd data = serve_connection { s with pending } conn_fd := by
  simp [serve, hexit, isConnection_pending, hconnection]

theorem serve_of_isMessage (hexit : ¬ isExit pev) (hconnection : ¬ isConnection s pev)
    (hmessage : isMessage pev) :
    serve { s with pending } pev conn_fd data = serve_client { s with pending } pev.fd data := by
  simp [serve, hexit, isConnection_pending, hconnection, hmessage]

theorem serve_of_not_isMessage (hexit : ¬ isExit pev) (hconnection : ¬ isConnection s pev)
    (hmessage : ¬ isMessage pev) : serve { s with pending } pev conn_fd data = some { s with pending } := by
  simp [serve, hexit, isConnection_pending, hconnection, hmessage]

theorem closes_of_leave (hpending : s.pending = pev :: pending)
    (hexit : ¬ isExit pev) (hconnection : ¬ isConnection s pev) (hmessage : isMessage pev)
    (hcloses : closes s.buf data) : Closes s (.event conn_fd data) :=
  ⟨pev, by simp [hpending], hexit, hconnection, hmessage, hcloses⟩

end Serve

theorem move_of_step {s s' : State} {label : Label} (h : step s label = some s') : Move s label s' := by
  cases label with
  | epoll_wait events =>
    simp only [step] at h
    split at h
    · obtain rfl := Option.some.inj h
      exact .epoll_wait
    · cases h
  | event conn_fd data =>
    simp only [step] at h
    split at h
    · cases h
    · rename_i pev pending hpending
      split at h
      · obtain ⟨hfresh, _⟩ := ‹_ ∧ _›
        by_cases hexit : isExit pev
        · simp [serve, hexit] at h
        by_cases hconnection : isConnection s pev
        · rw [serve_of_isConnection hexit hconnection] at h
          simp only [serve_connection] at h
          split at h
          · obtain rfl := Option.some.inj h
            exact .refuse hpending hexit hconnection hfresh ‹_›
          · unfold epoll_ctl_add at h
            split at h
            · cases h
            · obtain rfl := Option.some.inj h
              exact .keep hpending hconnection hfresh ‹_› ‹_›
        by_cases hmessage : isMessage pev
        · rw [serve_of_isMessage hexit hconnection hmessage] at h
          simp only [serve_client] at h
          by_cases hcloses : closes s.buf data
          · have hclosing : closing (received s.buf data) data.length = true := hcloses
            split at h
            all_goals
              simp only [epoll_ctl_del] at h
              split at h
              · obtain rfl := Option.some.inj h
                exact .leave hpending hexit hconnection hmessage hcloses ‹_› _ _
              · cases h
          · have hclosing : closing (received s.buf data) data.length = false := by
              simpa [closes] using hcloses
            split at h
            all_goals
              simp only [hclosing] at h
              obtain rfl := Option.some.inj h
              exact .message hpending hcloses _ _
        · rw [serve_of_not_isMessage hexit hconnection hmessage] at h
          obtain rfl := Option.some.inj h
          exact .ignore hpending hmessage
      · cases h

/-- `nevents` is the number of descriptors in the epoll set. -/
def Counted (s : State) : Prop := s.nevents = s.registered.card

instance (s : State) : Decidable (Counted s) := inferInstanceAs (Decidable (_ = _))

/-- A connection is refused only when the clients take all the places that stdin and
    the listening socket leave. -/
def RefusesWhenFull (s : State) (label : Label) : Prop :=
  Refuses s label → s.clients.card = MAX_CLIENTS - 2

/-- A connection that is closed leaves the epoll set, and `nevents` keeps its place. -/
theorem Move.drift {s s' : State} {label : Label} (hmove : Move s label s') (hcloses : Closes s label) :
    s'.nevents = s.nevents ∧ s'.registered.card + 1 = s.registered.card := by
  cases hmove with
  | epoll_wait => exact hcloses.elim
  | refuse hpending _ hconnection | keep hpending hconnection =>
    obtain ⟨pev, hpev, _, hnot, _⟩ := hcloses
    simp_all
  | message hpending hopen =>
    obtain ⟨_, _, _, _, _, hcloses⟩ := hcloses
    exact absurd hcloses hopen
  | leave hpending _ _ _ _ hmem => exact ⟨rfl, Finset.card_erase_add_one hmem⟩
  | ignore hpending hmessage =>
    obtain ⟨pev, hpev, _, _, hyes, _⟩ := hcloses
    simp_all

/-- All other steps change the epoll set and `nevents` together. -/
theorem Move.balance {s s' : State} {label : Label} (hmove : Move s label s')
    (hcloses : ¬ Closes s label) :
    s'.nevents + s.registered.card = s.nevents + s'.registered.card := by
  cases hmove with
  | epoll_wait => rfl
  | refuse => rfl
  | keep _ _ _ _ hnew =>
    show s.nevents + 1 + s.registered.card = s.nevents + (insert _ s.registered).card
    rw [Finset.card_insert_of_notMem hnew]
    omega
  | message => rfl
  | leave hpending hexit hconnection hmessage hc =>
    exact absurd (closes_of_leave hpending hexit hconnection hmessage hc) hcloses
  | ignore => rfl

/-- `nevents` is never too small, and it is exact as long as no connection has been
    closed. -/
theorem nevents_drift {main_fd events_fd : Nat} {buf : Memory} {labels : List Label} {s : State}
    (hmain : main_fd ≠ 0) (hrun : Run (StepOf step) (start main_fd events_fd buf) labels s) :
    ∃ lost, s.nevents = s.registered.card + lost ∧
      (lost = 0 ↔ EveryStep step (fun s label => ¬ Closes s label) (start main_fd events_fd buf)
        labels) := by
  induction hrun with
  | nil =>
    refine ⟨0, ?_, by simp [everyStep_nil]⟩
    simp [start, Finset.card_pair hmain.symm]
  | @snoc _ state _ label hrun hstep ih =>
    obtain ⟨lost, hcount, hlost⟩ := ih
    have hmove := move_of_step hstep
    rw [everyStep_snoc_iff (run_stepOf_iff.1 hrun), ← hlost]
    by_cases hcloses : Closes state label
    · obtain ⟨hsame, hcard⟩ := hmove.drift hcloses
      exact ⟨lost + 1, by omega, by simp [hcloses]⟩
    · have hbalance := hmove.balance hcloses
      exact ⟨lost, by omega, by simp [hcloses]⟩

/-- While no connection is closed, the epoll set has stdin, the listening socket and
    the clients, and all of them are open. -/
structure Steady (s : State) : Prop where
  listening : s.main_fd ≠ 0
  registered : s.registered = {0, s.main_fd} ∪ s.clients
  fresh : Disjoint {0, s.main_fd} s.clients
  opened : s.registered ⊆ s.opened

theorem Steady.clients_opened {s : State} (h : Steady s) : s.clients ⊆ s.opened := by
  apply Finset.Subset.trans _ h.opened
  rw [h.registered]
  exact Finset.subset_union_right

theorem Move.steady {s s' : State} {label : Label} (hmove : Move s label s') (h : Steady s)
    (hcloses : ¬ Closes s label) : Steady s' := by
  cases hmove with
  | epoll_wait => exact ⟨h.listening, h.registered, h.fresh, h.opened⟩
  | refuse _ _ _ hfresh =>
    have hclient : _ ∉ s.clients := fun hmem => hfresh (h.clients_opened hmem)
    refine ⟨h.listening, ?_, ?_, ?_⟩
    · simpa [close, Finset.erase_eq_of_notMem hclient] using h.registered
    · simpa [close, Finset.erase_eq_of_notMem hclient] using h.fresh
    · simpa [close, Finset.erase_insert hfresh] using h.opened
  | @keep pev pending conn_fd data _ _ hfresh _ hnew =>
    refine ⟨h.listening, ?_, ?_, Finset.insert_subset_insert _ h.opened⟩
    · rw [Finset.union_insert, ← h.registered]
    · rw [Finset.disjoint_insert_right]
      refine ⟨fun hmem => hnew ?_, h.fresh⟩
      rw [h.registered]
      exact Finset.mem_union_left _ hmem
  | message => exact ⟨h.listening, h.registered, h.fresh, h.opened⟩
  | leave hpending hexit hconnection hmessage hc =>
    exact absurd (closes_of_leave hpending hexit hconnection hmessage hc) hcloses
  | ignore => exact ⟨h.listening, h.registered, h.fresh, h.opened⟩

theorem steady_of_run {main_fd events_fd : Nat} {buf : Memory} {labels : List Label} {s : State}
    (hmain : main_fd ≠ 0) (hrun : Run (StepOf step) (start main_fd events_fd buf) labels s)
    (hopen : EveryStep step (fun s label => ¬ Closes s label) (start main_fd events_fd buf) labels) :
    Steady s := by
  induction hrun with
  | nil =>
    refine ⟨hmain, by simp [start], by simp [start], ?_⟩
    intro fd
    simp only [start, Finset.mem_insert, Finset.mem_singleton]
    exact fun h => h.elim .inl fun h => .inr (.inl h)
  | snoc hrun hstep ih =>
    obtain ⟨hopen, hlast⟩ := (everyStep_snoc_iff (run_stepOf_iff.1 hrun)).1 hopen
    exact (move_of_step hstep).steady (ih hopen) hlast

theorem Steady.refusesWhenFull {s : State} {label : Label} (h : Steady s)
    (hcount : Counted s) : RefusesWhenFull s label := by
  intro hrefuses
  have hfull : s.nevents = MAX_CLIENTS := by
    cases label with
    | epoll_wait => exact hrefuses.elim
    | event conn_fd data =>
      obtain ⟨_, _, _, _, hfull⟩ := hrefuses
      exact hfull
  have hcard : s.registered.card = 2 + s.clients.card := by
    rw [h.registered, Finset.card_union_of_disjoint h.fresh, Finset.card_pair h.listening.symm]
  rw [Counted, hfull] at hcount
  omega

/-- `nevents` stays the number of registered descriptors, and only a full server
    refuses, in the runs that close no connection. -/
theorem nevents_counts_registered {main_fd events_fd : Nat} {buf : Memory} {labels : List Label}
    {s : State} (hmain : main_fd ≠ 0)
    (hrun : Run (StepOf step) (start main_fd events_fd buf) labels s) :
    (EveryStep step (fun s label => Counted s ∧ RefusesWhenFull s label)
        (start main_fd events_fd buf) labels ∧ Counted s) ↔
      EveryStep step (fun s label => ¬ Closes s label) (start main_fd events_fd buf) labels := by
  have hcounted {labels s} (hrun : Run (StepOf step) (start main_fd events_fd buf) labels s) :
      Counted s ↔
        EveryStep step (fun s label => ¬ Closes s label) (start main_fd events_fd buf) labels := by
    obtain ⟨lost, hcount, hlost⟩ := nevents_drift hmain hrun
    rw [← hlost, Counted]
    omega
  refine ⟨fun h => (hcounted hrun).1 h.2, fun hopen => ⟨?_, (hcounted hrun).2 hopen⟩⟩
  rintro before label after state rfl hbefore
  have hrun := run_stepOf_iff.2 hbefore
  have hopen := hopen.of_append
  have hcount := (hcounted hrun).2 hopen
  exact ⟨hcount, (steady_of_run hmain hrun hopen).refusesWhenFull hcount⟩

/-- A client connects. -/
def arrival : List Label := [.epoll_wait [⟨3, EPOLLIN⟩], .event 5 []]

/-- The client goes away, and `read` finds the end of its stream. -/
def departure : List Label := [.epoll_wait [⟨5, EPOLLIN⟩], .event 6 []]

theorem nevents_counts_registered_arrival :
    ∃ s, Run (StepOf step) (start 3 4 fun _ => 0) arrival s ∧ Counted s := by
  have hrun : Run (StepOf step) (start 3 4 fun _ => 0) arrival _ := run_stepOf_iff.2 rfl
  exact ⟨_, hrun, ((nevents_counts_registered (by decide) hrun).2 (by decide)).2⟩

/-- After one client has come and gone, `nevents` is 3 with 2 descriptors registered. -/
theorem nevents_counts_registered_fails :
    ¬ ∀ labels s, Run (StepOf step) (start 3 4 fun _ => 0) labels s → Counted s := by
  intro h
  have hrun : Run (StepOf step) (start 3 4 fun _ => 0) (arrival ++ departure) _ :=
    run_stepOf_iff.2 rfl
  exact absurd (h _ _ hrun) (by decide)

end oslabs.async.epoll
