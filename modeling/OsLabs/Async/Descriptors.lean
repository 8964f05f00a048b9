import OsLabs.Async.Capacity

open oslabs.memory oslabs.run

namespace oslabs.async.epoll

/-- What the server knows of its descriptors. Those that it asks `epoll_wait` for are open, and
    are the connections, if not stdin or the listening socket. What a scan has not come to is
    registered still, for no descriptor is reported twice. -/
structure Descriptors (s : State) : Prop where
  opened : s.registered ⊆ s.opened
  clients : s.clients ⊆ s.registered
  others : s.registered ⊆ insert 0 (insert s.main_fd s.clients)
  events : s.events_fd ∈ s.opened ∧ s.events_fd ∉ s.registered
  pending : ∀ pev ∈ s.pending, pev.fd ∈ s.registered
  distinct : (s.pending.map (·.fd)).Nodup

variable {s s' : State} {label : Label} {pev : epoll_event} {pending events : List epoll_event} {conn_fd : Nat}
  {data : List UInt8}

/-- The rest of a scan is about other descriptors. -/
theorem Descriptors.rest (h : Descriptors s) (hpending : s.pending = pev :: pending) :
    (∀ other ∈ pending, other.fd ∈ s.registered ∧ other.fd ≠ pev.fd) ∧ (pending.map (·.fd)).Nodup := by
  have hdistinct := h.distinct
  rw [hpending, List.map_cons] at hdistinct
  obtain ⟨hfirst, hrest⟩ := List.nodup_cons.1 hdistinct
  refine ⟨fun other hother => ⟨?_, ?_⟩, hrest⟩
  · exact h.pending other (hpending ▸ List.mem_cons_of_mem _ hother)
  · intro hsame
    exact hfirst (hsame ▸ List.mem_map_of_mem hother)

theorem Descriptors.move (h : Descriptors s) (hmove : Move s label s')
    (hlabel : ∀ events, label ≠ .epoll_wait events) : Descriptors s' := by
  cases hmove with
  | epoll_wait => exact absurd rfl (hlabel _)
  | @refuse pev pending conn_fd _ hpending _ _ hfresh =>
    obtain ⟨hrest, hdistinct⟩ := h.rest hpending
    have hclient : conn_fd ∉ s.clients := fun hmem => hfresh (h.opened (h.clients hmem))
    have hopened : (insert conn_fd s.opened).erase conn_fd = s.opened := Finset.erase_insert hfresh
    have hclients : s.clients.erase conn_fd = s.clients := Finset.erase_eq_of_notMem hclient
    refine ⟨?_, ?_, ?_, ?_, fun other hother => (hrest other hother).1, hdistinct⟩
    · simpa only [close, hopened] using h.opened
    · simpa only [close, hclients] using h.clients
    · simpa only [close, hclients] using h.others
    · simpa only [close, hopened] using h.events
  | @keep pev pending conn_fd _ hpending _ hfresh _ hnew =>
    obtain ⟨hrest, hdistinct⟩ := h.rest hpending
    refine ⟨?_, ?_, ?_, ⟨Finset.mem_insert_of_mem h.events.1, ?_⟩, ?_, hdistinct⟩
    · exact Finset.insert_subset_insert _ h.opened
    · exact Finset.insert_subset_insert _ h.clients
    · intro fd hfd
      rcases Finset.mem_insert.1 hfd with rfl | hold
      · simp
      · have hothers := h.others hold
        simp only [Finset.mem_insert] at hothers ⊢
        tauto
    · rw [Finset.mem_insert]
      rintro (heq | hold)
      · exact hfresh (heq ▸ h.events.1)
      · exact h.events.2 hold
    · exact fun other hother => Finset.mem_insert_of_mem (hrest other hother).1
  | message hpending | ignore hpending =>
    obtain ⟨hrest, hdistinct⟩ := h.rest hpending
    exact ⟨h.opened, h.clients, h.others, h.events, fun other hother => (hrest other hother).1, hdistinct⟩
  | @leave pev pending _ _ hpending _ _ _ _ hmem =>
    obtain ⟨hrest, hdistinct⟩ := h.rest hpending
    refine ⟨?_, ?_, ?_, ⟨?_, ?_⟩, ?_, hdistinct⟩
    · exact Finset.erase_subset_erase _ h.opened
    · exact Finset.erase_subset_erase _ h.clients
    · intro fd hfd
      obtain ⟨hne, hold⟩ := Finset.mem_erase.1 hfd
      have hothers := h.others hold
      simp only [close, Finset.mem_insert, Finset.mem_erase] at hothers ⊢
      tauto
    · refine Finset.mem_erase.2 ⟨?_, h.events.1⟩
      intro heq
      exact h.events.2 (heq ▸ hmem)
    · exact fun hold => h.events.2 (Finset.mem_of_mem_erase hold)
    · intro other hother
      obtain ⟨hregistered, hne⟩ := hrest other hother
      exact Finset.mem_erase.2 ⟨hne, hregistered⟩

theorem Descriptors.step (h : Descriptors s) (hstep : epoll.step s label = some s') : Descriptors s' := by
  cases label with
  | epoll_wait events =>
    simp only [epoll.step] at hstep
    obtain ⟨⟨_, _, hdistinct, hregistered⟩, hevents⟩ := Option.ite_none_right_eq_some.1 hstep
    obtain rfl := Option.some.inj hevents
    exact ⟨h.opened, h.clients, h.others, h.events, hregistered, hdistinct⟩
  | event conn_fd data => exact h.move (move_of_step hstep) (by simp)

theorem descriptors_start {main_fd events_fd : Nat} (buf : Memory)
    (hevents : events_fd ≠ 0 ∧ events_fd ≠ main_fd) : Descriptors (start main_fd events_fd buf) := by
  refine ⟨?_, ?_, ?_, ⟨?_, ?_⟩, ?_, ?_⟩
  · intro fd hfd
    simp only [start, Finset.mem_insert, Finset.mem_singleton] at hfd ⊢
    tauto
  · simp [start]
  · simp [start]
  · simp [start]
  · simp [start, hevents.1, hevents.2]
  · simp [start]
  · simp [start]

/-- The server can serve whatever `epoll_wait` reports, unless it is to exit. -/
theorem Descriptors.serve_eq_none_iff (h : Descriptors s) (hpending : s.pending = pev :: pending)
    (hfresh : conn_fd ∉ s.opened) (hsize : data.length ≤ BUFSIZE) :
    epoll.step s (.event conn_fd data) = none ↔ isExit pev := by
  have hstep : epoll.step s (.event conn_fd data) = serve { s with pending } pev conn_fd data := by
    simp only [epoll.step, hpending]
    exact if_pos ⟨hfresh, hsize⟩
  have hregistered : pev.fd ∈ s.registered := h.pending pev (hpending ▸ List.mem_cons_self)
  have hnew : conn_fd ∉ s.registered := fun hmem => hfresh (h.opened hmem)
  rw [hstep]
  by_cases hexit : isExit pev
  · exact iff_of_true (by simp [serve, hexit]) hexit
  refine iff_of_false ?_ hexit
  by_cases hconnection : isConnection s pev
  · rw [serve_of_isConnection hexit hconnection]
    simp only [serve_connection, epoll_ctl_add, if_neg hnew]
    split <;> simp
  by_cases hmessage : isMessage pev
  · rw [serve_of_isMessage hexit hconnection hmessage]
    simp only [serve_client, epoll_ctl_del]
    split
    · split <;> simp
    · split <;> simp
  · rw [serve_of_not_isMessage hexit hconnection hmessage]
    simp

theorem main_fd_of_run {main_fd events_fd : Nat} {buf : Memory} {labels : List Label}
    (hrun : Run (StepOf step) (start main_fd events_fd buf) labels s) :
    s.main_fd = main_fd ∧ s.events_fd = events_fd := by
  refine hrun.invariant (fun s => s.main_fd = main_fd ∧ s.events_fd = events_fd) ⟨rfl, rfl⟩ ?_
  rintro s label s' hsame hstep
  cases move_of_step hstep <;> exact hsame

/-- In every run the descriptors in the epoll set are open, and are stdin, the listening socket
    and the clients; the descriptor of the epoll set stays open and is not in it. No call of
    `epoll_ctl` fails: an event that is still to be served is that of a registered descriptor,
    whatever was closed or accepted before it in the same scan, and the server leaves its loop
    only for an event of stdin. -/
theorem descriptors_of_run {main_fd events_fd : Nat} {buf : Memory} {labels : List Label}
    (hevents : events_fd ≠ 0 ∧ events_fd ≠ main_fd)
    (hrun : Run (StepOf step) (start main_fd events_fd buf) labels s) :
    s.registered ⊆ s.opened ∧ s.clients ⊆ s.registered ∧
      s.registered ⊆ insert 0 (insert main_fd s.clients) ∧
      (events_fd ∈ s.opened ∧ events_fd ∉ s.registered) ∧
      (∀ pev ∈ s.pending, pev.fd ∈ s.registered) ∧
      ∀ pev pending conn_fd data, s.pending = pev :: pending → conn_fd ∉ s.opened → data.length ≤ BUFSIZE →
        (step s (.event conn_fd data) = none ↔ isExit pev) := by
  have h : Descriptors s :=
    hrun.invariant Descriptors (descriptors_start buf hevents) fun _ _ _ h hstep => h.step hstep
  obtain ⟨rfl, rfl⟩ := main_fd_of_run hrun
  refine ⟨h.opened, h.clients, h.others, h.events, h.pending, ?_⟩
  intro pev pending conn_fd data hpending hfresh hsize
  exact h.serve_eq_none_iff hpending hfresh hsize

/-- One client goes away in a scan that then comes to a new one, which gets its descriptor. -/
def reuse : List Label :=
  [.epoll_wait [⟨3, EPOLLIN⟩], .event 5 [], .epoll_wait [⟨5, EPOLLIN⟩, ⟨3, EPOLLIN⟩], .event 6 [], .event 5 []]

theorem descriptors_of_run_reuse : ∃ s, Run (StepOf step) (start 3 4 fun _ => 0) reuse s ∧
    s.clients = {5} ∧ s.registered ⊆ s.opened ∧ s.clients ⊆ s.registered ∧
      s.registered ⊆ insert 0 (insert 3 s.clients) ∧ (4 ∈ s.opened ∧ 4 ∉ s.registered) ∧
      (∀ pev ∈ s.pending, pev.fd ∈ s.registered) ∧
      ∀ pev pending conn_fd data, s.pending = pev :: pending → conn_fd ∉ s.opened → data.length ≤ BUFSIZE →
        (step s (.event conn_fd data) = none ↔ isExit pev) := by
  have hrun : Run (StepOf step) (start 3 4 fun _ => 0) reuse _ := run_stepOf_iff.2 rfl
  exact ⟨_, hrun, by decide, descriptors_of_run (by decide) hrun⟩

/-- The step keeps a connection that it has accepted. -/
def Keeps (s : State) : Label → Prop
  | .epoll_wait _ => False
  | .event _ _ =>
    ∃ pev ∈ s.pending.head?, ¬ isExit pev ∧ isConnection s pev ∧ s.nevents ≠ MAX_CLIENTS

instance (s : State) : ∀ label, Decidable (Keeps s label)
  | .epoll_wait _ => inferInstanceAs (Decidable False)
  | .event _ _ => inferInstanceAs (Decidable (∃ pev ∈ s.pending.head?,
      ¬ isExit pev ∧ isConnection s pev ∧ s.nevents ≠ MAX_CLIENTS))

/-- How many connections are kept in an execution, closed later or not. -/
def keepings (s : State) : List Label → Nat
  | [] => 0
  | label :: labels =>
    (if Keeps s label then 1 else 0) + ((step s label).map fun s' => keepings s' labels).getD 0

theorem serve_client_nevents (hserve : serve_client { s with pending } pev.fd data = some s') :
    s'.nevents = s.nevents := by
  simp only [serve_client, epoll_ctl_del] at hserve
  split at hserve
  all_goals
    split at hserve
    · obtain ⟨_, hdel, hclose⟩ := Option.bind_eq_some_iff.1 hserve
      obtain rfl := Option.some.inj hclose
      obtain rfl := Option.some.inj (Option.ite_none_right_eq_some.1 hdel).2
      rfl
    · obtain rfl := Option.some.inj hserve
      rfl

theorem nevents_step (hstep : step s label = some s') :
    s'.nevents = s.nevents + if Keeps s label then 1 else 0 := by
  cases label with
  | epoll_wait events =>
    simp only [step] at hstep
    obtain rfl := Option.some.inj (Option.ite_none_right_eq_some.1 hstep).2
    rfl
  | event conn_fd data =>
    cases hpending : s.pending with
    | nil => simp [step, hpending] at hstep
    | cons pev pending =>
      have hkeeps : Keeps s (.event conn_fd data) ↔
          ¬ isExit pev ∧ isConnection s pev ∧ s.nevents ≠ MAX_CLIENTS := by
        simp [Keeps, hpending]
      simp only [step, hpending] at hstep
      obtain ⟨_, hserve⟩ := Option.ite_none_right_eq_some.1 hstep
      by_cases hexit : isExit pev
      · simp [serve, hexit] at hserve
      by_cases hconnection : isConnection s pev
      · rw [serve_of_isConnection hexit hconnection] at hserve
        simp only [serve_connection] at hserve
        split at hserve
        · rename_i hfull
          obtain rfl := Option.some.inj hserve
          have hrefused : s.nevents = MAX_CLIENTS := hfull
          rw [if_neg (fun h => (hkeeps.1 h).2.2 hrefused)]
          rfl
        · rename_i hroom
          unfold epoll_ctl_add at hserve
          split at hserve
          · cases hserve
          · obtain rfl := Option.some.inj hserve
            rw [if_pos (hkeeps.2 ⟨hexit, hconnection, hroom⟩)]
      rw [if_neg (fun h => hconnection (hkeeps.1 h).2.1)]
      by_cases hmessage : isMessage pev
      · rw [serve_of_isMessage hexit hconnection hmessage] at hserve
        exact serve_client_nevents hserve
      · rw [serve_of_not_isMessage hexit hconnection hmessage] at hserve
        obtain rfl := Option.some.inj hserve
        rfl

theorem nevents_exec {labels : List Label} (hexec : exec step s labels = some s') :
    s'.nevents = s.nevents + keepings s labels := by
  induction labels generalizing s with
  | nil =>
    obtain rfl := Option.some.inj hexec
    rfl
  | cons label labels ih =>
    obtain ⟨next, hstep, hrest⟩ := Option.bind_eq_some_iff.1 hexec
    rw [ih hrest, nevents_step hstep, keepings, hstep, Nat.add_assoc]
    rfl

theorem pending_length_of_event (hstep : step s (.event conn_fd data) = some s') :
    s.pending.length = s'.pending.length + 1 := by
  cases move_of_step hstep with
  | refuse hpending | keep hpending | message hpending | leave hpending | ignore hpending =>
    rw [hpending]
    rfl

/-- The array that `epoll_wait` fills has room. -/
structure Roomy (s : State) : Prop where
  nevents : s.nevents ≤ MAX_CLIENTS
  pending : s.pending.length ≤ s.nevents

theorem Roomy.step (h : Roomy s) (hstep : epoll.step s label = some s') : Roomy s' := by
  have hcount := nevents_step hstep
  have hkeeps : Keeps s label → s.nevents ≠ MAX_CLIENTS := by
    cases label with
    | epoll_wait events => exact False.elim
    | event conn_fd data =>
      rintro ⟨_, _, _, _, hroom⟩
      exact hroom
  refine ⟨?_, ?_⟩
  · have hle := h.nevents
    split at hcount
    · have hne := hkeeps ‹_›
      omega
    · omega
  · cases label with
    | epoll_wait events =>
      simp only [epoll.step] at hstep
      obtain ⟨⟨_, hlength, _⟩, hevents⟩ := Option.ite_none_right_eq_some.1 hstep
      obtain rfl := Option.some.inj hevents
      exact hlength
    | event conn_fd data =>
      have hle := h.pending
      have hshorter := pending_length_of_event hstep
      omega

/-- `nevents` never comes down: it is 2 and the number of connections that the server has ever
    kept. So `epoll_wait` has room for what it reports, but when the server has kept as many as
    it has places, it refuses all that come after them, even if no client is left. -/
theorem keepings_of_run {main_fd events_fd : Nat} {buf : Memory} {labels : List Label}
    (hrun : Run (StepOf step) (start main_fd events_fd buf) labels s) :
    s.nevents = 2 + keepings (start main_fd events_fd buf) labels ∧
      keepings (start main_fd events_fd buf) labels ≤ MAX_CLIENTS - 2 ∧ s.pending.length ≤ MAX_CLIENTS ∧
      (keepings (start main_fd events_fd buf) labels = MAX_CLIENTS - 2 →
        ∀ more s', Run (StepOf step) s more s' → keepings s more = 0 ∧ s'.clients ⊆ s.clients) := by
  have hroomy : Roomy s := by
    refine hrun.invariant Roomy ⟨?_, by simp [start]⟩ fun _ _ _ h hstep => h.step hstep
    show 2 ≤ 16
    decide
  have hcount : s.nevents = 2 + keepings (start main_fd events_fd buf) labels :=
    nevents_exec (run_stepOf_iff.1 hrun)
  have hle := hroomy.nevents
  have hlength := hroomy.pending
  refine ⟨hcount, by omega, by omega, fun hall more s' hmore => ?_⟩
  have hfull : s.nevents = MAX_CLIENTS := by
    rw [hcount, hall]
    rfl
  have hlast : Roomy s' ∧ s'.nevents = MAX_CLIENTS ∧ s'.clients ⊆ s.clients := by
    refine hmore.invariant (fun t => Roomy t ∧ t.nevents = MAX_CLIENTS ∧ t.clients ⊆ s.clients)
      ⟨hroomy, hfull, Finset.Subset.refl _⟩ ?_
    rintro t label t' ⟨ht, htfull, hclients⟩ hstep
    have ht' := ht.step hstep
    have hmove := move_of_step hstep
    have hsame : t'.nevents = MAX_CLIENTS := by
      have hnext := nevents_step hstep
      have hle' := ht'.nevents
      omega
    refine ⟨ht', hsame, ?_⟩
    cases hmove with
    | epoll_wait | message | ignore => exact hclients
    | refuse | leave => exact (Finset.erase_subset _ _).trans hclients
    | keep _ _ _ hroom => exact absurd htfull hroom
  refine ⟨?_, hlast.2.2⟩
  have hnone := nevents_exec (run_stepOf_iff.1 hmore)
  omega

/-- Fourteen clients come, one after another, and each goes away before the next one comes. -/
def comings_and_goings : List Label :=
  (List.replicate 14 (arrival ++ departure)).flatten

theorem keepings_of_run_comings_and_goings : ∃ s,
    Run (StepOf step) (start 3 4 fun _ => 0) comings_and_goings s ∧ s.clients = ∅ ∧
      ∀ more s', Run (StepOf step) s more s' → keepings s more = 0 := by
  have hall : ∃ s, exec step (start 3 4 fun _ => 0) comings_and_goings = some s ∧ s.clients = ∅ ∧
      keepings (start 3 4 fun _ => 0) comings_and_goings = MAX_CLIENTS - 2 :=
    ⟨_, rfl, by decide +kernel, by decide +kernel⟩
  obtain ⟨s, hexec, hclients, hkeepings⟩ := hall
  have hrun := run_stepOf_iff.2 hexec
  have hrefuses := (keepings_of_run hrun).2.2.2 hkeepings
  exact ⟨s, hrun, hclients, fun more s' hmore => (hrefuses more s' hmore).1⟩

end oslabs.async.epoll
