import OsLabs.Async.Descriptors
import OsLabs.Async.Talk

open oslabs.memory oslabs.run

namespace oslabs.async.epoll

variable {s s' : State} {label : Label} {conn_fd : Nat} {data : List UInt8} {io : List Io}

/-- What a step does to the clients and to the talks with them. -/
inductive Heard (s s' : State) (io io' : List Io) : Prop where
  | refuse (conn_fd : Nat) (hfresh : conn_fd ∉ s.opened) (hclients : s'.clients = s.clients)
      (htalk : ∀ fd, talk fd io' = if conn_fd = fd then ⟨[], false⟩ else talk fd io)
  | keep (conn_fd : Nat) (hclients : s'.clients = insert conn_fd s.clients)
      (htalk : ∀ fd, talk fd io' = if conn_fd = fd then ⟨[], true⟩ else talk fd io)
  | message (client : Nat) (data : List UInt8) (hclient : client ∈ s.registered)
      (hclients : s'.clients = if Final data then s.clients.erase client else s.clients)
      (htalk : ∀ fd, talk fd io' = if client = fd then (talk fd io).hear data else talk fd io)
  | quiet (hclients : s'.clients = s.clients) (htalk : ∀ fd, talk fd io' = talk fd io)

theorem talk_of_writes {bytes : List (Nat × List UInt8)} (fd : Nat) (t : Talk) :
    (bytes.map fun w => Io.write w.1 w.2).foldl (Talk.after fd) t = t := by
  induction bytes with
  | nil => rfl
  | cons w bytes ih => exact ih

/-- The calls for a message take the talk with its client one message further. -/
theorem talk_message (client : Nat) {bytes : List (Nat × List UInt8)} {last : Bool}
    (hlast : last = true ↔ Final data) (fd : Nat) :
    talk fd (io ++ (.read client data :: bytes.map (fun w => .write w.1 w.2) ++
      if last then [.close client] else [])) =
        if client = fd then (talk fd io).hear data else talk fd io := by
  have hclose : ∀ t : Talk, (if last then [Io.close client] else []).foldl (Talk.after fd) t =
      if client = fd then ⟨t.reads, t.isOpen && !decide (Final data)⟩ else t := by
    intro t
    by_cases hfinal : Final data
    · rw [if_pos (hlast.2 hfinal)]
      simp [Talk.after, hfinal]
    · rw [if_neg (fun h => hfinal (hlast.1 h))]
      simp [hfinal]
  rw [talk_append, List.cons_append, List.foldl_cons, List.foldl_append, talk_of_writes, hclose]
  by_cases hfd : client = fd
  · simp [Talk.after, Talk.hear, hfd]
  · simp [Talk.after, hfd]

theorem serve_client_spec {pending : List epoll_event} {client : Nat}
    (hserve : serve_client { s with pending } client data = some s') :
    s'.buf = received s.buf data ∧ s'.clients = if Final data then s.clients.erase client else s.clients := by
  have hfinal : closing (received s.buf data) data.length = true ↔ Final data := closes_iff_final
  simp only [serve_client, epoll_ctl_del] at hserve
  split at hserve
  all_goals
    split at hserve
    · rename_i hclosing
      obtain ⟨_, hdel, hclose⟩ := Option.bind_eq_some_iff.1 hserve
      obtain rfl := Option.some.inj hclose
      obtain rfl := Option.some.inj (Option.ite_none_right_eq_some.1 hdel).2
      exact ⟨rfl, (if_pos (hfinal.1 hclosing)).symm⟩
    · rename_i hclosing
      obtain rfl := Option.some.inj hserve
      exact ⟨rfl, (if_neg fun h => hclosing (hfinal.2 h)).symm⟩

theorem heard_of_step (io : List Io) (h : Descriptors s) (hstep : step s label = some s') :
    Heard s s' io (io ++ calls s label s') := by
  cases label with
  | epoll_wait events =>
    simp only [step] at hstep
    obtain rfl := Option.some.inj (Option.ite_none_right_eq_some.1 hstep).2
    exact .quiet rfl fun fd => by simp [calls]
  | event conn_fd data =>
    cases hpending : s.pending with
    | nil => simp [step, hpending] at hstep
    | cons pev pending =>
      have hregistered : pev.fd ∈ s.registered := h.pending pev (hpending ▸ List.mem_cons_self)
      simp only [step, hpending] at hstep
      obtain ⟨⟨hfresh, _⟩, hserve⟩ := Option.ite_none_right_eq_some.1 hstep
      simp only [calls, hpending]
      by_cases hexit : isExit pev
      · simp [serve, hexit] at hserve
      rw [if_neg hexit]
      by_cases hconnection : isConnection s pev
      · rw [if_pos hconnection]
        rw [serve_of_isConnection hexit hconnection] at hserve
        simp only [serve_connection] at hserve
        split at hserve
        · rename_i hfull
          obtain rfl := Option.some.inj hserve
          have hclient : conn_fd ∉ s.clients := fun hmem => hfresh (h.opened (h.clients hmem))
          refine .refuse conn_fd hfresh (Finset.erase_eq_of_notMem hclient) fun fd => ?_
          have hrefused : s.nevents = MAX_CLIENTS := hfull
          rw [if_pos hrefused, talk_append]
          by_cases hfd : conn_fd = fd
          · simp [Talk.after, hfd]
          · simp [Talk.after, hfd]
        · rename_i hroom
          unfold epoll_ctl_add at hserve
          split at hserve
          · cases hserve
          · obtain rfl := Option.some.inj hserve
            have hkept : ¬ s.nevents = MAX_CLIENTS := hroom
            refine .keep conn_fd rfl fun fd => ?_
            rw [if_neg hkept, talk_append]
            rfl
      rw [if_neg hconnection]
      by_cases hmessage : isMessage pev
      · rw [if_pos hmessage]
        rw [serve_of_isMessage hexit hconnection hmessage] at hserve
        obtain ⟨hbuf, hclients⟩ := serve_client_spec hserve
        have hlast : closing s'.buf data.length = true ↔ Final data := hbuf ▸ closes_iff_final
        exact .message pev.fd data hregistered hclients (talk_message pev.fd hlast)
      · rw [if_neg hmessage]
        rw [serve_of_not_isMessage hexit hconnection hmessage] at hserve
        obtain rfl := Option.some.inj hserve
        exact .quiet rfl fun fd => by rw [List.append_nil]

/-- The calls so far are those of the server, and every connection is closed promptly. A
    descriptor that stdin or the listening socket has is not one of a client. -/
structure Talking (t : State × List Io) : Prop where
  descriptors : Descriptors t.1
  isOpen : ∀ fd, fd ≠ 0 → fd ≠ t.1.main_fd → ((talk fd t.2).isOpen = true ↔ fd ∈ t.1.clients)
  prompt : ∀ fd, fd ≠ 0 → fd ≠ t.1.main_fd → (talk fd t.2).Prompt

theorem main_fd_step (hstep : step s label = some s') : s'.main_fd = s.main_fd := by
  cases move_of_step hstep <;> rfl

theorem Talking.step {io' : List Io} (h : Talking (s, io)) (hstep : Observed (s, io) label (s', io')) :
    Talking (s', io') := by
  obtain ⟨hstep, hio⟩ := hstep
  change epoll.step s label = some s' at hstep
  change io' = io ++ calls s label s' at hio
  subst hio
  have hmain := main_fd_step hstep
  have hdescriptors := h.descriptors.step hstep
  suffices hfd : ∀ fd, fd ≠ 0 → fd ≠ s.main_fd →
      ((talk fd (io ++ calls s label s')).isOpen = true ↔ fd ∈ s'.clients) ∧
        (talk fd (io ++ calls s label s')).Prompt from
    ⟨hdescriptors, fun fd hzero hfd' => (hfd fd hzero (hmain ▸ hfd')).1,
      fun fd hzero hfd' => (hfd fd hzero (hmain ▸ hfd')).2⟩
  intro fd hzero hfd
  have hopen := h.isOpen fd hzero hfd
  have hprompt := h.prompt fd hzero hfd
  cases heard_of_step io h.descriptors hstep with
  | refuse conn_fd hfresh hclients htalk =>
    rw [htalk, hclients]
    by_cases hconn : conn_fd = fd
    · subst hconn
      have hclient : conn_fd ∉ s.clients := fun hmem =>
        hfresh (h.descriptors.opened (h.descriptors.clients hmem))
      rw [if_pos rfl]
      exact ⟨iff_of_false Bool.false_ne_true hclient, Talk.prompt_of_nil rfl⟩
    · rw [if_neg hconn]
      exact ⟨hopen, hprompt⟩
  | keep conn_fd hclients htalk =>
    rw [htalk, hclients]
    by_cases hconn : conn_fd = fd
    · subst hconn
      rw [if_pos rfl]
      exact ⟨iff_of_true rfl (Finset.mem_insert_self _ _), Talk.prompt_of_nil rfl⟩
    · rw [if_neg hconn, Finset.mem_insert, or_iff_right (Ne.symm hconn)]
      exact ⟨hopen, hprompt⟩
  | message client data hclient hclients htalk =>
    rw [htalk, hclients]
    by_cases hconn : client = fd
    · subst hconn
      have hmem : client ∈ s.clients := by
        have hothers := h.descriptors.others hclient
        simpa only [Finset.mem_insert, hzero, hfd, false_or] using hothers
      rw [if_pos rfl]
      refine ⟨?_, hprompt.hear (hopen.2 hmem) data⟩
      by_cases hfinal : Final data
      · simp [Talk.hear, hfinal]
      · simp [Talk.hear, hfinal, hopen, hmem]
    · rw [if_neg hconn]
      refine ⟨?_, hprompt⟩
      by_cases hfinal : Final data
      · rw [if_pos hfinal, Finset.mem_erase, hopen]
        exact (and_iff_right (Ne.symm hconn)).symm
      · rw [if_neg hfinal, hopen]
  | quiet hclients htalk =>
    rw [htalk, hclients]
    exact ⟨hopen, hprompt⟩

theorem talking_of_run {main_fd events_fd : Nat} {buf : Memory} {labels : List Label}
    (hevents : events_fd ≠ 0 ∧ events_fd ≠ main_fd)
    (hrun : Run Observed (start main_fd events_fd buf, []) labels (s, io)) :
    Talking (s, io) ∧ s.main_fd = main_fd := by
  refine hrun.invariant (fun t => Talking t ∧ t.1.main_fd = main_fd)
    ⟨⟨descriptors_start buf hevents, ?_, ?_⟩, rfl⟩
    fun t label t' h hstep => ⟨h.1.step hstep, (main_fd_step hstep.1).trans h.2⟩
  · intro fd _ _
    exact iff_of_false Bool.false_ne_true (Finset.notMem_empty fd)
  · exact fun fd _ _ => Talk.prompt_of_nil rfl

end oslabs.async.epoll

namespace oslabs.async

variable {t t' : Talk} {chunks : List (List UInt8)}

/-- No connection with a client goes on behind the message that closes one with the same client. -/
theorem Talk.Prompt.reads_prefix {stream : List (List UInt8)} (h : t.Prompt) (h' : t'.Prompt)
    (hsent : t.reads <+: stream) (hsent' : t'.reads <+: stream) (hclosed : t.isOpen = false)
    (hheard : t.reads ≠ []) : t'.reads <+: t.reads := by
  rcases List.prefix_or_prefix_of_prefix hsent' hsent with hshorter | hlonger
  · exact hshorter
  rw [Prompt, if_neg (by simp [hclosed])] at h
  obtain ⟨before, data, hreads, hfinal, _⟩ := h.resolve_left hheard
  obtain ⟨more, hmore⟩ := hlonger
  rcases List.eq_nil_or_concat more with rfl | ⟨front, last, rfl⟩
  · rw [← hmore, List.append_nil]
  · -- The closing message is followed by another one, so that it is not the last one.
    have hmem : data ∈ t.reads ++ front := by simp [hreads]
    rw [List.concat_eq_append, ← List.append_assoc] at hmore
    have hnot : ¬ Final data := by
      unfold Prompt at h'
      split at h'
      · exact h' data (hmore ▸ List.mem_append_left _ hmem)
      · rcases h' with hnil | ⟨before', data', hreads', _, hearlier⟩
        · simp [hnil] at hmore
        · obtain ⟨rfl, _⟩ := List.append_inj' (hmore.trans hreads') rfl
          exact hearlier data hmem
    exact absurd hfinal hnot

/-- What has been received is what was read. -/
theorem received_eq (fd : Nat) (calls : List Io) :
    (exchange fd calls).received = (talk fd calls).reads.flatten := by
  induction calls using List.reverseRecOn with
  | nil => rfl
  | append_singleton calls call ih =>
    rw [exchange, List.foldl_append, talk_append]
    change (Exchange.after fd (exchange fd calls) call).received = (Talk.after fd (talk fd calls) call).reads.flatten
    cases call with
    | accept conn_fd =>
      by_cases hfd : conn_fd = fd
      · simp [Exchange.after, Talk.after, hfd]
      · simp [Exchange.after, Talk.after, hfd, ih]
    | read conn_fd bytes =>
      by_cases hfd : conn_fd = fd
      · simp [Exchange.after, Talk.after, hfd, ih]
      · simp [Exchange.after, Talk.after, hfd, ih]
    | write conn_fd bytes =>
      by_cases hfd : conn_fd = fd
      · simp [Exchange.after, Talk.after, hfd, ih]
      · simp [Exchange.after, Talk.after, hfd, ih]
    | close conn_fd =>
      by_cases hfd : conn_fd = fd
      · simp [Exchange.after, Talk.after, hfd, ih]
      · simp [Exchange.after, Talk.after, hfd, ih]

/-- A client that sends some messages and goes away has been served by the epoll server: it has
    been read, as far as it was, and its connection has been closed. -/
structure epoll.Served (chunks : List (List UInt8)) (fd : Nat) (calls : List Io) : Prop where
  run : ∃ main_fd events_fd buf labels s, (events_fd ≠ 0 ∧ events_fd ≠ main_fd) ∧ (fd ≠ 0 ∧ fd ≠ main_fd) ∧
    Run epoll.Observed (epoll.start main_fd events_fd buf, []) labels (s, calls)
  heard : (talk fd calls).reads ≠ []
  sent : (talk fd calls).reads <+: chunks ++ [[]]
  closed : (talk fd calls).isOpen = false

variable {fd fd' : Nat} {calls calls' : List Io}

theorem epoll.Served.prompt (h : epoll.Served chunks fd calls) : (talk fd calls).Prompt := by
  obtain ⟨main_fd, events_fd, buf, labels, s, hevents, ⟨hzero, hfd⟩, hrun⟩ := h.run
  obtain ⟨htalking, hmain⟩ := epoll.talking_of_run hevents hrun
  exact htalking.prompt fd hzero (hmain ▸ hfd)

theorem polling.Served.prompt (h : polling.Served chunks fd calls) : (talk fd calls).Prompt := by
  obtain ⟨main_fd, clients, buf, rounds, s, hclients, hmain, hrun, hrunning⟩ := h.run
  exact (polling.talking_of_run hclients hmain hrun hrunning).prompt fd

/-- Both servers have read the same messages of a client. -/
theorem reads_eq (h : epoll.Served chunks fd calls) (h' : polling.Served chunks fd' calls') :
    (talk fd calls).reads = (talk fd' calls').reads :=
  (h'.prompt.reads_prefix h.prompt h'.sent h.sent h'.closed h'.heard).eq_of_length_le
    (h.prompt.reads_prefix h'.prompt h.sent h'.sent h.closed h.heard).length_le

theorem epoll.Served.balanced (h : epoll.Served chunks fd calls) : Balanced calls := by
  obtain ⟨_, _, _, _, _, _, _, hrun⟩ := h.run
  exact (epoll.turns_of_run hrun).balanced

theorem polling.Served.balanced (h : polling.Served chunks fd calls) : Balanced calls := by
  obtain ⟨_, _, _, _, _, hclients, hmain, hrun, _⟩ := h.run
  exact (polling.turns_of_run hclients hmain hrun).balanced

/-- The two servers cannot be told apart by a client. Whatever others there are, and in whatever
    order the server gets to them, the same messages are read from it and the same bytes are
    sent to it until its connection is closed, which the first command or the end of the stream
    does. -/
theorem servers_agree {bytes : List UInt8} (hcut : Cutting bytes chunks) (h : epoll.Served chunks fd calls) :
    (∀ fd' calls', polling.Served chunks fd' calls' →
      (talk fd calls).reads = (talk fd' calls').reads ∧ exchange fd calls = exchange fd' calls') ∧
    ∀ e, polling.EndedBy fd calls e ↔ Ends [QUIT] chunks e := by
  constructor
  · intro fd' calls' h'
    have hreads := reads_eq h h'
    have hreceived : (exchange fd calls).received = (exchange fd' calls').received := by
      rw [received_eq, received_eq, hreads]
    refine ⟨hreads, ?_⟩
    have hsent := (h.balanced fd).trans (hreceived.trans (h'.balanced fd').symm)
    exact congrArg₂ Exchange.mk hreceived hsent
  · intro e
    obtain ⟨fd', calls', h'⟩ := polling.exists_served hcut
    have hsame : polling.EndedBy fd calls e ↔ polling.EndedBy fd' calls' e := by
      unfold polling.EndedBy
      rw [reads_eq h h']
    rw [hsame]
    exact polling.endedBy_iff_ends hcut h' e

/-- A first client says `quit`. -/
theorem servers_agree_quit : ∃ calls, epoll.Served [QUIT ++ [10]] 5 calls ∧
    (∀ fd' calls', polling.Served [QUIT ++ [10]] fd' calls' →
      (talk 5 calls).reads = (talk fd' calls').reads ∧ exchange 5 calls = exchange fd' calls') ∧
    ∀ e, polling.EndedBy 5 calls e ↔ Ends [QUIT] [QUIT ++ [10]] e := by
  have hwaiting : Run epoll.Observed (epoll.start 3 4 fun _ => 0, [])
      ([] ++ [.epoll_wait [⟨3, epoll.EPOLLIN⟩]]) _ := .snoc .nil (epoll.observed_of_step rfl)
  have hconnected := hwaiting.snoc (epoll.observed_of_step (h := rfl) : epoll.Observed _ (.event 5 []) _)
  have hready := hconnected.snoc
    (epoll.observed_of_step (h := rfl) : epoll.Observed _ (.epoll_wait [⟨5, epoll.EPOLLIN⟩]) _)
  have hrun := hready.snoc (epoll.observed_of_step (h := rfl) : epoll.Observed _ (.event 6 (QUIT ++ [10])) _)
  have hserved : epoll.Served [QUIT ++ [10]] 5 _ :=
    ⟨⟨3, 4, _, _, _, by decide, by decide, hrun⟩, by decide +kernel, by decide +kernel, by decide +kernel⟩
  exact ⟨_, hserved, servers_agree ⟨rfl, by decide⟩ hserved⟩

end oslabs.async
