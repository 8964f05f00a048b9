import OsLabs.Echo.Routing
import OsLabs.Lib.Settle

open oslabs.memory oslabs.printf oslabs.run

namespace oslabs.echo

variable {C K : Type} [DecidableEq C] {server_pid : Int32} {pid : C → Int32}
  {shared shared' : Shared C} {server server' : Server C} {clients : C → Client C} {c : C}
  {s s' : State C K}

section Roomy

/-- The server's channel never holds more than the eight messages it is created for. -/
structure Roomy (shared : Shared C) : Prop where
  length : (shared.channels .server).items.length ≤ (shared.channels .server).capacity
  capacity : (shared.channels .server).capacity ≤ 8

theorem Roomy.create {segment : Segment C} {capacity : Nat} {name : List UInt8} (h : Roomy shared)
    (hcapacity : capacity ≤ 8) (hcreate : mc_create segment capacity name shared = some shared') :
    Roomy shared' := by
  obtain ⟨_, _, hchannels⟩ := mc_create_eq_some hcreate
  by_cases hsegment : .server = segment
  · subst hsegment
    constructor
    · simp [hchannels]
    · simpa [hchannels] using hcapacity
  · constructor
    · rw [hchannels, Function.update_of_ne hsegment]
      exact h.length
    · rw [hchannels, Function.update_of_ne hsegment]
      exact h.capacity

theorem Roomy.put {segment : Segment C} {item : echomsg_t} (h : Roomy shared)
    (hput : mc_put segment item shared = some shared') : Roomy shared' := by
  simp only [mc_put] at hput
  split at hput
  · rename_i hlt
    obtain rfl := Option.some.inj hput
    by_cases hsegment : .server = segment
    · subst hsegment
      constructor
      · simpa using hlt
      · simpa using h.capacity
    · constructor
      · simpa [Function.update_of_ne hsegment] using h.length
      · simpa [Function.update_of_ne hsegment] using h.capacity
  · cases hput

theorem Roomy.get {segment : Segment C} {item : echomsg_t} (h : Roomy shared)
    (hget : mc_get segment shared = some (item, shared')) : Roomy shared' := by
  obtain ⟨_, items, hitems, hchannels⟩ := mc_get_eq_some hget
  by_cases hsegment : .server = segment
  · subst hsegment
    have hlength := h.length
    rw [hitems, List.length_cons] at hlength
    constructor
    · rw [hchannels, Function.update_self]
      exact Nat.le_of_succ_le hlength
    · simpa [hchannels] using h.capacity
  · constructor
    · rw [hchannels, Function.update_of_ne hsegment]
      exact h.length
    · rw [hchannels, Function.update_of_ne hsegment]
      exact h.capacity

theorem Roomy.server_move {label : ServerLabel} (h : Roomy shared)
    (hmove : ServerMove server_pid shared server label shared' server') : Roomy shared' := by
  cases hmove with
  | create hpc hcreate => exact h.create (Nat.le_refl 8) hcreate
  | stop hpc hget | get hpc hget => exact h.get hget
  | put hpc hput => exact h.put hput
  | create_failed | open_found | open_failed => exact h
  | destroy => exact ⟨h.length, h.capacity⟩

theorem Roomy.client_move {x : Int32} {client client' : Client C} {label : ClientLabel} (h : Roomy shared)
    (hmove : ClientMove x c shared client label shared' client') : Roomy shared' := by
  cases hmove with
  | create hpc hcreate => exact h.create (by decide) hcreate
  | put hpc hput => exact h.put hput
  | get hpc hget => exact h.get hget
  | create_failed | connect | eof | empty | line => exact h
  | connect_failed | cleanup => exact ⟨h.length, h.capacity⟩

theorem Roomy.step [DecidableEq K] {label : Label C K} (h : Roomy s.shared)
    (hstep : step server_pid pid s label = some s') : Roomy s'.shared := by
  cases label with
  | server label =>
    obtain ⟨⟨shared, server⟩, hserver, hstep⟩ := Option.bind_eq_some_iff.1 hstep
    obtain rfl := Option.some.inj hstep
    exact h.server_move (serverMove_of_step hserver)
  | client c label =>
    obtain ⟨⟨shared, client⟩, hclient, hstep⟩ := Option.bind_eq_some_iff.1 hstep
    obtain rfl := Option.some.inj hstep
    exact h.client_move (clientMove_of_step hclient)
  | term k label =>
    obtain ⟨⟨shared, term⟩, hterm, hstep⟩ := Option.bind_eq_some_iff.1 hstep
    obtain rfl := Option.some.inj hstep
    rcases term_step_cases hterm with ⟨rfl, _⟩ | ⟨smc, _, _, hput⟩
    · exact h
    · exact h.put hput

end Roomy

/-- How many steps the server has still to make with the message it is at. -/
def ServerPc.work : ServerPc C → Nat
  | .received => 2
  | .replying _ => 1
  | _ => 0

/-- How many steps of the server there are, at most, up to the reply to a client that waits:
    three for its message and for each one in front of it. -/
def distance (server_pid : Int32) (pid : C → Int32) (shared : Shared C) (server : Server C) (c : C) : Nat :=
  server.pc.work +
    if held server_pid pid server c = [] then
      3 * ((shared.channels .server).items.findIdx (·.sender = pid c) + 1)
    else 0

/-- The reply stands in the client's channel, or the server has left its loop. -/
def Answered (shared : Shared C) (server : Server C) (c : C) : Prop :=
  (shared.channels (.client c)).items ≠ [] ∨ server.pc = .stopping ∨ server.pc = .ended

/-- A client that waits, without a reply, has its message in the server's channel when the
    server is not at it. -/
theorem ClientOk.exists_request {client : Client C} (h : ClientOk server_pid pid shared server c client)
    (hawaiting : client.pc = .awaiting) (hitems : (shared.channels (.client c)).items = [])
    (hheld : held server_pid pid server c = []) :
    ∃ m ∈ (shared.channels .server).items, m.sender = pid c := by
  have hawaited := h.awaited
  rw [outstanding, hitems, hheld, if_pos hawaiting] at hawaited
  simp only [List.nil_append, List.length_map, requests] at hawaited
  obtain ⟨m, hm⟩ := List.exists_mem_of_length_pos (Nat.lt_of_lt_of_eq Nat.zero_lt_one hawaited.symm)
  obtain ⟨hmem, hsender⟩ := List.mem_filter.1 hm
  exact ⟨m, hmem, of_decide_eq_true hsender⟩

/-- Messages that come in behind the client's do not hold it up. -/
theorem distance_append {m : echomsg_t}
    (hitems : (shared'.channels .server).items = (shared.channels .server).items ++ [m])
    (hrequest : held server_pid pid server c = [] → ∃ m ∈ (shared.channels .server).items, m.sender = pid c) :
    distance server_pid pid shared' server c = distance server_pid pid shared server c := by
  unfold distance
  by_cases hheld : held server_pid pid server c = []
  · obtain ⟨m, hmem, hsender⟩ := hrequest hheld
    have hlt := List.findIdx_lt_length_of_exists (p := fun m => decide (m.sender = pid c))
      ⟨m, hmem, decide_eq_true hsender⟩
    rw [if_pos hheld, if_pos hheld, hitems, List.findIdx_append, if_pos hlt]
  · rw [if_neg hheld, if_neg hheld]

/-- A reply that stands in the client's channel is only taken by the client, and the server does
    not go back into its loop. -/
theorem Answered.server_move {label : ServerLabel} (h : Answered shared server c)
    (hmove : ServerMove server_pid shared server label shared' server') : Answered shared' server' c := by
  cases hmove with
  | create hpc hcreate =>
    obtain ⟨_, _, hchannels⟩ := mc_create_eq_some hcreate
    refine .inl ?_
    rw [hchannels, Function.update_of_ne (by simp)]
    exact h.resolve_right (by simp [hpc])
  | create_failed hpc | open_found hpc | open_failed hpc => exact .inl (h.resolve_right (by simp [hpc]))
  | stop => exact .inr (.inl rfl)
  | get hpc hget =>
    obtain ⟨_, _, _, hchannels⟩ := mc_get_eq_some hget
    refine .inl ?_
    rw [hchannels, Function.update_of_ne (by simp)]
    exact h.resolve_right (by simp [hpc])
  | @put rmc _ hpc hput =>
    obtain ⟨_, hchannels⟩ := mc_put_eq_some hput
    have hitems := h.resolve_right (by simp [hpc])
    refine .inl ?_
    by_cases hrmc : .client c = rmc
    · simp [hchannels, hrmc]
    · rwa [hchannels, Function.update_of_ne hrmc]
  | destroy => exact .inr (.inr rfl)

/-- Each step of the server brings the reply nearer to a client that waits for it. -/
theorem ServiceOk.nearer (h : ServiceOk server_pid pid shared server clients)
    (hinj : Function.Injective pid) (hpos : ∀ c, 0 < pid c) {label : ServerLabel}
    (hmove : ServerMove server_pid shared server label shared' server') (hawaiting : (clients c).pc = .awaiting)
    (hunanswered : ¬ Answered shared server c) : Answered shared' server' c ∨
      distance server_pid pid shared' server' c + 1 ≤ distance server_pid pid shared server c := by
  have hstarted : server.pc ≠ .start :=
    ((h.of_client c).smc (by rw [hawaiting]; trivial)).2
  have hsame := h.outstanding_server_move hinj hpos hmove c
  cases hmove with
  | create hpc | create_failed hpc => exact absurd hpc hstarted
  | stop => exact .inl (.inr (.inl rfl))
  | @get msg _ hpc hget hmsg =>
    obtain ⟨_, items, hitems, hchannels⟩ := mc_get_eq_some hget
    have hbefore : held server_pid pid server c = [] := held_eq_nil (by simp [hpc]) (by simp [hpc])
    refine .inr ?_
    simp only [distance, hpc, hbefore, hchannels, hitems, held_received, ServerPc.work, Function.update_self,
      List.findIdx_cons, if_true]
    by_cases hsender : msg.sender = pid c
    · simp [hsender, requests]
    · simp only [requests_eq_nil hsender, List.map_nil, if_true, decide_eq_false hsender, cond_false]
      omega
  | open_found hpc hopen =>
    have hheld := List.append_cancel_left (List.append_cancel_right hsame)
    refine .inr ?_
    simp only [distance, hheld, hpc, ServerPc.work]
    omega
  | open_failed hpc hopen =>
    obtain ⟨d, _, _, hfound⟩ := h.found hpc
    rw [hfound] at hopen
    cases hopen
  | put hpc hput =>
    obtain ⟨_, hchannels⟩ := mc_put_eq_some hput
    obtain ⟨d, rfl, _⟩ := h.reply_channel hpc
    by_cases hcd : d = c
    · subst hcd
      refine .inl (.inl ?_)
      simp [hchannels]
    · have hbefore : held server_pid pid server c = [] := by
        rw [held_replying hpc, if_neg (by simpa using hcd)]
      have hafter : held server_pid pid { server with pc := .waiting } c = [] :=
        held_eq_nil (by simp) (by simp)
      refine .inr ?_
      simp only [distance, hbefore, hafter, hpc, ServerPc.work, hchannels, ne_eq, reduceCtorEq,
        not_false_eq_true, Function.update_of_ne, if_true]
      omega
  | destroy hpc => exact absurd (.inr (.inl hpc)) hunanswered

/-- What somebody else puts into the server's channel does not hold up a client that waits. -/
theorem ClientOk.undisturbed {client : Client C} (h : ClientOk server_pid pid shared server c client)
    (hawaiting : client.pc = .awaiting)
    (hserver : (shared'.channels .server).items = (shared.channels .server).items ∨
      ∃ m, (shared'.channels .server).items = (shared.channels .server).items ++ [m])
    (hunanswered : ¬ Answered shared server c) :
    distance server_pid pid shared' server c = distance server_pid pid shared server c := by
  rcases hserver with hsame | ⟨m, hadded⟩
  · rw [distance, distance, hsame]
  · refine distance_append hadded fun hheld => h.exists_request hawaiting ?_ hheld
    by_contra hitems
    exact hunanswered (.inl hitems)

omit [DecidableEq C] in
theorem Answered.of_own (hown : shared'.channels (.client c) = shared.channels (.client c))
    (h : Answered shared server c) : Answered shared' server c := by
  unfold Answered
  rwa [hown]

variable [DecidableEq K]

/-- A step of anybody but one client. -/
def StepBut (server_pid : Int32) (pid : C → Int32) (c : C) (s : State C K) (label : Label C K)
    (s' : State C K) : Prop :=
  (∀ clientLabel, label ≠ .client c clientLabel) ∧ step server_pid pid s label = some s'

def Label.ofServer : Label C K → Bool
  | .server _ => true
  | _ => false

/-- What holds while a client is in `mc_get`. -/
structure Awaiting (server_pid : Int32) (pid : C → Int32) (c : C) (s : State C K) : Prop where
  routed : Routed server_pid pid s
  roomy : Roomy s.shared
  pc : (s.clients c).pc = .awaiting

theorem Awaiting.step {label : Label C K} (h : Awaiting server_pid pid c s)
    (hinj : Function.Injective pid) (hpos : ∀ c, 0 < pid c)
    (hstep : StepBut server_pid pid c s label s') : Awaiting server_pid pid c s' := by
  obtain ⟨hother, hstep⟩ := hstep
  refine ⟨h.routed.step hinj hpos hstep, h.roomy.step hstep, ?_⟩
  cases label with
  | server label =>
    obtain ⟨_, _, hstep⟩ := Option.bind_eq_some_iff.1 hstep
    obtain rfl := Option.some.inj hstep
    exact h.pc
  | client d label =>
    obtain ⟨⟨shared, client⟩, _, hstep⟩ := Option.bind_eq_some_iff.1 hstep
    obtain rfl := Option.some.inj hstep
    have hcd : c ≠ d := fun heq => hother label (heq ▸ rfl)
    simpa [Function.update_of_ne hcd] using h.pc
  | term k label =>
    obtain ⟨_, _, hstep⟩ := Option.bind_eq_some_iff.1 hstep
    obtain rfl := Option.some.inj hstep
    exact h.pc

/-- Each step of the server brings the reply nearer, and no step of the others takes it away. -/
theorem Awaiting.nearer {label : Label C K} (h : Awaiting server_pid pid c s)
    (hinj : Function.Injective pid) (hpos : ∀ c, 0 < pid c)
    (hstep : StepBut server_pid pid c s label s') :
    Answered s'.shared s'.server c ∨ ¬ Answered s.shared s.server c ∧
      distance server_pid pid s'.shared s'.server c + (if label.ofServer then 1 else 0) ≤
        distance server_pid pid s.shared s.server c := by
  obtain ⟨hother, hstep⟩ := hstep
  have hclient := h.routed.service.of_client c
  cases label with
  | server label =>
    obtain ⟨⟨shared, server⟩, hserver, hstep⟩ := Option.bind_eq_some_iff.1 hstep
    obtain rfl := Option.some.inj hstep
    have hmove := serverMove_of_step hserver
    by_cases hanswered : Answered s.shared s.server c
    · exact .inl (hanswered.server_move hmove)
    · exact (h.routed.service.nearer hinj hpos hmove h.pc hanswered).imp_right fun hle => ⟨hanswered, hle⟩
  | client d label =>
    obtain ⟨⟨shared, client⟩, hmove, hstep⟩ := Option.bind_eq_some_iff.1 hstep
    obtain rfl := Option.some.inj hstep
    have hcd : c ≠ d := fun heq => hother label (heq ▸ rfl)
    have hframe := (clientMove_of_step hmove).clientFrame
      fun hconnected => ((h.routed.service.of_client d).smc hconnected).1
    by_cases hanswered : Answered s.shared s.server c
    · exact .inl (hanswered.of_own (hframe.channels c hcd))
    · refine .inr ⟨hanswered, Nat.le_of_eq (hclient.undisturbed h.pc ?_ hanswered)⟩
      exact hframe.server.imp_right fun ⟨_, hadded⟩ => ⟨_, hadded⟩
  | term k label =>
    obtain ⟨⟨shared, term⟩, hterm, hstep⟩ := Option.bind_eq_some_iff.1 hstep
    obtain rfl := Option.some.inj hstep
    rcases term_step_cases hterm with ⟨rfl, _⟩ | ⟨smc, hconnected, _, hput⟩
    · by_cases hanswered : Answered s.shared s.server c
      · exact .inl hanswered
      · exact .inr ⟨hanswered, Nat.le_refl _⟩
    · obtain ⟨rfl, _⟩ := h.routed.terms k smc hconnected
      obtain ⟨_, hchannels⟩ := mc_put_eq_some hput
      have hown : shared.channels (.client c) = s.shared.channels (.client c) := by
        rw [hchannels, Function.update_of_ne (by simp)]
      by_cases hanswered : Answered s.shared s.server c
      · exact .inl (hanswered.of_own hown)
      · refine .inr ⟨hanswered, Nat.le_of_eq (hclient.undisturbed h.pc (.inr ⟨tmsg, ?_⟩) hanswered)⟩
        rw [hchannels, Function.update_self]

omit [DecidableEq K] in
/-- There are at most eight messages in the server's channel, so that a client's is served within
    26 steps of the server. -/
theorem Awaiting.distance_le (h : Awaiting server_pid pid c s)
    (hunanswered : ¬ Answered s.shared s.server c) : distance server_pid pid s.shared s.server c ≤ 26 := by
  have hwork : s.server.pc.work ≤ 2 := by
    unfold ServerPc.work
    split <;> omega
  unfold distance
  split
  · rename_i hheld
    have hitems : (s.shared.channels (.client c)).items = [] := by
      by_contra hitems
      exact hunanswered (.inl hitems)
    obtain ⟨m, hmem, hsender⟩ := (h.routed.service.of_client c).exists_request h.pc hitems hheld
    have hlt := List.findIdx_lt_length_of_exists (p := fun m => decide (m.sender = pid c))
      ⟨m, hmem, decide_eq_true hsender⟩
    have hlength := h.roomy.length
    have hcapacity := h.roomy.capacity
    omega
  · omega

omit [DecidableEq K] in
/-- As long as the server has not put the reply, it has a step to make for it. -/
theorem distance_pos : 0 < distance server_pid pid shared server c := by
  unfold distance
  split
  · omega
  · rename_i hheld
    cases hpc : server.pc with
    | received => simp [ServerPc.work]
    | replying rmc => simp [ServerPc.work]
    | _ => exact absurd (held_eq_nil (by simp [hpc]) (by simp [hpc])) hheld

/-- What is in the channel of a client that waits is the reply to its last message. -/
theorem ClientOk.reply_of_items {client : Client C} (h : ClientOk server_pid pid shared server c client)
    (hawaiting : client.pc = .awaiting) (hitems : (shared.channels (.client c)).items ≠ []) :
    ∃ m, client.sent.getLast? = some m ∧ (shared.channels (.client c)).items = [reply server_pid m] := by
  have hawaited := h.awaited
  have hpositive := List.length_pos_iff.2 hitems
  rw [if_pos hawaiting, outstanding, List.length_append, List.length_append] at hawaited
  have hheld : held server_pid pid server c = [] := List.eq_nil_of_length_eq_zero (by omega)
  have hrequests : (requests (pid c) (shared.channels .server).items).map (reply server_pid) = [] :=
    List.eq_nil_of_length_eq_zero (by omega)
  have hone : (shared.channels (.client c)).items.length = 1 := by omega
  obtain ⟨answer, hanswer⟩ := List.length_eq_one_iff.1 hone
  have hreplies := h.replies
  rw [outstanding, hheld, hrequests, hanswer, List.append_nil, List.append_nil] at hreplies
  obtain ⟨before, last, hsent, _, hlast⟩ := List.map_eq_append_iff.1 hreplies.symm
  obtain ⟨m, rfl, hm⟩ := List.map_eq_singleton_iff.1 hlast
  exact ⟨m, by simp [hsent], by rw [hanswer, hm]⟩

section Run

variable {names : List UInt8 → Option (Segment C)} {msg smsg : echomsg_t} {resp_ch_name : Memory}
  {labels : List (Label C K)}

/-- A client that waits gets the reply to its message within 26 steps of the server, whatever
    else happens, unless the server leaves its loop. Until then the server has a step to make. -/
theorem reply_within (hinj : Function.Injective pid) (hpos : ∀ c, 0 < pid c)
    (hfree : names ECHO_SERVICE_SERVER_ID = none)
    (hrun : Run (StepOf (step server_pid pid)) (start names msg smsg resp_ch_name) labels s)
    (hawaiting : (s.clients c).pc = .awaiting) {more : List (Label C K)}
    (hmore : Run (StepBut server_pid pid c) s more s') :
    (∃ m, (s'.clients c).sent.getLast? = some m ∧
      (s'.shared.channels (.client c)).items = [reply server_pid m]) ∨
    s'.server.pc = .stopping ∨ s'.server.pc = .ended ∨
    more.countP Label.ofServer < 26 ∧ ∃ label, (step server_pid pid s' (.server label)).isSome := by
  have hkeep : ∀ (s : State C K) label s', Awaiting server_pid pid c s → StepBut server_pid pid c s label s' →
      Awaiting server_pid pid c s' := fun _ _ _ h hstep => h.step hinj hpos hstep
  have hstart : Roomy (start names msg smsg resp_ch_name : State C K).shared := ⟨Nat.le_refl 0, Nat.zero_le 8⟩
  have hroomy := hrun.invariant (fun s => Roomy s.shared) hstart fun _ _ _ h hstep => h.step hstep
  have hs : Awaiting server_pid pid c s := ⟨routed_of_run hinj hpos hfree hrun, hroomy, hawaiting⟩
  have hs' := hmore.invariant _ hs hkeep
  have hclient := hs'.routed.service.of_client c
  by_cases hanswered : Answered s'.shared s'.server c
  · rcases hanswered with hitems | hstopping | hended
    · exact .inl (hclient.reply_of_items hs'.pc hitems)
    · exact .inr (.inl hstopping)
    · exact .inr (.inr (.inl hended))
  · have hnever : ¬ Answered s.shared s.server c := by
      intro hbefore
      refine hanswered (hmore.invariant (fun s => Awaiting server_pid pid c s ∧ Answered s.shared s.server c)
        ⟨hs, hbefore⟩ ?_).2
      rintro s label s' ⟨h, hbefore⟩ hstep
      exact ⟨h.step hinj hpos hstep, (h.nearer hinj hpos hstep).resolve_right fun hnot => hnot.1 hbefore⟩
    have hcount := (countP_add_le_or (Awaiting server_pid pid c) (fun s => Answered s.shared s.server c)
      Label.ofServer (fun s => distance server_pid pid s.shared s.server c) hkeep
      (fun _ _ _ h hstep => h.nearer hinj hpos hstep) hs hmore).resolve_left hanswered
    have hbound := hs.distance_le hnever
    have hleft : 0 < distance server_pid pid s'.shared s'.server c := distance_pos
    refine .inr (.inr (.inr ⟨by omega, ?_⟩))
    have hstep := hs'.routed.service.progress hs'.pc (fun h => hanswered (.inr (.inl h)))
      fun h => hanswered (.inr (.inr h))
    rcases hstep with ⟨label, hserver⟩ | hget
    · obtain ⟨result, hserver⟩ := Option.isSome_iff_exists.1 hserver
      exact ⟨label, by simp [step, hserver]⟩
    · obtain ⟨⟨shared, client⟩, hget⟩ := Option.isSome_iff_exists.1 hget
      cases clientMove_of_step hget with
      | get _ hmcget =>
        obtain ⟨_, items, hitems, _⟩ := mc_get_eq_some hmcget
        exact absurd (.inl (by rw [hitems]; simp)) hanswered

end Run

/-- A client waits behind another one, whose message the server is at. -/
theorem reply_within_two : ∃ (labels more : List (Label (Fin 2) Unit)) (s s' : State (Fin 2) Unit),
    Run (StepOf (step 7 fun c => if c = 0 then 41 else 42))
      (start (fun _ => none) ⟨0, []⟩ ⟨0, []⟩ fun _ => 0) labels s ∧
    (s.clients 0).pc = .awaiting ∧ Run (StepBut 7 (fun c => if c = 0 then 41 else 42) 0) s more s' ∧
    more.countP Label.ofServer = 2 ∧
    ((∃ m, (s'.clients 0).sent.getLast? = some m ∧
        (s'.shared.channels (.client 0)).items = [reply 7 m]) ∨
      s'.server.pc = .stopping ∨ s'.server.pc = .ended ∨
      more.countP Label.ofServer < 26 ∧
        ∃ label, (step 7 (fun c => if c = 0 then 41 else 42) s' (.server label)).isSome) := by
  obtain ⟨s, s', hexec, hmore, hpc⟩ : ∃ s s', exec (step 7 fun c => if c = 0 then 41 else 42)
      (start (fun _ => none) ⟨0, []⟩ ⟨0, []⟩ fun _ => 0 : State (Fin 2) Unit)
      [.server .mc_create, .client 0 .mc_create, .client 0 .mc_open, .client 1 .mc_create,
        .client 1 .mc_open, .client 1 (.fgets (some [104, 105, 10])), .client 1 .mc_put,
        .client 0 (.fgets (some [120, 10])), .client 0 .mc_put] = some s ∧
      exec (step 7 fun c => if c = 0 then 41 else 42) s [.server .mc_get, .server .mc_open] = some s' ∧
      (s.clients 0).pc = .awaiting := ⟨_, _, rfl, rfl, rfl⟩
  have hrun := run_stepOf_iff.2 hexec
  have hothers : Run (StepBut 7 (fun c => if c = 0 then 41 else 42) 0) s
      [.server .mc_get, .server .mc_open] s' := (run_stepOf_iff.2 hmore).restrict (by simp)
  exact ⟨_, _, s, s', hrun, hpc, hothers, rfl, reply_within (by decide) (by decide) rfl hrun hpc hothers⟩

end oslabs.echo
