import OsLabs.Async.PollServer
import OsLabs.Lib.Sweep

open oslabs.memory oslabs.loop oslabs.sweep

namespace oslabs.async.polling

/-- The part of the table that is in use. -/
def entries (s : State) : List pollfd := s.clients.take s.nclients

/-- `poll` has reported the entry. -/
def ready (client : pollfd) : Prop := client.revents ≠ 0

instance : DecidablePred ready := fun _ => inferInstanceAs (Decidable (_ ≠ _))

/-- What there is to read for the client makes the server close its connection. -/
def leaves (buf : Memory) (data : Nat → List UInt8) (client : pollfd) : Prop :=
  closes buf (data client.fd)

instance (buf : Memory) (data : Nat → List UInt8) : DecidablePred (leaves buf data) :=
  fun _ => inferInstanceAs (Decidable (_ = _))

/-- The calls the server makes for a client. -/
def visit (buf : Memory) (data : Nat → List UInt8) (client : pollfd) : List Event :=
  .read client.fd ::
    ((if (data client.fd).length > 0 then [.write client.fd (data client.fd)] else []) ++
      if leaves buf data client then [.close client.fd] else [])

/-- How the server differs after visits to some clients, in all but its table. -/
structure Visits (buf : Memory) (data : Nat → List UInt8) (s : State) (visited : List pollfd)
    (s' : State) : Prop where
  main_fd : s'.main_fd = s.main_fd
  ended : s'.ended = s.ended
  length : s'.clients.length = s.clients.length
  history : s'.history = s.history ++ visited.flatMap (visit buf data)
  uses : s'.uses = s.uses ++ visited.flatMap fun client => uses buf (data client.fd)
  opened : ∀ fd, fd ∈ s'.opened ↔
    fd ∈ s.opened ∧ fd ∉ (visited.filter (leaves buf data)).map (·.fd)

section Visits

variable {buf : Memory} {data : Nat → List UInt8} {s s' s'' : State} {client : pollfd}
  {visited : List pollfd}

theorem Visits.refl : Visits buf data s [] s := by
  constructor <;> simp

theorem Visits.trans {more : List pollfd} (h : Visits buf data s visited s')
    (hmore : Visits buf data s' more s'') : Visits buf data s (visited ++ more) s'' where
  main_fd := hmore.main_fd.trans h.main_fd
  ended := hmore.ended.trans h.ended
  length := hmore.length.trans h.length
  history := by rw [hmore.history, h.history, List.flatMap_append, List.append_assoc]
  uses := by rw [hmore.uses, h.uses, List.flatMap_append, List.append_assoc]
  opened fd := by
    rw [hmore.opened, h.opened, List.filter_append, List.map_append, List.mem_append]
    tauto

/-- The server when it has found out whether it closes the connection. -/
def answered (s : State) (fd : Nat) (bytes : List UInt8) : State :=
  { s with
    buf := received s.buf bytes
    history := s.history ++ .read fd :: if bytes.length > 0 then [.write fd bytes] else []
    uses := s.uses ++ uses s.buf bytes }

theorem echo_buf (s : State) (fd : Nat) (bytes : List UInt8) :
    (echo s fd bytes).buf = received s.buf bytes := by
  simp only [echo]
  split <;> rfl

theorem echo_answered (s : State) (fd : Nat) (bytes : List UInt8) :
    { echo s fd bytes with
      uses := (echo s fd bytes).uses ++ closing_uses (echo s fd bytes).buf bytes.length } =
      answered s fd bytes := by
  by_cases hlength : bytes.length > 0
  · simp [echo, answered, uses, load_received, hlength]
  · simp [echo, answered, uses, hlength]

theorem answered_visits (s : State) (h : ¬ leaves buf data client) :
    Visits buf data s [client] (answered s client.fd (data client.fd)) := by
  constructor <;> simp [answered, visit, h, uses_congr s.buf buf]

theorem close_visits (s : State) (h : leaves buf data client) :
    Visits buf data s [client] (close (answered s client.fd (data client.fd)) client.fd) := by
  constructor <;> simp [answered, visit, close, h, and_comm, uses_congr s.buf buf]

theorem closing_iff_leaves (s : State) :
    closing (received s.buf (data client.fd)) (data client.fd).length ↔ leaves buf data client := by
  show closes s.buf (data client.fd) ↔ closes buf (data client.fd)
  rw [closes_congr s.buf buf]

end Visits

section Pass

variable {buf : Memory} {data : Nat → List UInt8} {s : State} {client : pollfd}
  {front rest : List pollfd} {nready : Int}

theorem getElem_of_entries (hsplit : entries s = front ++ client :: rest) :
    s.clients[front.length]? = some client := by
  have hget : (entries s)[front.length]? = some client := by simp [hsplit]
  rw [entries, List.getElem?_take] at hget
  split at hget
  · exact hget
  · cases hget

theorem serve_pass_idle (hsplit : entries s = front ++ client :: rest) (hidle : ¬ ready client) :
    serve_pass data ⟨s, front.length, nready⟩ = some ⟨s, front.length + 1, nready⟩ := by
  have hclient := getElem_of_entries hsplit
  unfold ready at hidle
  simp only [serve_pass, hclient, Option.bind_eq_bind, Option.bind_some]
  rw [if_neg hidle]

theorem serve_pass_stay (hsplit : entries s = front ++ client :: rest) (hready : ready client)
    (hstays : ¬ leaves buf data client) :
    serve_pass data ⟨s, front.length, nready⟩ =
      some ⟨answered s client.fd (data client.fd), front.length + 1, nready - 1⟩ := by
  have hclient := getElem_of_entries hsplit
  have hclosing := (not_congr (closing_iff_leaves s)).2 hstays
  unfold ready at hready
  simp only [serve_pass, hclient, Option.bind_eq_bind, Option.bind_some]
  rw [if_pos hready, echo_answered, echo_buf, if_neg hclosing]

/-- The last entry moves to the place of the client that is removed. -/
theorem serve_pass_leave (hroom : s.nclients ≤ s.clients.length)
    (hsplit : entries s = front ++ client :: rest) (hready : ready client)
    (hleaves : leaves buf data client) :
    ∃ s', serve_pass data ⟨s, front.length, nready⟩ = some ⟨s', front.length, nready - 1⟩ ∧
      Visits buf data s [client] s' ∧ entries s' = front ++ moveLast rest ∧
      s'.nclients ≤ s'.clients.length := by
  have hclient := getElem_of_entries hsplit
  obtain ⟨hplace, _⟩ := List.getElem?_eq_some_iff.1 hclient
  obtain ⟨last, hlast⟩ : ∃ last, s.clients[s.nclients - 1]? = some last :=
    ⟨_, List.getElem?_eq_getElem (by omega)⟩
  have hvisits := close_visits s hleaves
  have hclosing := (closing_iff_leaves s).2 hleaves
  unfold ready at hready
  refine ⟨{ close (answered s client.fd (data client.fd)) client.fd with
    clients := s.clients.set front.length last
    nclients := s.nclients - 1 }, ?_, ?_, ?_, ?_⟩
  · simp only [serve_pass, hclient, Option.bind_eq_bind, Option.bind_some]
    rw [if_pos hready, echo_answered, echo_buf, if_pos hclosing]
    simp [close, answered, hlast, State.store, hplace, List.set_eq_modify]
  · exact ⟨hvisits.main_fd, hvisits.ended, by simp, hvisits.history, hvisits.uses, hvisits.opened⟩
  · exact take_set_moveLast hsplit hlast
  · simp only [List.length_set]
    omega

/-- One pass takes one step of a sweep. -/
theorem serve_pass_sweep (buf : Memory) (data : Nat → List UInt8) {budget : Nat}
    (hroom : s.nclients ≤ s.clients.length) (hsplit : entries s = front ++ client :: rest) :
    ∃ s' seen passed rest' budget',
      serve_pass data ⟨s, front.length, (budget + 1 : Nat)⟩ =
        some ⟨s', (front ++ passed).length, (budget' : Nat)⟩ ∧
      Visits buf data s seen s' ∧ entries s' = front ++ passed ++ rest' ∧
      s'.nclients ≤ s'.clients.length ∧ rest'.length = rest.length ∧
      ∀ visited kept, Sweep ready (leaves buf data) budget' rest' visited kept →
        Sweep ready (leaves buf data) (budget + 1) (client :: rest) (seen ++ visited)
          (passed ++ kept) := by
  have hbudget : ((budget + 1 : Nat) : Int) - 1 = budget := by omega
  have hgrown : (front ++ [client]).length = front.length + 1 := by simp
  by_cases hready : ready client
  · by_cases hleaves : leaves buf data client
    · obtain ⟨s', hpass, hvisits, hentries, hroom'⟩ := serve_pass_leave hroom hsplit hready hleaves
      refine ⟨s', [client], [], moveLast rest, budget, ?_, hvisits, by simpa using hentries, hroom',
        length_moveLast rest, fun visited kept => .drop hready hleaves⟩
      rw [hpass, hbudget, List.append_nil]
    · refine ⟨_, [client], [client], rest, budget, ?_, answered_visits s hleaves, ?_, ?_, rfl,
        fun visited kept => .stay hready hleaves⟩
      · rw [serve_pass_stay hsplit hready hleaves, hbudget, hgrown]
      · simpa [entries, answered] using hsplit
      · simpa [answered] using hroom
  · refine ⟨s, [], [client], rest, budget + 1, ?_, .refl, by simpa using hsplit, hroom, rfl,
      fun visited kept => .pass hready⟩
    rw [serve_pass_idle hsplit hready, hgrown]

end Pass

/-- The loop that serves the clients, from an index on, is a sweep over the entries
    that are left. -/
theorem serve_loop (buf : Memory) (data : Nat → List UInt8) {s : State}
    {front rest : List pollfd} (budget : Nat) {fuel : Nat} (hroom : s.nclients ≤ s.clients.length)
    (hsplit : entries s = front ++ rest) (hfuel : rest.length < fuel) :
    ∃ scan visited kept,
      whileLoop (fun scan => 0 < scan.nready && scan.i < scan.server.nclients)
        (fun scan => (serve_pass data scan).map .again) fuel ⟨s, front.length, budget⟩ = some scan ∧
      Sweep ready (leaves buf data) budget rest visited kept ∧
      entries scan.server = front ++ kept ∧ scan.server.nclients ≤ scan.server.clients.length ∧
      Visits buf data s visited scan.server := by
  induction fuel generalizing s front rest budget with
  | zero => omega
  | succ fuel ih =>
    have hlength : front.length + rest.length = s.nclients := by
      rw [← List.length_append, ← hsplit, entries, List.length_take, Nat.min_eq_left hroom]
    cases budget with
    | zero =>
      refine ⟨⟨s, front.length, 0⟩, [], rest, ?_, .spent, hsplit, hroom, .refl⟩
      rw [whileLoop, if_neg (by simp)]
      rfl
    | succ budget =>
      cases rest with
      | nil =>
        refine ⟨⟨s, front.length, (budget + 1 : Nat)⟩, [], [], ?_, .finished, hsplit, hroom, .refl⟩
        rw [List.length_nil] at hlength
        rw [whileLoop, if_neg (by simp [← hlength])]
      | cons client rest =>
        obtain ⟨s', seen, passed, rest', budget', hpass, hvisits, hsplit', hroom', hrest, hsweep⟩ :=
          serve_pass_sweep buf data hroom hsplit
        rw [List.length_cons] at hlength hfuel
        obtain ⟨scan, visited, kept, hloop, hmore, hend, hroom', hvisits'⟩ :=
          ih budget' hroom' hsplit' (by omega)
        refine ⟨scan, seen ++ visited, passed ++ kept, ?_, hsweep _ _ hmore, ?_, hroom',
          hvisits.trans hvisits'⟩
        · rw [whileLoop, if_pos, hpass]
          · exact hloop
          · simp
            omega
        · rw [hend, List.append_assoc]

theorem serve_clients_sweep (buf : Memory) (data : Nat → List UInt8) {s : State} (budget : Nat)
    (hlow : 2 ≤ s.nclients) (hroom : s.nclients ≤ s.clients.length) :
    ∃ s' visited kept, serve_clients data s budget = some s' ∧
      Sweep ready (leaves buf data) budget ((entries s).drop 2) visited kept ∧
      entries s' = (entries s).take 2 ++ kept ∧ s'.nclients ≤ s'.clients.length ∧
      Visits buf data s visited s' := by
  have hentries : (entries s).length = s.nclients := by
    rw [entries, List.length_take, Nat.min_eq_left hroom]
  have hfront : ((entries s).take 2).length = 2 := by
    rw [List.length_take, hentries, Nat.min_eq_left hlow]
  have hfuel : ((entries s).drop 2).length < s.nclients + 1 := by
    rw [List.length_drop, hentries]
    omega
  obtain ⟨scan, visited, kept, hloop, hsweep, hend, hroom', hvisits⟩ :=
    serve_loop buf data budget hroom (List.take_append_drop 2 _).symm hfuel
  rw [hfront] at hloop
  refine ⟨scan.server, visited, kept, ?_, hsweep, hend, hroom', hvisits⟩
  rw [serve_clients, hloop]
  rfl

end oslabs.async.polling
