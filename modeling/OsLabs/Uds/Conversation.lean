import OsLabs.Uds.Steps

open oslabs.memory oslabs.run
open oslabs.async (QUIT STOP Command)

namespace oslabs.uds

/-- A conversation in lock-step: what is echoed of some texts, and how the server ends. -/
def conversation (quit stop : List UInt8 → Bool) : List (List UInt8) → List (List UInt8) × Server
  | [] => ([], .closed)
  | t :: texts =>
    if quit t then ([], .closed)
    else if stop t then ([t], .exited)
    else (t :: (conversation quit stop texts).1, (conversation quit stop texts).2)

/-- The conversation as the programs have it. -/
def conversed : List (List UInt8) → List (List UInt8) × Server :=
  conversation (fun t => decide (Command QUIT t)) fun t => decide (Command STOP t)

/-- What the client still has when the server stops. -/
def late : List (List UInt8) → List (List UInt8)
  | [] => []
  | t :: texts => if Command QUIT t then [] else if Command STOP t then texts else late texts

/-- How much is still to be done. Every step makes it less. -/
def remaining (s : State) : Nat :=
  3 * s.input.length + 2 * s.requests.length + s.replies.length +
    (match s.client with
      | .reading | .waiting => 1
      | .ended | .failed => 0) +
    match s.server with
      | .serving => 2
      | .stopping => 1
      | .closed | .exited | .failed => 0

/-- What is still to be printed, how the server will end, and what the client will still have
    then, from where the two programs are. -/
inductive Phase (s : State) : List (List UInt8) × Server → List (List UInt8) → Prop where
  | asking (hclient : s.client = .reading) (hserver : s.server = .serving) (hrequests : s.requests = [])
      (hreplies : s.replies = []) : Phase s (conversed (s.input.map text)) (late (s.input.map text))
  | asked {t : List UInt8} (ht : Chunk t) (hclient : s.client = .waiting) (hserver : s.server = .serving)
      (hrequests : s.requests = [t ++ [0]]) (hreplies : s.replies = []) :
      Phase s (conversed (t :: s.input.map text)) (late (t :: s.input.map text))
  | answered {t : List UInt8} (ht : Chunk t) (hclient : s.client = .waiting) (hserver : s.server = .serving)
      (hrequests : s.requests = []) (hreplies : s.replies = [t ++ [0]]) :
      Phase s (t :: (conversed (s.input.map text)).1, (conversed (s.input.map text)).2)
        (late (s.input.map text))
  | stopping {t : List UInt8} (ht : Chunk t) (hclient : s.client = .waiting)
      (hserver : s.server = .stopping ∨ s.server = .exited) (hrequests : s.requests = [])
      (hreplies : s.replies = [t ++ [0]]) : Phase s ([t], .exited) (s.input.map text)
  | stopped (hclient : s.client = .reading) (hserver : s.server = .stopping ∨ s.server = .exited)
      (hrequests : s.requests = []) (hreplies : s.replies = []) :
      Phase s ([], .exited) (s.input.map text)
  | asked_late {after : List (List UInt8)} (hafter : after ≠ []) (hclient : s.client = .waiting)
      (hserver : s.server = .stopping) (hrequests : s.requests ≠ []) (hreplies : s.replies = []) :
      Phase s ([], .exited) after
  | finished {after : List (List UInt8)} (hclient : s.client = .failed)
      (hserver : s.server = .stopping ∧ after = [] ∨ s.server = .exited) : Phase s ([], .exited) after
  | closed (hclient : s.client = .waiting ∨ s.client = .ended) (hserver : s.server = .closed)
      (hrequests : s.requests = []) (hreplies : s.replies = []) : Phase s ([], .closed) []
  | gone (hclient : s.client = .failed) (hserver : s.server = .serving ∨ s.server = .closed)
      (hrequests : s.requests = []) (hreplies : s.replies = []) : Phase s ([], .closed) []

/-- No use of an array is outside it, and what is printed and what is still to be printed are
    the conversation. This holds in all runs, unless the server exits with something unread. -/
structure Kept (total : List (List UInt8) × Server) (after : List (List UInt8)) (s : State) : Prop where
  chunks : ∀ chunk ∈ s.input, Chunk chunk
  inside : ∀ a ∈ s.accesses, a.Inside
  phase : ∃ rest, Phase s rest after ∧ s.printed ++ rest.1 = total.1 ∧ rest.2 = total.2

variable {s s' : State} {total rest : List (List UInt8) × Server} {label : Label}
  {texts chunks after : List (List UInt8)} {t chunk : List UInt8} {line data buf : Memory}

theorem inside_append {accesses more : List Access} (h : ∀ a ∈ accesses, a.Inside)
    (hmore : ∀ a ∈ more, a.Inside) : ∀ a ∈ accesses ++ more, a.Inside := by
  intro a ha
  obtain hin | hin := List.mem_append.1 ha
  · exact h a hin
  · exact hmore a hin

theorem Kept.send (h : Kept total after s) (hclient : s.client = .reading) :
    Kept total after (send s) ∧ remaining (send s) < remaining s := by
  obtain ⟨rest, hphase, hprinted, hending⟩ := h.phase
  cases hinput : s.input with
  | nil =>
    have hsend : uds.send s = { s with client := .failed } := by rw [uds.send, hinput]
    rw [hsend]
    refine ⟨⟨h.chunks, h.inside, ?_⟩, by simp [remaining, hclient, hinput]⟩
    cases hphase with
    | asking _ hserver hrequests hreplies =>
      rw [hinput] at hprinted hending ⊢
      exact ⟨([], .closed), .gone rfl (.inl hserver) hrequests hreplies, hprinted, hending⟩
    | stopped _ hserver hrequests hreplies =>
      rw [hinput]
      exact ⟨([], .exited), .finished rfl (hserver.imp_left fun hstopping => ⟨hstopping, rfl⟩), hprinted, hending⟩
    | asked | answered | stopping | asked_late => simp_all
    | closed hwaiting => simp_all
    | finished hfailed => simp_all
    | gone hfailed => simp_all
  | cons chunk input =>
    have hchunk := h.chunks chunk (hinput ▸ List.mem_cons_self)
    have hchunks : ∀ c ∈ input, Chunk c := fun c hc => h.chunks c (hinput ▸ List.mem_cons_of_mem _ hc)
    obtain ⟨line, accesses, hsend, hinside⟩ := send_eq hinput hchunk
    have hless : 3 * input.length + 2 * (s.requests.length + 1) <
        3 * (input.length + 1) + 2 * s.requests.length := by
      omega
    cases hphase with
    | asking _ hserver hrequests hreplies =>
      rw [if_pos (.inl hserver)] at hsend
      rw [hsend]
      refine ⟨⟨hchunks, inside_append h.inside hinside, ?_⟩, by simpa [remaining, hclient, hinput] using hless⟩
      rw [hinput, List.map_cons] at hprinted hending ⊢
      refine ⟨_, .asked hchunk.text rfl hserver ?_ hreplies, hprinted, hending⟩
      rw [hrequests, List.nil_append]
    | stopped _ hserver hrequests hreplies =>
      obtain hstopping | hexited := hserver
      · rw [if_pos (.inr hstopping)] at hsend
        rw [hsend]
        refine ⟨⟨hchunks, inside_append h.inside hinside, ?_⟩, by simpa [remaining, hclient, hinput] using hless⟩
        refine ⟨_, .asked_late ?_ rfl hstopping ?_ hreplies, hprinted, hending⟩
        · simp [hinput]
        · simp
      · rw [if_neg (by simp [Server.Here, hexited])] at hsend
        rw [hsend]
        exact ⟨⟨hchunks, inside_append h.inside hinside, _, .finished rfl (.inr hexited), hprinted, hending⟩,
          by simp only [remaining, hclient, hinput, List.length_cons]; omega⟩
    | asked | answered | stopping | asked_late => simp_all
    | closed | finished | gone => simp_all

theorem Kept.receive (h : Kept total after s) (hclient : s.client = .waiting) (hstep : receive s = some s') :
    Kept total after s' ∧ remaining s' < remaining s := by
  obtain ⟨rest, hphase, hprinted, hending⟩ := h.phase
  have hanswer : ∀ t, Chunk t → s.replies = [t ++ [0]] →
      ∃ data accesses, s' = { s with
        data
        replies := []
        client := .reading
        printed := s.printed ++ [t]
        accesses := s.accesses ++ accesses } ∧ ∀ a ∈ accesses, a.Inside := by
    intro t ht hreplies
    obtain ⟨data, accesses, hreceive, hinside⟩ := receive_eq hreplies ht
    exact ⟨data, accesses, Option.some.inj (hstep.symm.trans hreceive), hinside⟩
  cases hphase with
  | asking hreading => simp [hclient] at hreading
  | asked _ _ hserver _ hreplies =>
    simp [uds.receive, read, Server.Here, hreplies, hserver] at hstep
  | @answered t ht _ hserver hrequests hreplies =>
    obtain ⟨data, accesses, rfl, hinside⟩ := hanswer t ht hreplies
    refine ⟨⟨h.chunks, inside_append h.inside hinside, _, .asking rfl hserver hrequests rfl, ?_, hending⟩,
      by simp [remaining, hclient, hreplies]⟩
    rw [← hprinted, List.append_assoc, List.singleton_append]
  | @stopping t ht _ hserver hrequests hreplies =>
    obtain ⟨data, accesses, rfl, hinside⟩ := hanswer t ht hreplies
    refine ⟨⟨h.chunks, inside_append h.inside hinside, _, .stopped rfl hserver hrequests rfl, ?_,
      hending⟩, by simp [remaining, hclient, hreplies]⟩
    rw [← hprinted, List.append_nil]
  | stopped hreading => simp [hclient] at hreading
  | asked_late _ _ hserver _ hreplies =>
    simp [uds.receive, read, Server.Here, hreplies, hserver] at hstep
  | finished hfailed => simp [hclient] at hfailed
  | closed _ hserver hrequests hreplies =>
    obtain ⟨data, accesses, hreceive, hinside⟩ :=
      receive_end hrequests hreplies (by simp [Server.Here, hserver])
    obtain rfl := Option.some.inj (hreceive.symm.trans hstep)
    exact ⟨⟨h.chunks, inside_append h.inside hinside, _, .closed (.inr rfl) hserver hrequests hreplies,
      hprinted, hending⟩, by simp [remaining, hclient]⟩
  | gone hfailed => simp [hclient] at hfailed

theorem Kept.process_connection (h : Kept total after s) (hserver : s.server = .serving)
    (hstep : process_connection s = some s') : Kept total after s' ∧ remaining s' < remaining s := by
  obtain ⟨rest, hphase, hprinted, hending⟩ := h.phase
  cases hphase with
  | asking hreading _ hrequests =>
    simp [uds.process_connection, read, Client.Here, hrequests, hreading] at hstep
  | @asked t ht hclient _ hrequests hreplies =>
    obtain ⟨buf, accesses, hprocess, hinside⟩ := process_connection_eq hrequests ht (.inr hclient)
    obtain rfl := Option.some.inj (hprocess.symm.trans hstep)
    rw [conversed, conversation] at hprinted hending
    rw [late]
    by_cases hquit : Command QUIT t
    · simp only [hquit, decide_true, if_true] at hprinted hending ⊢
      exact ⟨⟨h.chunks, inside_append h.inside hinside, _, .closed (.inl hclient) rfl rfl hreplies,
        hprinted, hending⟩, by simp [remaining, hclient, hserver, hrequests, hreplies]⟩
    · simp only [hquit, decide_false, Bool.false_eq_true, if_false] at hprinted hending ⊢
      have hanswer : s.replies ++ [t ++ [0]] = [t ++ [0]] := by rw [hreplies, List.nil_append]
      by_cases hstop : Command STOP t
      · simp only [hstop, decide_true, if_true] at hprinted hending ⊢
        exact ⟨⟨h.chunks, inside_append h.inside hinside, _, .stopping ht hclient (.inl rfl) rfl hanswer,
          hprinted, hending⟩, by simp [remaining, hclient, hserver, hrequests, hreplies]⟩
      · simp only [hstop, decide_false, Bool.false_eq_true, if_false] at hprinted hending ⊢
        exact ⟨⟨h.chunks, inside_append h.inside hinside, _, .answered ht hclient rfl rfl hanswer,
          hprinted, hending⟩, by simp [remaining, hclient, hserver, hrequests, hreplies]⟩
  | answered _ hclient _ hrequests =>
    simp [uds.process_connection, read, Client.Here, hrequests, hclient] at hstep
  | stopping _ _ hstopping => simp [hserver] at hstopping
  | stopped _ hstopping => simp [hserver] at hstopping
  | asked_late _ _ hstopping => simp [hserver] at hstopping
  | finished _ hstopping => simp [hserver] at hstopping
  | closed _ hclosed => simp [hserver] at hclosed
  | gone hclient _ hrequests hreplies =>
    obtain ⟨buf, accesses, hprocess, hinside⟩ :=
      process_connection_end hrequests hreplies (by simp [Client.Here, hclient])
    obtain rfl := Option.some.inj (hprocess.symm.trans hstep)
    exact ⟨⟨h.chunks, inside_append h.inside hinside, _, .gone hclient (.inr rfl) hrequests hreplies,
      hprinted, hending⟩, by simp [remaining, hserver]⟩

theorem Kept.exit (h : Kept total [] s) (hserver : s.server = .stopping) :
    Kept total [] { s with server := .exited } ∧ remaining { s with server := .exited } < remaining s := by
  obtain ⟨rest, hphase, hprinted, hending⟩ := h.phase
  refine ⟨⟨h.chunks, h.inside, ?_⟩, by simp [remaining, hserver]⟩
  generalize hafter : ([] : List (List UInt8)) = after at hphase ⊢
  cases hphase with
  | asking _ hserving => simp [hserver] at hserving
  | asked _ _ hserving => simp [hserver] at hserving
  | answered _ _ hserving => simp [hserver] at hserving
  | stopping ht hclient _ hrequests hreplies =>
    exact ⟨_, .stopping ht hclient (.inr rfl) hrequests hreplies, hprinted, hending⟩
  | stopped hclient _ hrequests hreplies =>
    exact ⟨_, .stopped hclient (.inr rfl) hrequests hreplies, hprinted, hending⟩
  | asked_late hne => exact absurd hafter.symm hne
  | finished hclient => exact ⟨_, .finished hclient (.inr rfl), hprinted, hending⟩
  | closed _ hclosed => simp [hserver] at hclosed
  | gone _ hserving => simp [hserver] at hserving

/-- Every step keeps the invariant and comes nearer to the end, but for the server's exit
    while the client has something to send. -/
theorem Kept.step (h : Kept total after s) (hexit : label = .exit → after = [])
    (hstep : step s label = some s') : Kept total after s' ∧ remaining s' < remaining s := by
  cases label with
  | send =>
    obtain ⟨hclient, hstep⟩ := Option.ite_none_right_eq_some.1 hstep
    obtain rfl := Option.some.inj hstep
    exact h.send hclient
  | receive =>
    obtain ⟨hclient, hstep⟩ := Option.ite_none_right_eq_some.1 hstep
    exact h.receive hclient hstep
  | process_connection =>
    obtain ⟨hserver, hstep⟩ := Option.ite_none_right_eq_some.1 hstep
    exact h.process_connection hserver hstep
  | exit =>
    obtain ⟨hserver, hstep⟩ := Option.ite_none_right_eq_some.1 hstep
    obtain rfl := Option.some.inj hstep
    obtain rfl := hexit rfl
    exact h.exit hserver

theorem kept_start (line data buf : Memory) (hchunks : ∀ chunk ∈ chunks, Chunk chunk) :
    Kept (conversed (chunks.map text)) (late (chunks.map text)) (start line data buf chunks) where
  chunks := hchunks
  inside _ ha := absurd ha List.not_mem_nil
  phase := ⟨_, .asking rfl rfl rfl rfl, rfl, rfl⟩

/-- Where none of the steps goes on but for an exit, all is printed and the server is at its
    end, unless it has stopped while the client still has something to send. -/
theorem Phase.of_stuck (h : Phase s rest after)
    (hstuck : ∀ label, label ≠ .exit → step s label = none) :
    (s.server = .stopping ∧ s.client = .waiting ∧ s.requests ≠ [] ∧ s.replies = []) ∨
      s.server = .stopping ∧ after = [] ∨ s.server = .exited ∧ rest = ([], .exited) ∨
      s.server = .closed ∧ after = [] ∧ rest = ([], .closed) := by
  have hsend := hstuck .send nofun
  have hreceive := hstuck .receive nofun
  have hprocess := hstuck .process_connection nofun
  simp only [uds.step] at hsend hreceive hprocess
  cases h with
  | asking hclient | stopped hclient => simp [hclient] at hsend
  | asked ht hclient hserver hrequests =>
    obtain ⟨_, _, hsome, _⟩ := process_connection_eq hrequests ht (.inr hclient)
    simp [hserver, hsome] at hprocess
  | answered ht hclient _ _ hreplies | stopping ht hclient _ _ hreplies =>
    obtain ⟨_, _, hsome, _⟩ := receive_eq hreplies ht
    simp [hclient, hsome] at hreceive
  | asked_late _ hclient hserver hrequests hreplies =>
    exact .inl ⟨hserver, hclient, hrequests, hreplies⟩
  | finished _ hserver =>
    obtain hstopping | hexited := hserver
    · exact .inr (.inl hstopping)
    · exact .inr (.inr (.inl ⟨hexited, rfl⟩))
  | closed _ hserver => exact .inr (.inr (.inr ⟨hserver, rfl, rfl⟩))
  | gone hclient hserver hrequests hreplies =>
    obtain hserving | hclosed := hserver
    · obtain ⟨_, _, hsome, _⟩ :=
        process_connection_end hrequests hreplies (by simp [Client.Here, hclient])
      simp [hserving, hsome] at hprocess
    · exact .inr (.inr (.inr ⟨hclosed, rfl, rfl⟩))

/-- Where neither program can go on, all is printed and the server is at its end. -/
theorem Phase.of_final (h : Phase s rest after) (hfinal : Final s) : rest = ([], s.server) := by
  have hexit := hfinal .exit
  rcases h.of_stuck fun label _ => hfinal label with ⟨hserver, _⟩ | ⟨hserver, _⟩ |
    ⟨hserver, hrest⟩ | ⟨hserver, _, hrest⟩
  · simp [uds.step, hserver] at hexit
  · simp [uds.step, hserver] at hexit
  · rw [hrest, hserver]
  · rw [hrest, hserver]

/-- Only its exit brings the server to the end of its process. -/
theorem server_of_step (hstep : step s label = some s') (hlabel : label ≠ .exit)
    (hserver : s.server ≠ .exited) : s'.server ≠ .exited := by
  cases label with
  | send =>
    obtain ⟨_, hstep⟩ := Option.ite_none_right_eq_some.1 hstep
    obtain rfl := Option.some.inj hstep
    unfold send
    split
    · exact hserver
    · dsimp only
      split <;> exact hserver
  | receive =>
    obtain ⟨_, hstep⟩ := Option.ite_none_right_eq_some.1 hstep
    obtain ⟨_, _, hstep⟩ := Option.bind_eq_some_iff.1 hstep
    dsimp only at hstep
    split at hstep <;> exact Option.some.inj hstep ▸ hserver
  | process_connection =>
    obtain ⟨_, hstep⟩ := Option.ite_none_right_eq_some.1 hstep
    obtain ⟨_, _, hstep⟩ := Option.bind_eq_some_iff.1 hstep
    dsimp only at hstep
    repeat' split at hstep
    all_goals
      obtain rfl := Option.some.inj hstep
      simp
  | exit => exact absurd rfl hlabel

/-- A step before the server's exit. -/
def Unhurried (s : State) (label : Label) (s' : State) : Prop :=
  StepOf step s label s' ∧ label ≠ .exit

/-- A client that sends something after the server has stopped can find it gone, and then
    leaves its array. -/
theorem exists_outside (line data buf : Memory) (hchunks : ∀ chunk ∈ chunks, Chunk chunk)
    (hlate : late (chunks.map text) ≠ []) :
    ∃ labels s, Run (StepOf step) (start line data buf chunks) labels s ∧
      ∃ a ∈ s.accesses, ¬ a.Inside := by
  have hlower : ∀ s label s', (Kept (conversed (chunks.map text)) (late (chunks.map text)) s ∧
        s.server ≠ .exited) → Unhurried s label s' →
      (Kept (conversed (chunks.map text)) (late (chunks.map text)) s' ∧ s'.server ≠ .exited) ∧
        remaining s' < remaining s := by
    rintro s label s' ⟨hkept, hserver⟩ ⟨hstep, hlabel⟩
    obtain ⟨hkept', hless⟩ := hkept.step (fun hexit => absurd hexit hlabel) hstep
    exact ⟨⟨hkept', server_of_step hstep hlabel hserver⟩, hless⟩
  -- The server exits only when nothing else can happen. By then the client waits for an answer.
  obtain ⟨labels, s, hrun, hend⟩ := exists_end _ remaining hlower ⟨kept_start line data buf hchunks, nofun⟩
  obtain ⟨hkept, hserver⟩ := hrun.invariant _ ⟨kept_start line data buf hchunks, nofun⟩
    fun s label s' h hstep => (hlower s label s' h hstep).1
  have hstuck : ∀ label, label ≠ .exit → step s label = none := fun label hlabel =>
    Option.eq_none_iff_forall_ne_some.2 fun s' hstep => hend label s' ⟨hstep, hlabel⟩
  obtain ⟨rest, hphase, _⟩ := hkept.phase
  rcases hphase.of_stuck hstuck with ⟨hstopping, hclient, hrequests, hreplies⟩ |
    ⟨_, hnone⟩ | ⟨hexited, _⟩ | ⟨_, hnone, _⟩
  · have hexit : step s .exit = some { s with server := .exited } := if_pos hstopping
    obtain ⟨s', a, hreceive, ha, houtside⟩ := receive_reset (s := { s with server := .exited }) hrequests
      hreplies (by simp [Server.Here])
    have hreset : step { s with server := .exited } .receive = some s' := (if_pos hclient).trans hreceive
    have hslow : Run (StepOf step) (start line data buf chunks) labels s := hrun.mono fun _ _ _ h => h.1
    exact ⟨_, s', (hslow.snoc hexit).snoc hreset, a, ha, houtside⟩
  · exact absurd hnone hlate
  · exact absurd hexited hserver
  · exact absurd hnone hlate

/-- A command: the word alone or followed by a control character. -/
def ControlCommand (word t : List UInt8) : Prop :=
  word <+: t ∧ ∀ c ∈ t[4]?, c < 32

/-- The word is followed by a character beyond ASCII. -/
def Beyond (word t : List UInt8) : Prop :=
  word <+: t ∧ ∃ c ∈ t[4]?, 128 ≤ c

instance (word t : List UInt8) : Decidable (ControlCommand word t) :=
  inferInstanceAs (Decidable (_ ∧ _))

instance (word t : List UInt8) : Decidable (Beyond word t) :=
  inferInstanceAs (Decidable (_ ∧ _))

/-- The conversation as it is meant. -/
def meant : List (List UInt8) → List (List UInt8) × Server :=
  conversation (fun t => decide (ControlCommand QUIT t)) fun t => decide (ControlCommand STOP t)

/-- What the two programs do with some chunks, whatever the order of their steps: they stay
    within their arrays, the client prints a part of what is meant, in order, and at the end,
    which comes, all of it, with the server as it is meant to be. -/
structure LockStep (line data buf : Memory) (chunks : List (List UInt8)) : Prop where
  inside : ∀ labels s, Run (StepOf step) (start line data buf chunks) labels s → ∀ a ∈ s.accesses, a.Inside
  printed : ∀ labels s, Run (StepOf step) (start line data buf chunks) labels s →
    s.printed <+: (meant (chunks.map text)).1
  ends : ∀ labels s, Run (StepOf step) (start line data buf chunks) labels s →
    labels.length ≤ 3 * chunks.length + 3
  final : ∀ labels s, Run (StepOf step) (start line data buf chunks) labels s → Final s →
    (s.printed, s.server) = meant (chunks.map text)

/-- Something holds of each text as far as the first command, with what comes behind it. -/
def ToCommand (P : List UInt8 → List (List UInt8) → Prop) (texts : List (List UInt8)) : Prop :=
  ∀ before t after, texts = before ++ t :: after →
    (∀ u ∈ before, ¬ (ControlCommand QUIT u ∨ ControlCommand STOP u)) → P t after

/-- No text as far as the first command is a word with a character beyond ASCII behind it. -/
def AsciiCommands : List (List UInt8) → Prop :=
  ToCommand fun t _ => ¬ (Beyond QUIT t ∨ Beyond STOP t)

/-- Nothing comes behind the first command if it is `stop`. -/
def StopLast : List (List UInt8) → Prop :=
  ToCommand fun t after => ControlCommand STOP t → after = []

theorem toInt8_lt_iff (c : UInt8) : c.toInt8 < 32 ↔ c < 32 ∨ 128 ≤ c := by
  have hsigned : c.toInt8.toInt = if 2 * c.toNat < 2 ^ 8 then (c.toNat : Int) else c.toNat - 2 ^ 8 :=
    BitVec.toInt_eq_toNat_cond c.toBitVec
  have hspace : (32 : Int8).toInt = 32 := rfl
  have hlow : (32 : UInt8).toNat = 32 := rfl
  have hhigh : (128 : UInt8).toNat = 128 := rfl
  have hlt := c.toNat_lt
  rw [Int8.lt_iff_toInt_lt, UInt8.lt_iff_toNat_lt, UInt8.le_iff_toNat_le, hsigned, hspace, hlow, hhigh]
  split <;> omega

/-- A signed character is less than a space also when it is beyond ASCII. -/
theorem command_iff {word : List UInt8} : Command word t ↔ ControlCommand word t ∨ Beyond word t := by
  unfold Command ControlCommand Beyond
  cases hnext : t[4]? with
  | none => simp
  | some c => simp [toInt8_lt_iff, and_or_left]

theorem not_beyond_of_control {word word' : List UInt8} (h : ControlCommand word t) : ¬ Beyond word' t := by
  rintro ⟨_, c, hc, hhigh⟩
  have hlow := h.2 c hc
  rw [UInt8.lt_iff_toNat_lt] at hlow
  rw [UInt8.le_iff_toNat_le] at hhigh
  have hspace : (32 : UInt8).toNat = 32 := rfl
  have hbound : (128 : UInt8).toNat = 128 := rfl
  omega

theorem toCommand_cons_iff {P : List UInt8 → List (List UInt8) → Prop} :
    ToCommand P (t :: texts) ↔
      P t texts ∧ (¬ (ControlCommand QUIT t ∨ ControlCommand STOP t) → ToCommand P texts) := by
  constructor
  · intro h
    refine ⟨h [] t texts rfl (by simp), fun hnone before u after hsplit hbefore => ?_⟩
    apply h (t :: before) u after (by rw [hsplit, List.cons_append])
    intro v hv
    obtain rfl | hv := List.mem_cons.1 hv
    · exact hnone
    · exact hbefore v hv
  · rintro ⟨hfirst, hrest⟩ before u after hsplit hbefore
    cases before with
    | nil =>
      obtain ⟨rfl, rfl⟩ := List.cons.inj hsplit
      exact hfirst
    | cons v before =>
      obtain ⟨rfl, htexts⟩ := List.cons.inj hsplit
      exact hrest (hbefore t List.mem_cons_self) before u after htexts
        fun w hw => hbefore w (List.mem_cons_of_mem _ hw)

theorem asciiCommands_cons_iff : AsciiCommands (t :: texts) ↔
    ¬ (Beyond QUIT t ∨ Beyond STOP t) ∧
      (¬ (ControlCommand QUIT t ∨ ControlCommand STOP t) → AsciiCommands texts) :=
  toCommand_cons_iff

theorem stopLast_cons_iff : StopLast (t :: texts) ↔
    (ControlCommand STOP t → texts = []) ∧
      (¬ (ControlCommand QUIT t ∨ ControlCommand STOP t) → StopLast texts) :=
  toCommand_cons_iff

/-- No text begins with both words. -/
theorem not_stop_of_quit (hquit : ControlCommand QUIT t) : ¬ ControlCommand STOP t := by
  intro hstop
  have hsame := List.prefix_of_prefix_length_le hquit.1 hstop.1 (Nat.le_refl _)
  revert hsame
  decide

/-- Where the programs take the same commands as is meant, the client has nothing left to send
    just when `stop` comes last. -/
theorem late_eq_nil_iff (hascii : AsciiCommands texts) : late texts = [] ↔ StopLast texts := by
  induction texts with
  | nil => exact iff_of_true rfl fun before t after hsplit => by simp at hsplit
  | cons t texts ih =>
    obtain ⟨hfirst, hrest⟩ := asciiCommands_cons_iff.1 hascii
    obtain ⟨hquit', hstop'⟩ := not_or.1 hfirst
    rw [stopLast_cons_iff, late]
    simp only [command_iff, hquit', hstop', or_false]
    by_cases hquit : ControlCommand QUIT t
    · simp [hquit, not_stop_of_quit hquit]
    · by_cases hstop : ControlCommand STOP t
      · simp [hquit, hstop]
      · simpa [hquit, hstop] using ih (hrest (by simp [hquit, hstop]))

/-- A conversation in which nothing is echoed does not end the server. -/
theorem conversation_ne_exited (quit stop : List UInt8 → Bool) (texts : List (List UInt8)) :
    conversation quit stop texts ≠ ([], .exited) := by
  cases texts with
  | nil => simp [conversation]
  | cons t texts =>
    rw [conversation]
    split
    · simp
    · split <;> simp

theorem conversed_eq_meant_iff : conversed texts = meant texts ↔ AsciiCommands texts := by
  induction texts with
  | nil => exact iff_of_true rfl fun before t after hsplit => by simp at hsplit
  | cons t texts ih =>
    rw [asciiCommands_cons_iff]
    have hconversed : conversed (t :: texts) = if Command QUIT t then ([], .closed)
        else if Command STOP t then ([t], .exited) else (t :: (conversed texts).1, (conversed texts).2) := by
      simp only [conversed, conversation, decide_eq_true_iff]
    have hmeant : meant (t :: texts) = if ControlCommand QUIT t then ([], .closed)
        else if ControlCommand STOP t then ([t], .exited) else (t :: (meant texts).1, (meant texts).2) := by
      simp only [meant, conversation, decide_eq_true_iff]
    rw [hconversed, hmeant]
    by_cases hquit : ControlCommand QUIT t
    · rw [if_pos (command_iff.2 (.inl hquit)), if_pos hquit]
      have hascii : ∀ word, ¬ Beyond word t := fun _ => not_beyond_of_control hquit
      exact iff_of_true rfl ⟨by simp [hascii], fun h => absurd (.inl hquit) h⟩
    by_cases hstop : ControlCommand STOP t
    · have hascii : ∀ word, ¬ Beyond word t := fun _ => not_beyond_of_control hstop
      rw [if_neg (by simp [command_iff, hquit, hascii]), if_neg hquit, if_pos (command_iff.2 (.inl hstop)),
        if_pos hstop]
      exact iff_of_true rfl ⟨by simp [hascii], fun h => absurd (.inr hstop) h⟩
    rw [if_neg hquit, if_neg hstop]
    by_cases hquit' : Beyond QUIT t
    · rw [if_pos (command_iff.2 (.inr hquit'))]
      exact iff_of_false (by simp) fun h => h.1 (.inl hquit')
    by_cases hstop' : Beyond STOP t
    · rw [if_neg (by simp [command_iff, hquit, hquit']), if_pos (command_iff.2 (.inr hstop'))]
      refine iff_of_false (fun heq => ?_) fun h => h.1 (.inr hstop')
      simp only [Prod.mk.injEq, List.cons.injEq, true_and] at heq
      exact conversation_ne_exited _ _ texts (Prod.ext heq.1.symm heq.2.symm)
    · rw [if_neg (by simp [command_iff, hquit, hquit']), if_neg (by simp [command_iff, hstop, hstop'])]
      simp [hquit, hstop, hquit', hstop', ← ih, Prod.ext_iff]

/-- Every step keeps the invariant where the client has nothing left to send. -/
theorem kept_step (hlate : after = []) : ∀ s label s', Kept total after s → StepOf step s label s' →
    Kept total after s' ∧ remaining s' < remaining s :=
  fun _ _ _ h hstep => h.step (fun _ => hlate) hstep

theorem kept_run (hchunks : ∀ chunk ∈ chunks, Chunk chunk) (hlate : late (chunks.map text) = [])
    {labels : List Label} (hrun : Run (StepOf step) (start line data buf chunks) labels s) :
    Kept (conversed (chunks.map text)) (late (chunks.map text)) s :=
  hrun.invariant _ (kept_start line data buf hchunks) fun s label s' h hstep =>
    (kept_step hlate s label s' h hstep).1

/-- At the end of every run the conversation is complete, as the programs have it. -/
theorem conversed_of_final (hchunks : ∀ chunk ∈ chunks, Chunk chunk) (hlate : late (chunks.map text) = [])
    {labels : List Label} (hrun : Run (StepOf step) (start line data buf chunks) labels s)
    (hfinal : Final s) : (s.printed, s.server) = conversed (chunks.map text) := by
  have hkept := kept_run hchunks hlate hrun
  obtain ⟨rest, hphase, hprinted, hending⟩ := hkept.phase
  obtain rfl := hphase.of_final hfinal
  rw [List.append_nil] at hprinted
  exact Prod.ext hprinted hending

theorem exists_final (line data buf : Memory) (hchunks : ∀ chunk ∈ chunks, Chunk chunk)
    (hlate : late (chunks.map text) = []) :
    ∃ labels s, Run (StepOf step) (start line data buf chunks) labels s ∧ Final s := by
  obtain ⟨labels, s, hrun, hend⟩ := exists_end (Kept (conversed (chunks.map text)) _) remaining
    (kept_step hlate) (kept_start line data buf hchunks)
  exact ⟨labels, s, hrun, fun label => Option.eq_none_iff_forall_ne_some.2 (hend label)⟩

/-- The programs keep to what is meant just when no command is made of a character that is
    beyond ASCII, and the client has nothing to send behind a `stop`. -/
theorem lockStep_iff (hchunks : ∀ chunk ∈ chunks, Chunk chunk) :
    LockStep line data buf chunks ↔ AsciiCommands (chunks.map text) ∧ StopLast (chunks.map text) := by
  constructor
  · intro h
    have hlate : late (chunks.map text) = [] := by
      by_contra hne
      obtain ⟨labels, s, hrun, a, ha, houtside⟩ := exists_outside line data buf hchunks hne
      exact houtside (h.inside labels s hrun a ha)
    obtain ⟨labels, s, hrun, hfinal⟩ := exists_final line data buf hchunks hlate
    have hascii : AsciiCommands (chunks.map text) := by
      rw [← conversed_eq_meant_iff, ← conversed_of_final hchunks hlate hrun hfinal,
        h.final labels s hrun hfinal]
    exact ⟨hascii, (late_eq_nil_iff hascii).1 hlate⟩
  · rintro ⟨hascii, hstop⟩
    have hlate := (late_eq_nil_iff hascii).2 hstop
    have hmeant := conversed_eq_meant_iff.2 hascii
    refine ⟨fun labels s hrun => (kept_run hchunks hlate hrun).inside, fun labels s hrun => ?_,
      fun labels s hrun => ?_, fun labels s hrun hfinal =>
        hmeant ▸ conversed_of_final hchunks hlate hrun hfinal⟩
    · obtain ⟨rest, _, hprinted, _⟩ := (kept_run hchunks hlate hrun).phase
      exact ⟨rest.1, hmeant ▸ hprinted⟩
    · have hbound := hrun.length_add_le (Kept (conversed (chunks.map text)) _) remaining
        (kept_step hlate) (kept_start line data buf hchunks)
      have hstart : remaining (start line data buf chunks) = 3 * chunks.length + 3 := by
        simp [remaining, start]
      omega

theorem lockStep_iff_stop :
    LockStep (fun _ => 1) (fun _ => 2) (fun _ => 3) [[104, 105, 10], [10], STOP ++ [13, 10]] ∧
      meant ([[104, 105, 10], [10], STOP ++ [13, 10]].map text) = ([[104, 105], [], STOP], .exited) := by
  have hascii : AsciiCommands ([[104, 105, 10], [10], STOP ++ [13, 10]].map text) :=
    conversed_eq_meant_iff.mp (by decide +kernel)
  have hstop : StopLast ([[104, 105, 10], [10], STOP ++ [13, 10]].map text) :=
    (late_eq_nil_iff hascii).mp (by decide +kernel)
  refine ⟨(lockStep_iff fun chunk hchunk => ?_).mpr ⟨hascii, hstop⟩, by decide +kernel⟩
  simp only [List.mem_cons, List.not_mem_nil, or_false] at hchunk
  obtain rfl | rfl | rfl := hchunk
  all_goals exact ⟨by decide, by decide⟩

/-- `quité` is closed without an answer. -/
theorem lockStep_fails :
    ∃ labels s,
      Run (StepOf step) (start (fun _ => 0) (fun _ => 0) (fun _ => 0) [QUIT ++ [195, 169, 10]]) labels s ∧
      Final s ∧ (s.printed, s.server) = ([], .closed) ∧
      meant ([QUIT ++ [195, 169, 10]].map text) = ([QUIT ++ [195, 169]], .closed) := by
  have hchunks : ∀ chunk ∈ [QUIT ++ [195, 169, 10]], Chunk chunk := by
    intro chunk hchunk
    obtain rfl := List.mem_singleton.1 hchunk
    exact ⟨by decide, by decide⟩
  have hlate : late ([QUIT ++ [195, 169, 10]].map text) = [] := by decide +kernel
  obtain ⟨labels, s, hrun, hfinal⟩ := exists_final (fun _ => 0) (fun _ => 0) (fun _ => 0) hchunks hlate
  have hend := conversed_of_final hchunks hlate hrun hfinal
  exact ⟨labels, s, hrun, hfinal, hend.trans (by decide +kernel), by decide +kernel⟩

/-- A client that sends `hi` behind `stop` prints `stop` twice when the server exits without
    reading it. -/
example : (exec step (start (fun _ => 0) (fun _ => 0) (fun _ => 0) [STOP ++ [10], [104, 105, 10]])
    [.send, .process_connection, .receive, .send, .exit, .receive]).map State.printed = some [STOP, STOP] := by
  decide +kernel

end oslabs.uds
