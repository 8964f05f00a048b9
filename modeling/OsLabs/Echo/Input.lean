import OsLabs.Echo.ClientSteps
import OsLabs.Lib.Lines

open oslabs.lines oslabs.memory oslabs.run

namespace oslabs.echo

variable {C : Type} [DecidableEq C]

/-- A client with what is left of its standard input. -/
structure Session (C : Type) where
  client : Client C
  stdin : List UInt8

/-- A client before its first call, with what its variables happen to hold. -/
def Session.start (smsg : echomsg_t) (input : List UInt8) : Session C where
  client := { pc := .start, smc := .server, smsg, sent := [], received := [] }
  stdin := input

/-- The client makes a call, in a memory that the other processes may have left in any state.
    What `fgets` reads comes from the standard input. -/
def attend (pid : Int32) (c : C) (s : Session C) : Shared C × ClientLabel → Option (Session C)
  | (shared, .fgets line) => do
    let (bytes, stdin) := readLine 10 (ECHO_MSG_MAX_LEN - 1) s.stdin
    if line = if bytes = [] then none else some bytes then
      let (_, client) ← client_step pid c shared s.client (.fgets line)
      some { client, stdin }
    else none
  | (shared, label) => do
    let (_, client) ← client_step pid c shared s.client label
    some { s with client }

/-- The text of a message, as `%s` prints it. -/
def echomsg_t.text (m : echomsg_t) : List UInt8 := m.msg.takeWhile (· ≠ 0)

/-- The texts of the messages that a client has put. -/
def Client.texts (client : Client C) : List UInt8 := client.sent.flatMap echomsg_t.text

/-- The client has come to its cleanup. -/
def Session.Stopped (s : Session C) : Prop := s.client.pc = .closing ∨ s.client.pc = .ended

/-- What has been sent is all that is in the lines of the input up to its first empty line, and
    where some input is left, it is what follows the empty line. -/
structure Lossless (input : List UInt8) (s : Session C) : Prop where
  sent : s.client.texts = content 10 true input
  stopped : s.stdin ≠ [] → input = upToEmpty 10 true input ++ 10 :: s.stdin

variable {pid : Int32} {c : C} {s s' : Session C} {shared : Shared C} {label : ClientLabel}
  {input typed stdin line : List UInt8}

/-- What `fgets` and the cut make of some bytes: all but the last one of them are the text. -/
theorem line_msg_concat {smsg : echomsg_t} {last : UInt8} (hline : 0 ∉ line) (hlast : last ≠ 0) :
    line_msg smsg (line ++ [last]) =
      { smsg with msg := line ++ 0 :: 0 :: smsg.msg.drop (line.length + 2) } := by
  have hzero : 0 ∉ line ++ [last] := by simp [hline, Ne.symm hlast]
  have hlength : strlen (fgets smsg.msg (line ++ [last])) = line.length + 1 := by
    rw [strlen, fgets, takeWhile_append_zero _ hzero]
    simp
  unfold line_msg chop
  rw [hlength]
  simp [fgets]

theorem text_line_msg {smsg : echomsg_t} {last : UInt8} (hline : 0 ∉ line) (hlast : last ≠ 0) :
    (line_msg smsg (line ++ [last])).text = line := by
  rw [line_msg_concat hline hlast]
  exact takeWhile_append_zero _ hline

theorem isEmpty_line_msg {smsg : echomsg_t} {last : UInt8} (hline : 0 ∉ line) (hlast : last ≠ 0) :
    (line_msg smsg (line ++ [last])).isEmpty ↔ line = [] := by
  rw [line_msg_concat hline hlast]
  cases line with
  | nil => simp [echomsg_t.isEmpty]
  | cons b line =>
    have hb : b ≠ 0 := fun hb => hline (by simp [hb])
    simp [echomsg_t.isEmpty, hb]

/-- The lines that have been typed so far are in what has been sent, `typed`, and they were not
    empty. What is left of the input is in `stdin`. -/
structure Kept (input typed stdin : List UInt8) : Prop where
  fits : Fits 10 (ECHO_MSG_MAX_LEN - 1) 0 input ↔ Fits 10 (ECHO_MSG_MAX_LEN - 1) 0 stdin
  consumed : ∃ before, input = before ++ stdin ∧
    upToEmpty 10 true input = before ++ upToEmpty 10 true stdin ∧ typed = before.filter (· ≠ 10)

/-- Something typed has got lost, more than what is left could make up for. -/
structure Lost (input typed stdin : List UInt8) : Prop where
  fits : ¬ Fits 10 (ECHO_MSG_MAX_LEN - 1) 0 input
  less : ∃ atStart, typed.length + (content 10 atStart stdin).length < (content 10 true input).length

section Reading

variable {rest : List UInt8}

theorem Kept.start (input : List UInt8) : Kept input [] input where
  fits := Iff.rfl
  consumed := ⟨[], rfl, rfl, rfl⟩

theorem Kept.content_eq (h : Kept input typed stdin) :
    content 10 true input = typed ++ content 10 true stdin := by
  obtain ⟨before, _, hupTo, rfl⟩ := h.consumed
  rw [content, hupTo, List.filter_append]
  rfl

theorem Kept.terminated (h : Kept input typed (line ++ 10 :: rest)) (hline : 10 ∉ line) (hne : line ≠ [])
    (hlength : line.length < ECHO_MSG_MAX_LEN - 1) : Kept input (typed ++ line) rest where
  fits := by
    rw [h.fits, fits_line_iff hline hlength]
    exact or_iff_right hne
  consumed := by
    obtain ⟨before, hinput, hupTo, htyped⟩ := h.consumed
    refine ⟨before ++ line ++ [10], by simp [hinput], ?_, ?_⟩
    · rw [hupTo, upToEmpty_line hline hne]
      simp
    · rw [List.filter_append, List.filter_append, filter_line hline, htyped]
      simp

theorem Kept.unterminated (h : Kept input typed (line ++ rest)) (hline : 10 ∉ line) (hne : line ≠ [])
    (hend : line.length = ECHO_MSG_MAX_LEN - 1 ∨ rest = []) : Lost input (typed ++ line.dropLast) rest where
  fits := by
    rw [h.fits]
    exact not_fits hline hne hend
  less := by
    have hpos := List.length_pos_iff.2 hne
    refine ⟨false, ?_⟩
    rw [h.content_eq, content_part hline hne]
    simp only [List.length_append, List.length_dropLast]
    omega

theorem Lost.terminated (h : Lost input typed (line ++ 10 :: rest)) (hline : 10 ∉ line) (hne : line ≠ []) :
    Lost input (typed ++ line) rest where
  fits := h.fits
  less := by
    obtain ⟨atStart, hless⟩ := h.less
    rw [content_line hline hne, List.length_append] at hless
    refine ⟨true, ?_⟩
    rw [List.length_append]
    omega

theorem Lost.unterminated (h : Lost input typed (line ++ rest)) (hline : 10 ∉ line) (hne : line ≠ []) :
    Lost input (typed ++ line.dropLast) rest where
  fits := h.fits
  less := by
    obtain ⟨atStart, hless⟩ := h.less
    rw [content_part hline hne, List.length_append] at hless
    refine ⟨false, ?_⟩
    rw [List.length_append, List.length_dropLast]
    omega

theorem Lost.ne_content (h : Lost input typed stdin) : typed ≠ content 10 true input := by
  obtain ⟨atStart, hless⟩ := h.less
  rintro rfl
  omega

end Reading

/-- What a call does, with what `fgets` reads from the standard input. -/
theorem clientMove_of_attend (h : attend pid c s (shared, label) = some s') :
    ∃ shared', ClientMove pid c shared s.client label shared' s'.client ∧
      ((∀ read, label ≠ .fgets read) → s'.stdin = s.stdin) ∧
      ∀ read, label = .fgets read →
        ∃ bytes, readLine 10 (ECHO_MSG_MAX_LEN - 1) s.stdin = (bytes, s'.stdin) ∧
          read = if bytes = [] then none else some bytes := by
  cases label with
  | fgets read =>
    simp only [attend] at h
    obtain ⟨hread, h⟩ := Option.ite_none_right_eq_some.1 h
    obtain ⟨⟨shared', client⟩, hstep, hs'⟩ := Option.bind_eq_some_iff.1 h
    obtain rfl := Option.some.inj hs'
    refine ⟨shared', clientMove_of_step hstep, fun hnot => absurd rfl (hnot read), ?_⟩
    rintro read' hsame
    obtain rfl := ClientLabel.fgets.inj hsame
    exact ⟨_, rfl, hread⟩
  | mc_create | mc_open | mc_put | mc_get | cleanup =>
    obtain ⟨⟨shared', client⟩, hstep, hs'⟩ := Option.bind_eq_some_iff.1 h
    obtain rfl := Option.some.inj hs'
    exact ⟨shared', clientMove_of_step hstep, fun _ => rfl, by simp⟩

/-- How the input, what is sent and what is left of the input go together. -/
def Reading (input : List UInt8) (s : Session C) : Prop :=
  match s.client.pc with
  | .start | .created => s.client.sent = [] ∧ s.stdin = input
  | .prompt | .awaiting => Kept input s.client.texts s.stdin ∨ Lost input s.client.texts s.stdin
  | .ready =>
    Kept input (s.client.texts ++ s.client.smsg.text) s.stdin ∨
      Lost input (s.client.texts ++ s.client.smsg.text) s.stdin
  | .closing | .ended => Lossless input s ↔ Fits 10 (ECHO_MSG_MAX_LEN - 1) 0 input
  | .failed => True

theorem read_cases {bytes rest : List UInt8} (h : readLine 10 (ECHO_MSG_MAX_LEN - 1) stdin = (bytes, rest)) :
    (bytes = [] ∧ stdin = [] ∧ rest = []) ∨
    (∃ line, bytes = line ++ [10] ∧ 10 ∉ line ∧ line.length < ECHO_MSG_MAX_LEN - 1 ∧
      stdin = line ++ 10 :: rest) ∨
    (bytes ≠ [] ∧ 10 ∉ bytes ∧ stdin = bytes ++ rest ∧
      (bytes.length = ECHO_MSG_MAX_LEN - 1 ∨ rest = [])) := by
  rcases readLine_cases 10 (ECHO_MSG_MAX_LEN - 1) stdin with
    ⟨line, rest', hline, hlength, hinput, hread⟩ | ⟨line, rest', hline, hlength, hinput, hread, hend⟩
  · rw [h] at hread
    obtain ⟨rfl, rfl⟩ := Prod.mk.inj hread
    exact .inr (.inl ⟨line, rfl, hline, hlength, hinput⟩)
  · rw [h] at hread
    obtain ⟨rfl, rfl⟩ := Prod.mk.inj hread
    by_cases hempty : bytes = []
    · rcases hend with hlong | rfl
      · rw [hempty] at hlong
        cases hlong
      · exact .inl ⟨hempty, by rw [hinput, hempty]; rfl, rfl⟩
    · exact .inr (.inr ⟨hempty, hline, hinput, hend⟩)

/-- What is left of the input has no other bytes. -/
theorem mem_of_read {bytes rest : List UInt8} {b : UInt8}
    (h : readLine 10 (ECHO_MSG_MAX_LEN - 1) stdin = (bytes, rest)) (hb : b ∈ rest) : b ∈ stdin := by
  rcases read_cases h with ⟨_, _, hrest⟩ | ⟨line, _, _, _, hstdin⟩ | ⟨_, _, hstdin, _⟩
  · rw [hrest] at hb
    cases hb
  · rw [hstdin]
    exact List.mem_append_right _ (List.mem_cons_of_mem _ hb)
  · rw [hstdin]
    exact List.mem_append_right _ hb

omit [DecidableEq C] in
theorem Lost.lossless_iff {rest : List UInt8} (h : Lost input s.client.texts rest) :
    Lossless input s ↔ Fits 10 (ECHO_MSG_MAX_LEN - 1) 0 input :=
  iff_of_false (fun hlossless => h.ne_content hlossless.sent) h.fits

omit [DecidableEq C] in
/-- At the end of the input everything has been sent. -/
theorem Kept.lossless_of_nil (h : Kept input s.client.texts []) (hstdin : s.stdin = []) :
    Lossless input s ↔ Fits 10 (ECHO_MSG_MAX_LEN - 1) 0 input := by
  refine iff_of_true ⟨?_, fun hne => absurd hstdin hne⟩ ?_
  · rw [h.content_eq]
    exact (List.append_nil _).symm
  · rw [h.fits]
    rfl

omit [DecidableEq C] in
/-- So it has at an empty line. -/
theorem Kept.lossless_of_empty (h : Kept input s.client.texts (10 :: s.stdin)) :
    Lossless input s ↔ Fits 10 (ECHO_MSG_MAX_LEN - 1) 0 input := by
  refine iff_of_true ⟨?_, fun _ => ?_⟩ ?_
  · rw [h.content_eq]
    exact (List.append_nil _).symm
  · obtain ⟨before, hinput, hupTo, _⟩ := h.consumed
    rw [hupTo, hinput]
    exact congrArg (· ++ 10 :: s.stdin) (List.append_nil before).symm
  · rw [h.fits]
    exact .inl rfl

/-- The client at its prompt: what it reads is a line, which it sends without its newline, or it
    is a part of a line, the last byte of which is lost. -/
theorem Reading.fgets {shared' : Shared C} {read : Option (List UInt8)} {bytes : List UInt8}
    (hreading : Kept input s.client.texts s.stdin ∨ Lost input s.client.texts s.stdin)
    (hzero : 0 ∉ s.stdin) (hmove : ClientMove pid c shared s.client (.fgets read) shared' s'.client)
    (hbytes : readLine 10 (ECHO_MSG_MAX_LEN - 1) s.stdin = (bytes, s'.stdin))
    (hread : read = if bytes = [] then none else some bytes) : Reading input s' := by
  obtain ⟨client, rest⟩ := s'
  rcases read_cases hbytes with ⟨rfl, hstdin, rfl⟩ | ⟨line, rfl, hline, hlength, hstdin⟩ |
    ⟨hne, hline, hstdin, hend⟩
  · rw [if_pos rfl] at hread
    rw [hstdin] at hreading
    subst hread
    cases hmove with
    | eof hpc =>
      rcases hreading with hkept | hlost
      · exact Kept.lossless_of_nil (s := ⟨_, _⟩) hkept rfl
      · exact Lost.lossless_iff (s := ⟨_, _⟩) hlost
  · rw [if_neg (by simp)] at hread
    rw [hstdin] at hreading hzero
    have htext : 0 ∉ line := fun hmem => hzero (List.mem_append_left _ hmem)
    have hnewline : (10 : UInt8) ≠ 0 := by decide
    subst hread
    cases hmove with
    | empty hpc _ hempty =>
      obtain rfl := (isEmpty_line_msg htext hnewline).1 hempty
      rcases hreading with hkept | hlost
      · exact Kept.lossless_of_empty (s := ⟨_, _⟩) hkept
      · exact Lost.lossless_iff (s := ⟨_, _⟩) hlost
    | line hpc _ hempty =>
      have hne : line ≠ [] := fun hnil => hempty ((isEmpty_line_msg htext hnewline).2 hnil)
      show Kept input (s.client.texts ++ (line_msg s.client.smsg (line ++ [10])).text) rest ∨
        Lost input (s.client.texts ++ (line_msg s.client.smsg (line ++ [10])).text) rest
      rw [text_line_msg htext hnewline]
      exact hreading.imp (fun hkept => hkept.terminated hline hne hlength) fun hlost => hlost.terminated hline hne
  · rw [if_neg hne] at hread
    rw [hstdin] at hreading hzero
    have hlost : Lost input (s.client.texts ++ bytes.dropLast) rest :=
      hreading.elim (fun hkept => hkept.unterminated hline hne hend) fun hlost => hlost.unterminated hline hne
    obtain ⟨line, last, rfl⟩ : ∃ line last, bytes = line ++ [last] :=
      (List.eq_nil_or_concat' bytes).resolve_left hne
    simp only [List.mem_append, List.mem_singleton, not_or] at hzero
    obtain ⟨⟨htext, hlast⟩, _⟩ := hzero
    rw [List.dropLast_concat] at hlost
    subst hread
    cases hmove with
    | empty hpc _ hempty =>
      obtain rfl := (isEmpty_line_msg htext (Ne.symm hlast)).1 hempty
      rw [List.append_nil] at hlost
      exact Lost.lossless_iff (s := ⟨_, _⟩) hlost
    | line hpc _ hempty =>
      right
      show Lost input (s.client.texts ++ (line_msg s.client.smsg (line ++ [last])).text) rest
      rw [text_line_msg htext (Ne.symm hlast)]
      exact hlost

/-- Every call keeps input, messages and what is left of the input together. -/
theorem Reading.attend (h : Reading input s) (hzero : 0 ∉ s.stdin)
    (hattend : attend pid c s (shared, label) = some s') : Reading input s' ∧ 0 ∉ s'.stdin := by
  obtain ⟨shared', hmove, hkeep, hread⟩ := clientMove_of_attend hattend
  obtain ⟨client, stdin⟩ := s
  obtain ⟨client', rest⟩ := s'
  cases label with
  | fgets read =>
    obtain ⟨bytes, hbytes, hread⟩ := hread read rfl
    have hpc : client.pc = .prompt := by cases hmove <;> assumption
    rw [Reading, hpc] at h
    exact ⟨Reading.fgets h hzero hmove hbytes hread, fun hmem => hzero (mem_of_read hbytes hmem)⟩
  | mc_create =>
    obtain rfl : rest = stdin := hkeep (by simp)
    refine ⟨?_, hzero⟩
    cases hmove with
    | create hpc _ =>
      rw [Reading, hpc] at h
      exact h
    | create_failed _ => exact trivial
  | mc_open =>
    obtain rfl : rest = stdin := hkeep (by simp)
    refine ⟨?_, hzero⟩
    cases hmove with
    | connect hpc _ =>
      rw [Reading, hpc] at h
      obtain ⟨hsent, hinput⟩ := h
      have htexts : client.texts = [] := by
        rw [Client.texts, hsent]
        rfl
      refine .inl ?_
      show Kept input client.texts rest
      rw [htexts, ← hinput]
      exact .start _
    | connect_failed _ => exact trivial
  | mc_put =>
    obtain rfl : rest = stdin := hkeep (by simp)
    refine ⟨?_, hzero⟩
    cases hmove with
    | put hpc _ =>
      rw [Reading, hpc] at h
      have htexts : (client.sent ++ [client.smsg]).flatMap echomsg_t.text =
          client.texts ++ client.smsg.text := by
        simp [Client.texts]
      show Kept input ((client.sent ++ [client.smsg]).flatMap echomsg_t.text) rest ∨
        Lost input ((client.sent ++ [client.smsg]).flatMap echomsg_t.text) rest
      rw [htexts]
      exact h
  | mc_get =>
    obtain rfl : rest = stdin := hkeep (by simp)
    refine ⟨?_, hzero⟩
    cases hmove with
    | get hpc _ =>
      rw [Reading, hpc] at h
      exact h
  | cleanup =>
    obtain rfl : rest = stdin := hkeep (by simp)
    refine ⟨?_, hzero⟩
    cases hmove with
    | cleanup hpc =>
      rw [Reading, hpc] at h
      exact ⟨fun hlossless => h.1 ⟨hlossless.sent, hlossless.stopped⟩,
        fun hfits => ⟨(h.2 hfits).sent, (h.2 hfits).stopped⟩⟩

/-- A shared memory in which the server is there, and `items` are in every channel. -/
def obliging (items : List echomsg_t) : Shared C where
  names name := if name = ECHO_SERVICE_SERVER_ID then some .server else none
  channels _ := { capacity := 1, items }

/-- What is read at the prompt is a line for the client. -/
theorem line_of_read {bytes rest : List UInt8} (h : readLine 10 (ECHO_MSG_MAX_LEN - 1) stdin = (bytes, rest))
    (hne : bytes ≠ []) : Line bytes ∧ rest.length < stdin.length := by
  have hpos := List.length_pos_iff.2 hne
  have hmax : ECHO_MSG_MAX_LEN = 256 := rfl
  rcases readLine_cases 10 (ECHO_MSG_MAX_LEN - 1) stdin with
    ⟨line, rest', hline, hlength, rfl, hread⟩ | ⟨line, rest', hline, hlength, rfl, hread, _⟩
  · rw [h] at hread
    obtain ⟨rfl, rfl⟩ := Prod.mk.inj hread
    simp only [List.length_append, List.length_cons]
    refine ⟨⟨hpos, ?_, by simpa using hline⟩, by omega⟩
    simp only [List.length_append, List.length_singleton]
    omega
  · rw [h] at hread
    obtain ⟨rfl, rfl⟩ := Prod.mk.inj hread
    rw [List.length_append]
    exact ⟨⟨hpos, by omega, fun hmem => hline (List.dropLast_subset _ hmem)⟩, by omega⟩

/-- Where the others do their part a client at its prompt comes to its cleanup. -/
theorem exists_stopped_of_prompt (hpc : s.client.pc = .prompt) :
    ∃ calls s', exec (attend pid c) s calls = some s' ∧ s'.Stopped := by
  obtain ⟨client, stdin⟩ := s
  change client.pc = .prompt at hpc
  induction hlength : stdin.length using Nat.strongRecOn generalizing client stdin with
  | ind n ih =>
    rcases hread : readLine 10 (ECHO_MSG_MAX_LEN - 1) stdin with ⟨bytes, rest⟩
    by_cases hbytes : bytes = []
    · refine ⟨[(obliging [], .fgets none)], ⟨{ client with pc := .closing }, rest⟩, ?_, .inl rfl⟩
      simp [exec, attend, hread, hbytes, client_step, hpc]
    · obtain ⟨hline, hless⟩ := line_of_read hread hbytes
      have hfgets : attend pid c ⟨client, stdin⟩ (obliging [], .fgets (some bytes)) = some ⟨{ client with
          pc := if (line_msg client.smsg bytes).isEmpty then .closing else .ready
          smsg := line_msg client.smsg bytes }, rest⟩ := by
        simp only [attend, hread, if_neg hbytes, ↓reduceIte, client_step, hpc, if_pos hline]
        rfl
      by_cases hempty : (line_msg client.smsg bytes).isEmpty
      · rw [if_pos hempty] at hfgets
        exact ⟨[(obliging [], .fgets (some bytes))], _, by rw [exec, hfgets]; rfl, .inl rfl⟩
      · rw [if_neg hempty] at hfgets
        -- the message is put, and the reply is got
        obtain ⟨calls, s', hrest, hstopped⟩ := ih rest.length (hlength ▸ hless) { client with
          pc := .prompt
          smsg := line_msg client.smsg bytes
          sent := client.sent ++ [line_msg client.smsg bytes]
          received := client.received ++ [tmsg] } rest rfl rfl
        refine ⟨(obliging [], .fgets (some bytes)) :: (obliging [], .mc_put) :: (obliging [tmsg], .mc_get) ::
          calls, s', ?_, hstopped⟩
        rw [exec, hfgets]
        exact hrest

theorem exists_stopped (pid : Int32) (c : C) (smsg : echomsg_t) (input : List UInt8) :
    ∃ calls s, exec (attend pid c) (Session.start smsg input) calls = some s ∧ s.Stopped := by
  let prompt : Session C := {
    client := {
      pc := .prompt
      smc := .server
      smsg := { sender := pid, msg := List.replicate ECHO_MSG_MAX_LEN 0 }
      sent := []
      received := [] }
    stdin := input }
  have hprompt : ∃ calls s, exec (attend pid c) prompt calls = some s ∧ s.Stopped := exists_stopped_of_prompt rfl
  obtain ⟨calls, s, hrest, hstopped⟩ := hprompt
  refine ⟨(obliging [], .mc_create) :: (obliging [], .mc_open) :: calls, s, ?_, hstopped⟩
  have hcreate : attend pid c (Session.start smsg input) (obliging [], .mc_create) = some {
      client := { pc := .created, smc := .server, smsg, sent := [], received := [] }
      stdin := input } := by
    simp [attend, client_step, Session.start, mc_create, obliging, client_name_ne_server]
  rw [exec, hcreate]
  exact hrest

theorem lossless_iff_of_run {smsg : echomsg_t} {calls : List (Shared C × ClientLabel)} (hinput : 0 ∉ input)
    (hrun : exec (attend pid c) (Session.start smsg input) calls = some s) (hstopped : s.Stopped) :
    Lossless input s ↔ Fits 10 (ECHO_MSG_MAX_LEN - 1) 0 input := by
  have hreading : Reading input s ∧ 0 ∉ s.stdin := by
    refine (run_stepOf_iff.2 hrun).invariant (fun s => Reading input s ∧ 0 ∉ s.stdin) ⟨⟨rfl, rfl⟩, hinput⟩ ?_
    rintro s ⟨shared, label⟩ s' ⟨hreading, hzero⟩ hattend
    exact hreading.attend hzero hattend
  have hiff := hreading.1
  unfold Reading at hiff
  rcases hstopped with hpc | hpc
  · rw [hpc] at hiff
    exact hiff
  · rw [hpc] at hiff
    exact hiff

/-- Every input is read until the client comes to its cleanup, where the others do their part. In
    every run in which it does, it has sent all that was typed, if and only if every line up to
    the first empty one has its newline and fits the array with it. -/
theorem lossless_iff_fits (pid : Int32) (c : C) (smsg : echomsg_t) (hinput : 0 ∉ input) :
    (∃ calls s, exec (attend pid c) (Session.start smsg input) calls = some s ∧ s.Stopped) ∧
      ∀ calls s, exec (attend pid c) (Session.start smsg input) calls = some s → s.Stopped →
        (Lossless input s ↔ Fits 10 (ECHO_MSG_MAX_LEN - 1) 0 input) :=
  ⟨exists_stopped pid c smsg input, fun _ _ hrun hstopped => lossless_iff_of_run hinput hrun hstopped⟩

/-- A line with its newline. -/
theorem lossless_iff_fits_line : ∃ calls, ∃ s : Session Unit,
    exec (attend 77 ()) (Session.start tmsg [104, 105, 10]) calls = some s ∧ s.Stopped ∧
      Lossless [104, 105, 10] s := by
  obtain ⟨⟨calls, s, hrun, hstopped⟩, hiff⟩ :=
    lossless_iff_fits 77 () tmsg (show 0 ∉ [104, 105, 10] by decide)
  exact ⟨calls, s, hrun, hstopped, (hiff calls s hrun hstopped).2 (by decide)⟩

/-- Without its newline the line loses its last character. -/
theorem not_lossless_unterminated : ∃ s : Session Unit,
    exec (attend 77 ()) (Session.start tmsg [104, 105])
        [(obliging [], .mc_create), (obliging [], .mc_open), (obliging [], .fgets (some [104, 105])),
          (obliging [], .mc_put), (obliging [tmsg], .mc_get), (obliging [], .fgets none)] = some s ∧
      s.Stopped ∧ s.client.texts = [104] ∧ ¬ Lossless [104, 105] s := by
  refine ⟨_, rfl, .inl rfl, rfl, fun hlossless => ?_⟩
  exact absurd hlossless.sent (by decide +kernel)

end oslabs.echo
