import OsLabs.Async.Talk
import OsLabs.Net.EndOfFile

open oslabs.memory oslabs.loop oslabs.cuts
open oslabs.async (BUFSIZE Command QUIT STOP Cutting Delivered AlikeAt Ends ends_some_iff ends_none_iff)
open oslabs.async.polling (Served)

namespace oslabs.net

/-- The word that asks for an end. -/
def Ending.word : Ending → List UInt8
  | .returned => QUIT
  | .stopped => STOP
  | .failed => []

/-- What ends the connection of a client that sends some messages and goes away, in the inner
    loop of the basic server: a word, by the place in the stream where the message with it begins,
    or nothing at all. -/
def EndedBy (buf : Memory) (chunks : List (List UInt8)) : Option (Nat × List UInt8) → Prop
  | some (p, word) => ∃ n s last, forLoop (inner_loop fun i => some (stream chunks i)) n (start buf) = .leave s ∧
      s.ending = some last ∧ word = last.word ∧ p = (chunks.take (s.reads - 1)).flatten.length
  | none => ∀ n, ∃ s, forLoop (inner_loop fun i => some (stream chunks i)) n (start buf) = .again s

variable {buf : Memory} {data word : List UInt8} {chunks : List (List UInt8)} {last : Ending} {p k : Nat}

theorem command_of_ending (h : ending data = some last) : last.word ∈ [QUIT, STOP] ∧ Command last.word data := by
  unfold ending at h
  split at h
  · obtain rfl := Option.some.inj h
    exact ⟨by simp [Ending.word], ‹_›⟩
  · split at h
    · obtain rfl := Option.some.inj h
      exact ⟨by simp [Ending.word], ‹_›⟩
    · cases h

theorem ending_eq_none_iff_forall : ending data = none ↔ ∀ word ∈ [QUIT, STOP], ¬ Command word data := by
  rw [ending_eq_none_iff, not_or]
  simp

/-- A message is no more than one of the commands. -/
theorem ending_of_command (hword : word ∈ [QUIT, STOP]) (h : Command word data) :
    ∃ last, ending data = some last ∧ word = last.word := by
  have hsome : ending data ≠ none := fun hnone => ending_eq_none_iff_forall.1 hnone word hword h
  obtain ⟨last, hlast⟩ := Option.ne_none_iff_exists'.1 hsome
  obtain ⟨hmem, hcommand⟩ := command_of_ending hlast
  refine ⟨last, hlast, ?_⟩
  have hlength : ∀ word ∈ [QUIT, STOP], word.length = 4 := by decide
  have heq : word.length = last.word.length := (hlength _ hword).trans (hlength _ hmem).symm
  exact (List.prefix_of_prefix_length_le h.1 hcommand.1 (Nat.le_of_eq heq)).eq_of_length heq

/-- A piece of the stream is what one call of `read` returns. -/
theorem stream_split (before after : List (List UInt8)) (data : List UInt8) :
    stream (before ++ data :: after) before.length = data ∧
      ∀ i < before.length, stream (before ++ data :: after) i ∈ before := by
  constructor
  · simp [stream]
  · intro i hi
    simp [stream, List.getElem?_append_left hi, List.getElem?_eq_getElem hi]

/-- The first command among the messages ends the loop. -/
theorem endedBy_some_iff (hsize : ∀ data ∈ chunks, data.length < BUFSIZE) :
    EndedBy buf chunks (some (p, word)) ↔ ∃ before data after last, chunks = before ++ data :: after ∧
      before.flatten.length = p ∧ ending data = some last ∧ word = last.word ∧
      ∀ other ∈ before, ending other = none := by
  constructor
  · rintro ⟨n, s, last, hrun, hlast, hword, hp⟩
    rcases first_ending (stream chunks) n with hnone | ⟨k, hk, hfirst, last', hlast'⟩
    · obtain ⟨after, hagain⟩ := forLoop_again (stream_length_le hsize) .basic buf hnone
      rw [Server.handler, hrun] at hagain
      cases hagain
    obtain ⟨after, hleave⟩ := forLoop_leave (stream_length_le hsize) .basic buf hfirst hlast' hk
    rw [Server.handler, hrun] at hleave
    cases hleave
    obtain rfl := Option.some.inj hlast
    have hroom : k < chunks.length := by
      by_contra hend
      have hnil : stream chunks k = [] := by simp [stream, List.getElem?_eq_none (Nat.le_of_not_lt hend)]
      rw [hnil, ending_nil] at hlast'
      cases hlast'
    have hget : stream chunks k = chunks[k] := by simp [stream, hroom]
    refine ⟨chunks.take k, chunks[k], chunks.drop (k + 1), last', ?_, hp.symm, hget ▸ hlast', hword, ?_⟩
    · rw [List.getElem_cons_drop, List.take_append_drop]
    · intro other hother
      obtain ⟨i, hi, rfl⟩ := List.mem_take_iff_getElem.1 hother
      have hother := hfirst i (by omega)
      rwa [show stream chunks i = chunks[i] by simp [stream, show i < chunks.length by omega]] at hother
  · rintro ⟨before, data, after, last, rfl, rfl, hlast, hword, hnone⟩
    obtain ⟨hdata, hbefore⟩ := stream_split before after data
    obtain ⟨mem, hleave⟩ := forLoop_leave (stream_length_le hsize) .basic buf
      (fun i hi => hnone _ (hbefore i hi)) (hdata.symm ▸ hlast) (Nat.lt_succ_self _)
    exact ⟨before.length + 1, _, last, hleave, rfl, hword, by simp⟩

/-- Without a command the loop goes on for ever. -/
theorem endedBy_none_iff (hsize : ∀ data ∈ chunks, data.length < BUFSIZE) :
    EndedBy buf chunks none ↔ ∀ data ∈ chunks, ending data = none := by
  constructor
  · intro hagain data hdata
    obtain ⟨k, hk, rfl⟩ := List.getElem_of_mem hdata
    by_contra hsome
    rcases first_ending (stream chunks) (k + 1) with hnone | ⟨j, hj, hfirst, last, hlast⟩
    · have hget : stream chunks k = chunks[k] := by simp [stream, hk]
      exact hsome (hget ▸ hnone k (Nat.lt_succ_self k))
    · obtain ⟨after, hleave⟩ := forLoop_leave (stream_length_le hsize) .basic buf hfirst hlast hj
      obtain ⟨s, hrun⟩ := hagain (k + 1)
      rw [Server.handler, hrun] at hleave
      cases hleave
  · intro hnone n
    have hstream : ∀ i < n, ending (stream chunks i) = none := by
      intro i _
      rcases stream_mem_or_nil chunks i with hmem | hnil
      · exact hnone _ hmem
      · rw [hnil, ending_nil]
    obtain ⟨after, hagain⟩ := forLoop_again (stream_length_le hsize) .basic buf hstream
    exact ⟨_, hagain⟩

/-- The inner loop of the basic server is ended by the first word that comes as a command. -/
theorem endedBy_iff_ends {bytes : List UInt8} (hcut : Cutting bytes chunks) (e : Option (Nat × List UInt8)) :
    EndedBy buf chunks e ↔ Ends [QUIT, STOP] chunks e := by
  have hsize : ∀ data ∈ chunks, data.length < BUFSIZE := fun data hdata => (hcut.sizes data hdata).2
  have hlength : ∀ word ∈ [QUIT, STOP], word.length = 4 := by decide
  match e with
  | none =>
    rw [endedBy_none_iff hsize, ends_none_iff hlength hcut.nil_notMem]
    exact forall₂_congr fun data _ => ending_eq_none_iff_forall
  | some (p, word) =>
    rw [endedBy_some_iff hsize, ends_some_iff hlength hcut.nil_notMem]
    constructor
    · rintro ⟨before, data, after, last, hsplit, rfl, hlast, rfl, hnone⟩
      obtain ⟨hword, hcommand⟩ := command_of_ending hlast
      have hdelivered := (async.command_iff_delivered (hlength _ hword) hcut.nil_notMem hsplit).1 hcommand
      refine ⟨hword, hdelivered, before, data, after, hsplit, rfl, ⟨_, hword, hcommand⟩, ?_⟩
      rintro other hother ⟨word', hword', hcommand'⟩
      exact ending_eq_none_iff_forall.1 (hnone other hother) word' hword' hcommand'
    · rintro ⟨hword, hdelivered, before, data, after, hsplit, rfl, _, hnone⟩
      have hcommand := (async.command_iff_delivered (hlength _ hword) hcut.nil_notMem hsplit).2 hdelivered
      obtain ⟨last, hlast, rfl⟩ := ending_of_command hword hcommand
      refine ⟨before, data, after, last, hsplit, rfl, hlast, rfl, fun other hother => ?_⟩
      exact ending_eq_none_iff_forall.2 fun word' hword' hcommand' =>
        hnone other hother ⟨word', hword', hcommand'⟩

/-- Both servers end a connection by the first of their words that comes as a command. It is the
    same one in two streams of the same bytes that are cut alike at the words, wherever else they
    are cut, and it is the same one however they are cut just when there is no word in them. -/
theorem ended_alike (bytes : List UInt8) :
    (∀ chunks, Cutting bytes chunks →
      (∀ buf e, EndedBy buf chunks e ↔ Ends [QUIT, STOP] chunks e) ∧
      (∃ fd calls, Served chunks fd calls) ∧
      ∀ fd calls, Served chunks fd calls → ∀ e, async.polling.EndedBy fd calls e ↔ Ends [QUIT] chunks e) ∧
    (∀ chunks chunks', Cutting bytes chunks → Cutting bytes chunks' →
      (AlikeAt [QUIT, STOP] chunks chunks' →
        ∀ buf buf', ∃ e, EndedBy buf chunks e ∧ EndedBy buf' chunks' e) ∧
      (AlikeAt [QUIT] chunks chunks' → ∀ fd fd' calls calls', Served chunks fd calls → Served chunks' fd' calls' →
        ∃ e, async.polling.EndedBy fd calls e ∧ async.polling.EndedBy fd' calls' e)) ∧
    ((∀ chunks chunks', Cutting bytes chunks → Cutting bytes chunks' →
        ∀ buf buf', ∃ e, EndedBy buf chunks e ∧ EndedBy buf' chunks' e) ↔
      ∀ word ∈ [QUIT, STOP], ¬ word <:+: bytes) ∧
    ((∀ chunks chunks', Cutting bytes chunks → Cutting bytes chunks' →
        ∀ fd fd' calls calls', Served chunks fd calls → Served chunks' fd' calls' →
          ∃ e, async.polling.EndedBy fd calls e ∧ async.polling.EndedBy fd' calls' e) ↔
      ¬ QUIT <:+: bytes) := by
  have hlength : ∀ word ∈ [QUIT, STOP], word.length = 4 := by decide
  have hquit : ∀ word ∈ [QUIT], word.length = 4 := by decide
  refine ⟨fun chunks hcut => ⟨?_, ?_, ?_⟩, fun chunks chunks' hcut hcut' => ⟨?_, ?_⟩, ?_, ?_⟩
  · exact fun buf e => endedBy_iff_ends hcut e
  · exact async.polling.exists_served hcut
  · exact fun fd calls hserved e => async.polling.endedBy_iff_ends hcut hserved e
  · intro halike buf buf'
    simp only [endedBy_iff_ends hcut, endedBy_iff_ends hcut']
    exact halike.exists_ends (hcut.flatten.trans hcut'.flatten.symm)
  · intro halike fd fd' calls calls' hserved hserved'
    simp only [async.polling.endedBy_iff_ends hcut hserved, async.polling.endedBy_iff_ends hcut' hserved']
    exact halike.exists_ends (hcut.flatten.trans hcut'.flatten.symm)
  · rw [← async.ends_alike_iff hlength]
    refine forall₂_congr fun chunks chunks' => forall₂_congr fun hcut hcut' => ?_
    simp only [endedBy_iff_ends hcut, endedBy_iff_ends hcut']
    exact ⟨fun h => h (fun _ => 0) (fun _ => 0), fun h _ _ => h⟩
  · have hone : ¬ QUIT <:+: bytes ↔ ∀ word ∈ [QUIT], ¬ word <:+: bytes := by simp
    rw [hone, ← async.ends_alike_iff hquit]
    refine forall₂_congr fun chunks chunks' => forall₂_congr fun hcut hcut' => ?_
    constructor
    · intro halike
      obtain ⟨fd, calls, hserved⟩ := async.polling.exists_served hcut
      obtain ⟨fd', calls', hserved'⟩ := async.polling.exists_served hcut'
      obtain ⟨e, hended, hended'⟩ := halike fd fd' calls calls' hserved hserved'
      exact ⟨e, (async.polling.endedBy_iff_ends hcut hserved e).1 hended,
        (async.polling.endedBy_iff_ends hcut' hserved' e).1 hended'⟩
    · rintro ⟨e, hends, hends'⟩ fd fd' calls calls' hserved hserved'
      exact ⟨e, (async.polling.endedBy_iff_ends hcut hserved e).2 hends,
        (async.polling.endedBy_iff_ends hcut' hserved' e).2 hends'⟩

/-- A line that says `quit` comes in two pieces, and is no command any more. -/
theorem ended_alike_fails : ∃ bytes chunks chunks', Cutting bytes chunks ∧ Cutting bytes chunks' ∧
    (∀ buf buf', ¬ ∃ e, EndedBy buf chunks e ∧ EndedBy buf' chunks' e) ∧
    ∃ fd calls fd' calls', Served chunks fd calls ∧ Served chunks' fd' calls' ∧
      ¬ ∃ e, async.polling.EndedBy fd calls e ∧ async.polling.EndedBy fd' calls' e := by
  have hcut : Cutting (QUIT ++ [10]) [QUIT ++ [10]] := ⟨rfl, by decide⟩
  have hcut' : Cutting (QUIT ++ [10]) [[113, 117], [105, 116, 10]] := ⟨rfl, by decide⟩
  have hdiffer : ∀ words ∈ [[QUIT, STOP], [QUIT]],
      ¬ ∃ e, Ends words [QUIT ++ [10]] e ∧ Ends words [[113, 117], [105, 116, 10]] e := by
    rintro words hwords ⟨e, hends, hends'⟩
    have hlength : ∀ words ∈ [[QUIT, STOP], [QUIT]], ∀ word ∈ words, word.length = 4 := by decide
    have hquit : ∀ words ∈ [[QUIT, STOP], [QUIT]], QUIT ∈ words := by decide
    have hsplit : ∀ words ∈ [[QUIT, STOP], [QUIT]], ∀ data ∈ [[113, 117], [105, 116, 10]], ∀ word ∈ words,
        ¬ Command word data := by decide
    have hnone := (ends_none_iff (hlength words hwords) hcut'.nil_notMem).2 (hsplit words hwords)
    obtain rfl := hends'.eq (hlength words hwords) hnone
    exact (ends_none_iff (hlength words hwords) hcut.nil_notMem).1 hends _ (List.mem_singleton_self _) QUIT
      (hquit words hwords) (by decide +kernel)
  obtain ⟨fd, calls, hserved⟩ := async.polling.exists_served hcut
  obtain ⟨fd', calls', hserved'⟩ := async.polling.exists_served hcut'
  refine ⟨_, _, _, hcut, hcut', fun buf buf' => ?_, fd, calls, fd', calls', hserved, hserved', ?_⟩
  · simp only [endedBy_iff_ends hcut, endedBy_iff_ends hcut']
    exact hdiffer _ (by simp)
  · simp only [async.polling.endedBy_iff_ends hcut hserved, async.polling.endedBy_iff_ends hcut' hserved']
    exact hdiffer _ (by simp)

end oslabs.net
