import Mathlib.Data.Nat.Find
import OsLabs.Async.Message
import OsLabs.Lib.Cuts

open oslabs.cuts

namespace oslabs.async

/-- The bytes of a client in the results of `read`, some bytes each time, but no more than there
    is room for in front of a terminating zero. -/
structure Cutting (bytes : List UInt8) (chunks : List (List UInt8)) : Prop where
  flatten : chunks.flatten = bytes
  sizes : ∀ data ∈ chunks, 0 < data.length ∧ data.length < BUFSIZE

/-- A word of the stream comes as a command: a `read` begins with it, none ends inside of it, and
    then a `read` or the stream ends, or a signed character less than a space follows. -/
structure Delivered (word : List UInt8) (chunks : List (List UInt8)) (p : Nat) : Prop where
  begins : IsCut chunks p
  occurs : word <+: chunks.flatten.drop p
  whole : ∀ q, p < q → q < p + word.length → ¬ IsCut chunks q
  ends : IsCut chunks (p + word.length) ∨ ∀ c ∈ chunks.flatten[p + word.length]?, c.toInt8 < 32

/-- Two ways of cutting a stream agree at some words, wherever these occur: on whether they cut
    in front of the word, inside of it, and behind it. -/
def AlikeAt (words : List (List UInt8)) (chunks chunks' : List (List UInt8)) : Prop :=
  ∀ word ∈ words, ∀ p, word <+: chunks.flatten.drop p →
    (IsCut chunks p ↔ IsCut chunks' p) ∧
    ((∃ q, p < q ∧ q < p + word.length ∧ IsCut chunks q) ↔
      ∃ q, p < q ∧ q < p + word.length ∧ IsCut chunks' q) ∧
    (IsCut chunks (p + word.length) ↔ IsCut chunks' (p + word.length))

/-- What ends the connection of a client: the first of the words to come as a command, by the
    place where it begins, or nothing but the end of the stream. -/
def Ends (words chunks : List (List UInt8)) : Option (Nat × List UInt8) → Prop
  | some (p, word) => word ∈ words ∧ Delivered word chunks p ∧
      ∀ q < p, ∀ other ∈ words, ¬ Delivered other chunks q
  | none => ∀ p, ∀ word ∈ words, ¬ Delivered word chunks p

variable {word data bytes : List UInt8} {words chunks chunks' before after : List (List UInt8)} {p : Nat}

theorem Cutting.nil_notMem (h : Cutting bytes chunks) : [] ∉ chunks := by
  intro hmem
  exact absurd (h.sizes _ hmem).1 (Nat.lt_irrefl 0)

/-- A message is a command exactly when its word comes as one. -/
theorem command_iff_delivered (hlength : word.length = 4) (hne : [] ∉ chunks)
    (hsplit : chunks = before ++ data :: after) :
    Command word data ↔ Delivered word chunks before.flatten.length := by
  have hdrop : chunks.flatten.drop before.flatten.length = data ++ after.flatten := drop_flatten hsplit
  have hnext : chunks.flatten[before.flatten.length + 4]? = (data ++ after.flatten)[4]? := by
    rw [← hdrop, List.getElem?_drop]
  have hpos : 0 < data.length := by
    rw [List.length_pos_iff]
    rintro rfl
    exact hne (by simp [hsplit])
  constructor
  · rintro ⟨hword, hchar⟩
    have hle := hword.length_le
    refine ⟨isCut_start hsplit, ?_, ?_, ?_⟩
    · rw [hdrop]
      exact hword.trans (List.prefix_append _ _)
    · intro q hlow hhigh
      exact not_isCut hsplit hlow (by omega)
    · rw [hlength] at hle ⊢
      rcases Nat.eq_or_lt_of_le hle with hall | hmore
      · rw [hall]
        exact .inl (isCut_end hsplit)
      · right
        rw [hnext, List.getElem?_append_left hmore]
        exact hchar
  · rintro ⟨_, hword, hwhole, hends⟩
    rw [hlength] at hwhole hends
    have hlong : 4 ≤ data.length := by
      by_contra hshort
      exact hwhole _ (by omega) (by omega) (isCut_end hsplit)
    rw [hdrop] at hword
    refine ⟨?_, ?_⟩
    · exact List.prefix_of_prefix_length_le hword (List.prefix_append _ _) (hlength ▸ hlong)
    · intro c hc
      have hmore : 4 < data.length := (List.getElem?_eq_some_iff.1 hc).1
      have hnone := not_isCut hsplit (show before.flatten.length < before.flatten.length + 4 by omega) (by omega)
      apply hends.resolve_left hnone
      rw [hnext, List.getElem?_append_left hmore]
      exact hc

/-- A word that comes as a command begins a message. -/
theorem Delivered.exists_message (h : Delivered word chunks p) (hne : word ≠ []) :
    ∃ before data after, chunks = before ++ data :: after ∧ before.flatten.length = p := by
  apply h.begins.exists_piece
  by_contra hend
  have hword := h.occurs
  rw [List.drop_eq_nil_of_le (Nat.le_of_not_lt hend)] at hword
  exact hne (List.prefix_nil.1 hword)

/-- What comes as a command in a stream also does in one that is cut alike. -/
theorem AlikeAt.delivered (h : AlikeAt words chunks chunks') (hsame : chunks.flatten = chunks'.flatten)
    (hword : word ∈ words) (hdelivered : Delivered word chunks p) : Delivered word chunks' p := by
  obtain ⟨hbegins, hinside, hends⟩ := h word hword p hdelivered.occurs
  refine ⟨hbegins.1 hdelivered.begins, hsame ▸ hdelivered.occurs, ?_, ?_⟩
  · intro q hlow hhigh hcut
    obtain ⟨q', hlow', hhigh', hcut'⟩ := hinside.2 ⟨q, hlow, hhigh, hcut⟩
    exact hdelivered.whole q' hlow' hhigh' hcut'
  · exact hdelivered.ends.imp hends.1 fun hchar => hsame ▸ hchar

theorem AlikeAt.symm (h : AlikeAt words chunks chunks') (hsame : chunks.flatten = chunks'.flatten) :
    AlikeAt words chunks' chunks := by
  intro word hword p hoccurs
  obtain ⟨hbegins, hinside, hends⟩ := h word hword p (hsame ▸ hoccurs)
  exact ⟨hbegins.symm, hinside.symm, hends.symm⟩

theorem AlikeAt.delivered_iff (h : AlikeAt words chunks chunks') (hsame : chunks.flatten = chunks'.flatten)
    (hword : word ∈ words) : Delivered word chunks p ↔ Delivered word chunks' p :=
  ⟨h.delivered hsame hword, (h.symm hsame).delivered hsame.symm hword⟩

/-- What comes as a command begins the first message that is one. -/
theorem ends_some_iff (hlength : ∀ word ∈ words, word.length = 4) (hne : [] ∉ chunks) {word : List UInt8} :
    Ends words chunks (some (p, word)) ↔ word ∈ words ∧ Delivered word chunks p ∧
      FirstAt (fun data => ∃ word ∈ words, Command word data) chunks p := by
  have hmessage : ∀ before data after, chunks = before ++ data :: after →
      ((∃ word ∈ words, Command word data) ↔ ∃ word ∈ words, Delivered word chunks before.flatten.length) :=
    fun before data after hsplit =>
      exists_congr fun word => and_congr_right fun hword => command_iff_delivered (hlength word hword) hne hsplit
  have hbegins : ∀ p, (∃ word ∈ words, Delivered word chunks p) →
      ∃ before data after, chunks = before ++ data :: after ∧ before.flatten.length = p := by
    rintro p ⟨word, hword, hdelivered⟩
    apply hdelivered.exists_message
    rintro rfl
    cases hlength _ hword
  rw [firstAt_iff hne hmessage hbegins]
  constructor
  · rintro ⟨hword, hdelivered, hfirst⟩
    refine ⟨hword, hdelivered, ⟨word, hword, hdelivered⟩, fun q hq => ?_⟩
    rintro ⟨other, hother, hearlier⟩
    exact hfirst q hq other hother hearlier
  · rintro ⟨hword, hdelivered, _, hfirst⟩
    exact ⟨hword, hdelivered, fun q hq other hother hearlier => hfirst q hq ⟨other, hother, hearlier⟩⟩

/-- A stream is ended in one way. -/
theorem Ends.eq (hlength : ∀ word ∈ words, word.length = 4) {e e' : Option (Nat × List UInt8)}
    (h : Ends words chunks e) (h' : Ends words chunks e') : e = e' := by
  match e, e' with
  | none, none => rfl
  | none, some (p, word) => exact absurd h'.2.1 (h p word h'.1)
  | some (p, word), none => exact absurd h.2.1 (h' p word h.1)
  | some (p, word), some (q, other) =>
    obtain ⟨hword, hdelivered, hfirst⟩ := h
    obtain ⟨hother, hdelivered', hfirst'⟩ := h'
    rcases Nat.lt_trichotomy p q with hlt | rfl | hlt
    · exact absurd hdelivered (hfirst' p hlt word hword)
    · have heq : word.length = other.length := (hlength _ hword).trans (hlength _ hother).symm
      have hsame := List.prefix_of_prefix_length_le hdelivered.occurs hdelivered'.occurs (Nat.le_of_eq heq)
      rw [hsame.eq_of_length heq]
    · exact absurd hdelivered' (hfirst q hlt other hother)

theorem exists_ends (words chunks : List (List UInt8)) : ∃ e, Ends words chunks e := by
  classical
  by_cases hsome : ∃ p, ∃ word ∈ words, Delivered word chunks p
  · obtain ⟨word, hword, hdelivered⟩ := Nat.find_spec hsome
    refine ⟨some (Nat.find hsome, word), hword, hdelivered, fun q hq other hother hearlier => ?_⟩
    exact Nat.find_min hsome hq ⟨other, hother, hearlier⟩
  · exact ⟨none, fun p word hword hdelivered => hsome ⟨p, word, hword, hdelivered⟩⟩

/-- Streams that are cut alike at the words are ended by the same one of them. -/
theorem AlikeAt.exists_ends (h : AlikeAt words chunks chunks') (hsame : chunks.flatten = chunks'.flatten) :
    ∃ e, Ends words chunks e ∧ Ends words chunks' e := by
  have hdelivered : ∀ word ∈ words, ∀ p, Delivered word chunks p ↔ Delivered word chunks' p :=
    fun word hword p => h.delivered_iff hsame hword
  obtain ⟨e, hends⟩ := async.exists_ends words chunks
  refine ⟨e, hends, ?_⟩
  match e, hends with
  | none, hnone => exact fun p word hword hthere => hnone p word hword ((hdelivered word hword p).2 hthere)
  | some (p, word), ⟨hword, hhere, hfirst⟩ =>
    refine ⟨hword, (hdelivered word hword p).1 hhere, fun q hq other hother hthere => ?_⟩
    exact hfirst q hq other hother ((hdelivered other hother q).2 hthere)

/-- Nothing but its end ends a stream when none of its messages is a command. -/
theorem ends_none_iff (hlength : ∀ word ∈ words, word.length = 4) (hne : [] ∉ chunks) :
    Ends words chunks none ↔ ∀ data ∈ chunks, ∀ word ∈ words, ¬ Command word data := by
  constructor
  · intro hnone data hdata word hword hcommand
    obtain ⟨before, after, hsplit⟩ := List.append_of_mem hdata
    exact hnone _ word hword ((command_iff_delivered (hlength word hword) hne hsplit).1 hcommand)
  · intro hnone p word hword hdelivered
    have hword_ne : word ≠ [] := by
      rintro rfl
      cases hlength _ hword
    obtain ⟨before, data, after, hsplit, rfl⟩ := hdelivered.exists_message hword_ne
    have hcommand := (command_iff_delivered (hlength word hword) hne hsplit).2 hdelivered
    exact hnone data (by simp [hsplit]) word hword hcommand

section Exact

/-- A stream that comes byte by byte. -/
def bytewise (bytes : List UInt8) : List (List UInt8) := bytes.map fun c => [c]

@[simp] theorem flatten_bytewise (bytes : List UInt8) : (bytewise bytes).flatten = bytes := by
  rw [bytewise, ← List.flatMap_def, List.flatMap_singleton']

theorem cutting_bytewise (bytes : List UInt8) : Cutting bytes (bytewise bytes) where
  flatten := flatten_bytewise bytes
  sizes data hdata := by
    obtain ⟨c, _, rfl⟩ := List.mem_map.1 hdata
    exact ⟨Nat.one_pos, show 1 < 1024 by decide⟩

theorem isCut_bytewise (hp : p ≤ bytes.length) : IsCut (bytewise bytes) p := by
  refine ⟨bytewise (bytes.take p), bytewise (bytes.drop p), ?_, ?_⟩
  · simp only [bytewise, ← List.map_append, List.take_append_drop]
  · rw [flatten_bytewise, List.length_take, Nat.min_eq_left hp]

/-- No word comes as a command byte by byte. -/
theorem not_delivered_bytewise (hlength : 1 < word.length) : ¬ Delivered word (bytewise bytes) p := by
  intro h
  have hroom := h.occurs.length_le
  rw [flatten_bytewise, List.length_drop] at hroom
  exact h.whole (p + 1) (by omega) (by omega) (isCut_bytewise (by omega))

/-- A word that comes in a message of its own comes as a command. -/
theorem delivered_alone (hsplit : chunks = before ++ word :: after) :
    Delivered word chunks before.flatten.length where
  begins := isCut_start hsplit
  occurs := by
    rw [drop_flatten hsplit]
    exact List.prefix_append _ _
  whole _ hlow hhigh := not_isCut hsplit hlow hhigh
  ends := .inl (isCut_end hsplit)

/-- What ends a stream does not depend on how it is cut just when no word is in it. -/
theorem ends_alike_iff (hlength : ∀ word ∈ words, word.length = 4) :
    (∀ chunks chunks', Cutting bytes chunks → Cutting bytes chunks' →
      ∃ e, Ends words chunks e ∧ Ends words chunks' e) ↔ ∀ word ∈ words, ¬ word <:+: bytes := by
  constructor
  · rintro halike word hword ⟨front, back, rfl⟩
    have halone : Cutting (front ++ word ++ back) (bytewise front ++ word :: bytewise back) := by
      refine ⟨by simp, fun data hdata => ?_⟩
      rcases List.mem_append.1 hdata with hfront | hrest
      · exact (cutting_bytewise front).sizes data hfront
      · rcases List.mem_cons.1 hrest with rfl | hback
        · rw [hlength _ hword]
          decide
        · exact (cutting_bytewise back).sizes data hback
    have hnone : Ends words (bytewise (front ++ word ++ back)) none := by
      intro p other hother
      exact not_delivered_bytewise (hlength other hother ▸ (by decide))
    obtain ⟨e, hends, hends'⟩ := halike _ _ (cutting_bytewise _) halone
    obtain rfl := hends.eq hlength hnone
    exact hends' _ word hword (delivered_alone rfl)
  · intro hfree chunks chunks' hcut hcut'
    have hvacuous : AlikeAt words chunks chunks' := by
      intro word hword p hoccurs
      rw [hcut.flatten] at hoccurs
      exact absurd (hoccurs.isInfix.trans (List.drop_suffix p bytes).isInfix) (hfree word hword)
    exact hvacuous.exists_ends (hcut.flatten.trans hcut'.flatten.symm)

end Exact

end oslabs.async
