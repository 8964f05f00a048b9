import Mathlib.Data.List.Basic

namespace oslabs.lines

variable {α : Type*} [DecidableEq α] {newline : α}

/-- Read from an input up to a newline, or `n` items when none is among them. The result is what
    is read and what is left. -/
def readLine (newline : α) : Nat → List α → List α × List α
  | 0, input => ([], input)
  | _ + 1, [] => ([], [])
  | n + 1, b :: input =>
    if b = newline then ([b], input)
    else
      let (line, rest) := readLine newline n input
      (b :: line, rest)

/-- An input up to its first empty line, or its end. The flag says if a line starts with it. -/
def upToEmpty (newline : α) : Bool → List α → List α
  | _, [] => []
  | atStart, b :: input =>
    if b = newline then if atStart then [] else b :: upToEmpty newline true input
    else b :: upToEmpty newline false input

/-- Up to the first empty line or the end, every line has less than `size` items and its newline.
    The number is how many items of a line come before the input. -/
def Fits (newline : α) (size : Nat) : Nat → List α → Prop
  | before, [] => before = 0
  | before, b :: input =>
    if b = newline then before = 0 ∨ Fits newline size 0 input
    else before + 1 < size ∧ Fits newline size (before + 1) input

instance (newline : α) (size : Nat) : ∀ input before, Decidable (Fits newline size before input)
  | [], before => inferInstanceAs (Decidable (before = 0))
  | b :: input, before =>
    have := instDecidableFits newline size input 0
    have := instDecidableFits newline size input (before + 1)
    inferInstanceAs (Decidable (if b = newline then before = 0 ∨ Fits newline size 0 input
      else before + 1 < size ∧ Fits newline size (before + 1) input))

/-- What is in the lines up to the first empty one. -/
def content (newline : α) (atStart : Bool) (input : List α) : List α :=
  (upToEmpty newline atStart input).filter (· ≠ newline)

variable {line rest : List α}

/-- What is read is a line with its newline, or as much as may be read of a line, or what is left
    of the input. -/
theorem readLine_cases (newline : α) (n : Nat) (input : List α) :
    (∃ line rest, newline ∉ line ∧ line.length < n ∧ input = line ++ newline :: rest ∧
      readLine newline n input = (line ++ [newline], rest)) ∨
    (∃ line rest, newline ∉ line ∧ line.length ≤ n ∧ input = line ++ rest ∧
      readLine newline n input = (line, rest) ∧ (line.length = n ∨ rest = [])) := by
  induction n generalizing input with
  | zero => exact .inr ⟨[], input, by simp, by simp, rfl, rfl, .inl rfl⟩
  | succ n ih =>
    cases input with
    | nil => exact .inr ⟨[], [], by simp, by simp, rfl, rfl, .inr rfl⟩
    | cons b input =>
      by_cases hb : b = newline
      · subst hb
        exact .inl ⟨[], input, by simp, by simp, rfl, by simp [readLine]⟩
      · rcases ih input with
          ⟨line, rest, hline, hlength, rfl, hread⟩ | ⟨line, rest, hline, hlength, rfl, hread, hend⟩
        · exact .inl ⟨b :: line, rest, by simp [Ne.symm hb, hline], Nat.succ_lt_succ hlength, rfl,
            by simp [readLine, hb, hread]⟩
        · refine .inr ⟨b :: line, rest, by simp [Ne.symm hb, hline], Nat.succ_le_succ hlength, rfl,
            by simp [readLine, hb, hread], ?_⟩
          simpa using hend

theorem upToEmpty_append (hline : newline ∉ line) (atStart : Bool) (rest : List α) :
    upToEmpty newline atStart (line ++ rest) = line ++ upToEmpty newline (atStart && line.isEmpty) rest := by
  induction line generalizing atStart with
  | nil => simp
  | cons b line ih =>
    rw [List.mem_cons, not_or] at hline
    simp [upToEmpty, Ne.symm hline.1, ih hline.2]

theorem fits_append (hline : newline ∉ line) {size before : Nat} (hbefore : before < size) (rest : List α) :
    Fits newline size before (line ++ rest) ↔
      before + line.length < size ∧ Fits newline size (before + line.length) rest := by
  induction line generalizing before with
  | nil => simp [hbefore]
  | cons b line ih =>
    rw [List.mem_cons, not_or] at hline
    have hlength : before + (b :: line).length = before + 1 + line.length := by
      rw [List.length_cons]
      omega
    rw [List.cons_append, Fits, if_neg (Ne.symm hline.1), hlength]
    constructor
    · rintro ⟨hnext, hfits⟩
      exact (ih hline.2 hnext).1 hfits
    · intro hfits
      have hnext : before + 1 < size := by omega
      exact ⟨hnext, (ih hline.2 hnext).2 hfits⟩

/-- A line that is empty ends what is looked at, and another one that is short enough with its
    newline leaves it to what follows. -/
theorem fits_line_iff (hline : newline ∉ line) {size : Nat} (hlength : line.length < size) (rest : List α) :
    Fits newline size 0 (line ++ newline :: rest) ↔ line = [] ∨ Fits newline size 0 rest := by
  rw [fits_append hline (Nat.zero_lt_of_lt hlength), Fits, if_pos rfl, Nat.zero_add, List.length_eq_zero_iff]
  exact and_iff_right hlength

/-- A line that is too long or that the end of the input cuts off does not fit. -/
theorem not_fits (hline : newline ∉ line) (hne : line ≠ []) {size : Nat} {rest : List α}
    (hend : line.length = size ∨ rest = []) : ¬ Fits newline size 0 (line ++ rest) := by
  have hpos := List.length_pos_iff.2 hne
  rcases Nat.eq_zero_or_pos size with rfl | hsize
  · obtain ⟨b, line, rfl⟩ := List.exists_cons_of_ne_nil hne
    rw [List.mem_cons, not_or] at hline
    simp [Fits, Ne.symm hline.1]
  · rw [fits_append hline hsize]
    rintro ⟨hlength, hrest⟩
    rcases hend with hlong | rfl
    · omega
    · rw [Fits] at hrest
      omega

theorem upToEmpty_line (hline : newline ∉ line) (hne : line ≠ []) (atStart : Bool) (rest : List α) :
    upToEmpty newline atStart (line ++ newline :: rest) = line ++ newline :: upToEmpty newline true rest := by
  rw [upToEmpty_append hline, List.isEmpty_eq_false_iff.2 hne, Bool.and_false, upToEmpty, if_pos rfl]
  rfl

theorem filter_line (hline : newline ∉ line) : line.filter (· ≠ newline) = line := by
  rw [List.filter_eq_self]
  intro b hb
  simp only [ne_eq, decide_eq_true_eq]
  rintro rfl
  exact hline hb

theorem content_line (hline : newline ∉ line) (hne : line ≠ []) (atStart : Bool) (rest : List α) :
    content newline atStart (line ++ newline :: rest) = line ++ content newline true rest := by
  rw [content, upToEmpty_line hline hne, List.filter_append, filter_line hline]
  simp [content]

theorem content_part (hline : newline ∉ line) (hne : line ≠ []) (atStart : Bool) (rest : List α) :
    content newline atStart (line ++ rest) = line ++ content newline false rest := by
  rw [content, upToEmpty_append hline, List.isEmpty_eq_false_iff.2 hne, Bool.and_false, List.filter_append,
    filter_line hline]
  rfl

end oslabs.lines
