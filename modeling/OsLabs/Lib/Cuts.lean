import Mathlib.Data.List.Basic

namespace oslabs.cuts

variable {α : Type*}

/-- An offset at which a stream in pieces is cut: a piece begins there, or the stream ends. -/
def IsCut (pieces : List (List α)) (p : Nat) : Prop :=
  ∃ before after, pieces = before ++ after ∧ before.flatten.length = p

/-- The first piece with a property begins at an offset. -/
def FirstAt (P : List α → Prop) (pieces : List (List α)) (p : Nat) : Prop :=
  ∃ before piece after, pieces = before ++ piece :: after ∧ before.flatten.length = p ∧ P piece ∧
    ∀ other ∈ before, ¬ P other

variable {pieces before after before' after' : List (List α)} {piece piece' : List α} {p q : Nat}
  {P : List α → Prop}

theorem drop_flatten (hsplit : pieces = before ++ after) :
    pieces.flatten.drop before.flatten.length = after.flatten := by
  rw [hsplit, List.flatten_append, List.drop_left]

theorem isCut_start (hsplit : pieces = before ++ after) : IsCut pieces before.flatten.length :=
  ⟨before, after, hsplit, rfl⟩

theorem isCut_end (hsplit : pieces = before ++ piece :: after) :
    IsCut pieces (before.flatten.length + piece.length) :=
  ⟨before ++ [piece], after, by simp [hsplit], by simp⟩

/-- Of two places between pieces, one comes no later than the other, and the piece behind it is
    in front of the other one. -/
theorem mem_before_of_lt (hsplit : pieces = before ++ after) (hsplit' : pieces = before' ++ piece' :: after')
    (hlt : before'.flatten.length < before.flatten.length) :
    ∃ between, before = before' ++ piece' :: between := by
  rcases List.append_eq_append_iff.1 (hsplit.symm.trans hsplit') with ⟨more, rfl, _⟩ | ⟨more, rfl, hmore⟩
  · simp only [List.flatten_append, List.length_append] at hlt
    omega
  · cases more with
    | nil => simp at hlt
    | cons first between =>
      rw [List.cons_append] at hmore
      obtain ⟨rfl, _⟩ := List.cons.inj hmore
      exact ⟨between, rfl⟩

/-- There is no cut inside a piece. -/
theorem not_isCut (hsplit : pieces = before ++ piece :: after) (hlow : before.flatten.length < q)
    (hhigh : q < before.flatten.length + piece.length) : ¬ IsCut pieces q := by
  rintro ⟨before', after', hsplit', rfl⟩
  obtain ⟨between, rfl⟩ := mem_before_of_lt hsplit' hsplit hlow
  simp only [List.flatten_append, List.flatten_cons, List.length_append] at hhigh
  omega

/-- Before the end of the stream, a piece begins at every cut. -/
theorem IsCut.exists_piece (h : IsCut pieces p) (hp : p < pieces.flatten.length) :
    ∃ before piece after, pieces = before ++ piece :: after ∧ before.flatten.length = p := by
  obtain ⟨before, after, rfl, rfl⟩ := h
  cases after with
  | nil => simp at hp
  | cons piece after => exact ⟨before, piece, after, rfl, rfl⟩

/-- Where the property of a piece is one of the offset at which it begins, the first piece with
    it begins at the first such offset. -/
theorem firstAt_iff {D : Nat → Prop} (hne : [] ∉ pieces)
    (hD : ∀ before piece after, pieces = before ++ piece :: after → (P piece ↔ D before.flatten.length))
    (hpiece : ∀ p, D p → ∃ before piece after, pieces = before ++ piece :: after ∧ before.flatten.length = p) :
    FirstAt P pieces p ↔ D p ∧ ∀ q < p, ¬ D q := by
  constructor
  · rintro ⟨before, piece, after, hsplit, rfl, hholds, hnone⟩
    refine ⟨(hD before piece after hsplit).1 hholds, fun q hq hDq => ?_⟩
    obtain ⟨before', piece', after', hsplit', rfl⟩ := hpiece q hDq
    obtain ⟨between, rfl⟩ := mem_before_of_lt hsplit hsplit' hq
    exact hnone piece' (by simp) ((hD before' piece' after' hsplit').2 hDq)
  · rintro ⟨hDp, hfirst⟩
    obtain ⟨before, piece, after, hsplit, rfl⟩ := hpiece p hDp
    refine ⟨before, piece, after, hsplit, rfl, (hD before piece after hsplit).2 hDp, ?_⟩
    intro other hother hholds
    obtain ⟨front, back, rfl⟩ := List.append_of_mem hother
    have hpos : 0 < other.length := by
      rw [List.length_pos_iff]
      rintro rfl
      exact hne (by simp [hsplit])
    have hearlier : front.flatten.length < (front ++ other :: back).flatten.length := by
      simp only [List.flatten_append, List.flatten_cons, List.length_append]
      omega
    exact hfirst _ hearlier ((hD front other (back ++ piece :: after) (by simp [hsplit])).1 hholds)

end oslabs.cuts
