import Mathlib.Data.List.Chain
import Mathlib.Data.List.Nodup
import Mathlib.Logic.Function.Basic

namespace oslabs.ring

variable {α : Type*}

/-- The link words of every node of a memory of doubly linked nodes. A node is
    named by its address, and each node has one `next` and one `prev` word. -/
structure Links (α : Type*) where
  next : α → α
  prev : α → α

section Writes

variable [DecidableEq α]

/-- Store `y` in the `next` word of `x`. -/
def Links.setNext (m : Links α) (x y : α) : Links α :=
  { m with next := Function.update m.next x y }

/-- Store `y` in the `prev` word of `x`. -/
def Links.setPrev (m : Links α) (x y : α) : Links α :=
  { m with prev := Function.update m.prev x y }

@[simp] theorem Links.setNext_next (m : Links α) (x y : α) :
    (m.setNext x y).next = Function.update m.next x y := rfl

@[simp] theorem Links.setNext_prev (m : Links α) (x y : α) : (m.setNext x y).prev = m.prev := rfl

@[simp] theorem Links.setPrev_next (m : Links α) (x y : α) : (m.setPrev x y).next = m.next := rfl

@[simp] theorem Links.setPrev_prev (m : Links α) (x y : α) :
    (m.setPrev x y).prev = Function.update m.prev x y := rfl

/-- Put the node `e` between the neighbours `p` and `q`. -/
def Links.link (m : Links α) (p e q : α) : Links α where
  next := Function.update (Function.update m.next e q) p e
  prev := Function.update (Function.update m.prev e p) q e

/-- Make `p` and `q` neighbours, bypassing whatever stood between them. -/
def Links.bypass (m : Links α) (p q : α) : Links α where
  next := Function.update m.next p q
  prev := Function.update m.prev q p

theorem Links.link_next_of_ne (m : Links α) {p e q x : α} (he : x ≠ e) (hp : x ≠ p) :
    (m.link p e q).next x = m.next x := by
  simp only [Links.link]
  rw [Function.update_of_ne hp, Function.update_of_ne he]

theorem Links.link_prev_of_ne (m : Links α) {p e q x : α} (he : x ≠ e) (hq : x ≠ q) :
    (m.link p e q).prev x = m.prev x := by
  simp only [Links.link]
  rw [Function.update_of_ne hq, Function.update_of_ne he]

end Writes

/-- Following the pointers `f` from the first node visits the listed nodes in
    order. The pointer of the last node is not constrained. -/
def Follows (f : α → α) (nodes : List α) : Prop :=
  nodes.IsChain fun x y => f x = y

theorem Follows.congr {f g : α → α} {nodes : List α} (h : Follows f nodes)
    (hsame : ∀ x ∈ nodes.dropLast, g x = f x) : Follows g nodes := by
  induction nodes with
  | nil => exact List.isChain_nil
  | cons x rest ih =>
    cases rest with
    | nil => exact List.isChain_singleton x
    | cons y rest =>
      obtain ⟨hxy, htail⟩ := List.isChain_cons_cons.mp h
      have hx : g x = f x := hsame x (by simp)
      refine List.isChain_cons_cons.mpr ⟨hx.trans hxy, ih htail ?_⟩
      intro z hz
      exact hsame z (by simp only [List.dropLast_cons_cons, List.mem_cons]; exact .inr hz)

/-- A chain splits at any of its nodes. -/
theorem follows_split {f : α → α} {before after : List α} {p : α} :
    Follows f (before ++ p :: after) ↔ Follows f (before ++ [p]) ∧ Follows f (p :: after) :=
  List.isChain_split

theorem follows_cons_cons {f : α → α} {p q : α} {after : List α} :
    Follows f (p :: q :: after) ↔ f p = q ∧ Follows f (q :: after) :=
  List.isChain_cons_cons

/-- Two pointer writes insert a new node between two consecutive ones. -/
theorem Follows.insert [DecidableEq α] {f : α → α} {before after : List α} {p q e : α}
    (h : Follows f (before ++ p :: q :: after))
    (hnodup : (before ++ p :: q :: after).dropLast.Nodup)
    (hnew : e ∉ (before ++ p :: q :: after).dropLast) :
    Follows (Function.update (Function.update f e q) p e) (before ++ p :: e :: q :: after) := by
  rw [List.dropLast_append_of_ne_nil (by simp), List.dropLast_cons_cons] at hnodup hnew
  obtain ⟨hbefore, hpq⟩ := follows_split.mp h
  obtain ⟨_, hafter⟩ := follows_cons_cons.mp hpq
  simp only [List.nodup_append, List.nodup_cons, List.mem_cons, List.mem_append, not_or] at hnodup hnew
  obtain ⟨_, ⟨hp, _⟩, hdisjoint⟩ := hnodup
  obtain ⟨henot, hep, heafter⟩ := hnew
  refine follows_split.mpr ⟨hbefore.congr ?_,
    follows_cons_cons.mpr ⟨by simp, follows_cons_cons.mpr ⟨?_, hafter.congr ?_⟩⟩⟩
  · intro x hx
    rw [List.dropLast_concat] at hx
    have hxp : x ≠ p := hdisjoint x hx p (.inl rfl)
    have hxe : x ≠ e := fun heq => henot (heq ▸ hx)
    rw [Function.update_of_ne hxp, Function.update_of_ne hxe]
  · rw [Function.update_of_ne hep, Function.update_self]
  · intro x hx
    have hxp : x ≠ p := fun heq => hp (heq ▸ hx)
    have hxe : x ≠ e := fun heq => heafter (heq ▸ hx)
    rw [Function.update_of_ne hxp, Function.update_of_ne hxe]

/-- One pointer write takes a node out from between its neighbours. -/
theorem Follows.remove [DecidableEq α] {f : α → α} {before after : List α} {p q e : α}
    (h : Follows f (before ++ p :: e :: q :: after))
    (hnodup : (before ++ p :: e :: q :: after).dropLast.Nodup) :
    Follows (Function.update f p q) (before ++ p :: q :: after) := by
  rw [List.dropLast_append_of_ne_nil (by simp), List.dropLast_cons_cons, List.dropLast_cons_cons] at hnodup
  obtain ⟨hbefore, hpe⟩ := follows_split.mp h
  obtain ⟨_, heq⟩ := follows_cons_cons.mp hpe
  obtain ⟨_, hafter⟩ := follows_cons_cons.mp heq
  simp only [List.nodup_append, List.nodup_cons, List.mem_cons, not_or] at hnodup
  obtain ⟨_, ⟨⟨_, hp⟩, _⟩, hdisjoint⟩ := hnodup
  refine follows_split.mpr ⟨hbefore.congr ?_, follows_cons_cons.mpr ⟨by simp, hafter.congr ?_⟩⟩
  · intro x hx
    rw [List.dropLast_concat] at hx
    exact Function.update_of_ne (hdisjoint x hx p (.inl rfl)) _ _
  · intro x hx
    have hxp : x ≠ p := fun heq => hp (heq ▸ hx)
    exact Function.update_of_ne hxp _ _

/-- The circular list with sentinel `a` holds exactly the entries `entries`, in
    `next` order. `prev` visits them backwards, and no node occurs twice. -/
structure Ring (m : Links α) (a : α) (entries : List α) : Prop where
  next : Follows m.next (a :: entries ++ [a])
  prev : Follows m.prev (a :: entries.reverse ++ [a])
  nodup : (a :: entries).Nodup

instance [DecidableEq α] (f : α → α) (nodes : List α) : Decidable (Follows f nodes) :=
  inferInstanceAs (Decidable (nodes.IsChain fun x y => f x = y))

instance [DecidableEq α] (m : Links α) (a : α) (entries : List α) : Decidable (Ring m a entries) :=
  decidable_of_iff (Follows m.next (a :: entries ++ [a]) ∧ Follows m.prev (a :: entries.reverse ++ [a]) ∧
      (a :: entries).Nodup)
    ⟨fun ⟨hnext, hprev, hnodup⟩ => ⟨hnext, hprev, hnodup⟩, fun h => ⟨h.next, h.prev, h.nodup⟩⟩

theorem Ring.congr {m m' : Links α} {a : α} {entries : List α} (h : Ring m a entries)
    (hnext : ∀ x ∈ a :: entries, m'.next x = m.next x)
    (hprev : ∀ x ∈ a :: entries, m'.prev x = m.prev x) : Ring m' a entries where
  next := h.next.congr fun x hx => hnext x (by rwa [List.dropLast_concat] at hx)
  prev := h.prev.congr fun x hx => hprev x (by
    rw [List.dropLast_concat] at hx
    simpa using hx)
  nodup := h.nodup

theorem Ring.next_head {m : Links α} {a : α} {entries : List α} (h : Ring m a entries) :
    m.next a = entries.headD a := by
  have hnext := h.next
  cases entries <;> exact (follows_cons_cons.mp hnext).1

theorem Ring.prev_head {m : Links α} {a : α} {entries : List α} (h : Ring m a entries) :
    m.prev a = entries.reverse.headD a := by
  have hprev := h.prev
  cases hrev : entries.reverse <;>
    rw [hrev] at hprev <;> exact (follows_cons_cons.mp hprev).1

/-- The sentinel points at itself exactly when its list is empty. -/
theorem Ring.next_head_eq_self_iff {m : Links α} {a : α} {entries : List α}
    (h : Ring m a entries) : m.next a = a ↔ entries = [] := by
  rw [h.next_head]
  cases entries with
  | nil => simp
  | cons x rest =>
    have hne : a ≠ x := fun heq => (List.nodup_cons.mp h.nodup).1 (heq ▸ by simp)
    simp [Ne.symm hne]

theorem ring_nil_iff {m : Links α} {a : α} : Ring m a [] ↔ m.next a = a ∧ m.prev a = a := by
  constructor
  · intro h
    exact ⟨by simpa using h.next_head, by simpa using h.prev_head⟩
  · rintro ⟨hnext, hprev⟩
    exact ⟨follows_cons_cons.mpr ⟨hnext, List.isChain_singleton a⟩,
      follows_cons_cons.mpr ⟨hprev, List.isChain_singleton a⟩, by simp⟩

/-- A memory determines the entries of a ring. -/
theorem Ring.entries_unique {m : Links α} {a : α} {first second : List α}
    (h : Ring m a first) (h' : Ring m a second) : first = second := by
  have hgeneral : ∀ (x : α) (first second : List α), Follows m.next (x :: first ++ [a]) →
      Follows m.next (x :: second ++ [a]) → a ∉ first → a ∉ second → first = second := by
    intro x first
    induction first generalizing x with
    | nil =>
      intro second hf hs _ hnot
      cases second with
      | nil => rfl
      | cons y rest =>
        have hxa := (follows_cons_cons.mp hf).1
        have hxy := (follows_cons_cons.mp hs).1
        exact absurd (hxa.symm.trans hxy) fun heq => hnot (heq ▸ by simp)
    | cons z first ih =>
      intro second hf hs hnotFirst hnot
      obtain ⟨hxz, hf⟩ := follows_cons_cons.mp hf
      cases second with
      | nil =>
        have hxa := (follows_cons_cons.mp hs).1
        exact absurd (hxa.symm.trans hxz) fun heq => hnotFirst (heq ▸ by simp)
      | cons y rest =>
        obtain ⟨hxy, hs⟩ := follows_cons_cons.mp hs
        have hzy : z = y := hxz.symm.trans hxy
        subst hzy
        rw [ih z rest hf hs (fun hmem => hnotFirst (by simp [hmem])) (fun hmem => hnot (by simp [hmem]))]
  exact hgeneral a first second h.next h'.next (List.nodup_cons.mp h.nodup).1
    (List.nodup_cons.mp h'.nodup).1

/-- The entry `e` between the entries `u` before it and `w` after it points at
    its neighbours, the sentinel standing in where there is none. -/
theorem Ring.next_entry {m : Links α} {a e : α} {u w : List α} (h : Ring m a (u ++ e :: w)) :
    m.next e = w.headD a := by
  have hnext := h.next
  rw [show a :: (u ++ e :: w) ++ [a] = (a :: u) ++ e :: (w ++ [a]) by simp] at hnext
  have hcut := (follows_split.mp hnext).2
  cases w <;> exact (follows_cons_cons.mp hcut).1

theorem Ring.prev_entry {m : Links α} {a e : α} {u w : List α} (h : Ring m a (u ++ e :: w)) :
    m.prev e = u.getLastD a := by
  have hprev := h.prev
  rw [show a :: (u ++ e :: w).reverse ++ [a] = (a :: w.reverse) ++ e :: (u.reverse ++ [a]) by simp] at hprev
  have hcut := (follows_split.mp hprev).2
  rw [List.getLastD_eq_getLast?, ← List.head?_reverse, ← List.headD_eq_head?_getD]
  cases hrev : u.reverse <;> rw [hrev] at hcut <;> exact (follows_cons_cons.mp hcut).1

/-- Only the one entry of a list has the same node on both sides, the sentinel. -/
theorem Ring.neighbours_eq_iff {m : Links α} {a e : α} {u w : List α} (h : Ring m a (u ++ e :: w)) :
    w.headD a = u.getLastD a ↔ u ++ w = [] := by
  constructor
  · intro heq
    have hnodup := h.nodup
    cases w with
    | nil =>
      rcases List.eq_nil_or_concat u with rfl | ⟨u, x, rfl⟩
      · rfl
      · rw [List.headD_nil, List.concat_eq_append, List.getLastD_concat] at heq
        rw [heq] at hnodup
        simp at hnodup
    | cons y w =>
      rcases List.eq_nil_or_concat u with rfl | ⟨u, x, rfl⟩
      · rw [List.headD_cons, List.getLastD_nil] at heq
        rw [heq] at hnodup
        simp at hnodup
      · rw [List.headD_cons, List.concat_eq_append, List.getLastD_concat] at heq
        rw [heq] at hnodup
        simp [List.nodup_append] at hnodup
  · intro hnil
    obtain ⟨rfl, rfl⟩ := List.append_eq_nil_iff.1 hnil
    rfl

private theorem headD_reverse (u : List α) (a : α) : u.reverse.headD a = u.getLastD a := by
  rw [List.headD_eq_head?_getD, List.head?_reverse, List.getLastD_eq_getLast?]

private theorem getLastD_reverse (w : List α) (a : α) : w.reverse.getLastD a = w.headD a := by
  rw [List.getLastD_eq_getLast?, List.getLast?_reverse, List.headD_eq_head?_getD]

/-- Cutting a ring between `u` and `w` leaves a last node on the left and a
    first node on the right; both may be the sentinel itself. -/
private theorem exists_cut (a : α) (u w : List α) :
    ∃ before after, a :: u = before ++ [u.getLastD a] ∧ w ++ [a] = w.headD a :: after := by
  refine ⟨(a :: u).dropLast, (w ++ [a]).tail, ?_, by cases w <;> rfl⟩
  have hlast : u.getLastD a = (a :: u).getLast (List.cons_ne_nil a u) := by
    rw [List.getLast_eq_getLastD]
  rw [hlast, List.dropLast_append_getLast]

/-- The node before a cut points forward at the node after it, and back. -/
theorem Ring.next_at_cut {m : Links α} {a : α} {u w : List α} (h : Ring m a (u ++ w)) :
    m.next (u.getLastD a) = w.headD a := by
  obtain ⟨before, after, hleft, hright⟩ := exists_cut a u w
  have hnext := h.next
  rw [show a :: (u ++ w) ++ [a] = before ++ u.getLastD a :: w.headD a :: after by
    calc a :: (u ++ w) ++ [a] = (a :: u) ++ (w ++ [a]) := by simp
      _ = _ := by rw [hleft, hright]; simp] at hnext
  exact (follows_cons_cons.mp (follows_split.mp hnext).2).1

/-- Round the sentinel: the node after the last one and the node before the first one. -/
theorem Ring.next_prev_head {m : Links α} {a : α} {entries : List α} (h : Ring m a entries) :
    m.next (m.prev a) = a := by
  have hring : Ring m a (entries ++ []) := by rwa [List.append_nil]
  rw [h.prev_head, headD_reverse, hring.next_at_cut, List.headD_nil]

theorem Ring.prev_next_head {m : Links α} {a : α} {entries : List α} (h : Ring m a entries) :
    m.prev (m.next a) = a := by
  rw [h.next_head]
  cases entries with
  | nil => exact (ring_nil_iff.mp h).2
  | cons x rest => exact h.prev_entry (u := [])

section Splice

variable [DecidableEq α]

private theorem follows_insert_at_cut {f : α → α} {a e : α} {u w : List α}
    (h : Follows f (a :: (u ++ w) ++ [a])) (hnodup : (a :: (u ++ w)).Nodup)
    (hnew : e ∉ a :: (u ++ w)) :
    Follows (Function.update (Function.update f e (w.headD a)) (u.getLastD a) e)
      (a :: (u ++ e :: w) ++ [a]) := by
  obtain ⟨before, after, hleft, hright⟩ := exists_cut a u w
  have hlist : a :: (u ++ w) ++ [a] = before ++ u.getLastD a :: w.headD a :: after := by
    calc a :: (u ++ w) ++ [a] = (a :: u) ++ (w ++ [a]) := by simp
      _ = _ := by rw [hleft, hright]; simp
  have hlist' : a :: (u ++ e :: w) ++ [a] = before ++ u.getLastD a :: e :: w.headD a :: after := by
    calc a :: (u ++ e :: w) ++ [a] = (a :: u) ++ e :: (w ++ [a]) := by simp
      _ = _ := by rw [hleft, hright]; simp
  have hsources := congrArg List.dropLast hlist
  rw [List.dropLast_concat] at hsources
  rw [hlist']
  rw [hlist] at h
  exact h.insert (by rwa [← hsources]) (by rwa [← hsources])

private theorem follows_remove_at_cut {f : α → α} {a e : α} {u w : List α}
    (h : Follows f (a :: (u ++ e :: w) ++ [a])) (hnodup : (a :: (u ++ e :: w)).Nodup) :
    Follows (Function.update f (u.getLastD a) (w.headD a)) (a :: (u ++ w) ++ [a]) := by
  obtain ⟨before, after, hleft, hright⟩ := exists_cut a u w
  have hlist : a :: (u ++ e :: w) ++ [a] = before ++ u.getLastD a :: e :: w.headD a :: after := by
    calc a :: (u ++ e :: w) ++ [a] = (a :: u) ++ e :: (w ++ [a]) := by simp
      _ = _ := by rw [hleft, hright]; simp
  have hlist' : a :: (u ++ w) ++ [a] = before ++ u.getLastD a :: w.headD a :: after := by
    calc a :: (u ++ w) ++ [a] = (a :: u) ++ (w ++ [a]) := by simp
      _ = _ := by rw [hleft, hright]; simp
  have hsources := congrArg List.dropLast hlist
  rw [List.dropLast_concat] at hsources
  rw [hlist']
  rw [hlist] at h
  exact h.remove (by rwa [← hsources])

/-- Linking a fresh node in between `u` and `w` inserts it at that place. -/
theorem Ring.link {m : Links α} {a e : α} {u w : List α} (h : Ring m a (u ++ w))
    (hnew : e ∉ a :: (u ++ w)) :
    Ring (m.link (u.getLastD a) e (w.headD a)) a (u ++ e :: w) where
  next := follows_insert_at_cut h.next h.nodup hnew
  prev := by
    have hprev := h.prev
    have hperm : (a :: (u ++ w)).Perm (a :: (w.reverse ++ u.reverse)) := by
      rw [← List.reverse_append]
      exact (List.reverse_perm _).symm.cons a
    rw [List.reverse_append] at hprev
    have hinsert := follows_insert_at_cut hprev (hperm.nodup_iff.mp h.nodup)
      (fun hmem => hnew (hperm.mem_iff.mpr hmem))
    rw [headD_reverse, getLastD_reverse] at hinsert
    rw [List.reverse_append, List.reverse_cons, List.append_assoc]
    exact hinsert
  nodup := by
    have hperm : (e :: a :: (u ++ w)).Perm (a :: (u ++ e :: w)) :=
      (List.Perm.swap a e _).trans (List.perm_middle.symm.cons a)
    exact hperm.nodup_iff.mp (List.nodup_cons.mpr ⟨hnew, h.nodup⟩)

/-- Bypassing the node between `u` and `w` removes it and nothing else. -/
theorem Ring.bypass {m : Links α} {a e : α} {u w : List α} (h : Ring m a (u ++ e :: w)) :
    Ring (m.bypass (u.getLastD a) (w.headD a)) a (u ++ w) where
  next := follows_remove_at_cut h.next h.nodup
  prev := by
    have hprev := h.prev
    have hreverse : (u ++ e :: w).reverse = w.reverse ++ e :: u.reverse := by simp
    have hperm : (a :: (u ++ e :: w)).Perm (a :: (w.reverse ++ e :: u.reverse)) := by
      rw [← hreverse]
      exact (List.reverse_perm _).symm.cons a
    rw [hreverse] at hprev
    have hremove := follows_remove_at_cut hprev (hperm.nodup_iff.mp h.nodup)
    rw [headD_reverse, getLastD_reverse] at hremove
    rw [List.reverse_append]
    exact hremove
  nodup := h.nodup.sublist (((List.sublist_cons_self e w).append_left u).cons_cons a)

end Splice

/-- Any number of circular lists in one memory: list `i` hangs off the sentinel
    `sentinel i` and holds `entries i`, and no node belongs to two lists. -/
structure Rings {ι : Type*} (m : Links α) (sentinel : ι → α) (entries : ι → List α) : Prop where
  each : ∀ i, Ring m (sentinel i) (entries i)
  disjoint : ∀ i j, i ≠ j → List.Disjoint (sentinel i :: entries i) (sentinel j :: entries j)

/-- A node outside every list of the memory. -/
def Unlinked {ι : Type*} (sentinel : ι → α) (entries : ι → List α) (x : α) : Prop :=
  ∀ i, x ∉ sentinel i :: entries i

section Families

variable {ι : Type*} [DecidableEq ι] {m : Links α} {sentinel : ι → α} {entries : ι → List α}

private theorem ne_of_disjoint {l l' : List α} {x y : α} (h : List.Disjoint l l') (hx : x ∈ l)
    (hy : y ∈ l') : x ≠ y := by
  rintro rfl
  exact h hx hy

theorem mem_ring_left (u w : List α) (a : α) : u.getLastD a ∈ a :: (u ++ w) := by
  rw [List.getLastD_eq_getLast?]
  cases hlast : u.getLast? with
  | none => simp
  | some x => simp [List.mem_of_getLast? hlast]

theorem mem_ring_right (u w : List α) (a : α) : w.headD a ∈ a :: (u ++ w) := by
  cases w <;> simp

/-- Inserting an unlinked node changes one list of the family and keeps every
    other list as it was. -/
theorem Rings.link [DecidableEq α] (h : Rings m sentinel entries) {i : ι} {e : α} {u w : List α}
    (hentries : entries i = u ++ w) (hnew : Unlinked sentinel entries e) :
    Rings (m.link (u.getLastD (sentinel i)) e (w.headD (sentinel i))) sentinel
      (Function.update entries i (u ++ e :: w)) := by
  have hleft : u.getLastD (sentinel i) ∈ sentinel i :: entries i := hentries ▸ mem_ring_left u w _
  have hright : w.headD (sentinel i) ∈ sentinel i :: entries i := hentries ▸ mem_ring_right u w _
  constructor
  · intro j
    by_cases hj : j = i
    · subst hj
      rw [Function.update_self]
      exact Ring.link (hentries ▸ h.each j) (hentries ▸ hnew j)
    · rw [Function.update_of_ne hj]
      have hnote : ∀ x ∈ sentinel j :: entries j, x ≠ e := fun x hx heq => hnew j (heq ▸ hx)
      refine (h.each j).congr ?_ ?_ <;> intro x hx
      · exact m.link_next_of_ne (hnote x hx) (ne_of_disjoint (h.disjoint j i hj) hx hleft)
      · exact m.link_prev_of_ne (hnote x hx) (ne_of_disjoint (h.disjoint j i hj) hx hright)
  · intro j k hjk
    have hsame : ∀ j x, x ∈ sentinel j :: Function.update entries i (u ++ e :: w) j →
        x ∈ sentinel j :: entries j ∨ (x = e ∧ j = i) := by
      intro j x hx
      by_cases hj : j = i
      · subst hj
        rw [Function.update_self] at hx
        rw [hentries]
        simp only [List.mem_cons, List.mem_append] at hx ⊢
        tauto
      · rw [Function.update_of_ne hj] at hx
        exact .inl hx
    intro x hx hx'
    rcases hsame j x hx with hold | ⟨rfl, rfl⟩
    · rcases hsame k x hx' with hold' | ⟨rfl, rfl⟩
      · exact h.disjoint j k hjk hold hold'
      · exact hnew j hold
    · rcases hsame k x hx' with hold' | ⟨_, rfl⟩
      · exact hnew k hold'
      · exact hjk rfl

/-- Removing a linked node changes one list of the family, keeps every other
    list as it was and leaves the node unlinked. -/
theorem Rings.bypass [DecidableEq α] (h : Rings m sentinel entries) {i : ι} {e : α} {u w : List α}
    (hentries : entries i = u ++ e :: w) :
    Rings (m.bypass (u.getLastD (sentinel i)) (w.headD (sentinel i))) sentinel
      (Function.update entries i (u ++ w)) := by
  have hsub : List.Sublist (sentinel i :: (u ++ w)) (sentinel i :: entries i) := by
    rw [hentries]
    exact ((List.sublist_cons_self e w).append_left u).cons_cons _
  have hleft : u.getLastD (sentinel i) ∈ sentinel i :: entries i := hsub.subset (mem_ring_left u w _)
  have hright : w.headD (sentinel i) ∈ sentinel i :: entries i := hsub.subset (mem_ring_right u w _)
  constructor
  · intro j
    by_cases hj : j = i
    · subst hj
      rw [Function.update_self]
      exact Ring.bypass (e := e) (hentries ▸ h.each j)
    · rw [Function.update_of_ne hj]
      refine (h.each j).congr ?_ ?_ <;> intro x hx
      · exact Function.update_of_ne (ne_of_disjoint (h.disjoint j i hj) hx hleft) _ _
      · exact Function.update_of_ne (ne_of_disjoint (h.disjoint j i hj) hx hright) _ _
  · intro j k hjk
    have hsame : ∀ j x, x ∈ sentinel j :: Function.update entries i (u ++ w) j →
        x ∈ sentinel j :: entries j := by
      intro j x hx
      by_cases hj : j = i
      · subst hj
        rw [Function.update_self] at hx
        exact hsub.subset hx
      · rwa [Function.update_of_ne hj] at hx
    intro x hx hx'
    exact h.disjoint j k hjk (hsame j x hx) (hsame k x hx')

/-- A removed node is outside every list that remains. -/
theorem Rings.unlinked_of_removed (h : Rings m sentinel entries) {i : ι} {e : α} {u w : List α}
    (hentries : entries i = u ++ e :: w) :
    Unlinked sentinel (Function.update entries i (u ++ w)) e := by
  have hmem : e ∈ sentinel i :: entries i := by simp [hentries]
  intro j
  by_cases hj : j = i
  · subst hj
    have hperm : (e :: sentinel j :: (u ++ w)).Perm (sentinel j :: entries j) := by
      rw [hentries]
      exact (List.Perm.swap _ e _).trans (List.perm_middle.symm.cons _)
    rw [Function.update_self]
    exact (List.nodup_cons.mp (hperm.nodup_iff.mpr (h.each j).nodup)).1
  · rw [Function.update_of_ne hj]
    exact fun hx => h.disjoint j i hj hx hmem

end Families

end oslabs.ring
