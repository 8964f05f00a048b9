import OsLabs.Lib.Ring

open oslabs.ring

namespace oslabs.list

variable {α : Type*} [DecidableEq α]

/-- `init_list_head`: an empty list, its sentinel linked to itself both ways. -/
def init_list_head (m : Links α) (listhead : α) : Links α :=
  (m.setPrev listhead listhead).setNext listhead listhead

def is_list_empty (m : Links α) (listhead : α) : Bool :=
  m.next listhead = listhead

def remove_list_entry (m : Links α) (entry : α) : Bool × Links α :=
  let next := m.next entry
  let prev := m.prev entry
  let m := m.setNext prev next
  let m := m.setPrev next prev
  (next = prev, m)

def remove_list_first (m : Links α) (listhead : α) : α × Links α :=
  let entry := m.next listhead
  (entry, (remove_list_entry m entry).2)

def remove_list_last (m : Links α) (listhead : α) : α × Links α :=
  let entry := m.prev listhead
  (entry, (remove_list_entry m entry).2)

def insert_list_after (m : Links α) (ref_entry new_entry : α) : Links α :=
  let prev := ref_entry
  let next := m.next ref_entry
  let m := m.setPrev new_entry prev
  let m := m.setNext new_entry next
  let m := m.setNext prev new_entry
  m.setPrev next new_entry

def insert_list_last (m : Links α) (listhead entry : α) : Links α :=
  insert_list_after m (m.prev listhead) entry

def insert_list_first (m : Links α) (listhead entry : α) : Links α :=
  insert_list_after m listhead entry

theorem insert_list_after_eq_link (m : Links α) (p e : α) :
    insert_list_after m p e = m.link p e (m.next p) := rfl

theorem remove_list_entry_eq_bypass (m : Links α) (e : α) :
    remove_list_entry m e = (decide (m.next e = m.prev e), m.bypass (m.prev e) (m.next e)) := rfl

theorem init_list_head_ring (m : Links α) (a : α) : Ring (init_list_head m a) a [] := by
  rw [ring_nil_iff]
  simp [init_list_head]

/-- Under any representation as a ring, `is_list_empty` decides emptiness. -/
theorem is_list_empty_iff {m : Links α} {a : α} {entries : List α} (h : Ring m a entries) :
    is_list_empty m a = true ↔ entries = [] := by
  simp only [is_list_empty, decide_eq_true_eq]
  exact h.next_head_eq_self_iff

section Families

variable {ι : Type*} [DecidableEq ι] {m : Links α} {sentinel : ι → α} {entries : ι → List α}

/-- Insertion after a reference node places the new entry right behind it in the
    reference node's list. The reference node may be the sentinel. -/
theorem insert_list_after_rings (h : Rings m sentinel entries) {i : ι} {e : α} {u w : List α}
    (hentries : entries i = u ++ w) (hnew : Unlinked sentinel entries e) :
    Rings (insert_list_after m (u.getLastD (sentinel i)) e) sentinel
      (Function.update entries i (u ++ e :: w)) := by
  have hring := h.each i
  rw [hentries] at hring
  rw [insert_list_after_eq_link, hring.next_at_cut]
  exact h.link hentries hnew

/-- Insertion at the tail appends to one list and keeps every other list. -/
theorem insert_list_last_rings (h : Rings m sentinel entries) (i : ι) {e : α}
    (hnew : Unlinked sentinel entries e) :
    Rings (insert_list_last m (sentinel i) e) sentinel
      (Function.update entries i (entries i ++ [e])) := by
  have hlast : m.prev (sentinel i) = (entries i).getLastD (sentinel i) := by
    rw [(h.each i).prev_head, List.headD_eq_head?_getD, List.head?_reverse, List.getLastD_eq_getLast?]
  rw [insert_list_last, hlast]
  exact insert_list_after_rings h (by simp) hnew

/-- Insertion at the head puts the new entry first. -/
theorem insert_list_first_rings (h : Rings m sentinel entries) (i : ι) {e : α}
    (hnew : Unlinked sentinel entries e) :
    Rings (insert_list_first m (sentinel i) e) sentinel
      (Function.update entries i (e :: entries i)) :=
  insert_list_after_rings (u := []) h rfl hnew

/-- Removal of a linked entry takes it out of its list, keeps every other list
    and leaves the entry unlinked. -/
theorem remove_list_entry_rings (h : Rings m sentinel entries) {i : ι} {e : α} {u w : List α}
    (hentries : entries i = u ++ e :: w) :
    Rings (remove_list_entry m e).2 sentinel (Function.update entries i (u ++ w)) ∧
      Unlinked sentinel (Function.update entries i (u ++ w)) e := by
  have hring := h.each i
  rw [hentries] at hring
  refine ⟨?_, h.unlinked_of_removed hentries⟩
  rw [remove_list_entry_eq_bypass, hring.next_entry, hring.prev_entry]
  exact h.bypass hentries

/-- Removal from the front of a non-empty list returns its first entry. -/
theorem remove_list_first_rings (h : Rings m sentinel entries) {i : ι} {e : α} {w : List α}
    (hentries : entries i = e :: w) :
    (remove_list_first m (sentinel i)).1 = e ∧
      Rings (remove_list_first m (sentinel i)).2 sentinel (Function.update entries i w) ∧
      Unlinked sentinel (Function.update entries i w) e := by
  have hfirst : m.next (sentinel i) = e := by
    rw [(h.each i).next_head, hentries, List.headD_cons]
  refine ⟨hfirst, ?_⟩
  simp only [remove_list_first, hfirst]
  exact remove_list_entry_rings (u := []) h hentries

/-- Removal from the tail of a non-empty list returns its last entry. -/
theorem remove_list_last_rings (h : Rings m sentinel entries) {i : ι} {e : α} {u : List α}
    (hentries : entries i = u ++ [e]) :
    (remove_list_last m (sentinel i)).1 = e ∧
      Rings (remove_list_last m (sentinel i)).2 sentinel (Function.update entries i u) ∧
      Unlinked sentinel (Function.update entries i u) e := by
  have hlast : m.prev (sentinel i) = e := by
    rw [(h.each i).prev_head, hentries, List.reverse_append, List.reverse_singleton,
      List.singleton_append, List.headD_cons]
  refine ⟨hlast, ?_⟩
  simp only [remove_list_last, hlast]
  have hremove := remove_list_entry_rings (w := []) h hentries
  rwa [List.append_nil] at hremove

omit [DecidableEq ι] in
/-- `remove_list_entry` says whether the list is empty then. -/
theorem remove_list_entry_empty (h : Rings m sentinel entries) {i : ι} {e : α} {u w : List α}
    (hentries : entries i = u ++ e :: w) :
    (remove_list_entry m e).1 = true ↔ u ++ w = [] := by
  have hring := h.each i
  rw [hentries] at hring
  rw [remove_list_entry_eq_bypass, hring.next_entry, hring.prev_entry, decide_eq_true_eq]
  exact hring.neighbours_eq_iff

omit [DecidableEq ι] in
/-- An empty list gives its sentinel, and nothing changes. -/
theorem remove_list_of_empty (h : Rings m sentinel entries) {i : ι} (hentries : entries i = []) :
    remove_list_first m (sentinel i) = (sentinel i, m) ∧
      remove_list_last m (sentinel i) = (sentinel i, m) := by
  have hring := h.each i
  rw [hentries, ring_nil_iff] at hring
  obtain ⟨hnext, hprev⟩ := hring
  have hsame : m.bypass (sentinel i) (sentinel i) = m := by
    rw [Links.bypass, Function.update_eq_self_iff.2 hnext.symm, Function.update_eq_self_iff.2 hprev.symm]
  constructor
  · rw [remove_list_first, hnext, remove_list_entry_eq_bypass, hnext, hprev, hsame]
  · rw [remove_list_last, hprev, remove_list_entry_eq_bypass, hnext, hprev, hsame]

/-- A list that is initialised again is empty, and the others stay. -/
theorem init_list_head_rings (h : Rings m sentinel entries) (i : ι) :
    Rings (init_list_head m (sentinel i)) sentinel (Function.update entries i []) := by
  constructor
  · intro j
    by_cases hj : j = i
    · subst hj
      rw [Function.update_self]
      exact init_list_head_ring m (sentinel j)
    · rw [Function.update_of_ne hj]
      have hne : ∀ x ∈ sentinel j :: entries j, x ≠ sentinel i := by
        rintro x hx rfl
        exact h.disjoint j i hj hx List.mem_cons_self
      apply (h.each j).congr
      · exact fun x hx => Function.update_of_ne (hne x hx) _ _
      · exact fun x hx => Function.update_of_ne (hne x hx) _ _
  · intro j k hjk x hx hx'
    have hsub : ∀ j, Function.update entries i [] j ⊆ entries j := by
      intro j
      by_cases hj : j = i
      · subst hj
        simp
      · rw [Function.update_of_ne hj]
        exact List.Subset.refl _
    exact h.disjoint j k hjk (List.cons_subset_cons _ (hsub j) hx) (List.cons_subset_cons _ (hsub k) hx')

end Families

omit [DecidableEq α] in
/-- One more list, which shares no node with the others. -/
theorem rings_option {ι : Type*} {m : Links α} {sentinel : ι → α} {entries : ι → List α}
    (h : Rings m sentinel entries) {a : α} {list : List α} (hring : Ring m a list)
    (hdisjoint : ∀ i, List.Disjoint (a :: list) (sentinel i :: entries i)) :
    Rings m (fun j : Option ι => j.elim a sentinel) (fun j => j.elim list entries) := by
  constructor
  · intro j
    cases j with
    | none => exact hring
    | some i => exact h.each i
  · intro j k hjk
    cases j with
    | none =>
      cases k with
      | none => exact absurd rfl hjk
      | some k => exact hdisjoint k
    | some j =>
      cases k with
      | none => exact fun x hx hx' => hdisjoint j hx' hx
      | some k => exact h.disjoint j k fun heq => hjk (congrArg some heq)

/-- A new list is empty, and the ones that there are stay. -/
theorem init_list_head_new {ι : Type*} {m : Links α} {sentinel : ι → α} {entries : ι → List α}
    (h : Rings m sentinel entries) {a : α} (hnew : Unlinked sentinel entries a) :
    Rings (init_list_head m a) (fun j : Option ι => j.elim a sentinel) (fun j => j.elim [] entries) := by
  have hkept : Rings (init_list_head m a) sentinel entries := by
    refine ⟨fun i => ?_, h.disjoint⟩
    have hne : ∀ x ∈ sentinel i :: entries i, x ≠ a := by
      rintro x hx rfl
      exact hnew i hx
    apply (h.each i).congr
    · exact fun x hx => Function.update_of_ne (hne x hx) _ _
    · exact fun x hx => Function.update_of_ne (hne x hx) _ _
  apply rings_option hkept (init_list_head_ring m a)
  intro i x hx hx'
  rw [List.mem_singleton] at hx
  subst hx
  exact hnew i hx'

section Single

variable {m : Links α} {a e : α} {entries : List α}

omit [DecidableEq α] in
private theorem rings_of_ring (h : Ring m a entries) :
    Rings m (fun _ : Unit => a) (fun _ => entries) :=
  ⟨fun _ => h, fun _ _ hne => absurd rfl hne⟩

/-- The two operations of a queue, on a list that shares no node with others. -/
theorem insert_list_last_ring (h : Ring m a entries) (hnew : e ∉ a :: entries) :
    Ring (insert_list_last m a e) a (entries ++ [e]) := by
  have hinsert := insert_list_last_rings (rings_of_ring h) () fun _ => hnew
  simpa using hinsert.each ()

theorem remove_list_first_ring (h : Ring m a (e :: entries)) :
    (remove_list_first m a).1 = e ∧ Ring (remove_list_first m a).2 a entries := by
  obtain ⟨hfirst, hrings, _⟩ := remove_list_first_rings (rings_of_ring h) (i := ()) rfl
  exact ⟨hfirst, by simpa using hrings.each ()⟩

end Single

end oslabs.list
