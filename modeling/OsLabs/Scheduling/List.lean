import OsLabs.Scheduling.Model

open oslabs.ring oslabs.list

namespace oslabs.scheduling

variable {α : Type*} [DecidableEq α]

section Counterparts

variable {m : Links α} {a : α} {entries : List α}

/-- The stores come in another order, but those to `next` words and those to
    `prev` words each in the same one. -/
theorem insert_head_list_eq (m : Links α) (a e : α) :
    insert_head_list m a e = insert_list_first m a e := by
  simp only [insert_head_list, insert_list_first, insert_list_after, Links.setNext, Links.setPrev]

/-- The node after the last one, which `insert_list_after` reads, is the sentinel. -/
theorem insert_tail_list_eq (h : Ring m a entries) (e : α) :
    insert_tail_list m a e = insert_list_last m a e := by
  simp only [insert_tail_list, insert_list_last, insert_list_after, h.next_prev_head,
    Links.setNext, Links.setPrev]

/-- The node before the first one, which `remove_list_entry` reads, is the sentinel. -/
theorem remove_head_list_eq (h : Ring m a entries) :
    remove_head_list m a = remove_list_first m a := by
  simp only [remove_head_list, remove_list_first, remove_list_entry, h.prev_next_head]

theorem remove_tail_list_eq (h : Ring m a entries) :
    remove_tail_list m a = remove_list_last m a := by
  simp only [remove_tail_list, remove_list_last, remove_list_entry, h.next_prev_head,
    Links.setNext, Links.setPrev]

end Counterparts

section Operations

variable {ι : Type*} [DecidableEq ι] (m : Links α) (sentinel : ι → α) (entries : ι → List α)

/-- What the operations do to the lists of a memory. The reference entry of an
    insertion is the last one of any part `u` of the list, or the sentinel. -/
structure Operates : Prop where
  init_new : ∀ a, Unlinked sentinel entries a →
    Rings (list.init_list_head m a) (fun j : Option ι => j.elim a sentinel) (fun j => j.elim [] entries)
  init : ∀ i, Rings (list.init_list_head m (sentinel i)) sentinel (Function.update entries i [])
  insert_after : ∀ i e u w, entries i = u ++ w → Unlinked sentinel entries e →
    Rings (insert_list_after m (u.getLastD (sentinel i)) e) sentinel
      (Function.update entries i (u ++ e :: w))
  insert_first : ∀ i e, Unlinked sentinel entries e →
    Rings (insert_list_first m (sentinel i) e) sentinel (Function.update entries i (e :: entries i))
  insert_last : ∀ i e, Unlinked sentinel entries e →
    Rings (insert_list_last m (sentinel i) e) sentinel (Function.update entries i (entries i ++ [e]))
  remove : ∀ i e u w, entries i = u ++ e :: w →
    Rings (remove_list_entry m e).2 sentinel (Function.update entries i (u ++ w)) ∧
      Unlinked sentinel (Function.update entries i (u ++ w)) e ∧
      ((remove_list_entry m e).1 = true ↔ u ++ w = [])
  remove_first : ∀ i e w, entries i = e :: w →
    (remove_list_first m (sentinel i)).1 = e ∧
      Rings (remove_list_first m (sentinel i)).2 sentinel (Function.update entries i w) ∧
      Unlinked sentinel (Function.update entries i w) e
  remove_last : ∀ i e u, entries i = u ++ [e] →
    (remove_list_last m (sentinel i)).1 = e ∧
      Rings (remove_list_last m (sentinel i)).2 sentinel (Function.update entries i u) ∧
      Unlinked sentinel (Function.update entries i u) e
  remove_empty : ∀ i, entries i = [] →
    remove_list_first m (sentinel i) = (sentinel i, m) ∧ remove_list_last m (sentinel i) = (sentinel i, m)

/-- The operations of this scheduler's list do what those of the other do. -/
structure Agrees : Prop where
  init : ∀ a, init_list_head m a = list.init_list_head m a
  insert_head : ∀ i e, Unlinked sentinel entries e →
    insert_head_list m (sentinel i) e = insert_list_first m (sentinel i) e
  insert_tail : ∀ i e, Unlinked sentinel entries e →
    insert_tail_list m (sentinel i) e = insert_list_last m (sentinel i) e
  remove : ∀ i, ∀ e ∈ entries i, remove_entry_list m e = remove_list_entry m e
  remove_head : ∀ i, remove_head_list m (sentinel i) = remove_list_first m (sentinel i)
  remove_tail : ∀ i, remove_tail_list m (sentinel i) = remove_list_last m (sentinel i)

variable {m sentinel entries}

theorem operates (h : Rings m sentinel entries) : Operates m sentinel entries where
  init_new _ := init_list_head_new h
  init i := init_list_head_rings h i
  insert_after _ _ _ _ hentries hnew := insert_list_after_rings h hentries hnew
  insert_first i _ hnew := insert_list_first_rings h i hnew
  insert_last i _ hnew := insert_list_last_rings h i hnew
  remove i e u w hentries := by
    obtain ⟨hrings, hunlinked⟩ := remove_list_entry_rings h hentries
    exact ⟨hrings, hunlinked, remove_list_entry_empty h hentries⟩
  remove_first _ _ _ hentries := remove_list_first_rings h hentries
  remove_last _ _ _ hentries := remove_list_last_rings h hentries
  remove_empty _ hentries := remove_list_of_empty h hentries

omit [DecidableEq ι] in
theorem agrees (h : Rings m sentinel entries) : Agrees m sentinel entries where
  init _ := rfl
  insert_head i e _ := insert_head_list_eq m (sentinel i) e
  insert_tail i e _ := insert_tail_list_eq (h.each i) e
  remove _ _ _ := rfl
  remove_head i := remove_head_list_eq (h.each i)
  remove_tail i := remove_tail_list_eq (h.each i)

/-- Over any number of disjoint lists every operation of both versions of the list
    changes the one list as its name says and keeps all the others. -/
theorem list_operations (h : Rings m sentinel entries) :
    Operates m sentinel entries ∧ Agrees m sentinel entries :=
  ⟨operates h, agrees h⟩

/-- One list that holds the nodes 1 and 2 and one that holds the node 4. -/
theorem list_operations_two_lists :
    let m : Links Nat := ⟨fun x => [1, 2, 0, 4, 3].getD x x, fun x => [2, 0, 1, 4, 3].getD x x⟩
    let sentinel : Bool → Nat := fun b => if b then 3 else 0
    let entries : Bool → List Nat := fun b => if b then [4] else [1, 2]
    Rings (remove_list_first m 0).2 sentinel (Function.update entries false [2]) ∧
      (remove_list_entry m 4).1 = true ∧ insert_tail_list m 3 5 = insert_list_last m 3 5 := by
  intro m sentinel entries
  have hrings : Rings m sentinel entries := by
    constructor
    · intro i
      cases i
      · exact ⟨by simp [Follows, m, sentinel, entries], by simp [Follows, m, sentinel, entries],
          by simp [sentinel, entries]⟩
      · exact ⟨by simp [Follows, m, sentinel, entries], by simp [Follows, m, sentinel, entries],
          by simp [sentinel, entries]⟩
    · intro i j hij x
      cases i <;> cases j <;> simp [sentinel, entries] at hij ⊢ <;> omega
  have hunlinked : Unlinked sentinel entries 5 := by
    intro i
    cases i <;> simp [sentinel, entries]
  obtain ⟨hoperates, hagrees⟩ := list_operations hrings
  refine ⟨(hoperates.remove_first false 1 [2] rfl).2.1, ?_, hagrees.insert_tail true 5 hunlinked⟩
  exact (hoperates.remove true 4 [] [] rfl).2.2.2 rfl

end Operations

end oslabs.scheduling
