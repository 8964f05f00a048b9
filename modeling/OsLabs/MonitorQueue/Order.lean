import Mathlib.Order.Interval.Finset.Nat
import OsLabs.MonitorQueue.Model

open oslabs.ring oslabs.list oslabs.run

namespace oslabs.queue

variable {T I : Type} {s s' : State T I} {nodes : List UInt64} {guard : Guard}

/-- Non-null blocks at different addresses are too few for a `size_t` to wrap. -/
theorem length_lt_of_nodup {l : List UInt64} (hnodup : l.Nodup) (hnull : 0 ∉ l) :
    l.length < 2 ^ 64 := by
  have haddresses : (l.map UInt64.toNat).Nodup := hnodup.map fun _ _ => UInt64.toNat_inj.mp
  have hsubset : (l.map UInt64.toNat).toFinset ⊆ Finset.Ico 1 (2 ^ 64) := by
    intro x hx
    obtain ⟨p, hp, rfl⟩ := List.mem_map.mp (List.mem_toFinset.mp hx)
    have hne : p.toNat ≠ 0 := by
      intro hzero
      rw [← UInt64.toNat_zero, UInt64.toNat_inj] at hzero
      exact hnull (hzero ▸ hp)
    have hlt := p.toNat_lt
    rw [Finset.mem_Ico]
    omega
  have hcard := Finset.card_le_card hsubset
  rw [List.toFinset_card_of_nodup haddresses, List.length_map, Nat.card_Ico] at hcard
  omega

/-- The nodes linked, in order, carry the items that are put and not yet taken.
    The counter counts them. Every other node in use has one owner, and a node
    on its way out still carries its item. -/
structure Ordered (s : State T I) (nodes : List UInt64) : Prop where
  ring : Ring s.links .head (nodes.map .node)
  size : s.size.toNat = nodes.length
  order : s.puts = s.taken ++ nodes.map s.item
  null : 0 ∉ s.allocated
  linked : ∀ pnode ∈ nodes, pnode ∈ s.allocated
  owned : ∀ t pnode, (s.pc t).node? = some pnode → pnode ∈ s.allocated ∧ pnode ∉ nodes
  owner : ∀ t u pnode, (s.pc t).node? = some pnode → (s.pc u).node? = some pnode → t = u
  got : ∀ t pnode item, s.pc t = .got pnode item → s.item pnode = item

theorem Ordered.nodup (h : Ordered s nodes) : nodes.Nodup := by
  have hring := h.ring.nodup
  rw [List.nodup_cons] at hring
  exact List.Nodup.of_map _ hring.2

/-- Both loop guards are the same test. -/
theorem Ordered.waits_iff (h : Ordered s nodes) : guard.waits s = true ↔ nodes = [] := by
  cases guard with
  | size =>
    simp only [Guard.waits, decide_eq_true_eq, ← UInt64.toNat_inj, h.size]
    exact List.length_eq_zero_iff
  | list =>
    simp only [Guard.waits]
    rw [is_list_empty_iff h.ring, List.map_eq_nil_iff]

theorem Initial.ordered (h : Initial s) : Ordered s [] where
  ring := h.head
  size := by simp [h.size]
  order := by simp [h.puts, h.taken]
  null := by simp [h.allocated]
  linked := by simp
  owned t pnode hnode := by simp [h.pc, Pc.node?] at hnode
  owner t u pnode hnode := by simp [h.pc, Pc.node?] at hnode
  got t pnode item hpc := by simp [h.pc] at hpc

/-- A change of places that hands no node to anyone. -/
theorem Ordered.move (h : Ordered s nodes) {pc : T → Pc I}
    (hnode : ∀ t pnode, (pc t).node? = some pnode → s.pc t = pc t) : Ordered { s with pc } nodes where
  ring := h.ring
  size := h.size
  order := h.order
  null := h.null
  linked := h.linked
  owned t pnode hown := h.owned t pnode (hnode t pnode hown ▸ hown)
  owner t u pnode hown hown' :=
    h.owner t u pnode (hnode t pnode hown ▸ hown) (hnode u pnode hown' ▸ hown')
  got t pnode item hpc := by
    have hown : (pc t).node? = some pnode := by
      rw [show pc t = .got pnode item from hpc]
      rfl
    exact h.got t pnode item (hnode t pnode hown ▸ hpc)

variable [DecidableEq T]

/-- A thread that owns no node at its new place hands over none. -/
theorem node?_update_eq (pc : T → Pc I) {t : T} {p : Pc I} (hp : p.node? = none) (u : T)
    (pnode : UInt64) (hown : (Function.update pc t p u).node? = some pnode) :
    u ≠ t ∧ pc u = Function.update pc t p u := by
  by_cases heq : u = t
  · subst heq
    rw [Function.update_self, hp] at hown
    cases hown
  · exact ⟨heq, (Function.update_of_ne heq p pc).symm⟩

theorem Ordered.update (h : Ordered s nodes) (t : T) {p : Pc I} (hp : p.node? = none) :
    Ordered { s with pc := Function.update s.pc t p } nodes :=
  h.move fun u pnode hown => (node?_update_eq s.pc hp u pnode hown).2

theorem Ordered.signal (h : Ordered s nodes) (woken : Finset T) :
    Ordered { s with pc := pthread_cond_signal s.pc woken } nodes := by
  refine h.move fun t pnode hown => ?_
  unfold pthread_cond_signal at hown ⊢
  split at hown
  · cases hown
  · rw [if_neg ‹_›]

/-- A fresh block is nobody's yet, and no node's item is lost to it. -/
theorem Ordered.put_begin (h : Ordered s nodes) (t : T) {pnode : UInt64} (item : I)
    (hnull : pnode ≠ 0) (hfresh : pnode ∉ s.allocated) :
    Ordered (queue_put_begin s t pnode item) nodes := by
  have hother : ∀ q ∈ s.allocated, Function.update s.item pnode item q = s.item q := by
    intro q hq
    have hne : q ≠ pnode := fun heq => hfresh (heq ▸ hq)
    exact Function.update_of_ne hne _ _
  have hpc : ∀ u q, (Function.update s.pc t (.put_ready pnode) u).node? = some q →
      u = t ∧ q = pnode ∨ u ≠ t ∧ (s.pc u).node? = some q := by
    intro u q hown
    by_cases heq : u = t
    · subst heq
      rw [Function.update_self] at hown
      exact .inl ⟨rfl, (Option.some.inj hown).symm⟩
    · rw [Function.update_of_ne heq] at hown
      exact .inr ⟨heq, hown⟩
  constructor
  · exact h.ring
  · exact h.size
  · have hitems : nodes.map (Function.update s.item pnode item) = nodes.map s.item :=
      List.map_congr_left fun q hq => hother q (h.linked q hq)
    simpa only [queue_put_begin, hitems] using h.order
  · simp [queue_put_begin, h.null, hnull.symm]
  · intro q hq
    exact Finset.mem_insert_of_mem (h.linked q hq)
  · intro u q hown
    obtain ⟨_, rfl⟩ | ⟨_, hold⟩ := hpc u q hown
    · exact ⟨Finset.mem_insert_self _ _, fun hmem => hfresh (h.linked _ hmem)⟩
    · obtain ⟨halloc, hnot⟩ := h.owned u q hold
      exact ⟨Finset.mem_insert_of_mem halloc, hnot⟩
  · intro u v q hown hown'
    obtain ⟨rfl, rfl⟩ | ⟨_, hold⟩ := hpc u q hown
    · obtain ⟨rfl, _⟩ | ⟨_, hold'⟩ := hpc v q hown'
      · rfl
      · exact absurd (h.owned v q hold').1 hfresh
    · obtain ⟨_, rfl⟩ | ⟨_, hold'⟩ := hpc v q hown'
      · exact absurd (h.owned u q hold).1 hfresh
      · exact h.owner u v q hold hold'
  · intro u q i hgot
    have hold : s.pc u = .got q i := by
      by_cases heq : u = t
      · subst heq
        simp [queue_put_begin] at hgot
      · simpa [queue_put_begin, heq] using hgot
    have halloc := (h.owned u q (by rw [hold]; rfl)).1
    simpa only [queue_put_begin, hother q halloc] using h.got u q i hold

/-- Linking a thread's node makes its item the last one put. -/
theorem Ordered.put_section (h : Ordered s nodes) {t : T} {pnode : UInt64} (woken : Finset T)
    (hpc : s.pc t = .put_ready pnode) :
    Ordered (queue_put_section s t pnode woken) (nodes ++ [pnode]) := by
  have hown : (s.pc t).node? = some pnode := by rw [hpc]; rfl
  obtain ⟨halloc, hnot⟩ := h.owned t pnode hown
  have hmoved := (h.signal woken).update t (p := .idle) rfl
  have hrest : ∀ u q, ((queue_put_section s t pnode woken).pc u).node? = some q →
      u ≠ t ∧ (s.pc u).node? = some q := by
    intro u q hq
    obtain ⟨hne, hsame⟩ := node?_update_eq (pthread_cond_signal s.pc woken) rfl u q hq
    refine ⟨hne, ?_⟩
    simp only [queue_put_section, Function.update_of_ne hne, pthread_cond_signal] at hq
    split at hq
    · cases hq
    · exact hq
  have hnodup : (nodes ++ [pnode]).Nodup := by
    rw [← List.concat_eq_append, List.nodup_concat]
    exact ⟨hnot, h.nodup⟩
  have hbound : (nodes ++ [pnode]).length < 2 ^ 64 := by
    refine length_lt_of_nodup hnodup fun hzero => h.null ?_
    rw [List.mem_append, List.mem_singleton] at hzero
    obtain hzero | hzero := hzero
    · exact h.linked 0 hzero
    · exact hzero ▸ halloc
  constructor
  · have hring := insert_list_last_ring h.ring (e := .node pnode) (by simpa using hnot)
    simpa [queue_put_section] using hring
  · rw [List.length_append, List.length_singleton] at hbound ⊢
    simp only [queue_put_section, UInt64.toNat_add, h.size, UInt64.toNat_one]
    omega
  · simp [queue_put_section, h.order]
  · exact h.null
  · intro q hq
    rw [List.mem_append, List.mem_singleton] at hq
    obtain hq | rfl := hq
    · exact h.linked q hq
    · exact halloc
  · intro u q hq
    obtain ⟨hne, hold⟩ := hrest u q hq
    obtain ⟨hin, hout⟩ := h.owned u q hold
    refine ⟨hin, ?_⟩
    rw [List.mem_append, List.mem_singleton]
    rintro (hmem | rfl)
    · exact hout hmem
    · exact hne (h.owner u t q hold hown)
  · intro u v q hq hq'
    exact h.owner u v q (hrest u q hq).2 (hrest v q hq').2
  · exact hmoved.got

/-- With a node linked, the section of `queue_get` unlinks the first. -/
theorem Ordered.queue_get_section_eq {pnode : UInt64} {rest : List UInt64}
    (h : Ordered s (pnode :: rest)) (guard : Guard) (t : T) :
    queue_get_section guard s t = some { s with
      links := (remove_list_first s.links .head).2
      size := s.size - 1
      pc := Function.update s.pc t (.got pnode (s.item pnode))
      taken := s.taken ++ [s.item pnode] } := by
  have hguard : guard.waits s = false := by
    rw [Bool.eq_false_iff, ne_eq, h.waits_iff]
    simp
  obtain ⟨hfirst, _⟩ := remove_list_first_ring h.ring
  simp only [queue_get_section, hguard, hfirst, container_of]
  rfl

/-- Unlinking the first node takes its item out of the queue. -/
theorem Ordered.take {pnode : UInt64} {rest : List UInt64} (h : Ordered s (pnode :: rest)) {t : T}
    (hpc : (s.pc t).node? = none) :
    Ordered { s with
      links := (remove_list_first s.links .head).2
      size := s.size - 1
      pc := Function.update s.pc t (.got pnode (s.item pnode))
      taken := s.taken ++ [s.item pnode] } rest := by
  obtain ⟨_, hring⟩ := remove_list_first_ring h.ring
  obtain ⟨hnot, _⟩ := List.nodup_cons.mp h.nodup
  have hrest : ∀ u q, (Function.update s.pc t (.got pnode (s.item pnode)) u).node? = some q →
      u = t ∧ q = pnode ∨ u ≠ t ∧ (s.pc u).node? = some q := by
    intro u q hown
    by_cases heq : u = t
    · subst heq
      rw [Function.update_self] at hown
      exact .inl ⟨rfl, (Option.some.inj hown).symm⟩
    · rw [Function.update_of_ne heq] at hown
      exact .inr ⟨heq, hown⟩
  have hfirst : ∀ u, (s.pc u).node? ≠ some pnode :=
    fun u hown => (h.owned u pnode hown).2 List.mem_cons_self
  constructor
  · exact hring
  · have hsize := h.size
    have hone : (1 : UInt64) ≤ s.size := by
      rw [UInt64.le_iff_toNat_le, hsize, List.length_cons, UInt64.toNat_one]
      omega
    simp only [UInt64.toNat_sub_of_le _ _ hone, hsize, List.length_cons, UInt64.toNat_one]
    omega
  · simp [h.order]
  · exact h.null
  · intro q hq
    exact h.linked q (List.mem_cons_of_mem _ hq)
  · intro u q hown
    obtain ⟨_, rfl⟩ | ⟨_, hold⟩ := hrest u q hown
    · exact ⟨h.linked _ List.mem_cons_self, hnot⟩
    · obtain ⟨halloc, hout⟩ := h.owned u q hold
      exact ⟨halloc, fun hmem => hout (List.mem_cons_of_mem _ hmem)⟩
  · intro u v q hown hown'
    obtain ⟨rfl, rfl⟩ | ⟨_, hold⟩ := hrest u q hown
    · obtain ⟨rfl, _⟩ | ⟨_, hold'⟩ := hrest v q hown'
      · rfl
      · exact absurd hold' (hfirst v)
    · obtain ⟨_, rfl⟩ | ⟨_, hold'⟩ := hrest v q hown'
      · exact absurd hold (hfirst u)
      · exact h.owner u v q hold hold'
  · intro u q i hgot
    by_cases heq : u = t
    · subst heq
      simp only [Function.update_self, Pc.got.injEq] at hgot
      obtain ⟨rfl, rfl⟩ := hgot
      rfl
    · simp only [Function.update_of_ne heq] at hgot
      exact h.got u q i hgot

/-- Freeing an unlinked node keeps all that are linked or owned by others. -/
theorem Ordered.get_end (h : Ordered s nodes) {t : T} {pnode : UInt64} {item : I}
    (hpc : s.pc t = .got pnode item) : Ordered (queue_get_end s t pnode).2 nodes := by
  have hown : (s.pc t).node? = some pnode := by rw [hpc]; rfl
  obtain ⟨_, hnot⟩ := h.owned t pnode hown
  have hmoved := h.update t (p := .idle) rfl
  have hother : ∀ u q, ((queue_get_end s t pnode).2.pc u).node? = some q → q ≠ pnode := by
    rintro u q hq rfl
    obtain ⟨hne, hsame⟩ := node?_update_eq s.pc rfl u q hq
    exact hne (h.owner u t q (by rw [hsame]; exact hq) hown)
  refine ⟨h.ring, h.size, h.order, ?_, ?_, ?_, hmoved.owner, hmoved.got⟩
  · exact fun hzero => h.null (Finset.mem_of_mem_erase hzero)
  · intro q hq
    exact Finset.mem_erase.mpr ⟨fun heq => hnot (heq ▸ hq), h.linked q hq⟩
  · intro u q hq
    obtain ⟨halloc, hout⟩ := hmoved.owned u q hq
    exact ⟨Finset.mem_erase.mpr ⟨hother u q hq, halloc⟩, hout⟩

/-- Every step keeps the queue ordered. -/
theorem Ordered.step {label : Label T I} (h : Ordered s nodes) (hmove : Move guard s label s') :
    ∃ nodes', Ordered s' nodes' := by
  cases hmove with
  | put_begin hpc hnull hfresh => exact ⟨nodes, h.put_begin _ _ hnull hfresh⟩
  | put_section hpc hsignals => exact ⟨_, h.put_section _ hpc⟩
  | get_begin hpc => exact ⟨nodes, h.update _ rfl⟩
  | wait hpc hguard => exact ⟨nodes, h.update _ rfl⟩
  | @take t _ hpc hguard hsection =>
    have hnone : (s.pc t).node? = none := by obtain hpc | hpc := hpc <;> rw [hpc] <;> rfl
    cases nodes with
    | nil => simp [h.waits_iff.mpr rfl] at hguard
    | cons pnode rest =>
      rw [h.queue_get_section_eq] at hsection
      obtain rfl := Option.some.inj hsection
      exact ⟨rest, h.take hnone⟩
  | spurious hpc => exact ⟨nodes, h.update _ rfl⟩
  | get_end hpc => exact ⟨nodes, h.get_end hpc⟩

variable [Fintype T]

theorem run_ordered {s₀ : State T I} {labels : List (Label T I)} (hinitial : Initial s₀)
    (hrun : Run (StepOf (step guard)) s₀ labels s) : ∃ nodes, Ordered s nodes := by
  apply hrun.invariant (fun s => ∃ nodes, Ordered s nodes) ⟨[], hinitial.ordered⟩
  rintro s label s' ⟨nodes, hordered⟩ hstep
  exact hordered.step (move_of_step hstep)

end oslabs.queue
