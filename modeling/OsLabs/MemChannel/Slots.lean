import OsLabs.Lib.Slots
import OsLabs.MemChannel.Counts

open oslabs.memory oslabs.run oslabs.census

namespace oslabs.memchannel

variable {P : Type} {s s' : State P} {elem_size capacity : UInt64} {mc : memch_t} {item : List UInt8}

theorem toNat_pos (hcapacity : capacity ≠ 0) : 0 < capacity.toNat := by
  rw [Nat.pos_iff_ne_zero]
  intro hzero
  exact hcapacity (UInt64.toNat_inj.mp hzero)

/-- Where the sizes fit, the place a counter names is computed without a wrap. -/
theorem toNat_offset (hcapacity : capacity ≠ 0)
    (hfit : offsetof_items.toNat + elem_size.toNat * capacity.toNat < 2 ^ 64) (count : UInt64) :
    (count % capacity * elem_size).toNat = count.toNat % capacity.toNat * elem_size.toNat := by
  have hpos := toNat_pos hcapacity
  have hle : count.toNat % capacity.toNat * elem_size.toNat ≤ elem_size.toNat * capacity.toNat := by
    rw [Nat.mul_comm]
    exact Nat.mul_le_mul_left _ (Nat.le_of_lt (Nat.mod_lt _ hpos))
  rw [UInt64.toNat_mul, UInt64.toNat_mod, Nat.mod_eq_of_lt]
  omega

/-- The place a counter names lies inside the items area. -/
theorem offset_inside (hcapacity : capacity ≠ 0)
    (hfit : offsetof_items.toNat + elem_size.toNat * capacity.toNat < 2 ^ 64) (count : UInt64) :
    (count % capacity * elem_size).toNat + elem_size.toNat ≤ elem_size.toNat * capacity.toNat := by
  rw [toNat_offset hcapacity hfit]
  exact slot_inside (Nat.mod_lt _ (toNat_pos hcapacity))

/-- So it is mapped, in a channel whose total size is computed from the sizes it has. -/
theorem mapped_of_fit (helem_size : mc.elem_size = elem_size) (hcapacity : mc.capacity = capacity)
    (htotal : mc.total_size = offsetof_items + elem_size * capacity)
    (hfit : offsetof_items.toNat + elem_size.toNat * capacity.toNat < 2 ^ 64) (hne : capacity ≠ 0)
    (count : UInt64) : mc.mapped (count % mc.capacity * mc.elem_size) := by
  have hinside := offset_inside hne hfit count
  unfold memch_t.mapped
  have harea : (elem_size * capacity).toNat = elem_size.toNat * capacity.toNat := by
    rw [UInt64.toNat_mul, Nat.mod_eq_of_lt (by omega)]
  rw [htotal, helem_size, hcapacity, UInt64.toNat_add, harea, Nat.mod_eq_of_lt hfit]
  omega

/-- The items on their way in have the size of a place, and those copied in and not
    yet out stand in their places, in the order in which they leave. -/
structure Stored (s : State P) : Prop where
  length : ∀ p item, s.pc p = .put_waited item → item.length = s.mc.elem_size.toNat
  unread : ∀ k, s.copied_out.length ≤ k → k < s.copied_in.length →
    s.copied_in[k]? = some (s.mc.items.slot s.mc.elem_size.toNat (k % s.mc.capacity.toNat))
  order : s.copied_out <+: s.copied_in

theorem created_stored : Stored (created elem_size capacity : State P) where
  length p item hpc := by cases hpc
  unread k _ hk := by cases hk
  order := List.prefix_rfl

/-- The item read is the oldest of those not yet read. -/
theorem Stored.get_copy [Fintype P] (h : Stored s) (hcounted : Counted elem_size capacity s)
    (hfit : offsetof_items.toNat + elem_size.toNat * capacity.toNat < 2 ^ 64)
    (hputs : s.copied_in.length < 2 ^ 64) {p : P} (hpc : s.pc p = .get_waited)
    (hsection : mc_get_section s.mc = some (item, mc)) :
    s.copied_in[s.copied_out.length]? = some item := by
  obtain ⟨hne, rfl, _⟩ := mc_get_section_eq_some hsection
  obtain ⟨rfl, rfl⟩ := And.intro hcounted.elem_size_eq hcounted.capacity_eq
  have hlt := hcounted.get_waited hpc
  rw [h.unread _ (Nat.le_refl _) hlt, toNat_offset hne hfit, hcounted.iget,
    UInt64.toNat_ofNat_of_lt' (show s.copied_out.length < 2 ^ 64 by omega)]
  rfl

variable [DecidableEq P]

/-- A process that goes on with no item in its hands, or with one of the right size. -/
theorem Stored.move (h : Stored s) {p : P} {next : Pc} {mc : memch_t}
    (hnext : ∀ item, next = .put_waited item → item.length = s.mc.elem_size.toNat)
    (helem_size : mc.elem_size = s.mc.elem_size := by rfl)
    (hcapacity : mc.capacity = s.mc.capacity := by rfl) (hitems : mc.items = s.mc.items := by rfl) :
    Stored { s with mc, pc := Function.update s.pc p next } where
  length q item hpc := by
    simp only [helem_size]
    by_cases heq : q = p
    · subst heq
      exact hnext item (by simpa using hpc)
    · exact h.length q item (by simpa [heq] using hpc)
  unread k hlow hhigh := by
    simp only [helem_size, hcapacity, hitems]
    exact h.unread k hlow hhigh
  order := h.order

/-- Everything copied in stays copied in. -/
theorem Move.copied_in_le {label : Label P} (h : Move s label s') :
    s.copied_in.length ≤ s'.copied_in.length := by
  cases h with
  | put_copy => simp
  | _ => exact Nat.le_refl _

/-- The item goes to a free place: less than a turn behind it are those not yet read. -/
theorem Stored.put_copy [Fintype P] (h : Stored s) (hcounted : Counted elem_size capacity s)
    (hfit : offsetof_items.toNat + elem_size.toNat * capacity.toNat < 2 ^ 64)
    (hputs : s.copied_in.length < 2 ^ 64) {p : P} (hpc : s.pc p = .put_waited item)
    (hsection : mc_put_section s.mc item = some mc) :
    Stored { s with
      mc
      pc := Function.update s.pc p .put_copied
      copied_in := s.copied_in ++ [item] } := by
  obtain ⟨hne, rfl⟩ := mc_put_section_eq_some hsection
  obtain ⟨rfl, rfl⟩ := And.intro hcounted.elem_size_eq hcounted.capacity_eq
  have hlength := h.length p item hpc
  have hroom := hcounted.put_waited hpc
  have hoffset : (s.mc.iput % s.mc.capacity * s.mc.elem_size).toNat =
      s.copied_in.length % s.mc.capacity.toNat * s.mc.elem_size.toNat := by
    rw [toNat_offset hne hfit, hcounted.iput, UInt64.toNat_ofNat_of_lt' hputs]
  constructor
  · intro q other hq
    by_cases heq : q = p
    · subst heq
      simp at hq
    · exact h.length q other (by simpa [heq] using hq)
  · intro k hlow hhigh
    simp only [List.length_append, List.length_singleton] at hlow hhigh ⊢
    rw [hoffset]
    obtain hlt | rfl := Nat.lt_or_eq_of_le (Nat.le_of_lt_succ hhigh)
    · unfold State.unread at hroom
      have hplace := mod_ne_of_sub_lt hlt (show s.copied_in.length - k < s.mc.capacity.toNat by omega)
      rw [List.getElem?_append_left hlt, h.unread k hlow hlt, Memory.slot_store_of_ne hlength hplace]
    · rw [List.getElem?_concat_length, Memory.slot_store_self hlength]
  · exact h.order.trans (List.prefix_append _ _)

theorem Stored.step [Fintype P] (h : Stored s) (hcounted : Counted elem_size capacity s)
    (hfit : offsetof_items.toNat + elem_size.toNat * capacity.toNat < 2 ^ 64)
    (hputs : s.copied_in.length < 2 ^ 64) {label : Label P} (hmove : Move s label s') : Stored s' := by
  cases hmove with
  | put_wait hpc hlength _ =>
    refine h.move fun other hother => ?_
    obtain rfl := Pc.put_waited.inj hother
    exact hlength
  | put_copy hpc hsection => exact h.put_copy hcounted hfit hputs hpc hsection
  | put_post hpc => exact h.move (by simp)
  | get_wait hpc _ => exact h.move (by simp)
  | @get_copy p item mc hpc hsection =>
    have hitem := h.get_copy hcounted hfit hputs hpc hsection
    obtain ⟨_, _, rfl⟩ := mc_get_section_eq_some hsection
    have hmoved : Stored { s with
        mc := { s.mc with iget := s.mc.iget + 1 }
        pc := Function.update s.pc p .get_copied } :=
      h.move (by simp)
    refine { hmoved with unread := ?_, order := ?_ }
    · intro k hlow hhigh
      refine hmoved.unread k (Nat.le_trans ?_ hlow) hhigh
      simp
    · obtain ⟨rest, hrest⟩ := h.order
      rw [← hrest, List.getElem?_append_right (Nat.le_refl _), Nat.sub_self] at hitem
      cases rest with
      | nil => cases hitem
      | cons first rest =>
        obtain rfl : first = item := by simpa using hitem
        exact ⟨rest, by simp [← hrest]⟩
  | get_post hpc => exact h.move (by simp)

end oslabs.memchannel
