import OsLabs.UThread.Placement

namespace oslabs.uthread

variable {E S : Type} {a b : Queues E S} {place : Thread → Place E S}

/-- The parts of the state a placement does not speak of may change freely. -/
theorem Queued.congr (h : Queued a place) (hready : b.ready = a.ready := by rfl)
    (hwaiters : b.waiters = a.waiters := by rfl) (hthread : b.wblock_thread = a.wblock_thread := by rfl)
    (hframe : b.frame = a.frame := by rfl) (hlive : b.live = a.live := by rfl)
    (hstack : b.stack = a.stack := by rfl)
    (hcount : b.number_of_threads = a.number_of_threads := by rfl) : Queued b place := by
  have hblocked : b.blocked = a.blocked := by
    funext sync
    rw [Queues.blocked, hwaiters, hthread, Queues.blocked]
  constructor
  · rw [hready]
    exact h.ready_nodup
  · rw [hready]
    exact h.mem_ready
  · rw [hblocked]
    exact h.blocked_nodup
  · rw [hblocked]
    exact h.mem_blocked
  · rw [hlive]
    exact h.live
  · exact h.main
  · rw [hwaiters, hthread, hframe]
    exact h.frame
  · rw [hlive, hstack]
    exact h.stack
  · rw [hcount, hlive]
    exact h.count

/-- Moving one thread to a new place. The queues and the set of threads in use
    have to change for that thread only, and in the way its new place says. -/
theorem Queued.move (h : Queued a place) {t : Thread} {p : Place E S}
    (hready : ∀ x, x ∈ b.ready ↔ if x = t then p = .ready else x ∈ a.ready)
    (hblocked : ∀ sync x, x ∈ b.blocked sync ↔ if x = t then p = .blocked sync else x ∈ a.blocked sync)
    (hlive : ∀ block, block ∈ b.live ↔ if .user block = t then p ≠ .gone else block ∈ a.live)
    (hmain : t = .main → p = .running ∨ p = .gone)
    (hready_nodup : b.ready.Nodup) (hblocked_nodup : ∀ sync, (b.blocked sync).Nodup)
    (hframe : ∀ sync, ∀ wblock ∈ b.waiters sync, b.frame (b.wblock_thread wblock) = some wblock)
    (hstack : Stacks b.live b.stack) (hcount : b.number_of_threads.toNat = b.live.card) :
    Queued b (Function.update place t p) where
  ready_nodup := hready_nodup
  mem_ready x := by
    rw [hready, Function.update_apply]
    split
    · rfl
    · exact h.mem_ready x
  blocked_nodup := hblocked_nodup
  mem_blocked sync x := by
    rw [hblocked, Function.update_apply]
    split
    · rfl
    · exact h.mem_blocked sync x
  live block := by
    rw [hlive, Function.update_apply]
    split
    · rfl
    · exact h.live block
  main := by
    rw [Function.update_apply]
    split
    · exact hmain (Eq.symm ‹_›)
    · exact h.main
  frame := hframe
  stack := hstack
  count := hcount

/-- A thread that is in no queue. -/
theorem Queued.not_queued (h : Queued a place) {t : Thread}
    (hplace : place t = .running ∨ place t = .gone) : t ∉ a.ready ∧ ∀ sync, t ∉ a.blocked sync := by
  constructor
  · rw [h.mem_ready]
    rcases hplace with hp | hp <;> simp [hp]
  · intro sync
    rw [h.mem_blocked]
    rcases hplace with hp | hp <;> simp [hp]

private theorem nodup_concat {l : List Thread} {t : Thread} (h : l.Nodup) (hnot : t ∉ l) :
    (l ++ [t]).Nodup := by
  rw [List.nodup_append]
  refine ⟨h, List.nodup_singleton t, ?_⟩
  intro x hx y hy
  rw [List.mem_singleton.mp hy]
  exact fun heq => hnot (heq ▸ hx)

/-- A user thread in hand goes to the end of the ready queue. -/
theorem Queued.activate (h : Queued a place) (block : Nat)
    (hplace : place (.user block) = .running) :
    Queued (a.activate (.user block)) (Function.update place (.user block) .ready) := by
  obtain ⟨hready, hblocked⟩ := h.not_queued (.inl hplace)
  have hlive : block ∈ a.live := by rw [h.live, hplace]; simp
  apply h.move
  · intro x
    by_cases heq : x = .user block <;> simp [Queues.activate, heq]
  · intro sync x
    split
    · subst x
      simpa using hblocked sync
    · rfl
  · intro other
    by_cases heq : other = block <;> simp [Queues.activate, heq, hlive]
  · simp
  · exact nodup_concat h.ready_nodup hready
  · exact h.blocked_nodup
  · exact h.frame
  · exact h.stack
  · exact h.count

section Waiters

variable [DecidableEq E] [DecidableEq S]

/-- The first waiter of a queue comes into hand, and the others stay in order. -/
theorem Queued.remove_waiter (h : Queued a place) {sync : Sync E S} {wblock block : Nat}
    {rest : List Nat} (hwaiters : a.waiters sync = wblock :: rest)
    (hthread : a.wblock_thread wblock = .user block) :
    Queued { a with waiters := Function.update a.waiters sync rest }
      (Function.update place (.user block) .running) := by
  have hqueue : a.blocked sync = .user block :: rest.map a.wblock_thread := by
    simp [Queues.blocked, hwaiters, hthread]
  have hplace : place (.user block) = .blocked sync := by
    rw [← h.mem_blocked, hqueue]
    exact List.mem_cons_self
  obtain ⟨hnot, hrest⟩ := List.nodup_cons.mp (hqueue ▸ h.blocked_nodup sync)
  have hblocked : ∀ other, Queues.blocked { a with waiters := Function.update a.waiters sync rest } other =
      if other = sync then rest.map a.wblock_thread else a.blocked other := by
    intro other
    by_cases heq : other = sync
    · simp [Queues.blocked, heq]
    · simp [Queues.blocked, heq]
  apply h.move
  · intro x
    split
    · subst x
      rw [h.mem_ready, hplace]
      simp
    · rfl
  · intro other x
    rw [hblocked]
    by_cases heq : other = sync
    · subst heq
      rw [hqueue]
      by_cases hx : x = .user block
      · simpa [hx] using hnot
      · simp [hx]
    · by_cases hx : x = .user block
      · simpa [hx, heq, h.mem_blocked, hplace] using Ne.symm heq
      · simp [hx, heq]
  · intro other
    have hlive := h.live other
    by_cases heq : other = block
    · subst heq
      simpa [hplace] using hlive
    · simp [heq]
  · simp
  · exact h.ready_nodup
  · intro other
    rw [hblocked]
    split
    · exact hrest
    · exact h.blocked_nodup other
  · intro other w hw
    have hold : w ∈ a.waiters other := by
      by_cases heq : other = sync
      · subst heq
        simp only [Function.update_self] at hw
        exact hwaiters ▸ List.mem_cons_of_mem _ hw
      · simpa [heq] using hw
    exact h.frame other w hold
  · exact h.stack
  · exact h.count

omit [DecidableEq E] [DecidableEq S] in
/-- Only user threads wait. -/
theorem Queued.exists_user_of_waiter (h : Queued a place) {sync : Sync E S} {wblock : Nat}
    (hmem : wblock ∈ a.waiters sync) : ∃ block, a.wblock_thread wblock = .user block := by
  have hblocked := mem_blocked_of_mem_waiters hmem
  cases hthread : a.wblock_thread wblock with
  | main => exact absurd (hthread ▸ hblocked) (h.not_main_blocked sync)
  | user block => exact ⟨block, rfl⟩

/-- Waking the first waiter moves it from its queue to the ready queue. -/
theorem Queued.wake (h : Queued a place) {sync : Sync E S} {wblock : Nat} {rest : List Nat}
    (hwaiters : a.waiters sync = wblock :: rest) :
    Queued (a.wake sync) (Function.update place (a.wblock_thread wblock) .ready) := by
  obtain ⟨block, hthread⟩ := h.exists_user_of_waiter (hwaiters ▸ List.mem_cons_self)
  have hactive := (h.remove_waiter hwaiters hthread).activate block (by simp)
  rw [Function.update_idem] at hactive
  simpa only [Queues.wake, hwaiters, hthread] using hactive

/-- A thread in hand whose wait block is on its frame joins a queue. -/
theorem Queued.enqueue (h : Queued a place) (sync : Sync E S) (wblock block : Nat)
    (hthread : a.wblock_thread wblock = .user block) (hplace : place (.user block) = .running)
    (hframe : a.frame (.user block) = some wblock) :
    Queued (a.enqueue sync wblock) (Function.update place (.user block) (.blocked sync)) := by
  obtain ⟨hready, hnot⟩ := h.not_queued (.inl hplace)
  have hlive : block ∈ a.live := by rw [h.live, hplace]; simp
  have hblocked : ∀ other, (a.enqueue sync wblock).blocked other =
      if other = sync then a.blocked sync ++ [.user block] else a.blocked other := by
    intro other
    by_cases heq : other = sync
    · simp [Queues.enqueue, Queues.blocked, hthread, heq]
    · simp [Queues.enqueue, Queues.blocked, heq]
  apply h.move
  · intro x
    split
    · subst x
      simpa using hready
    · rfl
  · intro other x
    rw [hblocked]
    by_cases heq : other = sync
    · by_cases hx : x = .user block <;> simp [hx, heq]
    · by_cases hx : x = .user block
      · simpa [hx, heq, hnot other] using Ne.symm heq
      · simp [hx, heq]
  · intro other
    by_cases heq : other = block <;> simp [Queues.enqueue, heq, hlive]
  · simp
  · exact h.ready_nodup
  · intro other
    rw [hblocked]
    split
    · exact nodup_concat (h.blocked_nodup sync) (hnot sync)
    · exact h.blocked_nodup other
  · intro other w hw
    simp only [Queues.enqueue] at hw ⊢
    rw [Function.update_apply] at hw
    split at hw
    · rcases List.mem_append.mp hw with hw | hw
      · exact h.frame sync w hw
      · rw [List.mem_singleton.mp hw, hthread, hframe]
    · exact h.frame other w hw
  · exact h.stack
  · exact h.count

end Waiters

/-- A new thread comes into hand. The blocks it got keep the stacks apart, so the
    count of threads stays exact. -/
theorem Queued.create (h : Queued a place) {block stack : Nat}
    (hfresh : MallocFresh a.toCore block stack) :
    Queued { a with
      live := insert block a.live
      stack := Function.update a.stack block stack
      number_of_threads := a.number_of_threads + 1 } (Function.update place (.user block) .running) := by
  have hgone : place (.user block) = .gone := by
    by_contra hplace
    exact hfresh.block_fresh ((h.live block).mpr hplace)
  obtain ⟨hready, hblocked⟩ := h.not_queued (.inr hgone)
  have hstack := h.stack.insert hfresh
  apply h.move
  · intro x
    split
    · subst x
      simpa using hready
    · rfl
  · intro sync x
    split
    · subst x
      simpa [Queues.blocked] using hblocked sync
    · rfl
  · intro other
    by_cases heq : other = block <;> simp [heq]
  · simp
  · exact h.ready_nodup
  · exact h.blocked_nodup
  · exact h.frame
  · exact hstack
  · have hcard := hstack.card_lt
    rw [Finset.card_insert_of_notMem hfresh.block_fresh, ← h.count] at hcard ⊢
    rw [UInt32.toNat_add]
    exact Nat.mod_eq_of_lt hcard

/-- A user thread in hand is freed. -/
theorem Queued.exit (h : Queued a place) (block : Nat) (hplace : place (.user block) = .running) :
    Queued { a with
      number_of_threads := a.number_of_threads - 1
      live := a.live.erase block } (Function.update place (.user block) .gone) := by
  obtain ⟨hready, hblocked⟩ := h.not_queued (.inl hplace)
  have hlive : block ∈ a.live := by rw [h.live, hplace]; simp
  apply h.move
  · intro x
    split
    · subst x
      simpa using hready
    · rfl
  · intro sync x
    split
    · subst x
      simpa [Queues.blocked] using hblocked sync
    · rfl
  · intro other
    by_cases heq : other = block <;> simp [heq]
  · simp
  · exact h.ready_nodup
  · exact h.blocked_nodup
  · exact h.frame
  · exact h.stack.erase block
  · have hpos : 0 < a.live.card := Finset.card_pos.mpr ⟨block, hlive⟩
    have hle : (1 : UInt32) ≤ a.number_of_threads := by
      rw [UInt32.le_iff_toNat_le, h.count]
      exact hpos
    rw [UInt32.toNat_sub_of_le _ _ hle, h.count, Finset.card_erase_of_mem hlive]
    rfl

/-- Setting up a wait block in storage that no thread uses disturbs no queue. -/
theorem Queued.init_waitblock (h : Queued a place) {block wblock : Nat}
    (hplace : place (.user block) = .running) (hfresh : ∀ t, a.frame t ≠ some wblock) :
    Queued { a with
      wblock_thread := Function.update a.wblock_thread wblock (.user block)
      frame := Function.update a.frame (.user block) (some wblock) } place := by
  have hother : ∀ sync, ∀ w ∈ a.waiters sync, w ≠ wblock := by
    rintro sync w hw rfl
    exact h.wblock_fresh hfresh sync hw
  have hblocked : ∀ sync, Queues.blocked { a with
      wblock_thread := Function.update a.wblock_thread wblock (.user block)
      frame := Function.update a.frame (.user block) (some wblock) } sync = a.blocked sync := by
    intro sync
    simp only [Queues.blocked]
    refine List.map_congr_left fun w hw => ?_
    exact Function.update_of_ne (hother sync w hw) _ _
  constructor
  · exact h.ready_nodup
  · exact h.mem_ready
  · intro sync
    rw [hblocked]
    exact h.blocked_nodup sync
  · intro sync t
    rw [hblocked]
    exact h.mem_blocked sync t
  · exact h.live
  · exact h.main
  · intro sync w hw
    have hthread : Function.update a.wblock_thread wblock (.user block) w = a.wblock_thread w :=
      Function.update_of_ne (hother sync w hw) _ _
    have hne : a.wblock_thread w ≠ .user block := by
      intro heq
      have hmem := (h.mem_blocked sync (.user block)).mp (heq ▸ mem_blocked_of_mem_waiters hw)
      rw [hplace] at hmem
      cases hmem
    simp only [hthread, Function.update_of_ne hne]
    exact h.frame sync w hw
  · exact h.stack
  · exact h.count

/-- With nobody in hand, a thread that is in no queue of the waiters comes to run when it is
    taken out of the ready queue, if it was there. -/
theorem Queued.context_switch (h : Queued a place) (hnobody : ∀ t, place t ≠ .running)
    (hmain : a.main_thread = some .main) {next : Thread} {ready : List Thread}
    (hready : ∀ x, x ∈ ready ↔ x ≠ next ∧ x ∈ a.ready) (hnodup : ready.Nodup)
    (hblocked : ∀ sync, next ∉ a.blocked sync) (hlive : ∀ block, .user block = next → block ∈ a.live)
    (hidle : next = .main → ready = []) :
    Located { a with toCore := uthread.context_switch a.toCore next, ready }
      (Function.update place next .running) := by
  refine ⟨?_, ?_, ?_, ?_⟩
  · apply h.move
    · intro x
      by_cases hx : x = next <;> simp [hready, hx]
    · intro sync x
      split
      · subst x
        simpa [Queues.blocked, uthread.context_switch] using hblocked sync
      · rfl
    · intro block
      split
      · next heq => simpa [uthread.context_switch] using hlive block heq
      · rfl
    · simp
    · exact hnodup
    · exact h.blocked_nodup
    · intro sync w hw
      have hne : a.wblock_thread w ≠ next :=
        fun heq => hblocked sync (heq ▸ mem_blocked_of_mem_waiters hw)
      simp only [uthread.context_switch, Function.update_of_ne hne]
      exact h.frame sync w hw
    · exact h.stack
    · exact h.count
  · intro t
    by_cases heq : t = next
    · simp [heq, uthread.context_switch]
    · simpa [heq, uthread.context_switch, hnobody t] using Ne.symm heq
  · simpa [uthread.context_switch] using hmain
  · intro hrunning
    exact hidle (Option.some.inj hrunning)

/-- With nobody in hand, dispatching lets one thread run: the first ready one, or
    the main thread once nobody is ready. -/
theorem Queued.dispatch (h : Queued a place) (hnobody : ∀ t, place t ≠ .running)
    (hmain : a.main_thread = some .main) :
    ∃ a' t, a.dispatch = some a' ∧ Located a' (Function.update place t .running) := by
  cases hready : a.ready with
  | nil =>
    have hgone : place .main = .gone := h.main.resolve_left (hnobody .main)
    refine ⟨{ a with toCore := uthread.context_switch a.toCore .main }, .main, ?_, ?_⟩
    · simp only [Queues.dispatch, hready, hmain]
    · exact h.context_switch hnobody hmain (by simp [hready]) h.ready_nodup (h.not_queued (.inr hgone)).2
        (fun block hmain => by cases hmain) (fun _ => hready)
  | cons next rest =>
    have hplace : place next = .ready := by
      rw [← h.mem_ready, hready]
      exact List.mem_cons_self
    obtain ⟨hnot, hrest⟩ := List.nodup_cons.mp (hready ▸ h.ready_nodup)
    refine ⟨{ a with toCore := uthread.context_switch a.toCore next, ready := rest }, next, ?_, ?_⟩
    · simp only [Queues.dispatch, hready]
    · apply h.context_switch hnobody hmain _ hrest
      · intro sync
        rw [h.mem_blocked, hplace]
        simp
      · intro block heq
        rw [h.live, heq, hplace]
        simp
      · intro heq
        exact absurd (heq ▸ hready ▸ List.mem_cons_self) h.not_main_ready
      · intro x
        rw [hready, List.mem_cons]
        constructor
        · exact fun hx => ⟨fun heq => hnot (heq ▸ hx), .inr hx⟩
        · exact fun hx => hx.2.resolve_left hx.1

end oslabs.uthread
