import OsLabs.UThread.Invariant

namespace oslabs.uthread

variable {E S : Type} {a a' : Queues E S} {place place' : Thread → Place E S}

/-- The same threads run under both placements. -/
def SameRunning (place place' : Thread → Place E S) : Prop :=
  ∀ t, place' t = .running ↔ place t = .running

theorem SameRunning.trans {middle : Thread → Place E S} (h : SameRunning place middle)
    (h' : SameRunning middle place') : SameRunning place place' :=
  fun t => (h' t).trans (h t)

/-- What the running thread does without being switched out keeps all threads
    placed, as long as it leaves the running and the main thread alone. -/
theorem Located.keep (h : Located a place) {block : Nat}
    (hrunning : a.running_thread = some (.user block)) (hqueued : Queued a' place')
    (hsame : SameRunning place place') (hrunning' : a'.running_thread = a.running_thread)
    (hmain : a'.main_thread = a.main_thread) : Located a' place' where
  toQueued := hqueued
  running t := by rw [hsame, hrunning', h.running]
  main_thread := by rw [hmain, hrunning', h.main_thread]
  idle hidle := by
    rw [hrunning', hrunning] at hidle
    cases hidle

theorem Located.main_of_running (h : Located a place) {t : Thread}
    (hrunning : a.running_thread = some t) : a.main_thread = some .main := by
  rw [h.main_thread, hrunning]
  rfl

/-- Once the running thread has found another place, nobody is in hand. -/
theorem Located.nobody (h : Located a place) {t : Thread} (hrunning : a.running_thread = some t)
    {p : Place E S} (hp : p ≠ .running) (u : Thread) : Function.update place t p u ≠ .running := by
  by_cases heq : u = t
  · rwa [heq, Function.update_self]
  · rw [Function.update_of_ne heq, ne_eq, h.running, hrunning]
    simpa using Ne.symm heq

/-- A thread that is switched out at its new place makes way for the next one. -/
theorem Located.switch (h : Located a place) {t : Thread} {p : Place E S}
    (hrunning : a.running_thread = some t) (hp : p ≠ .running)
    (hqueued : Queued a' (Function.update place t p)) (hmain : a'.main_thread = a.main_thread) :
    ∃ next place', a'.dispatch = some next ∧ Located next place' := by
  obtain ⟨next, u, hdispatch, hlocated⟩ := hqueued.dispatch (h.nobody hrunning hp)
    (hmain.trans (h.main_of_running hrunning))
  exact ⟨next, _, hdispatch, hlocated⟩

theorem Queued.wake_sameRunning (h : Queued a place) {sync : Sync E S} {wblock : Nat}
    {rest : List Nat} (hwaiters : a.waiters sync = wblock :: rest) :
    SameRunning place (Function.update place (a.wblock_thread wblock) .ready) := by
  intro t
  by_cases heq : t = a.wblock_thread wblock
  · have hplace : place (a.wblock_thread wblock) = .blocked sync := by
      rw [← h.mem_blocked]
      exact mem_blocked_of_mem_waiters (hwaiters ▸ List.mem_cons_self)
    simp [heq, hplace]
  · rw [Function.update_of_ne heq]

variable [DecidableEq E] [DecidableEq S]

/-- Waking all waiters of an object moves them to the ready queue, one by one. -/
theorem Queued.wakeAll (h : Queued a place) (sync : Sync E S) :
    ∃ place', Queued (a.wakeAll sync) place' ∧ SameRunning place place' := by
  generalize hlength : a.waiters sync = queue
  induction queue generalizing a place with
  | nil =>
    rw [Queues.wakeAll_nil hlength]
    exact ⟨place, h, fun _ => Iff.rfl⟩
  | cons wblock rest ih =>
    have hrest : (a.wake sync).waiters sync = rest := by
      simp [Queues.wake, hlength]
    obtain ⟨place', hqueued, hsame⟩ := ih (h.wake hlength) hrest
    rw [Queues.wakeAll_wake] at hqueued
    exact ⟨place', hqueued, (h.wake_sameRunning hlength).trans hsame⟩

/-- Granting the first request of a semaphore wakes its thread. -/
theorem Queued.grant (h : Queued a place) {sem : S} {wblock : Nat} {rest : List Nat}
    (hwaiters : a.waiters (.sem sem) = wblock :: rest) :
    Queued (a.grant sem) (Function.update place (a.wblock_thread wblock) .ready) := by
  have htaken : Queued { a with
      toCore := take_units a.toCore sem (a.wblock_thread wblock) (a.wblock_units wblock) } place :=
    h.congr
  simp only [Queues.grant, hwaiters]
  exact htaken.wake hwaiters

theorem Queued.release (h : Queued a place) (sem : S) :
    ∃ place', Queued (a.release sem) place' ∧ SameRunning place place' := by
  apply Queues.release_induction
    (P := fun a b => ∀ place, Queued a place → ∃ place', Queued b place' ∧ SameRunning place place')
  · intro a _ place h
    exact ⟨place, h, fun _ => Iff.rfl⟩
  · intro a wblock rest hwaiters _ _ ih place h
    obtain ⟨place', hqueued, hsame⟩ := ih _ (h.grant hwaiters)
    exact ⟨place', hqueued, (h.wake_sameRunning hwaiters).trans hsame⟩
  · exact h

theorem Queues.release_running (a : Queues E S) (sem : S) :
    (a.release sem).running_thread = a.running_thread ∧
      (a.release sem).main_thread = a.main_thread := by
  apply Queues.release_induction
    (P := fun a b => b.running_thread = a.running_thread ∧ b.main_thread = a.main_thread)
  · exact fun _ _ => ⟨rfl, rfl⟩
  · intro a wblock rest hwaiters _ _ ih
    simpa [Queues.grant, Queues.wake, Queues.activate, hwaiters, take_units] using ih

/-- Blocking: the running thread sets up a wait block, queues it and makes way. -/
theorem Located.block (h : Located a place) {block wblock : Nat}
    (hrunning : a.running_thread = some (.user block)) (hfresh : ∀ t, a.frame t ≠ some wblock)
    (units : Nat → Int32) (trace : List (Obs S)) (sync : Sync E S) :
    ∃ next place', ({ a with
      wblock_thread := Function.update a.wblock_thread wblock (.user block)
      wblock_units := units
      frame := Function.update a.frame (.user block) (some wblock)
      trace := trace }.enqueue sync wblock).dispatch = some next ∧ Located next place' := by
  have hplace : place (.user block) = .running := (h.running _).mpr hrunning
  have hqueued : Queued { a with
      wblock_thread := Function.update a.wblock_thread wblock (.user block)
      wblock_units := units
      frame := Function.update a.frame (.user block) (some wblock)
      trace := trace } place :=
    (h.toQueued.init_waitblock hplace hfresh).congr
  have henqueued := hqueued.enqueue sync wblock block
    (by simp) hplace (by simp)
  exact h.switch hrunning (by simp) henqueued rfl

/-- Every call of a program keeps all threads placed. A call is undefined only
    where `ut_run` fails one of its assertions after `schedule` has returned. -/
theorem Located.perform (h : Located a place) {call : Call E S} (hallowed : Allowed a.toCore call) :
    (∃ next place', a.perform call = some next ∧ Located next place') ∨
      (a.perform call = none ∧ call = .ut_run_resumed) := by
  cases call with
  | ut_create block stack =>
    obtain ⟨hnotMain, hfresh⟩ := hallowed
    have hcreated := (h.toQueued.create hfresh).activate block (by simp)
    rw [Function.update_idem] at hcreated
    have hgone : place (.user block) = .gone := by
      by_contra hplace
      exact hfresh.block_fresh ((h.live block).mpr hplace)
    refine .inl ⟨_, _, rfl, hcreated, ?_, h.main_thread, ?_⟩
    · intro t
      by_cases heq : t = .user block
      · have hnot : a.running_thread ≠ some (.user block) := by
          rw [ne_eq, ← h.running, hgone]
          simp
        simpa [heq, Queues.activate] using hnot
      · rw [Function.update_of_ne heq]
        exact h.running t
    · intro hidle
      exact absurd hidle hnotMain
  | ut_run =>
    have hnone : a.running_thread = none := hallowed
    simp only [Queues.perform, hnone, if_true]
    by_cases hready : a.ready = []
    · rw [if_pos hready]
      exact .inl ⟨a, place, rfl, h⟩
    · rw [if_neg hready]
      have hqueued : Queued { a with main_thread := some .main, running_thread := some .main } place :=
        h.toQueued.congr
      obtain ⟨next, t, hdispatch, hlocated⟩ := hqueued.dispatch
        (fun t => by rw [ne_eq, h.running, hnone]; simp) rfl
      exact .inl ⟨next, _, hdispatch, hlocated⟩
  | ut_run_resumed =>
    have hrunning : a.running_thread = some .main := hallowed
    simp only [Queues.perform]
    split
    · have hplace := (h.running .main).mpr hrunning
      obtain ⟨hnot, hblocked⟩ := h.toQueued.not_queued (.inl hplace)
      refine .inl ⟨_, Function.update place .main .gone, rfl, ?_, ?_, rfl, by simp⟩
      · refine h.toQueued.move ?_ ?_ (by simp) (by simp) h.ready_nodup h.blocked_nodup h.frame
          h.stack h.count
        · intro x
          split
          · subst x
            simpa using hnot
          · rfl
        · intro sync x
          split
          · subst x
            simpa [Queues.blocked] using hblocked sync
          · rfl
      · intro t
        simpa using h.nobody hrunning (p := .gone) (by simp) t
    · exact .inr (by simp)
  | ut_yield =>
    obtain ⟨block, hrunning⟩ := hallowed
    by_cases hready : a.ready = []
    · exact .inl ⟨a, place, by simp [Queues.perform, hready], h⟩
    · rw [Queues.perform_ut_yield hrunning hready]
      have hactive := h.toQueued.activate block ((h.running _).mpr hrunning)
      exact .inl (h.switch hrunning (by simp) hactive rfl)
  | ut_exit =>
    obtain ⟨block, hrunning⟩ := hallowed
    rw [Queues.perform_ut_exit hrunning rfl]
    have hexit := h.toQueued.exit block ((h.running _).mpr hrunning)
    exact .inl (h.switch hrunning (by simp) hexit rfl)
  | event_wait event wblock =>
    obtain ⟨⟨block, hrunning⟩, hfresh⟩ := hallowed
    by_cases hsignaled : a.signaled event = false
    · rw [Queues.perform_event_wait hrunning wblock hsignaled]
      exact .inl (h.block hrunning hfresh _ _ _)
    · exact .inl ⟨a, place, by simp [Queues.perform, hsignaled], h⟩
  | event_set event =>
    obtain ⟨block, hrunning⟩ := hallowed
    have hqueued : Queued { a with signaled := Function.update a.signaled event true } place :=
      h.toQueued.congr
    obtain ⟨place', hwoken, hsame⟩ := hqueued.wakeAll (.event event)
    exact .inl ⟨_, place', rfl, h.keep hrunning hwoken hsame rfl rfl⟩
  | sem_wait sem units wblock =>
    obtain ⟨⟨block, hrunning⟩, hfresh⟩ := hallowed
    by_cases hfast : a.waiters (.sem sem) = [] ∧ (a.sem sem).units ≥ units
    · rw [Queues.perform_sem_wait_fast hrunning wblock hfast]
      exact .inl ⟨_, place, rfl, h.keep hrunning (h.toQueued.congr)
        (fun _ => Iff.rfl) rfl rfl⟩
    · rw [Queues.perform_sem_wait_slow hrunning wblock hfast]
      exact .inl (h.block hrunning hfresh _ _ _)
  | sem_post sem units =>
    obtain ⟨block, hrunning⟩ := hallowed
    have hqueued : Queued { a with toCore := add_units a.toCore sem units } place :=
      h.toQueued.congr
    obtain ⟨place', hreleased, hsame⟩ := hqueued.release sem
    obtain ⟨hrun, hmain⟩ := Queues.release_running { a with toCore := add_units a.toCore sem units } sem
    exact .inl ⟨_, place', rfl, h.keep hrunning hreleased hsame hrun hmain⟩

end oslabs.uthread
