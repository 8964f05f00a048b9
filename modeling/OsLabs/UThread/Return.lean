import Mathlib.Data.Set.Card
import OsLabs.UThread.Runs

open oslabs.ring oslabs.list oslabs.loop oslabs.run

namespace oslabs.uthread

variable {E S : Type} {s : State E S} {a : Queues E S} {place : Thread → Place E S}

/-- The threads that a wait block in some waiters list names. -/
def Queues.blockedThreads (a : Queues E S) : Set Thread :=
  {t | ∃ sync, ∃ wblock ∈ a.waiters sync, a.wblock_thread wblock = t}

/-- The library's globals as `ut_init` finds and leaves them at the start. -/
structure JustInitialised (s : State E S) : Prop where
  ready_queue : Ring s.links .ready_queue []
  number_of_threads : s.number_of_threads = 0
  running_thread : s.running_thread = none
  main_thread : s.main_thread = none

theorem Queues.mem_blockedThreads_iff {t : Thread} :
    t ∈ a.blockedThreads ↔ ∃ sync, t ∈ a.blocked sync := by
  simp [Queues.blockedThreads, Queues.blocked]

/-- When the main thread is back, every thread left is blocked. -/
theorem Located.blockedThreads_eq (h : Located a place) (hback : a.running_thread = some .main) :
    a.blockedThreads = Thread.user '' (a.live : Set Nat) := by
  ext t
  rw [Queues.mem_blockedThreads_iff]
  constructor
  · rintro ⟨sync, hmem⟩
    cases t with
    | main => exact absurd hmem (h.not_main_blocked sync)
    | user block =>
      refine ⟨block, ?_, rfl⟩
      rw [Finset.mem_coe, h.live, (h.mem_blocked sync _).mp hmem]
      simp
  · rintro ⟨block, hlive, rfl⟩
    rw [Finset.mem_coe, h.live] at hlive
    cases hplace : place (.user block) with
    | gone => exact absurd hplace hlive
    | running =>
      rw [h.running, hback] at hplace
      cases hplace
    | ready =>
      rw [← h.mem_ready, h.idle hback] at hplace
      cases hplace
    | blocked sync => exact ⟨sync, (h.mem_blocked sync _).mpr hplace⟩

theorem Located.count_blocked (h : Located a place) (hback : a.running_thread = some .main) :
    a.number_of_threads.toNat = a.blockedThreads.ncard := by
  rw [h.count, h.blockedThreads_eq hback, Set.ncard_image_of_injective, Set.ncard_coe_finset]
  intro block other heq
  exact Thread.user.inj heq

theorem Located.blockedThreads_empty_iff (h : Located a place)
    (hback : a.running_thread = some .main) : a.blockedThreads = ∅ ↔ a.live = ∅ := by
  rw [h.blockedThreads_eq hback, Set.image_eq_empty, Finset.coe_eq_empty]

theorem Queues.blockedThreads_eq_empty_iff : a.blockedThreads = ∅ ↔ ∀ sync, a.waiters sync = [] := by
  simp only [Set.eq_empty_iff_forall_notMem, Queues.mem_blockedThreads_iff, not_exists]
  constructor
  · intro h sync
    refine List.eq_nil_iff_forall_not_mem.mpr fun wblock hmem => ?_
    exact h _ sync (mem_blocked_of_mem_waiters hmem)
  · intro h t sync
    simp [Queues.blocked, h sync]

variable [DecidableEq E] [DecidableEq S]

/-- `ut_init` on zeroed globals. -/
theorem ut_init_justInitialised (hnumber : s.number_of_threads = 0) (hrunning : s.running_thread = none)
    (hmain : s.main_thread = none) : JustInitialised (ut_init s) where
  ready_queue := init_list_head_ring s.links .ready_queue
  number_of_threads := hnumber
  running_thread := hrunning
  main_thread := hmain

/-- The assertions at the end of `ut_run` hold when all threads have exited. -/
theorem Located.ut_run_resumed_iff (h : Located a place)
    (href : Refines s a) (hback : s.running_thread = some .main) :
    (∃ s', ut_run_resumed s = some s') ↔ a.live = ∅ := by
  have hback' : a.running_thread = some .main := by rw [← hback, href.core]
  have hempty := href.is_list_empty_ready.mpr (h.idle hback')
  have hcount : s.number_of_threads = 0 ↔ a.live = ∅ := by
    rw [show s.number_of_threads = a.number_of_threads by rw [href.core], ← Finset.card_eq_zero,
      ← h.count]
    exact ⟨fun hzero => by simp [hzero], fun hzero => UInt32.toNat_inj.mp hzero⟩
  rw [← hcount]
  simp only [ut_run_resumed, hempty, if_true]
  by_cases hzero : s.number_of_threads = 0
  · simp [hzero]
  · simp [hzero]

/-- What `ut_run` leaves when its assertions hold. -/
theorem ut_run_resumed_justInitialised {s' : State E S} (hready : Ring s.links .ready_queue [])
    (hresumed : ut_run_resumed s = some s') : JustInitialised s' := by
  simp only [ut_run_resumed] at hresumed
  split at hresumed
  · split at hresumed
    · rename_i hcount
      rw [← Option.some.inj hresumed]
      exact ⟨hready, hcount, rfl, rfl⟩
    · cases hresumed
  · cases hresumed

/-- Each time control is back in `ut_run`, the ready queue is empty and the
    threads counted are those blocked. The assertions hold, and `ut_run` leaves
    the globals as they were at the start, exactly when no thread is blocked,
    which is when all user threads have exited. -/
theorem ut_run_return {s₀ s : State E S} {calls : List (Call E S)} (hinitial : Initial s₀)
    (hrun : Run Step s₀ calls s) (hback : s.running_thread = some .main) :
    ∃ a : Queues E S, s.toCore = a.toCore ∧ Rings s.links sentinel a.entries ∧
      a.ready = [] ∧ is_list_empty s.links .ready_queue = true ∧
      s.number_of_threads.toNat = a.blockedThreads.ncard ∧
      ((∃ s', ut_run_resumed s = some s') ↔ ∀ sync, a.waiters sync = []) ∧
      (s.live = ∅ ↔ ∀ sync, a.waiters sync = []) ∧
      ∀ s', ut_run_resumed s = some s' → JustInitialised s' ∧ Allowed s'.toCore .ut_run := by
  obtain ⟨a, place, _, href, hlocated⟩ := run_refines hinitial hrun
  have hcore := href.core
  have hback' : a.running_thread = some .main := by rw [← hback, hcore]
  have hready := hlocated.idle hback'
  have hnobody : a.live = ∅ ↔ ∀ sync, a.waiters sync = [] := by
    rw [← hlocated.blockedThreads_empty_iff hback', Queues.blockedThreads_eq_empty_iff]
  refine ⟨a, hcore, href.rings, hready, href.is_list_empty_ready.mpr hready, ?_, ?_, ?_, ?_⟩
  · rw [show s.number_of_threads = a.number_of_threads by rw [hcore]]
    exact hlocated.count_blocked hback'
  · rw [hlocated.ut_run_resumed_iff href hback, hnobody]
  · rw [show s.live = a.live by rw [hcore], hnobody]
  · intro s' hresumed
    have hring : Ring s.links .ready_queue [] := by
      have hnone := href.rings.each none
      simpa [Queues.entries, hready, sentinel] using hnone
    have hinit := ut_run_resumed_justInitialised hring hresumed
    exact ⟨hinit, hinit.running_thread⟩

/-- A thread is created and started, and exits. -/
theorem ut_run_return_exited : ∃ s : State Unit Unit,
    Run Step (booted fun _ => ⟨0, 1⟩) [.ut_create 1 4096, .ut_run, .ut_exit] s ∧
      s.running_thread = some .main ∧
      ∃ a : Queues Unit Unit, s.toCore = a.toCore ∧ Rings s.links sentinel a.entries ∧
        a.ready = [] ∧ is_list_empty s.links .ready_queue = true ∧
        s.number_of_threads.toNat = a.blockedThreads.ncard ∧
        ((∃ s', ut_run_resumed s = some s') ↔ ∀ sync, a.waiters sync = []) ∧
        (s.live = ∅ ↔ ∀ sync, a.waiters sync = []) ∧
        ∀ s', ut_run_resumed s = some s' → JustInitialised s' ∧ Allowed s'.toCore .ut_run := by
  have hexit : Step (started fun _ => ⟨0, 1⟩ : State Unit Unit) .ut_exit _ := ⟨⟨1, rfl⟩, 0, rfl⟩
  have hrun := (run_started _).snoc hexit
  exact ⟨_, hrun, rfl, ut_run_return (booted_initial _) hrun rfl⟩

end oslabs.uthread
