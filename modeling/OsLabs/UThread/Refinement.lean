import Mathlib.Data.Option.Basic
import OsLabs.UThread.Queues

open oslabs.ring oslabs.list oslabs.loop

namespace oslabs.uthread

variable {E S : Type} [DecidableEq E] [DecidableEq S] {s s' : State E S} {a a' : Queues E S}

/-- The memory of the call found the thread's entry outside every list. -/
def NotLinked (links : Links (Entry E S)) (thread : Thread) : Prop :=
  ∃ entries, Rings links sentinel entries ∧ Unlinked sentinel entries (.thread thread)

/-- The links in memory spell out the queues, all else agrees, and every call of
    `ut_activate` so far was made on an entry that was in no list. -/
structure Refines (s : State E S) (a : Queues E S) : Prop where
  core : s.toCore = a.toCore
  rings : Rings s.links sentinel a.entries
  activations : ∀ activation ∈ s.activations, NotLinked activation.2 activation.1

omit [DecidableEq E] [DecidableEq S] in
/-- A memory spells out one state of the queues only. -/
theorem Refines.unique {b : Queues E S} (h : Refines s a) (h' : Refines s b) : a = b := by
  have hcore := h.core.symm.trans h'.core
  have hready := (h.rings.each none).entries_unique (h'.rings.each none)
  have hwaiters : a.waiters = b.waiters := by
    funext sync
    have hqueue := (h.rings.each (some sync)).entries_unique (h'.rings.each (some sync))
    exact List.map_injective_iff.mpr (fun _ _ heq => Entry.wblock.inj heq) hqueue
  obtain ⟨core, ready, waiters⟩ := a
  obtain ⟨core', ready', waiters'⟩ := b
  obtain rfl : core = core' := hcore
  obtain rfl : waiters = waiters' := hwaiters
  obtain rfl : ready = ready' :=
    List.map_injective_iff.mpr (fun _ _ heq => Entry.thread.inj heq) hready
  rfl

omit [DecidableEq E] [DecidableEq S] in
/-- Changes outside the lists are the same on both sides. -/
theorem Refines.set_core (h : Refines s a) (core : Core E S) :
    Refines { s with toCore := core } { a with toCore := core } :=
  ⟨rfl, h.rings, h.activations⟩

theorem Refines.is_list_empty_ready (h : Refines s a) :
    is_list_empty s.links .ready_queue = true ↔ a.ready = [] := by
  have hring := h.rings.each none
  rw [show (Entry.ready_queue : Entry E S) = sentinel none from rfl, is_list_empty_iff hring]
  simp [Queues.entries]

theorem Refines.is_list_empty_waiters (h : Refines s a) (sync : Sync E S) :
    is_list_empty s.links (.waiters sync) = true ↔ a.waiters sync = [] := by
  have hring := h.rings.each (some sync)
  rw [show (Entry.waiters sync : Entry E S) = sentinel (some sync) from rfl, is_list_empty_iff hring]
  simp [Queues.entries]

/-- Inserting the entry of a thread that is not ready makes it ready last. -/
theorem Refines.insert_ready (h : Refines s a) {thread : Thread} (hnot : thread ∉ a.ready) :
    Rings (insert_list_last s.links .ready_queue (.thread thread)) sentinel
      (a.activate thread).entries := by
  have hinsert := insert_list_last_rings h.rings none ((a.unlinked_thread_iff thread).mpr hnot)
  refine Queues.rings_of_ready (a := a) rfl ?_
  simpa [Queues.activate, Queues.entries, sentinel] using hinsert

theorem Refines.ut_activate (h : Refines s a) {thread : Thread} (hnot : thread ∉ a.ready) :
    Refines (ut_activate s thread) (a.activate thread) := by
  refine ⟨?_, h.insert_ready hnot, ?_⟩
  · simp [uthread.ut_activate, Queues.activate, h.core]
  · intro activation hmem
    simp only [uthread.ut_activate, List.mem_append, List.mem_singleton] at hmem
    rcases hmem with hold | rfl
    · exact h.activations activation hold
    · exact ⟨a.entries, h.rings, (a.unlinked_thread_iff thread).mpr hnot⟩

/-- Inserting the entry of a wait block that is in no queue queues it last. -/
theorem Refines.enqueue (h : Refines s a) (sync : Sync E S) {wblock : Nat}
    (hnot : ∀ other, wblock ∉ a.waiters other) :
    Refines { s with links := insert_list_last s.links (.waiters sync) (.wblock wblock) }
      (a.enqueue sync wblock) := by
  have hinsert := insert_list_last_rings h.rings (some sync) ((a.unlinked_wblock_iff wblock).mpr hnot)
  refine ⟨h.core, Queues.rings_of_waiters (a := a) rfl rfl ?_, h.activations⟩
  simpa [Queues.entries, sentinel] using hinsert

/-- Removing from the front of a waiters list yields its first wait block. -/
theorem Refines.remove_waiter (h : Refines s a) {sync : Sync E S} {wblock : Nat} {rest : List Nat}
    (hwaiters : a.waiters sync = wblock :: rest) :
    (remove_list_first s.links (.waiters sync)).1 = .wblock wblock ∧
      Refines { s with links := (remove_list_first s.links (.waiters sync)).2 }
        { a with waiters := Function.update a.waiters sync rest } := by
  obtain ⟨hfirst, hrings, _⟩ := remove_list_first_rings h.rings
    (show a.entries (some sync) = .wblock wblock :: rest.map .wblock by simp [Queues.entries, hwaiters])
  exact ⟨hfirst, h.core, Queues.rings_of_waiters (a := a) rfl rfl hrings, h.activations⟩

/-- `schedule` switches to the thread at the head of the ready queue. Both sides
    are undefined when there is neither a ready thread nor a main thread. -/
theorem Refines.schedule (h : Refines s a) :
    Option.Rel Refines (schedule s) a.dispatch := by
  cases hready : a.ready with
  | nil =>
    have hempty := h.is_list_empty_ready.mpr hready
    cases hmain : a.main_thread with
    | none =>
      have hmain' : s.main_thread = none := by rw [h.core, hmain]
      simp only [uthread.schedule, extract_next_thread, Queues.dispatch, hempty, hready, hmain, hmain']
      exact .none
    | some next =>
      have hmain' : s.main_thread = some next := by rw [h.core, hmain]
      simp only [uthread.schedule, extract_next_thread, Queues.dispatch, hempty, hready, hmain, hmain']
      have hsame : Function.update a.entries none [] = a.entries := by
        rw [Function.update_eq_self_iff]
        simp [Queues.entries, hready]
      have hrings : Rings s.links sentinel (Function.update a.entries none []) := by
        rw [hsame]
        exact h.rings
      exact .some ⟨by rw [h.core], Queues.rings_of_ready (a := a) rfl hrings, h.activations⟩
  | cons next rest =>
    have hempty : is_list_empty s.links .ready_queue = false := by
      rw [Bool.eq_false_iff, ne_eq, h.is_list_empty_ready, hready]
      simp
    obtain ⟨hfirst, hrings, _⟩ := remove_list_first_rings h.rings
      (show a.entries none = .thread next :: rest.map .thread by simp [Queues.entries, hready])
    simp only [sentinel] at hfirst hrings
    simp only [uthread.schedule, extract_next_thread, Queues.dispatch, hempty, hready, hfirst,
      container_of_thread]
    exact .some ⟨by rw [h.core], Queues.rings_of_ready (a := a) rfl hrings, h.activations⟩

end oslabs.uthread
