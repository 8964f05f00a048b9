import Mathlib.Data.Finset.Insert
import OsLabs.Scheduling.Model
import OsLabs.UThread.Dispatch

open oslabs.ring oslabs.roundrobin oslabs.run
open oslabs.uthread (Thread Obs Rotated)

namespace oslabs.scheduling

section List

variable {α : Type*} [DecidableEq α] {m : Links α} {a e : α} {entries : List α}

theorem is_list_empty_iff (h : Ring m a entries) : is_list_empty m a = true ↔ entries = [] := by
  simp only [is_list_empty, decide_eq_true_eq]
  exact h.next_head_eq_self_iff

/-- On a ring the first entry has the sentinel before it, and the last one has the
    sentinel behind it. So both operations do what those of the other list do. -/
theorem remove_head_list_ring (h : Ring m a (e :: entries)) :
    (remove_head_list m a).1 = e ∧ Ring (remove_head_list m a).2 a entries := by
  have hfirst : m.next a = e := by rw [h.next_head, List.headD_cons]
  refine ⟨hfirst, ?_⟩
  have hbypass := Ring.bypass (u := []) h
  rw [← h.next_entry (u := [])] at hbypass
  simp only [remove_head_list, hfirst]
  exact hbypass

theorem insert_tail_list_ring (h : Ring m a entries) (hnew : e ∉ a :: entries) :
    Ring (insert_tail_list m a e) a (entries ++ [e]) := by
  have hlast : m.prev a = entries.getLastD a := by
    rw [h.prev_head, List.headD_eq_head?_getD, List.head?_reverse, List.getLastD_eq_getLast?]
  have hlink := Ring.link (u := entries) (w := []) (by simpa using h) (by simpa using hnew)
  rw [← hlast] at hlink
  exact hlink

end List

/-- The scheduler with its ready queue as a sequence of threads. -/
structure Queue extends Core where
  ready : List Thread

/-- Switch to the first ready thread, or to the main thread when there is none. -/
def Queue.dispatch (a : Queue) : Option Queue :=
  match a.ready with
  | next :: rest => some { a with toCore := context_switch a.toCore next, ready := rest }
  | [] =>
    match a.main_thread with
    | some next => some { a with toCore := context_switch a.toCore next }
    | none => none

theorem Queue.eq_of_dispatch {a b : Queue} (hdispatch : a.dispatch = some b)
    (hmain : a.main_thread = some .main) :
    b = { a with toCore := context_switch a.toCore (a.ready.headD .main), ready := a.ready.tail } := by
  cases hready : a.ready with
  | nil =>
    simp only [Queue.dispatch, hready, hmain] at hdispatch
    simp [← Option.some.inj hdispatch]
  | cons next rest =>
    simp only [Queue.dispatch, hready] at hdispatch
    simp [← Option.some.inj hdispatch]

/-- Make a thread ready behind all others. -/
def Queue.insert (a : Queue) (thread : Thread) : Queue :=
  { a with ready := a.ready ++ [thread], trace := a.trace ++ [.ready thread] }

/-- What each call does to the queue. -/
def Queue.perform (a : Queue) : Call → Option Queue
  | .ut_create block => some ({ a with live := Insert.insert block a.live }.insert (.user block))
  | .ut_run => { a with main_thread := some .main, running_thread := some .main }.dispatch
  | .ut_yield =>
    if a.ready = [] then some a
    else do
      let curr ← a.running_thread
      (a.insert curr).dispatch
  | .ut_exit => do
    let curr ← a.running_thread
    let a ← a.dispatch
    let core ← cleanup_thread a.toCore curr
    some { a with toCore := core }

variable {s s₀ s' : State} {a next : Queue} {call : Call} {past : List (Obs Empty)}
  {start : List Thread}

/-- The links in memory spell out the queue, and all else agrees. -/
structure Refines (s : State) (a : Queue) : Prop where
  core : s.toCore = a.toCore
  ring : Ring s.links .ready_queue (a.ready.map .thread)

/-- Every thread in use runs or is ready, never both, and is ready once. Since the
    trace was `past` and the queue `start`, it has been served round robin. -/
structure Rotating (past : List (Obs Empty)) (start : List Thread) (a : Queue) : Prop where
  nodup : a.ready.Nodup
  live : ∀ block, block ∈ a.live ↔ .user block ∈ a.ready ∨ a.running_thread = some (.user block)
  main : .main ∉ a.ready
  running : ∀ t, a.running_thread = some t → t ∉ a.ready
  main_thread : ∀ block, a.running_thread = some (.user block) → a.main_thread = some .main
  rotated : Rotated past start a.trace a.ready

theorem Refines.is_list_empty (h : Refines s a) :
    is_list_empty s.links .ready_queue = true ↔ a.ready = [] := by
  rw [is_list_empty_iff h.ring, List.map_eq_nil_iff]

theorem Refines.insert_ready (h : Refines s a) {thread : Thread} (hnot : thread ∉ a.ready) :
    Ring (insert_tail_list s.links .ready_queue (.thread thread)) .ready_queue
      ((a.insert thread).ready.map .thread) := by
  have hinsert := insert_tail_list_ring h.ring (e := .thread thread) (by simpa using hnot)
  simpa [Queue.insert] using hinsert

/-- `schedule` switches to the thread at the head of the ready queue. -/
theorem Refines.schedule (h : Refines s a) : Option.Rel Refines (schedule s) a.dispatch := by
  cases hready : a.ready with
  | nil =>
    have hempty := h.is_list_empty.mpr hready
    have hmain : s.main_thread = a.main_thread := congrArg Core.main_thread h.core
    cases hcase : a.main_thread with
    | none =>
      simp only [scheduling.schedule, extract_next_ready_thread, Queue.dispatch, hempty, hready,
        hmain, hcase]
      exact .none
    | some next =>
      simp only [scheduling.schedule, extract_next_ready_thread, Queue.dispatch, hempty, hready,
        hmain, hcase]
      exact .some ⟨by rw [h.core], hready ▸ h.ring⟩
  | cons next rest =>
    have hempty : scheduling.is_list_empty s.links .ready_queue = false := by
      rw [Bool.eq_false_iff, ne_eq, h.is_list_empty, hready]
      simp
    have hring := h.ring
    rw [hready, List.map_cons] at hring
    obtain ⟨hfirst, hrest⟩ := remove_head_list_ring hring
    simp only [scheduling.schedule, extract_next_ready_thread, Queue.dispatch, hempty, hready, hfirst,
      container_of]
    exact .some ⟨by rw [h.core], hrest⟩

/-- `ut_exit` schedules the next thread and frees the old one behind its back. -/
theorem ut_exit_eq (s : State) :
    ut_exit s = (do
      let curr ← s.running_thread
      let next ← schedule s
      let core ← cleanup_thread next.toCore curr
      some { next with toCore := core }) := by
  simp only [ut_exit, scheduling.schedule, internal_exit, Option.bind_eq_bind, Option.bind_assoc,
    Option.bind_some]

/-- All threads in use are ready, so that one of them can be dispatched. -/
structure Lined (past : List (Obs Empty)) (start : List Thread) (a : Queue) : Prop where
  nodup : a.ready.Nodup
  live : ∀ block, block ∈ a.live ↔ .user block ∈ a.ready
  main : .main ∉ a.ready
  main_thread : a.main_thread = some .main
  rotated : Rotated past start a.trace a.ready

/-- A dispatch takes the head of the queue, or goes idle when there is none. -/
theorem Lined.dispatch (h : Lined past start a) :
    ∃ next, a.dispatch = some next ∧ Rotating past start next := by
  have hnodup := h.nodup
  have hlive := h.live
  have hrotated := h.rotated
  have hmain := h.main
  cases hready : a.ready with
  | nil =>
    rw [hready] at hlive hrotated
    refine ⟨{ a with toCore := context_switch a.toCore .main }, ?_, ?_⟩
    · simp only [Queue.dispatch, hready, h.main_thread]
    · refine ⟨hnodup, ?_, hmain, ?_, ?_, ?_⟩
      · simp [context_switch, hlive, hready]
      · simp [hready]
      · simp [context_switch]
      · simpa [context_switch, hready] using hrotated.idle
  | cons first rest =>
    rw [hready] at hnodup hlive hrotated hmain
    obtain ⟨hfirst, hrest⟩ := List.nodup_cons.mp hnodup
    refine ⟨{ a with toCore := context_switch a.toCore first, ready := rest }, ?_, ?_⟩
    · simp only [Queue.dispatch, hready]
    · refine ⟨hrest, ?_, fun hmem => hmain (List.mem_cons_of_mem _ hmem), ?_, ?_, ?_⟩
      · intro block
        simp [context_switch, hlive, or_comm, eq_comm]
      · simpa [context_switch] using hfirst
      · simp [context_switch, h.main_thread]
      · cases first with
        | main => exact absurd List.mem_cons_self hmain
        | user block => exact hrotated.take

/-- A thread that is not ready joins the queue once. -/
theorem Rotating.insert (h : Rotating past start a) {t : Thread} (hnot : t ∉ a.ready) :
    (a.ready ++ [t]).Nodup ∧ Rotated past start (a.trace ++ [.ready t]) (a.ready ++ [t]) := by
  have hnodup : (a.ready ++ [t]).Nodup := by
    rw [List.nodup_append_comm, List.singleton_append]
    exact List.nodup_cons.mpr ⟨hnot, h.nodup⟩
  exact ⟨hnodup, h.rotated.insert_all hnodup⟩

/-- Dispatching neither reads nor changes the set of blocks in use. -/
theorem Queue.dispatch_live (a : Queue) (live : Finset Nat) :
    { a with live }.dispatch = a.dispatch.map fun next => { next with live } := by
  cases hready : a.ready with
  | nil => cases hmain : a.main_thread <;> simp [Queue.dispatch, hready, hmain, context_switch]
  | cons next rest => simp [Queue.dispatch, hready, context_switch]

theorem Queue.live_of_dispatch (h : a.dispatch = some next) : next.live = a.live := by
  have hmap := a.dispatch_live a.live
  rw [h, Option.map_some, Option.some.injEq] at hmap
  rw [hmap]

theorem Queue.perform_ut_exit {block : Nat} (hrunning : a.running_thread = some (.user block)) :
    a.perform .ut_exit = { a with live := a.live.erase block }.dispatch := by
  rw [Queue.dispatch_live, Queue.perform, hrunning]
  cases hdispatch : a.dispatch with
  | none => simp
  | some next => simp [cleanup_thread, Queue.live_of_dispatch hdispatch]

theorem Queue.perform_ut_yield {block : Nat} (hrunning : a.running_thread = some (.user block))
    (hready : a.ready ≠ []) : a.perform .ut_yield = (a.insert (.user block)).dispatch := by
  simp [Queue.perform, hready, hrunning]

/-- Every call keeps the queue rotating. -/
theorem Rotating.perform (h : Rotating past start a) (hallowed : Allowed a.toCore call) :
    ∃ next, a.perform call = some next ∧ Rotating past start next := by
  cases call with
  | ut_create block =>
    have hfresh : block ∉ a.live := hallowed
    rw [h.live, not_or] at hfresh
    obtain ⟨hnodup, hrotated⟩ := h.insert hfresh.1
    refine ⟨_, rfl, hnodup, ?_, ?_, ?_, h.main_thread, hrotated⟩
    · intro other
      simp only [Queue.insert, Finset.mem_insert, h.live, List.mem_append, List.mem_singleton,
        Thread.user.injEq]
      tauto
    · simpa [Queue.insert] using h.main
    · intro t hrunning hmem
      rcases List.mem_append.mp hmem with hmem | hmem
      · exact h.running t hrunning hmem
      · exact hfresh.2 (List.mem_singleton.mp hmem ▸ hrunning)
  | ut_run =>
    have hnot : ∀ block, a.running_thread ≠ some (.user block) := by
      rintro block hrunning
      rcases hallowed with hnone | hmain <;> simp_all
    have hlined : Lined past start { a with main_thread := some .main, running_thread := some .main } :=
      ⟨h.nodup, fun block => by simp [h.live, hnot], h.main, rfl, h.rotated⟩
    exact hlined.dispatch
  | ut_yield =>
    obtain ⟨block, hrunning⟩ := hallowed
    by_cases hready : a.ready = []
    · exact ⟨a, by simp [Queue.perform, hready], h⟩
    · rw [Queue.perform_ut_yield hrunning hready]
      obtain ⟨hnodup, hrotated⟩ := h.insert (h.running _ hrunning)
      have hlined : Lined past start (a.insert (.user block)) := by
        refine ⟨hnodup, fun other => ?_, ?_, h.main_thread block hrunning, hrotated⟩
        · simp [Queue.insert, h.live, hrunning, eq_comm]
        · simpa [Queue.insert] using h.main
      exact hlined.dispatch
  | ut_exit =>
    obtain ⟨block, hrunning⟩ := hallowed
    rw [Queue.perform_ut_exit hrunning]
    have hlined : Lined past start { a with live := a.live.erase block } := by
      refine ⟨h.nodup, fun other => ?_, h.main, h.main_thread block hrunning, h.rotated⟩
      rw [Finset.mem_erase, h.live, hrunning]
      constructor
      · rintro ⟨hne, hmem | heq⟩
        · exact hmem
        · simp only [Option.some.injEq, Thread.user.injEq] at heq
          exact absurd heq.symm hne
      · intro hmem
        refine ⟨?_, .inl hmem⟩
        rintro rfl
        exact h.running _ hrunning hmem
    exact hlined.dispatch

/-- Every call does to the list in memory what it does to the queue. -/
theorem Refines.perform (h : Refines s a) (hrotating : Rotating past start a) (hallowed : Allowed s.toCore call)
    (hperform : a.perform call = some next) : ∃ s', perform s call = some s' ∧ Refines s' next := by
  have hrel : ∀ {t : State} {b : Queue}, Refines t b → b.dispatch = some next →
      ∃ t', scheduling.schedule t = some t' ∧ Refines t' next := by
    intro t b href hdispatch
    have hschedule := href.schedule
    rw [hdispatch] at hschedule
    generalize scheduling.schedule t = result at hschedule
    cases hschedule with
    | some href' => exact ⟨_, rfl, href'⟩
  have hallowed' : Allowed a.toCore call := h.core ▸ hallowed
  obtain ⟨core, links⟩ := s
  obtain rfl : core = a.toCore := h.core
  clear hallowed
  cases call with
  | ut_create block =>
    have hfresh : block ∉ a.live := hallowed'
    rw [hrotating.live, not_or] at hfresh
    obtain rfl := Option.some.inj hperform
    exact ⟨_, rfl, rfl, h.insert_ready hfresh.1⟩
  | ut_run =>
    have hstart : Refines
        ⟨{ a.toCore with main_thread := some .main, running_thread := some .main }, links⟩
        { a with main_thread := some .main, running_thread := some .main } := ⟨rfl, h.ring⟩
    exact hrel hstart hperform
  | ut_yield =>
    obtain ⟨block, hrunning⟩ := hallowed'
    have hempty := h.is_list_empty
    by_cases hready : a.ready = []
    · obtain rfl : a = next := by simpa [Queue.perform, hready] using hperform
      exact ⟨_, by simp [scheduling.perform, ut_yield, hempty, hready], h⟩
    · rw [Queue.perform_ut_yield hrunning hready] at hperform
      have hinsert : Refines ⟨{ a.toCore with trace := a.trace ++ [.ready (.user block)] },
          insert_tail_list links .ready_queue (.thread (.user block))⟩ (a.insert (.user block)) :=
        ⟨rfl, h.insert_ready (hrotating.running _ hrunning)⟩
      obtain ⟨s', hschedule, href⟩ := hrel hinsert hperform
      refine ⟨s', ?_, href⟩
      simpa [scheduling.perform, ut_yield, hempty, hready, hrunning] using hschedule
  | ut_exit =>
    obtain ⟨block, hrunning⟩ := hallowed'
    rw [Queue.perform, hrunning] at hperform
    cases hdispatch : a.dispatch with
    | none => simp [hdispatch] at hperform
    | some after =>
      simp only [hdispatch, Option.bind_eq_bind, Option.bind_some, cleanup_thread] at hperform
      obtain rfl := Option.some.inj hperform
      have hschedule := h.schedule
      rw [hdispatch] at hschedule
      generalize hresult : scheduling.schedule _ = result at hschedule
      cases hschedule with
      | @some switched _ href =>
        refine ⟨⟨{ after.toCore with live := after.live.erase block }, switched.links⟩, ?_, rfl, href.ring⟩
        simp only [scheduling.perform, ut_exit_eq, hrunning, hresult, Option.bind_eq_bind,
          Option.bind_some, cleanup_thread, href.core]

/-- One step in memory is one step on the queue, and no call goes wrong. -/
theorem Refines.step (h : Refines s a) (hrotating : Rotating past start a) (hstep : Step s call s') :
    ∃ a', a.perform call = some a' ∧ Refines s' a' ∧ Rotating past start a' := by
  obtain ⟨hallowed, hperform⟩ := hstep
  obtain ⟨a', ha', hrotating'⟩ := hrotating.perform (h.core ▸ hallowed)
  obtain ⟨t, ht, href⟩ := h.perform hrotating hallowed ha'
  obtain rfl := Option.some.inj (hperform.symm.trans ht)
  exact ⟨a', ha', href, hrotating'⟩

/-- The history may start anew at any moment. -/
theorem Rotating.restart (h : Rotating past start a) : Rotating a.trace a.ready a :=
  { h with rotated := Rotated.refl _ _ }

theorem Initial.refines (h : Initial s) : Refines s { s.toCore with ready := [] } :=
  ⟨rfl, h.ready_queue⟩

theorem Initial.rotating (h : Initial s) : Rotating [] [] { s.toCore with ready := [] } where
  nodup := List.nodup_nil
  live block := by simp [h.live, h.running_thread]
  main := List.not_mem_nil
  running t _ := List.not_mem_nil
  main_thread block hrunning := by simp [h.running_thread] at hrunning
  rotated := by
    rw [h.trace]
    exact Rotated.refl [] []

/-- Along every run the links in memory spell out a queue served round robin. -/
theorem Refines.run_rotating {calls : List Call} (href : Refines s a) (hrotating : Rotating past start a)
    (hrun : Run Step s calls s') : ∃ a', Refines s' a' ∧ Rotating past start a' := by
  apply hrun.invariant (fun s => ∃ a, Refines s a ∧ Rotating past start a) ⟨a, href, hrotating⟩
  rintro s call s' ⟨a, href, hrotating⟩ hstep
  obtain ⟨a', _, href', hrotating'⟩ := href.step hrotating hstep
  exact ⟨a', href', hrotating'⟩

/-- A memory just initialised. -/
def booted : State where
  running_thread := none
  main_thread := none
  live := ∅
  trace := []
  links := { next := id, prev := id }

theorem booted_initial : Initial booted where
  ready_queue := ring_nil_iff.mpr ⟨rfl, rfl⟩
  running_thread := rfl
  main_thread := rfl
  live := rfl
  trace := rfl

end oslabs.scheduling
