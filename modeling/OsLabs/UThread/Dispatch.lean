import OsLabs.Lib.RoundRobin
import OsLabs.UThread.Runs

open oslabs.ring oslabs.roundrobin oslabs.run

namespace oslabs.uthread

/-- What a run did with the ready queue. The main thread is in no queue, so that
    it is dispatched shows that the scheduler found nothing there. -/
def queueEvents {S : Type} (trace : List (Obs S)) : List (Event Thread) :=
  trace.filterMap fun
    | .ready t => some (.insert t)
    | .dispatch .main => some .idle
    | .dispatch (.user block) => some (.take (.user block))
    | _ => none

section Histories

variable {S : Type} (trace more : List (Obs S)) (t : Thread) (sem : S) (units : Int32) (block : Nat)

@[simp] theorem queueEvents_append : queueEvents (trace ++ more) = queueEvents trace ++ queueEvents more :=
  List.filterMap_append

@[simp] theorem queueEvents_nil : queueEvents ([] : List (Obs S)) = [] := rfl

@[simp] theorem queueEvents_cons_ready : queueEvents (.ready t :: trace) = .insert t :: queueEvents trace := rfl

@[simp] theorem queueEvents_cons_main :
    queueEvents (.dispatch .main :: trace) = .idle :: queueEvents trace := rfl

@[simp] theorem queueEvents_cons_user :
    queueEvents (.dispatch (.user block) :: trace) = .take (.user block) :: queueEvents trace := rfl

@[simp] theorem queueEvents_cons_request : queueEvents (.request sem t units :: trace) = queueEvents trace := rfl

@[simp] theorem queueEvents_cons_grant : queueEvents (.grant sem t units :: trace) = queueEvents trace := rfl

@[simp] theorem queueEvents_map_ready (ts : List Thread) :
    queueEvents (ts.map (Obs.ready (S := S))) = ts.map .insert := by
  induction ts with
  | nil => rfl
  | cons t ts ih => rw [List.map_cons, queueEvents_cons_ready, ih, List.map_cons]

end Histories

section Rotated

variable {S : Type} {past trace trace' : List (Obs S)} {start ready ready' : List Thread} {block : Nat}

/-- Since the trace was `past` and the ready queue `start`, the queue has been served
    round robin. -/
def Rotated (past : List (Obs S)) (start : List Thread) (trace : List (Obs S))
    (ready : List Thread) : Prop :=
  ∃ more, trace = past ++ more ∧ replay start (queueEvents more) = some ready

theorem Rotated.refl (trace : List (Obs S)) (ready : List Thread) : Rotated trace ready trace ready :=
  ⟨[], (List.append_nil _).symm, rfl⟩

/-- More events in the trace are more events of the queue. -/
theorem Rotated.extend (h : Rotated past start trace ready) (extra : List (Obs S))
    (htrace : trace' = trace ++ extra) (hready : replay ready (queueEvents extra) = some ready') :
    Rotated past start trace' ready' := by
  obtain ⟨more, hmore, hreplay⟩ := h
  refine ⟨more ++ extra, by rw [htrace, hmore, List.append_assoc], ?_⟩
  rw [queueEvents_append, replay_append, hreplay]
  exact hready

theorem replay_insert_all {ts queue : List Thread} (hnodup : (queue ++ ts).Nodup) :
    replay queue (ts.map .insert) = some (queue ++ ts) := by
  induction ts generalizing queue with
  | nil => simp [replay]
  | cons t ts ih =>
    have hnew : t ∉ queue := fun hmem =>
      List.disjoint_of_nodup_append hnodup hmem List.mem_cons_self
    rw [List.append_cons] at hnodup ⊢
    simp only [List.map_cons, replay, if_neg hnew]
    exact ih hnodup

theorem Rotated.insert_all (h : Rotated past start trace ready) {ts : List Thread}
    (hnodup : (ready ++ ts).Nodup) :
    Rotated past start (trace ++ ts.map .ready) (ready ++ ts) := by
  apply h.extend _ rfl
  rw [queueEvents_map_ready]
  exact replay_insert_all hnodup

theorem Rotated.take (h : Rotated past start trace (.user block :: ready)) :
    Rotated past start (trace ++ [.dispatch (.user block)]) ready := by
  apply h.extend _ rfl
  simp [replay]

theorem mem_of_mem_takes {t : Thread} (h : t ∈ takes (queueEvents trace)) : .dispatch t ∈ trace := by
  induction trace with
  | nil => cases h
  | cons obs trace ih =>
    rcases obs with t' | (_ | block) | _ | _
    case dispatch.user =>
      rw [queueEvents_cons_user, takes_cons_take, List.mem_cons] at h
      rcases h with rfl | h
      · exact List.mem_cons_self
      · exact List.mem_cons_of_mem _ (ih h)
    all_goals exact List.mem_cons_of_mem _ (ih h)

/-- Between the moment a thread becomes ready and its next dispatch, the threads that
    were ready before are dispatched, and no others. -/
theorem Rotated.takes_until_next {between after : List (Obs S)}
    (h : Rotated past start (past ++ .ready (.user block) :: (between ++ .dispatch (.user block) :: after)) ready)
    (hfirst : .dispatch (.user block) ∉ between) : takes (queueEvents between) = start := by
  obtain ⟨more, hmore, hreplay⟩ := h
  rw [← List.append_cancel_left hmore, queueEvents_cons_ready, queueEvents_append,
    queueEvents_cons_user] at hreplay
  exact roundrobin.takes_until_next hreplay fun hmem => hfirst (mem_of_mem_takes hmem)

/-- From the start on, everything is served in the order of its insertion. -/
theorem Rotated.inOrder (h : Rotated [] [] trace ready) :
    takes (queueEvents trace) ++ ready = insertions (queueEvents trace) ∧ InOrder (queueEvents trace) := by
  obtain ⟨more, hmore, hreplay⟩ := h
  rw [List.nil_append] at hmore
  subst hmore
  exact ⟨by simpa using takes_append_eq hreplay, inOrder_of_replay hreplay⟩

theorem Rotated.idle (h : Rotated past start trace []) :
    Rotated past start (trace ++ [.dispatch .main]) [] :=
  h.extend _ rfl rfl

end Rotated

variable {E S : Type} {a b next : Queues E S} {place : Thread → Place E S} {t : Thread}
  {past : List (Obs S)} {start : List Thread}

def Rotating (past : List (Obs S)) (start : List Thread) (a : Queues E S) : Prop :=
  Rotated past start a.trace a.ready

theorem Rotating.congr (h : Rotating past start a) (htrace : b.trace = a.trace := by rfl)
    (hready : b.ready = a.ready := by rfl) : Rotating past start b := by
  rw [Rotating, htrace, hready]
  exact h

theorem Rotating.activate (h : Rotating past start a) (hqueued : Queued a place) (hnew : t ∉ a.ready) :
    Rotating past start (a.activate t) := by
  have hnodup : (a.ready ++ [t]).Nodup := by
    rw [List.nodup_append_comm, List.singleton_append]
    exact List.nodup_cons.mpr ⟨hnew, hqueued.ready_nodup⟩
  exact Rotated.insert_all h hnodup

/-- A dispatch takes the head of the queue, or goes idle when there is none. -/
theorem Rotating.dispatch (hdispatch : a.dispatch = some next) (h : Rotating past start a)
    (hmain : a.main_thread = some .main) (hnot : .main ∉ a.ready) : Rotating past start next := by
  unfold Rotating at h
  cases hready : a.ready with
  | nil =>
    simp only [Queues.dispatch, hready, hmain] at hdispatch
    obtain rfl := Option.some.inj hdispatch
    rw [hready] at h
    simpa only [Rotating, context_switch_trace, hready] using h.idle
  | cons first rest =>
    simp only [Queues.dispatch, hready] at hdispatch
    obtain rfl := Option.some.inj hdispatch
    rw [hready] at h hnot
    cases first with
    | main => exact absurd List.mem_cons_self hnot
    | user block => exact h.take

variable [DecidableEq E] [DecidableEq S]

/-- Waking all waiters of an object inserts them in the order they came. -/
theorem Rotating.wakeAll (hqueued : Queued a place) (h : Rotating past start a) {sync : Sync E S} :
    Rotating past start (a.wakeAll sync) := by
  obtain ⟨_, hwoken, _⟩ := hqueued.wakeAll sync
  exact Rotated.insert_all h hwoken.ready_nodup

theorem Rotating.grant (h : Rotating past start a) {sem : S} {wblock : Nat} {rest : List Nat}
    (hqueued : Queued a place) (hwaiters : a.waiters (.sem sem) = wblock :: rest) :
    Rotating past start (a.grant sem) := by
  have hgranted := (hqueued.grant hwaiters).ready_nodup
  rw [a.ready_grant hwaiters] at hgranted
  have htaken := Rotated.extend h [.grant sem (a.wblock_thread wblock) (a.wblock_units wblock)] rfl rfl
  rw [Rotating, a.trace_grant hwaiters, a.ready_grant hwaiters]
  exact htaken.insert_all hgranted

theorem Rotating.release (hqueued : Queued a place) (h : Rotating past start a) (sem : S) :
    Rotating past start (a.release sem) := by
  apply Queues.release_induction
    (P := fun a b => ∀ place, Queued a place → Rotating past start a → Rotating past start b)
  · exact fun _ _ _ _ h => h
  · intro a wblock rest hwaiters _ _ ih place hqueued h
    exact ih _ (hqueued.grant hwaiters) (h.grant hqueued hwaiters)
  · exact hqueued
  · exact h

/-- Every call of a program serves the ready queue round robin. -/
theorem Rotating.perform {call : Call E S} (h : Rotating past start a) (hlocated : Located a place)
    (hallowed : Allowed a.toCore call) (hperform : a.perform call = some b) : Rotating past start b := by
  have hqueued := hlocated.toQueued
  have hnot := hqueued.not_main_ready
  cases Queues.move_of_perform hallowed hperform with
  | @create block _ hfresh =>
    have hgone : place (.user block) = .gone := by
      by_contra hplace
      exact hfresh.block_fresh ((hlocated.live block).mpr hplace)
    exact (h.activate hqueued (hqueued.not_queued (.inr hgone)).1).congr
  | resumed => exact h.congr
  | run_nothing | yield_alone | signaled => exact h
  | run hdispatch => exact Rotating.dispatch hdispatch h.congr rfl hnot
  | @yield block _ hrunning hdispatch =>
    have hplace := (hlocated.running _).mpr hrunning
    have hnew := (hqueued.not_queued (.inl hplace)).1
    exact Rotating.dispatch hdispatch (h.activate hqueued hnew) (hlocated.main_of_running hrunning)
      (hqueued.activate block hplace).not_main_ready
  | exit hrunning hdispatch | event_wait hrunning _ _ hdispatch =>
    exact Rotating.dispatch hdispatch h.congr (hlocated.main_of_running hrunning) hnot
  | @event_set event =>
    have hqueued' : Queued { a with signaled := Function.update a.signaled event true } place :=
      hqueued.congr
    exact Rotating.wakeAll hqueued' h.congr
  | @granted sem units _ block _ _ =>
    exact Rotated.extend h [.request sem (.user block) units, .grant sem (.user block) units]
      (by simp) rfl
  | @sem_wait sem units _ block _ hrunning _ _ hdispatch =>
    have hrequested := Rotated.extend h [.request sem (.user block) units] rfl rfl
    exact Rotating.dispatch hdispatch hrequested (hlocated.main_of_running hrunning) hnot
  | @sem_post sem units =>
    have hqueued' : Queued { a with toCore := add_units a.toCore sem units } place := hqueued.congr
    exact Rotating.release hqueued' h.congr sem

/-- Along every run the links in memory spell out a queue served round robin. -/
theorem Refines.run_rotating {s s' : State E S} {calls : List (Call E S)} (href : Refines s a)
    (hlocated : Located a place) (hrotating : Rotating past start a) (hrun : Run Step s calls s') :
    ∃ a' place', Refines s' a' ∧ Located a' place' ∧ Rotating past start a' := by
  apply hrun.invariant
    (fun s => ∃ a place, Refines s a ∧ Located a place ∧ Rotating past start a)
    ⟨a, place, href, hlocated, hrotating⟩
  rintro s call s' ⟨a, place, href, hlocated, hrotating⟩ hstep
  obtain ⟨a', place', hstep', href', hlocated'⟩ := href.step hlocated hstep
  exact ⟨a', place', href', hlocated', hrotating.perform hlocated hstep'.1 hstep'.2⟩

end oslabs.uthread
