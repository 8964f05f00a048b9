import OsLabs.UThread.Holdings

open oslabs.ring oslabs.list oslabs.run oslabs.lending

namespace oslabs.uthread

variable {E S L : Type} [DecidableEq E] [DecidableEq S] [LinearOrder L] {a b c : Queues E S}
  {place : Thread → Place E S} {call : Call E S}

/-- A thread asks for no more units than there are at the start, and only of a semaphore that
    ranks above all those it holds units of. It waits for no event that is not signaled. -/
def Orderly (rank : S → L) (total : S → Int) (c : Core E S) (posted : S → Nat → Int) : Call E S → Prop
  | .sem_wait sem units _ => units.toInt ≤ total sem ∧ ∀ block, c.running_thread = some (.user block) →
    ∀ other, 0 < held other c.trace (posted other) block → rank other < rank sem
  | .event_wait event _ => c.signaled event = true
  | _ => True

/-- The requests in the queues were made in the order of the ranks. -/
structure Ranked (rank : S → L) (total : S → Int) (posted : S → Nat → Int) (a : Queues E S) : Prop where
  order : ∀ sem, ∀ request ∈ a.queued sem, ∀ block, request.1 = .user block →
    ∀ other, 0 < held other a.trace (posted other) block → rank other < rank sem
  small : ∀ sem, ∀ request ∈ a.queued sem, request.2.toInt ≤ total sem
  events : ∀ event, a.waiters (.event event) = []

/-- No thread has come to wait, and those that still wait have got nothing. -/
structure Stays (a b : Queues E S) : Prop where
  queued : ∀ sem, ∀ request ∈ b.queued sem, request ∈ a.queued sem ∧ ∀ block, request.1 = .user block →
    ∀ other, granted other b.trace block = granted other a.trace block
  events : ∀ event, a.waiters (.event event) = [] → b.waiters (.event event) = []

omit [DecidableEq E] in
theorem Stays.of_same (hsame : ∀ sem, SameSem sem a b)
    (hevents : ∀ event, a.waiters (.event event) = [] → b.waiters (.event event) = []) : Stays a b where
  queued sem request hrequest := by
    rw [(hsame sem).queued_eq] at hrequest
    refine ⟨hrequest, fun block _ other => ?_⟩
    rw [granted_congr (hsame other).grants_eq]
  events := hevents

omit [DecidableEq E] in
theorem Stays.trans (h : Stays a b) (h' : Stays b c) : Stays a c where
  queued sem request hrequest := by
    obtain ⟨hmiddle, hgranted'⟩ := h'.queued sem request hrequest
    obtain ⟨hfirst, hgranted⟩ := h.queued sem request hmiddle
    refine ⟨hfirst, fun block hblock other => ?_⟩
    exact (hgranted' block hblock other).trans (hgranted block hblock other)
  events event hnone := h'.events event (h.events event hnone)

omit [DecidableEq E] in
/-- A grant to one thread is none to another. -/
theorem granted_of_ne {trace : List (Obs S)} {sem other : S} {t : Thread} {units : Int32} {block : Nat}
    (hne : t ≠ .user block) :
    granted other (trace ++ [.grant sem t units]) block = granted other trace block := by
  by_cases heq : sem = other
  · rw [heq, granted_append_grant, if_neg hne, add_zero]
  · exact congrFun (granted_congr (by simp [heq])) block

omit [DecidableEq E] [DecidableEq S] in
theorem Queues.mem_blocked_of_queued {sem : S} {request : Thread × Int32} (h : request ∈ a.queued sem) :
    request.1 ∈ a.blocked (.sem sem) := by
  obtain ⟨wblock, hmem, rfl⟩ := List.mem_map.mp h
  exact mem_blocked_of_mem_waiters hmem

omit [DecidableEq E] [DecidableEq S] in
/-- A thread that waits does not run. -/
theorem Located.not_running (h : Located a place) {sem : S} {request : Thread × Int32}
    (hrequest : request ∈ a.queued sem) : a.running_thread ≠ some request.1 := by
  rw [ne_eq, ← h.running, (h.mem_blocked _ _).mp (Queues.mem_blocked_of_queued hrequest)]
  simp

theorem Stays.grant (hqueued : Queued a place) {sem : S} {wblock : Nat} {rest : List Nat}
    (hwaiters : a.waiters (.sem sem) = wblock :: rest) : Stays a (a.grant sem) where
  queued other request hrequest := by
    have hne : a.wblock_thread wblock ≠ request.1 := by
      intro heq
      have hmem := (hqueued.grant hwaiters).mem_blocked (.sem other) request.1
      rw [heq, Function.update_self] at hmem
      simpa using hmem.mp (Queues.mem_blocked_of_queued hrequest)
    constructor
    · by_cases heq : sem = other
      · subst heq
        rw [a.queued_grant hwaiters]
        exact List.mem_cons_of_mem _ hrequest
      · rwa [(SameSem.grant heq a).queued_eq] at hrequest
    · intro block hblock third
      rw [hblock] at hne
      rw [a.trace_grant hwaiters]
      have hready : grants third (a.trace ++ [.grant sem (a.wblock_thread wblock) (a.wblock_units wblock)] ++
          [.ready (a.wblock_thread wblock)]) =
          grants third (a.trace ++ [.grant sem (a.wblock_thread wblock) (a.wblock_units wblock)]) := by
        rw [grants_append, grants_ready, List.append_nil]
      rw [granted_congr hready, granted_of_ne hne]
  events event hnone := by
    simpa [Queues.grant, Queues.wake, Queues.activate, hwaiters] using hnone

theorem Stays.release (hqueued : Queued a place) (sem : S) : Stays a (a.release sem) := by
  apply Queues.release_induction (P := fun a b => ∀ place, Queued a place → Stays a b)
  · intro a _ place _
    exact .of_same (fun _ => .of_eq) fun _ hnone => hnone
  · intro a wblock rest hwaiters _ _ ih place hqueued
    exact (Stays.grant hqueued hwaiters).trans (ih _ (hqueued.grant hwaiters))
  · exact hqueued

omit [DecidableEq E] [DecidableEq S] in
theorem Queues.waiters_of_dispatch (hdispatch : a.dispatch = some b) : b.waiters = a.waiters := by
  simp only [Queues.dispatch] at hdispatch
  split at hdispatch
  · exact Option.some.inj hdispatch ▸ rfl
  · split at hdispatch
    · exact Option.some.inj hdispatch ▸ rfl
    · cases hdispatch

variable {rank : S → L} {total : S → Int} {posted : S → Nat → Int}

omit [DecidableEq E] in
theorem Ranked.of_stays (h : Ranked rank total posted a) (hlocated : Located a place) (hstays : Stays a b) :
    Ranked rank total (fun sem => record sem a.toCore call (posted sem)) b where
  order sem request hrequest block hblock other := by
    obtain ⟨hbefore, hgranted⟩ := hstays.queued sem request hrequest
    have hnot := hlocated.not_running hbefore
    rw [hblock] at hnot
    rw [held, hgranted block hblock other, record, if_neg hnot]
    exact h.order sem request hbefore block hblock other
  small sem request hrequest := h.small sem request (hstays.queued sem request hrequest).1
  events event := hstays.events event (h.events event)

/-- A thread that comes to wait asks for a semaphore that ranks above all it holds. -/
theorem Ranked.await (h : Ranked rank total posted a) {sem : S} {units : Int32}
    {wblock block : Nat} (hrunning : a.running_thread = some (.user block))
    (hnew : ∀ sync, wblock ∉ a.waiters sync)
    (horderly : Orderly rank total a.toCore posted (.sem_wait sem units wblock))
    (hdispatch : (a.await sem (.user block) units wblock).dispatch = some b) :
    Ranked rank total posted b := by
  have hsame : ∀ other, SameSem other (a.await sem (.user block) units wblock) b := fun other =>
    SameSem.dispatch hdispatch (.of_eq rfl rfl)
  have hgrants : ∀ other, grants other b.trace = grants other a.trace := by
    intro other
    rw [(hsame other).grants_eq, Queues.await, Queues.enqueue]
    simp
  have hqueued : ∀ other, ∀ request ∈ b.queued other,
      request ∈ a.queued other ∨ other = sem ∧ request = (.user block, units) := by
    intro other request hrequest
    rw [(hsame other).queued_eq] at hrequest
    by_cases heq : other = sem
    · subst heq
      rw [a.queued_await _ units (hnew _), List.mem_append, List.mem_singleton] at hrequest
      exact hrequest.imp_right fun hlast => ⟨rfl, hlast⟩
    · have hother : SameSem other a (a.await sem (.user block) units wblock) :=
        SameSem.enqueue a (.sem sem) (by simp [Ne.symm heq]) (hnew _) (.user block) _
          (fun w hw => Function.update_of_ne hw _ _) _ _ (by simp [Ne.symm heq]) (by simp)
      rw [hother.queued_eq] at hrequest
      exact .inl hrequest
  obtain ⟨hsmall, hrank⟩ := horderly
  constructor
  · intro other request hrequest thread hthread third
    rw [held_congr (hgrants third)]
    rcases hqueued other request hrequest with hold | ⟨rfl, rfl⟩
    · exact h.order other request hold thread hthread third
    · obtain rfl := Thread.user.inj hthread
      exact hrank _ hrunning third
  · intro other request hrequest
    rcases hqueued other request hrequest with hold | ⟨rfl, rfl⟩
    · exact h.small other request hold
    · exact hsmall
  · intro event
    rw [Queues.waiters_of_dispatch hdispatch]
    simpa [Queues.await, Queues.enqueue] using h.events event

/-- Every orderly call leaves the requests in the order of the ranks. -/
theorem Ranked.perform (h : Ranked rank total posted a) (hlocated : Located a place)
    (hallowed : Allowed a.toCore call) (horderly : Orderly rank total a.toCore posted call)
    (hperform : a.perform call = some b) :
    Ranked rank total (fun sem => record sem a.toCore call (posted sem)) b := by
  cases Queues.move_of_perform hallowed hperform with
  | create | resumed | run_nothing | yield_alone | signaled =>
    exact h.of_stays hlocated (.of_same (fun _ => .of_eq) fun _ hnone => hnone)
  | run hdispatch | yield _ hdispatch | exit _ hdispatch =>
    refine h.of_stays hlocated (.of_same (fun _ => SameSem.dispatch hdispatch .of_eq) fun event hnone => ?_)
    rw [Queues.waiters_of_dispatch hdispatch]
    exact hnone
  | event_wait _ _ hsignaled =>
    rw [Orderly, hsignaled] at horderly
    cases horderly
  | @event_set event =>
    refine h.of_stays hlocated (.of_same (fun _ => SameSem.wakeAll a event _) fun other hnone => ?_)
    by_cases heq : other = event <;> simp [Queues.wakeAll, heq, hnone]
  | @granted sem units _ block hrunning hfast =>
    refine h.of_stays hlocated ⟨fun other request hrequest => ⟨hrequest, fun thread hthread third => ?_⟩,
      fun _ hnone => hnone⟩
    have hne : (Thread.user block) ≠ .user thread := by
      intro heq
      exact hlocated.not_running hrequest (hrunning.trans (by rw [heq, hthread]))
    rw [granted_of_ne hne]
    exact congrFun (granted_congr (by simp)) thread
  | @sem_wait sem units wblock _ _ hrunning hfresh hslow hdispatch =>
    have hrecord : (fun other => record other a.toCore (.sem_wait sem units wblock : Call E S)
        (posted other)) = posted := funext fun _ => record_eq rfl
    rw [hrecord]
    exact h.await hrunning (hlocated.wblock_fresh hfresh) horderly hdispatch
  | @sem_post sem units =>
    have hadded : Stays a { a with toCore := add_units a.toCore sem units } :=
      ⟨fun _ _ hrequest => ⟨hrequest, fun _ _ _ => rfl⟩, fun _ hnone => hnone⟩
    exact h.of_stays hlocated (hadded.trans (Stays.release hlocated.toQueued.congr sem))

/-- A step of a program whose threads are honest and orderly about all semaphores. -/
def OrderlyStep (rank : S → L) (total : S → Int) (p : State E S × (S → Nat → Int)) (call : Call E S)
    (p' : State E S × (S → Nat → Int)) : Prop :=
  Step p.1 call p'.1 ∧ (p'.2 = fun sem => record sem p.1.toCore call (p.2 sem)) ∧
    (∀ sem, Honest sem p.1.toCore (p.2 sem) call) ∧ Orderly rank total p.1.toCore p.2 call

/-- A state of such a program. -/
structure LockOrdered (rank : S → L) (total : S → Int) (p : State E S × (S → Nat → Int))
    (a : Queues E S) : Prop where
  lending : ∀ sem, Lending sem (total sem) (p.1, p.2 sem) a
  ranked : Ranked rank total p.2 a
  refines : Refines p.1 a
  located : ∃ place, Located a place

theorem LockOrdered.step {p p' : State E S × (S → Nat → Int)} (h : LockOrdered rank total p a)
    (hstep : OrderlyStep rank total p call p') : ∃ b, a.Step call b ∧ LockOrdered rank total p' b := by
  obtain ⟨hstep, hrecord, hhonest, horderly⟩ := hstep
  obtain ⟨place, hlocated⟩ := h.located
  obtain ⟨b, place', hqueues, href, hlocated'⟩ := h.refines.step hlocated hstep
  have hcore := h.refines.core
  refine ⟨b, hqueues, ?_, ?_, href, place', hlocated'⟩
  · intro sem
    have hhonestStep : HonestStep sem (p.1, p.2 sem) call (p'.1, p'.2 sem) :=
      ⟨hstep, congrFun hrecord sem, hhonest sem⟩
    obtain ⟨_, b', _, hlending⟩ := (h.lending sem).step hhonestStep
    rwa [hlending.inOrder.refines.unique href] at hlending
  · rw [hcore] at hrecord horderly
    rw [hrecord]
    exact h.ranked.perform hlocated hqueues.1 horderly hqueues.2

omit [DecidableEq E] in
theorem Initial.lockOrdered {s : State E S} (h : Initial s) (rank : S → L)
    (hunits : ∀ sem, 0 ≤ (s.sem sem).units) (hlimit : ∀ sem, (s.sem sem).units ≤ (s.sem sem).limit) :
    LockOrdered rank (fun sem => (s.sem sem).units.toInt) (s, fun _ _ => 0) (Queues.initial s.toCore) where
  lending sem := h.lending (hunits sem) (hlimit sem)
  ranked := by constructor <;> simp [Queues.queued, Queues.initial]
  refines := h.refines
  located := ⟨_, h.located⟩

omit [DecidableEq E] in
/-- With control back in `ut_run`, nobody can be waiting: of the semaphores that are waited for, the
    one with the highest rank is held by nobody, so that its first request would have been granted. -/
theorem LockOrdered.live_eq {p : State E S × (S → Nat → Int)} (h : LockOrdered rank total p a)
    (hback : a.running_thread = some .main) : a.live = ∅ := by
  obtain ⟨place, hlocated⟩ := h.located
  by_contra hlive
  have hwaits : ∀ t : { block // block ∈ a.live },
      ∃ sem, ∃ request ∈ a.queued sem, request.1 = .user t.1 := by
    rintro ⟨block, hblock⟩
    have hmem : Thread.user block ∈ a.blockedThreads := by
      rw [hlocated.blockedThreads_eq hback]
      exact ⟨block, hblock, rfl⟩
    obtain ⟨sync, wblock, hwaiter, hthread⟩ := hmem
    cases sync with
    | event event =>
      rw [h.ranked.events event] at hwaiter
      cases hwaiter
    | sem sem => exact ⟨sem, _, List.mem_map_of_mem hwaiter, hthread⟩
  choose wants hwants using hwaits
  have hne : a.live.attach.Nonempty := by
    rw [Finset.attach_nonempty_iff]
    exact Finset.nonempty_iff_ne_empty.mpr hlive
  have horder : ∀ t ∈ a.live.attach, ∀ sem, 0 < held sem a.trace (p.2 sem) t.1 →
      rank sem < rank (wants t) := by
    intro t _ sem hholds
    obtain ⟨request, hrequest, hthread⟩ := hwants t
    exact h.ranked.order _ request hrequest t.1 hthread sem hholds
  obtain ⟨t, _, hunheld⟩ := exists_unheld hne horder
  have hlending := h.lending (wants t)
  have hlends := hlending.lent.lends
  have hfree : (a.sem (wants t)).units.toInt = total (wants t) := by
    apply hlends.free_eq
    intro block hblock
    exact le_antisymm (not_lt.mp (hunheld ⟨block, hblock⟩ (Finset.mem_attach _ _))) (hlends.nonneg block)
  obtain ⟨request, hrequest, _⟩ := hwants t
  obtain ⟨first, rest, hfirst⟩ := List.exists_cons_of_ne_nil (List.ne_nil_of_mem hrequest)
  have hstarved := hlending.inOrder.starved first (by simp [hfirst])
  have hsmall := h.ranked.small (wants t) first (by simp [hfirst])
  rw [Int32.lt_iff_toInt_lt, hfree] at hstarved
  omega

/-- A program does not come to a deadlock when its threads take semaphores in the order of a rank and
    post only what they hold, and all of it before they exit: when control is back in `ut_run`, all
    threads have exited, and its assertions hold. -/
theorem ut_run_deadlock_free {s₀ s : State E S} {posted : S → Nat → Int} {calls : List (Call E S)}
    (rank : S → L) (hinitial : Initial s₀) (hunits : ∀ sem, 0 ≤ (s₀.sem sem).units)
    (hlimit : ∀ sem, (s₀.sem sem).units ≤ (s₀.sem sem).limit)
    (hrun : Run (OrderlyStep rank fun sem => (s₀.sem sem).units.toInt) (s₀, fun _ _ => 0) calls (s, posted))
    (hback : s.running_thread = some .main) :
    s.live = ∅ ∧ (∃ s', ut_run_resumed s = some s') ∧ ∀ sem, (s.sem sem).units = (s₀.sem sem).units := by
  obtain ⟨a, _, h⟩ := hrun.simulates (hinitial.lockOrdered rank hunits hlimit)
    fun _ _ _ _ h hstep => h.step hstep
  obtain ⟨place, hlocated⟩ := h.located
  have hcore : s.toCore = a.toCore := h.refines.core
  have hback' : a.running_thread = some .main := by rw [← hback, hcore]
  have hlive := h.live_eq hback'
  refine ⟨by rw [hcore, hlive], (hlocated.ut_run_resumed_iff h.refines hback).mpr hlive, fun sem => ?_⟩
  have hfree := (h.lending sem).lent.lends.free_eq (by simp [hlive])
  rw [hcore]
  exact Int32.toInt_inj.mp hfree

/-- The memory of a thread that has taken the one unit of a semaphore, and when it has posted it. -/
def one_taken : State Unit Unit :=
  (perform 0 (started fun _ => ⟨1, 1⟩) (.sem_wait () 1 0)).getD (started fun _ => ⟨1, 1⟩)

def one_posted : State Unit Unit :=
  (perform 1 one_taken (.sem_post () 1)).getD one_taken

/-- A thread takes the one unit of a semaphore, posts it and exits. -/
theorem ut_run_deadlock_free_posted : ∃ (s : State Unit Unit) (posted : Unit → Nat → Int),
    Run (OrderlyStep (fun _ => 0) fun _ => 1) (booted fun _ => ⟨1, 1⟩, fun _ _ => 0)
        [.ut_create 1 4096, .ut_run, .sem_wait () 1 0, .sem_post () 1, .ut_exit] (s, posted) ∧
      s.running_thread = some .main ∧
      (s.live = ∅ ∧ (∃ s', ut_run_resumed s = some s') ∧ ∀ sem, (s.sem sem).units = 1) := by
  have hcreate : OrderlyStep (fun _ : Unit => (0 : Nat)) (fun _ => 1) (booted fun _ => ⟨1, 1⟩, fun _ _ => 0)
      (.ut_create 1 4096 : Call Unit Unit) (ut_create (booted fun _ => ⟨1, 1⟩) 1 4096, fun _ _ => 0) :=
    ⟨step_created _, funext fun _ => (record_eq rfl).symm, fun _ => trivial, trivial⟩
  have hstart : OrderlyStep (fun _ : Unit => (0 : Nat)) (fun _ => 1)
      (ut_create (booted fun _ => ⟨1, 1⟩) 1 4096, fun _ _ => 0) (.ut_run : Call Unit Unit)
      (started fun _ => ⟨1, 1⟩, fun _ _ => 0) :=
    ⟨step_started _, funext fun _ => (record_eq rfl).symm, fun _ => trivial, trivial⟩
  have hwait : OrderlyStep (fun _ : Unit => (0 : Nat)) (fun _ => 1) (started fun _ => ⟨1, 1⟩, fun _ _ => 0)
      (.sem_wait () 1 0 : Call Unit Unit) (one_taken, fun _ _ => 0) := by
    refine ⟨⟨⟨⟨1, rfl⟩, started_frame _ 0⟩, 0, rfl⟩, funext fun _ => (record_eq rfl).symm,
      fun _ _ => by decide, by decide, ?_⟩
    intro block _ other hholds
    exact absurd hholds (lt_irrefl 0)
  have hpost : OrderlyStep (fun _ : Unit => (0 : Nat)) (fun _ => 1) (one_taken, fun _ _ => 0)
      (.sem_post () 1 : Call Unit Unit)
      (one_posted, fun _ => record () one_taken.toCore (.sem_post () 1 : Call Unit Unit) fun _ => 0) := by
    refine ⟨⟨⟨1, rfl⟩, 1, rfl⟩, rfl, fun _ _ => ⟨by decide, ?_⟩, trivial⟩
    intro block hrunning
    obtain rfl := Thread.user.inj (Option.some.inj hrunning)
    exact le_refl 1
  have hexit : OrderlyStep (fun _ : Unit => (0 : Nat)) (fun _ => 1)
      (one_posted, fun _ => record () one_taken.toCore (.sem_post () 1 : Call Unit Unit) fun _ => 0)
      (.ut_exit : Call Unit Unit) (_, _) :=
    ⟨⟨⟨1, rfl⟩, 0, rfl⟩, rfl, fun _ block hrunning => by
      obtain rfl := Thread.user.inj (Option.some.inj hrunning)
      rfl, trivial⟩
  have hrun := ((((Run.nil.snoc hcreate).snoc hstart).snoc hwait).snoc hpost).snoc hexit
  have hunits : (0 : Int32) ≤ 1 := by decide
  have hfree := ut_run_deadlock_free (fun _ : Unit => (0 : Nat)) (booted_initial fun _ : Unit => ⟨1, 1⟩)
    (fun _ => hunits) (fun _ => Int32.le_refl 1) hrun rfl
  exact ⟨_, _, hrun, rfl, hfree⟩

end oslabs.uthread
