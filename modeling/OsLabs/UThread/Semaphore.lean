import OsLabs.UThread.Runs

open oslabs.ring oslabs.list oslabs.loop oslabs.run

namespace oslabs.uthread

variable {E S : Type} [DecidableEq S]

/-- The requests for units of a semaphore, in the order `sem_wait` was called. -/
def requests (sem : S) (trace : List (Obs S)) : List (Thread × Int32) :=
  trace.filterMap fun
    | .request s thread units => if s = sem then some (thread, units) else none
    | _ => none

/-- The requests that got their units, in the order they got them. -/
def grants (sem : S) (trace : List (Obs S)) : List (Thread × Int32) :=
  trace.filterMap fun
    | .grant s thread units => if s = sem then some (thread, units) else none
    | _ => none

section Histories

variable (sem : S) (trace : List (Obs S)) (t : Thread) (u : Int32)

@[simp] theorem requests_append (more : List (Obs S)) :
    requests sem (trace ++ more) = requests sem trace ++ requests sem more :=
  List.filterMap_append

@[simp] theorem grants_append (more : List (Obs S)) :
    grants sem (trace ++ more) = grants sem trace ++ grants sem more :=
  List.filterMap_append

@[simp] theorem requests_nil : requests sem [] = [] := rfl
@[simp] theorem grants_nil : grants sem [] = [] := rfl
@[simp] theorem requests_ready : requests sem [.ready t] = [] := rfl
@[simp] theorem grants_ready : grants sem [.ready t] = [] := rfl
@[simp] theorem requests_dispatch : requests sem [.dispatch t] = [] := rfl
@[simp] theorem grants_dispatch : grants sem [.dispatch t] = [] := rfl
@[simp] theorem grants_request (s : S) : grants sem [.request s t u] = [] := rfl
@[simp] theorem requests_grant (s : S) : requests sem [.grant s t u] = [] := rfl

@[simp] theorem requests_request (s : S) :
    requests sem [.request s t u] = if s = sem then [(t, u)] else [] := by
  by_cases heq : s = sem <;> simp [requests, heq]

@[simp] theorem grants_grant (s : S) :
    grants sem [.grant s t u] = if s = sem then [(t, u)] else [] := by
  by_cases heq : s = sem <;> simp [grants, heq]

@[simp] theorem requests_map_ready (ts : List Thread) : requests sem (ts.map .ready) = [] := by
  simp [requests]

@[simp] theorem grants_map_ready (ts : List Thread) : grants sem (ts.map .ready) = [] := by
  simp [grants]

end Histories

/-- The requests in the wait blocks of a semaphore's queue. -/
def Queues.queued (a : Queues E S) (sem : S) : List (Thread × Int32) :=
  (a.waiters (.sem sem)).map fun wblock => (a.wblock_thread wblock, a.wblock_units wblock)

/-- All that is said below of a semaphore is the same in both. -/
structure SameSem (sem : S) (a b : Queues E S) : Prop where
  requests_eq : requests sem b.trace = requests sem a.trace
  grants_eq : grants sem b.trace = grants sem a.trace
  queued_eq : b.queued sem = a.queued sem
  sem_eq : b.sem sem = a.sem sem

/-- What is granted and what is queued, in this order, is what was requested.
    The units of the semaphore stay in their range. -/
structure Fifo (sem : S) (a : Queues E S) : Prop where
  history : requests sem a.trace = grants sem a.trace ++ a.queued sem
  positive : ∀ request ∈ a.queued sem, 0 < request.2
  units_nonneg : 0 ≤ (a.sem sem).units
  units_le_limit : (a.sem sem).units ≤ (a.sem sem).limit

/-- The first request in the queue, if any, asks for more than there is. -/
def HeadStarved (sem : S) (a : Queues E S) : Prop :=
  ∀ request ∈ (a.queued sem).head?, (a.sem sem).units < request.2

/-- Demands on the semaphore are positive, and posts to it are not negative and
    do not overflow its counter. -/
def Admissible (sem : S) (c : Core E S) : Call E S → Prop
  | .sem_wait other units _ => other = sem → 0 < units
  | .sem_post other units =>
    other = sem → 0 ≤ units ∧ (c.sem sem).units.toInt + units.toInt < 2 ^ 31
  | _ => True

section Arithmetic

variable {x y : Int32}

theorem nonneg_iff : 0 ≤ x ↔ 0 ≤ x.toInt := by
  rw [Int32.le_iff_toInt_le, Int32.toInt_zero]

theorem toInt_sub_of_le (hy : 0 ≤ y) (hle : y ≤ x) : (x - y).toInt = x.toInt - y.toInt := by
  rw [nonneg_iff] at hy
  rw [Int32.le_iff_toInt_le] at hle
  have hbound := x.toInt_lt
  rw [Int32.toInt_sub, Int.bmod_eq_of_le]
  · omega
  · omega

theorem toInt_add_of_lt (hx : 0 ≤ x) (hy : 0 ≤ y) (hsum : x.toInt + y.toInt < 2 ^ 31) :
    (x + y).toInt = x.toInt + y.toInt := by
  rw [nonneg_iff] at hx hy
  rw [Int32.toInt_add, Int.bmod_eq_of_le]
  · omega
  · omega

/-- Taking out no more than there is leaves a count in range. -/
theorem sub_mem_range {limit : Int32} (hy : 0 ≤ y) (hle : y ≤ x) (hlimit : x ≤ limit) :
    0 ≤ x - y ∧ x - y ≤ limit := by
  rw [nonneg_iff, Int32.le_iff_toInt_le, toInt_sub_of_le hy hle]
  rw [nonneg_iff] at hy
  rw [Int32.le_iff_toInt_le] at hle hlimit
  omega

/-- The saturating addition leaves a count in range, as its sum does not wrap. -/
theorem saturate_mem_range {limit : Int32} (hx : 0 ≤ x) (hlimit : x ≤ limit) (hy : 0 ≤ y)
    (hsum : x.toInt + y.toInt < 2 ^ 31) :
    0 ≤ (if x + y > limit then limit else x + y) ∧ (if x + y > limit then limit else x + y) ≤ limit := by
  split
  · exact ⟨Int32.le_trans hx hlimit, Int32.le_refl _⟩
  · refine ⟨?_, Int32.not_lt.mp ‹_›⟩
    rw [nonneg_iff, toInt_add_of_lt hx hy hsum]
    rw [nonneg_iff] at hx hy
    omega

end Arithmetic

variable {sem : S} {a b next : Queues E S}

omit [DecidableEq S] in
private theorem queued_congr (hwaiters : b.waiters (.sem sem) = a.waiters (.sem sem))
    (hthread : ∀ wblock ∈ a.waiters (.sem sem), b.wblock_thread wblock = a.wblock_thread wblock)
    (hunits : ∀ wblock ∈ a.waiters (.sem sem), b.wblock_units wblock = a.wblock_units wblock) :
    b.queued sem = a.queued sem := by
  rw [Queues.queued, hwaiters]
  exact List.map_congr_left fun wblock hmem => by rw [hthread wblock hmem, hunits wblock hmem]

/-- Most calls say nothing about semaphores. -/
theorem SameSem.of_eq (hrequests : requests sem b.trace = requests sem a.trace := by simp)
    (hgrants : grants sem b.trace = grants sem a.trace := by simp)
    (hqueued : b.queued sem = a.queued sem := by rfl) (hsem : b.sem sem = a.sem sem := by rfl) :
    SameSem sem a b :=
  ⟨hrequests, hgrants, hqueued, hsem⟩

theorem SameSem.trans {c : Queues E S} (h : SameSem sem a b) (h' : SameSem sem b c) : SameSem sem a c where
  requests_eq := h'.requests_eq.trans h.requests_eq
  grants_eq := h'.grants_eq.trans h.grants_eq
  queued_eq := h'.queued_eq.trans h.queued_eq
  sem_eq := h'.sem_eq.trans h.sem_eq

theorem Fifo.congr (h : Fifo sem a) (hsame : SameSem sem a b) : Fifo sem b where
  history := by rw [hsame.requests_eq, hsame.grants_eq, hsame.queued_eq, h.history]
  positive := by rw [hsame.queued_eq]; exact h.positive
  units_nonneg := by rw [hsame.sem_eq]; exact h.units_nonneg
  units_le_limit := by rw [hsame.sem_eq]; exact h.units_le_limit

theorem HeadStarved.congr (h : HeadStarved sem a) (hsame : SameSem sem a b) : HeadStarved sem b := by
  intro request hmem
  rw [hsame.queued_eq] at hmem
  rw [hsame.sem_eq]
  exact h request hmem

/-- A dispatch says nothing about semaphores. -/
theorem SameSem.dispatch (hdispatch : b.dispatch = some next) (h : SameSem sem a b) :
    SameSem sem a next := by
  apply h.trans
  simp only [Queues.dispatch] at hdispatch
  split at hdispatch
  · obtain rfl := Option.some.inj hdispatch
    exact .of_eq
  · split at hdispatch
    · obtain rfl := Option.some.inj hdispatch
      exact .of_eq
    · cases hdispatch

/-- A request that finds its units at once is granted at once. -/
theorem Fifo.fast (h : Fifo sem a) {units : Int32} (thread : Thread) (hpos : 0 < units)
    (hempty : a.waiters (.sem sem) = []) (hfits : units ≤ (a.sem sem).units) :
    Fifo sem { a with
      sem := Function.update a.sem sem { a.sem sem with units := (a.sem sem).units - units }
      trace := a.trace ++ [.request sem thread units] ++ [.grant sem thread units] } := by
  have hqueued : a.queued sem = [] := by simp [Queues.queued, hempty]
  have hhistory := h.history
  rw [hqueued, List.append_nil] at hhistory
  have hrange := sub_mem_range (Int32.le_of_lt hpos) hfits h.units_le_limit
  refine ⟨?_, ?_, ?_, ?_⟩
  · simp only [requests_append, grants_append, requests_request, requests_grant, grants_request,
      grants_grant, hhistory]
    simp [Queues.queued, hempty]
  · simp [Queues.queued, hempty]
  · simpa using hrange.1
  · simpa using hrange.2

/-- Where a release stops, the first request asks for more than there is. -/
theorem Fifo.stopped (h : Fifo sem a) (hstop : ∀ wblock rest, a.waiters (.sem sem) = wblock :: rest →
    (a.sem sem).units > 0 → (a.sem sem).units < a.wblock_units wblock) : HeadStarved sem a := by
  intro request hmem
  cases hwaiters : a.waiters (.sem sem) with
  | nil => simp [Queues.queued, hwaiters] at hmem
  | cons wblock rest =>
    obtain rfl : (a.wblock_thread wblock, a.wblock_units wblock) = request := by
      simpa [Queues.queued, hwaiters] using hmem
    by_cases hunits : (a.sem sem).units > 0
    · exact hstop wblock rest hwaiters hunits
    · exact Int32.lt_of_le_of_lt (Int32.not_lt.mp hunits) (h.positive _ (List.mem_of_mem_head? hmem))

variable [DecidableEq E]

/-- A thread that has to wait for its units, up to where it is switched out. -/
def Queues.await (a : Queues E S) (sem : S) (thread : Thread) (units : Int32) (wblock : Nat) :
    Queues E S :=
  { a with
    wblock_thread := Function.update a.wblock_thread wblock thread
    wblock_units := Function.update a.wblock_units wblock units
    frame := Function.update a.frame thread (some wblock)
    trace := a.trace ++ [Obs.request sem thread units] }.enqueue (.sem sem) wblock

theorem Queues.queued_await (a : Queues E S) (thread : Thread) (units : Int32) {wblock : Nat}
    (hnew : wblock ∉ a.waiters (.sem sem)) :
    (a.await sem thread units wblock).queued sem = a.queued sem ++ [(thread, units)] := by
  have hother : ∀ w ∈ a.waiters (.sem sem), w ≠ wblock := fun w hw heq => hnew (heq ▸ hw)
  simp only [Queues.queued, Queues.await, Queues.enqueue, Function.update_self, List.map_append,
    List.map_cons, List.map_nil, List.append_cancel_right_eq]
  refine List.map_congr_left fun w hw => ?_
  rw [Function.update_of_ne (hother w hw), Function.update_of_ne (hother w hw)]

/-- A request that has to wait is queued behind all others. -/
theorem Fifo.await (h : Fifo sem a) (thread : Thread) {units : Int32} {wblock : Nat} (hpos : 0 < units)
    (hnew : wblock ∉ a.waiters (.sem sem)) : Fifo sem (a.await sem thread units wblock) := by
  have hqueued := a.queued_await thread units hnew
  refine ⟨?_, ?_, h.units_nonneg, h.units_le_limit⟩
  · rw [hqueued]
    simp [Queues.await, Queues.enqueue, h.history]
  · rw [hqueued]
    simp only [List.mem_append, List.mem_singleton]
    rintro request (hold | rfl)
    · exact h.positive request hold
    · exact hpos

/-- A queue that was starved at its head still is with one more at its end. A
    queue that was empty has a head now, which did not find its units. -/
theorem HeadStarved.await (h : HeadStarved sem a) (thread : Thread) {units : Int32} {wblock : Nat}
    (hnew : wblock ∉ a.waiters (.sem sem))
    (hslow : ¬ (a.waiters (.sem sem) = [] ∧ (a.sem sem).units ≥ units)) :
    HeadStarved sem (a.await sem thread units wblock) := by
  intro request hmem
  rw [a.queued_await thread units hnew] at hmem
  cases hwaiters : a.waiters (.sem sem) with
  | nil =>
    obtain rfl : (thread, units) = request := by simpa [Queues.queued, hwaiters] using hmem
    exact Int32.not_le.mp fun hle => hslow ⟨hwaiters, hle⟩
  | cons first rest =>
    apply h request
    simpa [Queues.queued, hwaiters] using hmem

theorem Queues.queued_grant (a : Queues E S) {wblock : Nat} {rest : List Nat}
    (hwaiters : a.waiters (.sem sem) = wblock :: rest) :
    a.queued sem = (a.wblock_thread wblock, a.wblock_units wblock) :: (a.grant sem).queued sem := by
  simp [Queues.queued, Queues.grant, Queues.wake, Queues.activate, hwaiters, take_units]

/-- Granting moves the first queued request to the end of what was granted. -/
theorem Fifo.grant (h : Fifo sem a) {wblock : Nat} {rest : List Nat}
    (hwaiters : a.waiters (.sem sem) = wblock :: rest)
    (hfits : a.wblock_units wblock ≤ (a.sem sem).units) : Fifo sem (a.grant sem) := by
  have hqueued := a.queued_grant hwaiters
  have hpositive := h.positive
  rw [hqueued] at hpositive
  have hrange := sub_mem_range (Int32.le_of_lt (hpositive _ List.mem_cons_self)) hfits h.units_le_limit
  have hhistory := h.history
  rw [hqueued] at hhistory
  refine ⟨?_, fun request hmem => hpositive request (List.mem_cons_of_mem _ hmem), ?_, ?_⟩
  · rw [a.trace_grant hwaiters]
    simp only [requests_append, requests_grant, requests_ready, grants_append, grants_grant,
      grants_ready, List.append_nil, if_true]
    rw [hhistory, List.append_assoc, List.singleton_append]
  · simpa [Queues.grant, Queues.wake, Queues.activate, hwaiters, take_units] using hrange.1
  · simpa [Queues.grant, Queues.wake, Queues.activate, hwaiters, take_units] using hrange.2

omit [DecidableEq E] in
theorem Fifo.added (h : Fifo sem a) {units : Int32} (hunits : 0 ≤ units)
    (hsum : (a.sem sem).units.toInt + units.toInt < 2 ^ 31) :
    Fifo sem { a with toCore := add_units a.toCore sem units } := by
  have hrange := saturate_mem_range h.units_nonneg h.units_le_limit hunits hsum
  refine ⟨h.history, h.positive, ?_, ?_⟩
  · simpa [add_units] using hrange.1
  · simpa [add_units] using hrange.2

/-- Releasing grants requests from the head until the next one does not fit. -/
theorem Fifo.release (h : Fifo sem a) :
    Fifo sem (a.release sem) ∧ HeadStarved sem (a.release sem) := by
  apply Queues.release_induction (P := fun a b => Fifo sem a → Fifo sem b ∧ HeadStarved sem b)
  · intro a hstop h
    exact ⟨h, h.stopped hstop⟩
  · intro a wblock rest hwaiters _ hfits ih h
    exact ih (h.grant hwaiters (Int32.not_lt.mp hfits))
  · exact h

section Frame

variable {other : S} (hother : other ≠ sem)
include hother

/-- Granting a request of one semaphore leaves all others alone. -/
theorem SameSem.grant (a : Queues E S) : SameSem sem a (a.grant other) := by
  cases hwaiters : a.waiters (.sem other) with
  | nil =>
    simp only [Queues.grant, hwaiters]
    exact .of_eq
  | cons wblock rest =>
    refine ⟨?_, ?_, queued_congr ?_ ?_ ?_, ?_⟩
    · simp only [a.trace_grant hwaiters, requests_append, requests_grant, requests_ready,
        List.append_nil]
    · simp only [a.trace_grant hwaiters, grants_append, grants_grant, if_neg hother, grants_ready,
        List.append_nil]
    all_goals simp [Queues.grant, Queues.wake, Queues.activate, hwaiters, take_units, hother.symm]

theorem SameSem.release (a : Queues E S) : SameSem sem a (a.release other) := by
  apply Queues.release_induction (P := SameSem sem)
  · intro a _
    exact .of_eq
  · intro a _ _ _ _ _ ih
    exact (SameSem.grant hother a).trans ih

end Frame

/-- A new wait block in another queue leaves a semaphore alone. -/
theorem SameSem.enqueue (a : Queues E S) (sync : Sync E S) (hsync : sync ≠ .sem sem) {wblock : Nat}
    (hnew : wblock ∉ a.waiters (.sem sem)) (thread : Thread) (units : Nat → Int32)
    (hunits : ∀ w, w ≠ wblock → units w = a.wblock_units w) (frame : Thread → Option Nat)
    (trace : List (Obs S)) (hrequests : requests sem trace = requests sem a.trace)
    (hgrants : grants sem trace = grants sem a.trace) :
    SameSem sem a ({ a with
      wblock_thread := Function.update a.wblock_thread wblock thread
      wblock_units := units
      frame := frame
      trace := trace }.enqueue sync wblock) := by
  have hne : ∀ w ∈ a.waiters (.sem sem), w ≠ wblock := fun w hw heq => hnew (heq ▸ hw)
  refine ⟨hrequests, hgrants, queued_congr ?_ ?_ ?_, rfl⟩
  · simp [Queues.enqueue, hsync.symm]
  · intro w hw
    simp [Queues.enqueue, hne w hw]
  · intro w hw
    exact hunits w (hne w hw)

theorem SameSem.wakeAll (a : Queues E S) (event : E) (signaled : E → Bool) :
    SameSem sem a ({ a with signaled }.wakeAll (.event event)) := by
  refine ⟨?_, ?_, queued_congr ?_ ?_ ?_, rfl⟩
  · simp [Queues.wakeAll]
  · simp [Queues.wakeAll]
  all_goals simp [Queues.wakeAll]

/-- What a call does, as seen from one semaphore. -/
inductive SemMove (sem : S) (a : Queues E S) : Call E S → Queues E S → Prop where
  | frame {call : Call E S} {b : Queues E S} (hsame : SameSem sem a b) : SemMove sem a call b
  | fast {block wblock : Nat} {units : Int32} (hempty : a.waiters (.sem sem) = [])
      (hfits : units ≤ (a.sem sem).units) :
      SemMove sem a (.sem_wait sem units wblock) { a with
        sem := Function.update a.sem sem { a.sem sem with units := (a.sem sem).units - units }
        trace := a.trace ++ [.request sem (.user block) units] ++ [.grant sem (.user block) units] }
  | await {block wblock : Nat} {units : Int32} {b : Queues E S} (hnew : wblock ∉ a.waiters (.sem sem))
      (hslow : ¬ (a.waiters (.sem sem) = [] ∧ (a.sem sem).units ≥ units))
      (hsame : SameSem sem (a.await sem (.user block) units wblock) b) :
      SemMove sem a (.sem_wait sem units wblock) b
  | post {units : Int32} :
      SemMove sem a (.sem_post sem units) ({ a with toCore := add_units a.toCore sem units }.release sem)

theorem Queues.semMove (sem : S) {place : Thread → Place E S} {call : Call E S}
    (hlocated : Located a place) (hallowed : Allowed a.toCore call)
    (hperform : a.perform call = some b) : SemMove sem a call b := by
  cases Queues.move_of_perform hallowed hperform with
  | create | resumed | run_nothing | yield_alone | signaled => exact .frame .of_eq
  | run hdispatch | yield _ hdispatch | exit _ hdispatch => exact .frame (SameSem.dispatch hdispatch .of_eq)
  | @event_wait event wblock block _ _ hfresh _ hdispatch =>
    have hsame := SameSem.enqueue a (.event event) (by simp)
      (hlocated.wblock_fresh hfresh (.sem sem)) (.user block) a.wblock_units (fun _ _ => rfl)
      (Function.update a.frame (.user block) (some wblock)) a.trace rfl rfl
    exact .frame (SameSem.dispatch hdispatch hsame)
  | @event_set event => exact .frame (SameSem.wakeAll a event _)
  | @granted other _ _ _ _ hfast =>
    by_cases hother : other = sem
    · subst hother
      exact .fast hfast.1 hfast.2
    · refine .frame ⟨?_, ?_, rfl, by simp [Ne.symm hother]⟩
      · simp only [requests_append, requests_request, if_neg hother, requests_grant, List.append_nil]
      · simp only [grants_append, grants_grant, if_neg hother, grants_request, List.append_nil]
  | @sem_wait other units wblock block _ _ hfresh hslow hdispatch =>
    have hnew := hlocated.wblock_fresh hfresh
    by_cases hother : other = sem
    · subst hother
      exact .await (hnew _) hslow (SameSem.dispatch hdispatch (.of_eq rfl rfl))
    · have hsame := SameSem.enqueue a (.sem other) (by simp [hother]) (hnew (.sem sem))
        (.user block) (Function.update a.wblock_units wblock units)
        (fun w hw => Function.update_of_ne hw _ _)
        (Function.update a.frame (.user block) (some wblock))
        (a.trace ++ [Obs.request other (.user block) units]) (by simp [hother]) (by simp)
      exact .frame (SameSem.dispatch hdispatch hsame)
  | @sem_post other units =>
    by_cases hother : other = sem
    · subst hother
      exact .post
    · have hadded : SameSem sem a { a with toCore := add_units a.toCore other units } :=
        ⟨rfl, rfl, rfl, by simp [add_units, Ne.symm hother]⟩
      exact .frame (hadded.trans (SameSem.release hother _))

/-- Every call keeps the semaphore's history in order and its queue starved. -/
theorem Fifo.perform {place : Thread → Place E S} {call : Call E S} (h : Fifo sem a)
    (hstarved : HeadStarved sem a) (hlocated : Located a place) (hallowed : Allowed a.toCore call)
    (hadmissible : Admissible sem a.toCore call) (hperform : a.perform call = some b) :
    Fifo sem b ∧ HeadStarved sem b := by
  cases Queues.semMove sem hlocated hallowed hperform with
  | frame hsame => exact ⟨h.congr hsame, hstarved.congr hsame⟩
  | fast hempty hfits =>
    refine ⟨h.fast _ (hadmissible rfl) hempty hfits, ?_⟩
    simp [HeadStarved, Queues.queued, hempty]
  | await hnew hslow hsame =>
    exact ⟨(h.await _ (hadmissible rfl) hnew).congr hsame, (hstarved.await _ hnew hslow).congr hsame⟩
  | @post units =>
    obtain ⟨hunits, hsum⟩ := hadmissible rfl
    exact (h.added hunits hsum).release

/-- The steps that keep to the rules for one semaphore. -/
def AdmissibleStep (sem : S) (s : State E S) (call : Call E S) (s' : State E S) : Prop :=
  Step s call s' ∧ Admissible sem s.toCore call

/-- A state and its queues, in which a semaphore works through its requests in order. -/
structure InOrder (sem : S) (s : State E S) (a : Queues E S) : Prop where
  refines : Refines s a
  located : ∃ place, Located a place
  fifo : Fifo sem a
  starved : HeadStarved sem a

theorem InOrder.step {s s' : State E S} {call : Call E S} (h : InOrder sem s a)
    (hstep : AdmissibleStep sem s call s') : ∃ a', a.Step call a' ∧ InOrder sem s' a' := by
  obtain ⟨href, ⟨place, hlocated⟩, hfifo, hstarved⟩ := h
  obtain ⟨hstep, hadmissible⟩ := hstep
  obtain ⟨a', place', hstep', href', hlocated'⟩ := href.step hlocated hstep
  obtain ⟨hfifo', hstarved'⟩ :=
    hfifo.perform hstarved hlocated hstep'.1 (href.core ▸ hadmissible) hstep'.2
  exact ⟨a', hstep', href', ⟨place', hlocated'⟩, hfifo', hstarved'⟩

omit [DecidableEq E] in
theorem Initial.inOrder {s : State E S} (h : Initial s) (hunits : 0 ≤ (s.sem sem).units)
    (hlimit : (s.sem sem).units ≤ (s.sem sem).limit) :
    InOrder sem s (Queues.initial s.toCore) where
  refines := h.refines
  located := ⟨_, h.located⟩
  fifo := ⟨by simp [Queues.queued, Queues.initial, h.trace], by simp [Queues.queued, Queues.initial],
    hunits, hlimit⟩
  starved := by simp [HeadStarved, Queues.queued, Queues.initial]

/-- A thread has asked for two units of a semaphore that has one. -/
theorem run_starved : ∃ s : State Unit Unit,
    Run (AdmissibleStep ()) (booted fun _ => ⟨1, 2⟩) [.ut_create 1 4096, .ut_run, .sem_wait () 2 0] s ∧
      requests () s.trace = [(.user 1, 2)] ∧ grants () s.trace = [] := by
  have hstarted : Run (AdmissibleStep ()) (booted fun _ => ⟨1, 2⟩) [.ut_create 1 4096, .ut_run]
      (started fun _ => ⟨1, 2⟩ : State Unit Unit) :=
    .snoc (.snoc .nil ⟨step_created _, trivial⟩) ⟨step_started _, trivial⟩
  have hwait : Step (started fun _ => ⟨1, 2⟩ : State Unit Unit) (.sem_wait () 2 0) _ :=
    ⟨⟨⟨1, rfl⟩, started_frame _ 0⟩, 0, rfl⟩
  exact ⟨_, hstarted.snoc ⟨hwait, by simp [Admissible]⟩, rfl, rfl⟩

end oslabs.uthread
