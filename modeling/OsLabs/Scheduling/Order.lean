import OsLabs.Lib.Rota
import OsLabs.Scheduling.Queue

open oslabs.ring oslabs.rota oslabs.run
open oslabs.uthread (Thread Obs)

namespace oslabs.scheduling

/-- The block a thread lives in. The main thread has none. -/
def block? : Thread → Option Nat
  | .main => none
  | .user block => some block

/-- The threads a run dispatched, by their blocks. -/
def dispatched {S : Type} (trace : List (Obs S)) : List (Option Nat) :=
  trace.filterMap fun
    | .dispatch t => some (block? t)
    | _ => none

/-- The numbers of the threads in a queue. -/
def numbers (number : Nat → Nat) (queue : List Thread) : List Nat :=
  queue.filterMap fun t => (block? t).map number

@[simp] theorem dispatched_append {S : Type} (trace more : List (Obs S)) :
    dispatched (trace ++ more) = dispatched trace ++ dispatched more :=
  List.filterMap_append

@[simp] theorem dispatched_nil {S : Type} : dispatched ([] : List (Obs S)) = [] := rfl

@[simp] theorem dispatched_cons_ready {S : Type} (t : Thread) (trace : List (Obs S)) :
    dispatched (.ready t :: trace) = dispatched trace := rfl

@[simp] theorem dispatched_cons_dispatch {S : Type} (t : Thread) (trace : List (Obs S)) :
    dispatched (.dispatch t :: trace) = block? t :: dispatched trace := rfl

@[simp] theorem numbers_append (number : Nat → Nat) (queue more : List Thread) :
    numbers number (queue ++ more) = numbers number queue ++ numbers number more :=
  List.filterMap_append

@[simp] theorem numbers_user (number : Nat → Nat) (block : Nat) :
    numbers number [.user block] = [number block] := rfl

theorem numbers_cons_user (number : Nat → Nat) (block : Nat) (queue : List Thread) :
    numbers number (.user block :: queue) = number block :: numbers number queue := rfl

/-- A number given to a new block changes no number in a queue it is not in. -/
theorem numbers_update {number : Nat → Nat} {block created : Nat} {queue : List Thread}
    (hnew : .user block ∉ queue) :
    numbers (Function.update number block created) queue = numbers number queue := by
  apply List.filterMap_congr
  intro t hmem
  cases t with
  | main => rfl
  | user other =>
    have hne : other ≠ block := by
      rintro rfl
      exact hnew hmem
    simp [block?, hne]

theorem numbers_eq_nil_iff {number : Nat → Nat} {queue : List Thread} (hmain : .main ∉ queue) :
    numbers number queue = [] ↔ queue = [] := by
  cases queue with
  | nil => simp [numbers]
  | cons t queue =>
    cases t with
    | main => exact absurd List.mem_cons_self hmain
    | user block => simp [numbers_cons_user]

/-- What either scheduler shows: its ready queue, the running thread and the trace. -/
structure View (S : Type) where
  ready : List Thread
  running : Option Thread
  trace : List (Obs S)

/-- The head of the queue is dispatched, or the main thread when there is none. -/
def View.dispatch {S : Type} (v : View S) : View S where
  ready := v.ready.tail
  running := some (v.ready.headD .main)
  trace := v.trace ++ [.dispatch (v.ready.headD .main)]

def View.insert {S : Type} (v : View S) (t : Thread) : View S :=
  { v with ready := v.ready ++ [t], trace := v.trace ++ [.ready t] }

/-- What the operations of a program do to the view, in either scheduler. -/
inductive View.Step {S : Type} (v : View S) : Op → Nat → View S → Prop where
  | create {block : Nat} (hready : .user block ∉ v.ready) (hrunning : v.running ≠ some (.user block)) :
      Step v .create block (v.insert (.user block))
  | run {block : Nat} (hrunning : v.running.bind block? = none) (hready : v.ready ≠ []) :
      Step v .run block v.dispatch
  | alone {block curr : Nat} (hrunning : v.running = some (.user curr)) (hready : v.ready = []) :
      Step v .yield block v
  | yield {block curr : Nat} (hrunning : v.running = some (.user curr)) (hready : v.ready ≠ []) :
      Step v .yield block (v.insert (.user curr)).dispatch
  | exit {block curr : Nat} (hrunning : v.running = some (.user curr)) : Step v .exit block v.dispatch

/-- A round robin has the threads of a view in its queue and on the processor, by
    their numbers. -/
structure Numbered {S : Type} (number : Nat → Nat) (v : View S) (r : Rota) : Prop where
  main : .main ∉ v.ready
  ready : r.ready = numbers number v.ready
  running : r.running = (v.running.bind block?).map number

section Views

variable {S : Type} {number : Nat → Nat} {v v' : View S} {r : Rota} {op : Op} {block : Nat}

theorem Numbered.ready_eq_nil_iff (h : Numbered number v r) : r.ready = [] ↔ v.ready = [] := by
  rw [h.ready, numbers_eq_nil_iff h.main]

theorem Numbered.dispatch (hmain : .main ∉ v.ready) (hready : r.ready = numbers number v.ready) :
    Numbered number v.dispatch r.dispatch ∧
      r.dispatch.order = r.order ++ [(block? (v.ready.headD .main)).map number] := by
  unfold Rota.dispatch View.dispatch
  cases hcase : v.ready with
  | nil =>
    rw [hcase] at hready
    rw [show r.ready = [] from hready]
    exact ⟨⟨List.not_mem_nil, rfl, rfl⟩, rfl⟩
  | cons t ready =>
    rw [hcase] at hready hmain
    cases t with
    | main => exact absurd List.mem_cons_self hmain
    | user block =>
      rw [show r.ready = number block :: numbers number ready from hready]
      exact ⟨⟨fun hmem => hmain (List.mem_cons_of_mem _ hmem), rfl, rfl⟩, rfl⟩

/-- Every operation does to the view what the round robin does to the numbers. -/
theorem Numbered.step (h : Numbered number v r) (hstep : v.Step op block v') :
    ∃ r' more, r.step op = some r' ∧ Numbered (numbered op number r.created block) v' r' ∧
      dispatched v'.trace = dispatched v.trace ++ more ∧
      r'.order = r.order ++ more.map (·.map (numbered op number r.created block)) := by
  cases hstep with
  | create hready hrunning =>
    refine ⟨_, [], rfl, ⟨by simp [View.insert, h.main], ?_, ?_⟩, by simp [View.insert], by simp⟩
    · simp [numbered, View.insert, numbers_update hready, h.ready]
    · cases hcase : v.running with
      | none => simp [View.insert, h.running, hcase]
      | some t =>
        cases t with
        | main => simp [View.insert, h.running, hcase, block?]
        | user other =>
          have hne : other ≠ block := by
            rintro rfl
            exact hrunning hcase
          simp [View.insert, h.running, hcase, block?, numbered, hne]
  | run hrunning hready =>
    obtain ⟨hnext, horder⟩ := Numbered.dispatch h.main h.ready
    refine ⟨_, [block? (v.ready.headD .main)], ?_, hnext, by simp [View.dispatch], horder⟩
    simp [Rota.step, h.ready_eq_nil_iff, hready, h.running, hrunning]
  | @alone _ curr hrunning hready =>
    have hcurr : r.running = some (number curr) := by rw [h.running, hrunning]; rfl
    refine ⟨r, [], ?_, h, by simp, by simp⟩
    simp [Rota.step, hcurr, h.ready_eq_nil_iff, hready]
  | @yield _ curr hrunning hready =>
    have hcurr : r.running = some (number curr) := by rw [h.running, hrunning]; rfl
    have hadded : { r with ready := r.ready ++ [number curr] }.ready =
        numbers number (v.insert (.user curr)).ready := by
      simp [View.insert, h.ready]
    obtain ⟨hnext, horder⟩ := Numbered.dispatch (by simp [View.insert, h.main]) hadded
    refine ⟨_, [block? ((v.insert (.user curr)).ready.headD .main)], ?_, hnext, ?_, horder⟩
    · simp [Rota.step, hcurr, h.ready_eq_nil_iff, hready]
    · simp [View.dispatch, View.insert]
  | @exit _ curr hrunning =>
    have hcurr : r.running = some (number curr) := by rw [h.running, hrunning]; rfl
    obtain ⟨hnext, horder⟩ := Numbered.dispatch h.main h.ready
    refine ⟨_, [block? (v.ready.headD .main)], ?_, hnext, by simp [View.dispatch], horder⟩
    simp [Rota.step, hcurr]

end Views

theorem running_eq_user {running : Option Thread} {block : Nat} (h : running.bind block? = some block) :
    running = some (.user block) := by
  obtain ⟨t, rfl, ht⟩ := Option.bind_eq_some_iff.mp h
  cases t with
  | main => cases ht
  | user other =>
    obtain rfl : other = block := Option.some.inj ht
    rfl

theorem running_eq_none {running : Option Thread} (h : running.bind block? = none)
    (hmain : running ≠ some .main) : running = none := by
  cases running with
  | none => rfl
  | some t =>
    cases t with
    | main => exact absurd rfl hmain
    | user block => cases h

section Uthread

variable {E S : Type} [DecidableEq E] [DecidableEq S]

/-- The call that performs an operation, with the blocks `malloc` returns in it. -/
def uthread_call (E S : Type) (block stack : Nat) : Op → uthread.Call E S
  | .create => .ut_create block stack
  | .run => .ut_run
  | .yield => .ut_yield
  | .exit => .ut_exit

/-- The scheduler with synchronisation objects as the host of a program. A program
    calls `ut_run` when a thread it created is ready. Once the main thread is
    dispatched, `ut_run` comes to its end before the program goes on. -/
def uthread_host (E S : Type) [DecidableEq E] [DecidableEq S] : Host (uthread.State E S) where
  initial := uthread.Initial
  running s := s.running_thread.bind block?
  dispatched s := dispatched s.trace
  perform s op block s' :=
    ∃ stack called, uthread.Step s (uthread_call E S block stack op) called ∧
      (op = .run → list.is_list_empty s.links .ready_queue = false) ∧
      if called.running_thread = some .main then uthread.Step called .ut_run_resumed s'
      else s' = called

def uthread_view (a : uthread.Queues E S) : View S :=
  ⟨a.ready, a.running_thread, a.trace⟩

/-- The relation that host keeps to the round robin. Nobody waits for an event or a semaphore,
    and between two operations the main thread has returned from `ut_run`. -/
def UthreadFollows (s : uthread.State E S) (number : Nat → Nat) (r : Rota) : Prop :=
  ∃ a place, uthread.Refines s a ∧ uthread.Located a place ∧ Numbered number (uthread_view a) r ∧
    (∀ sync, a.waiters sync = []) ∧ a.running_thread ≠ some .main

/-- `malloc` has no two blocks for a thread. -/
def NoRoom (s : uthread.State E S) : Prop :=
  ∀ block stack, ¬ uthread.MallocFresh s.toCore block stack

theorem uthread_view_step {a b : uthread.Queues E S} {place : Thread → uthread.Place E S} {op : Op}
    {block stack : Nat} (hlocated : uthread.Located a place)
    (hallowed : uthread.Allowed a.toCore (uthread_call E S block stack op))
    (hperform : a.perform (uthread_call E S block stack op) = some b)
    (hready : op = .run → a.ready ≠ []) : (uthread_view a).Step op block (uthread_view b) := by
  cases op with
  | create =>
    obtain ⟨_, hfresh⟩ := hallowed
    obtain rfl := Option.some.inj hperform
    have hgone : place (.user block) = .gone := by
      by_contra hplace
      exact hfresh.block_fresh ((hlocated.live block).mpr hplace)
    apply View.Step.create (hlocated.not_queued (.inr hgone)).1
    intro hrunning
    rw [(hlocated.running _).mpr hrunning] at hgone
    cases hgone
  | run =>
    have hnone : a.running_thread = none := hallowed
    simp only [uthread_call, uthread.Queues.perform, hnone, if_true, if_neg (hready rfl)] at hperform
    obtain rfl := uthread.Queues.eq_of_dispatch hperform rfl
    exact .run (by rw [uthread_view, hnone]; rfl) (hready rfl)
  | yield =>
    obtain ⟨curr, hrunning⟩ := hallowed
    by_cases hnil : a.ready = []
    · obtain rfl : a = b := by simpa [uthread_call, uthread.Queues.perform, hnil] using hperform
      exact .alone hrunning hnil
    · rw [uthread_call, uthread.Queues.perform_ut_yield hrunning hnil] at hperform
      obtain rfl := uthread.Queues.eq_of_dispatch hperform (hlocated.main_of_running hrunning)
      exact .yield hrunning hnil
  | exit =>
    obtain ⟨curr, hrunning⟩ := hallowed
    rw [uthread_call, uthread.Queues.perform_ut_exit hrunning rfl] at hperform
    obtain rfl := uthread.Queues.eq_of_dispatch hperform (hlocated.main_of_running hrunning)
    exact .exit hrunning

/-- The operations of a program put nobody to wait. -/
theorem waiters_of_perform {a b : uthread.Queues E S} {op : Op} {block stack : Nat}
    (hallowed : uthread.Allowed a.toCore (uthread_call E S block stack op))
    (hperform : a.perform (uthread_call E S block stack op) = some b) : b.waiters = a.waiters := by
  have hdispatch : ∀ c : uthread.Queues E S, c.dispatch = some b → b.waiters = c.waiters := by
    intro c hdispatch
    simp only [uthread.Queues.dispatch] at hdispatch
    split at hdispatch
    · exact (congrArg _ (Option.some.inj hdispatch)).symm
    · split at hdispatch
      · exact (congrArg _ (Option.some.inj hdispatch)).symm
      · cases hdispatch
  cases op with
  | create =>
    obtain rfl := Option.some.inj hperform
    rfl
  | run =>
    cases uthread.Queues.move_of_perform hallowed hperform with
    | run_nothing => rfl
    | run hnext => exact (hdispatch _ hnext :)
  | yield =>
    cases uthread.Queues.move_of_perform hallowed hperform with
    | yield_alone => rfl
    | yield _ hnext => exact (hdispatch _ hnext :)
  | exit =>
    cases uthread.Queues.move_of_perform hallowed hperform with
    | exit _ hnext => exact (hdispatch _ hnext :)

omit [DecidableEq E] [DecidableEq S] in
/-- Where nobody waits, the main thread comes back when all threads have exited. -/
theorem uthread_settles {a : uthread.Queues E S} {place : Thread → uthread.Place E S}
    (hlocated : uthread.Located a place) (hnobody : ∀ sync, a.waiters sync = [])
    (hback : a.running_thread = some .main) : a.ready = [] ∧ a.number_of_threads = 0 := by
  have hready := hlocated.idle hback
  have hlive : a.live = ∅ := by
    rw [Finset.eq_empty_iff_forall_notMem]
    intro block hmem
    have hplace := (hlocated.live block).1 hmem
    cases hcase : place (.user block) with
    | gone => exact hplace hcase
    | running =>
      rw [hlocated.running, hback] at hcase
      cases hcase
    | ready =>
      rw [← hlocated.mem_ready, hready] at hcase
      cases hcase
    | blocked sync =>
      rw [← hlocated.mem_blocked, uthread.Queues.blocked, hnobody] at hcase
      cases hcase
  refine ⟨hready, ?_⟩
  have hcount := hlocated.count
  rw [hlive, Finset.card_empty] at hcount
  exact UInt32.toNat_inj.1 hcount

theorem uthread_follows : Follows (uthread_host E S) UthreadFollows where
  initial h number hinitial := by
    refine ⟨_, _, hinitial.refines, hinitial.located, ⟨List.not_mem_nil, rfl, ?_⟩, fun _ => rfl, ?_⟩
    · simp [uthread_view, uthread.Queues.initial, hinitial.running_thread, Rota.initial]
    · simp [uthread.Queues.initial, hinitial.running_thread]
  running h number r hfollows := by
    obtain ⟨a, place, href, _, hnumbered, _⟩ := hfollows
    rw [hnumbered.running, uthread_view, ← congrArg uthread.Core.running_thread href.core]
    rfl
  step h number r op block h' hfollows hperform := by
    obtain ⟨a, place, href, hlocated, hnumbered, hnobody, _⟩ := hfollows
    obtain ⟨stack, called, hcalled, hready, hsettled⟩ := hperform
    obtain ⟨b, place', ⟨hallowed, hb⟩, href', hlocated'⟩ := href.step hlocated hcalled
    have hrun : op = .run → a.ready ≠ [] := by
      intro heq hnil
      rw [href.is_list_empty_ready.mpr hnil] at hready
      exact absurd (hready heq) (by simp)
    obtain ⟨r', more, hr', hnumbered', htrace, horder⟩ :=
      hnumbered.step (uthread_view_step hlocated hallowed hb hrun)
    simp only [uthread_view] at htrace
    have hwaiters := waiters_of_perform hallowed hb
    by_cases hback : called.running_thread = some .main
    · -- The main thread is dispatched: `ut_run` ends, and nobody else is dispatched.
      rw [if_pos hback] at hsettled
      obtain ⟨c, place'', ⟨_, hc⟩, href'', hlocated''⟩ := href'.step hlocated' hsettled
      have hback' : b.running_thread = some .main := by rw [← hback, href'.core]
      simp only [uthread.Queues.perform] at hc
      split at hc
      · obtain rfl := Option.some.inj hc
        have hnone := hnumbered'.running
        simp only [uthread_view, hback', Option.bind_some, block?, Option.map_none] at hnone
        refine ⟨r', more, hr', ⟨_, place'', href'', hlocated'', ⟨hnumbered'.main, hnumbered'.ready, ?_⟩, ?_, ?_⟩,
          ?_, horder⟩
        · simp [uthread_view, hnone]
        · exact fun sync => (congrFun hwaiters sync).trans (hnobody sync)
        · simp
        · simp only [uthread_host, href''.core, href.core, htrace]
      · cases hc
    · rw [if_neg hback] at hsettled
      subst hsettled
      refine ⟨r', more, hr', ⟨b, place', href', hlocated', hnumbered', ?_, ?_⟩, ?_, horder⟩
      · exact fun sync => (congrFun hwaiters sync).trans (hnobody sync)
      · rwa [← href'.core]
      · simp only [uthread_host, href'.core, href.core, htrace]

/-- Every operation comes to its end, also where the main thread comes back, as long as
    there is room for the threads created. -/
theorem uthread_keepsPace : KeepsPace (uthread_host E S) UthreadFollows NoRoom := by
  rintro s number r op r' ⟨a, place, href, hlocated, hnumbered, hnobody, hmain⟩ hstep
  have hperform : ∀ block stack, uthread.Allowed s.toCore (uthread_call E S block stack op) →
      (op = .run → a.ready ≠ []) → ∃ block s', (uthread_host E S).perform s op block s' := by
    intro block stack hallowed hready
    have hready' : op = .run → list.is_list_empty s.links .ready_queue = false := by
      intro heq
      rw [Bool.eq_false_iff, ne_eq, href.is_list_empty_ready]
      exact hready heq
    obtain ⟨called, hcalled⟩ :=
      href.exists_step hlocated hallowed (.inl (by cases op <;> simp [uthread_call]))
    by_cases hback : called.running_thread = some .main
    · obtain ⟨b, place', ⟨hallowed', hb⟩, href', hlocated'⟩ := href.step hlocated hcalled
      have hnobody' : ∀ sync, b.waiters sync = [] := by
        rw [waiters_of_perform hallowed' hb]
        exact hnobody
      have hsettled := uthread_settles hlocated' hnobody' (by rw [← hback, href'.core])
      obtain ⟨s', hresumed⟩ := href'.exists_step hlocated'
        (show uthread.Allowed called.toCore .ut_run_resumed from hback) (.inr hsettled)
      exact ⟨block, s', stack, called, hcalled, hready', by rwa [if_pos hback]⟩
    · exact ⟨block, called, stack, called, hcalled, hready', by rw [if_neg hback]⟩
  have hrunning := hnumbered.running
  cases op with
  | create =>
    by_cases hfull : NoRoom s
    · exact .inr ⟨rfl, hfull⟩
    · simp only [NoRoom, not_forall, not_not] at hfull
      obtain ⟨block, stack, hfresh⟩ := hfull
      refine .inl (hperform block stack ⟨?_, hfresh⟩ (by simp))
      rwa [href.core]
  | run =>
    simp only [Rota.step, Option.ite_none_right_eq_some] at hstep
    obtain ⟨⟨hnone, hready⟩, _⟩ := hstep
    rw [ne_eq, hnumbered.ready_eq_nil_iff] at hready
    refine .inl (hperform 0 0 ?_ fun _ => hready)
    show s.running_thread = none
    rw [href.core]
    rw [hnone, eq_comm, Option.map_eq_none_iff, uthread_view] at hrunning
    exact running_eq_none hrunning hmain
  | yield | exit =>
    obtain ⟨number', hsome, _⟩ := Option.map_eq_some_iff.mp hstep
    rw [hsome, eq_comm, Option.map_eq_some_iff] at hrunning
    obtain ⟨block, hblock, _⟩ := hrunning
    refine .inl (hperform 0 0 ⟨block, ?_⟩ (by simp))
    rw [href.core]
    exact running_eq_user hblock

end Uthread

/-- The call that performs an operation, with the block `mmap` returns in it. -/
def scheduling_call (block : Nat) : Op → Call
  | .create => .ut_create block
  | .run => .ut_run
  | .yield => .ut_yield
  | .exit => .ut_exit

/-- The scheduler without synchronisation objects as the host of a program. -/
def scheduling_host : Host State where
  initial := Initial
  running s := s.running_thread.bind block?
  dispatched s := dispatched s.trace
  perform s op block s' := Step s (scheduling_call block op) s' ∧
    (op = .run → is_list_empty s.links .ready_queue = false)

def scheduling_view (a : Queue) : View Empty :=
  ⟨a.ready, a.running_thread, a.trace⟩

/-- The relation that host keeps to the round robin. -/
def SchedulingFollows (s : State) (number : Nat → Nat) (r : Rota) : Prop :=
  ∃ a past start, Refines s a ∧ Rotating past start a ∧ Numbered number (scheduling_view a) r

theorem scheduling_view_step {a b : Queue} {past : List (Obs Empty)} {start : List Thread} {op : Op}
    {block : Nat} (hrotating : Rotating past start a)
    (hallowed : Allowed a.toCore (scheduling_call block op))
    (hperform : a.perform (scheduling_call block op) = some b)
    (hready : op = .run → a.ready ≠ []) : (scheduling_view a).Step op block (scheduling_view b) := by
  cases op with
  | create =>
    have hfresh : block ∉ a.live := hallowed
    rw [hrotating.live, not_or] at hfresh
    obtain rfl := Option.some.inj hperform
    exact .create hfresh.1 hfresh.2
  | run =>
    obtain rfl := Queue.eq_of_dispatch hperform rfl
    apply View.Step.run _ (hready rfl)
    rcases hallowed with hrunning | hrunning <;> rw [scheduling_view, hrunning] <;> rfl
  | yield =>
    obtain ⟨curr, hrunning⟩ := hallowed
    by_cases hnil : a.ready = []
    · obtain rfl : a = b := by simpa [scheduling_call, Queue.perform, hnil] using hperform
      exact .alone hrunning hnil
    · rw [scheduling_call, Queue.perform_ut_yield hrunning hnil] at hperform
      obtain rfl := Queue.eq_of_dispatch hperform (hrotating.main_thread curr hrunning)
      exact .yield hrunning hnil
  | exit =>
    obtain ⟨curr, hrunning⟩ := hallowed
    rw [scheduling_call, Queue.perform_ut_exit hrunning] at hperform
    obtain rfl := Queue.eq_of_dispatch hperform (hrotating.main_thread curr hrunning)
    exact .exit hrunning

theorem scheduling_follows : Follows scheduling_host SchedulingFollows where
  initial h number hinitial := by
    refine ⟨_, [], [], hinitial.refines, hinitial.rotating, List.not_mem_nil, rfl, ?_⟩
    simp [scheduling_view, hinitial.running_thread, Rota.initial]
  running h number r hfollows := by
    obtain ⟨a, _, _, href, _, hnumbered⟩ := hfollows
    rw [hnumbered.running, scheduling_view, ← congrArg Core.running_thread href.core]
    rfl
  step h number r op block h' hfollows hperform := by
    obtain ⟨a, past, start, href, hrotating, hnumbered⟩ := hfollows
    obtain ⟨hstep, hready⟩ := hperform
    obtain ⟨b, hb, href', hrotating'⟩ := href.step hrotating hstep
    have hrun : op = .run → a.ready ≠ [] := by
      intro heq hnil
      rw [href.is_list_empty.mpr hnil] at hready
      exact absurd (hready heq) (by simp)
    obtain ⟨r', more, hr', hnumbered', htrace, horder⟩ :=
      hnumbered.step (scheduling_view_step hrotating (href.core ▸ hstep.1) hb hrun)
    simp only [scheduling_view] at htrace
    refine ⟨r', more, hr', ⟨b, past, start, href', hrotating', hnumbered'⟩, ?_, horder⟩
    simp only [scheduling_host, href'.core, href.core, htrace]

/-- Every operation comes to its end. -/
theorem scheduling_keepsPace : KeepsPace scheduling_host SchedulingFollows fun _ => False := by
  rintro s number r op r' ⟨a, past, start, href, hrotating, hnumbered⟩ hstep
  have hperform : ∀ block, Allowed s.toCore (scheduling_call block op) → (op = .run → a.ready ≠ []) →
      ∃ block s', scheduling_host.perform s op block s' := by
    intro block hallowed hready
    obtain ⟨b, hb, _⟩ := hrotating.perform (href.core ▸ hallowed)
    obtain ⟨s', hs', _⟩ := href.perform hrotating hallowed hb
    refine ⟨block, s', ⟨hallowed, hs'⟩, fun heq => ?_⟩
    rw [Bool.eq_false_iff, ne_eq, href.is_list_empty]
    exact hready heq
  have hrunning := hnumbered.running
  left
  cases op with
  | create =>
    obtain ⟨block, hfresh⟩ := Infinite.exists_notMem_finset s.live
    exact hperform block hfresh (by simp)
  | run =>
    simp only [Rota.step, Option.ite_none_right_eq_some] at hstep
    obtain ⟨⟨hnone, hready⟩, _⟩ := hstep
    rw [ne_eq, hnumbered.ready_eq_nil_iff] at hready
    refine hperform 0 ?_ fun _ => hready
    rw [hnone, eq_comm, Option.map_eq_none_iff] at hrunning
    by_cases hmain : a.running_thread = some .main
    · exact .inr (by rw [href.core, hmain])
    · left
      rw [href.core]
      exact running_eq_none hrunning hmain
  | yield | exit =>
    obtain ⟨number', hsome, _⟩ := Option.map_eq_some_iff.mp hstep
    rw [hsome, eq_comm, Option.map_eq_some_iff] at hrunning
    obtain ⟨block, hblock, _⟩ := hrunning
    refine hperform 0 ⟨block, ?_⟩ (by simp)
    rw [href.core]
    exact running_eq_user hblock

end oslabs.scheduling
