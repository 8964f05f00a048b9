import OsLabs.Lib.Lending
import OsLabs.UThread.Fifo
import OsLabs.UThread.Termination

open oslabs.ring oslabs.list oslabs.run oslabs.lending

namespace oslabs.uthread

variable {E S : Type} [DecidableEq S] {sem : S} {posted : Nat → Int} {total : Int}

/-- The units of a semaphore granted to a thread so far. -/
def granted (sem : S) (trace : List (Obs S)) (block : Nat) : Int :=
  ((grants sem trace).map fun request => if request.1 = .user block then request.2.toInt else 0).sum

/-- What a thread holds of a semaphore: it got these units, and has not posted them. -/
def held (sem : S) (trace : List (Obs S)) (posted : Nat → Int) (block : Nat) : Int :=
  granted sem trace block - posted block

/-- The units that a call adds to a semaphore. -/
def Call.posts (sem : S) : Call E S → Int
  | .sem_post other units => if other = sem then units.toInt else 0
  | _ => 0

/-- What each thread has posted, once the running thread has made a call. -/
def record (sem : S) (c : Core E S) (call : Call E S) (posted : Nat → Int) (block : Nat) : Int :=
  if c.running_thread = some (.user block) then posted block + call.posts sem else posted block

/-- A thread posts no more than it holds, and holds nothing when it exits. -/
def Honest (sem : S) (c : Core E S) (posted : Nat → Int) : Call E S → Prop
  | .sem_wait other units _ => other = sem → 0 < units
  | .sem_post other units => other = sem → 0 ≤ units ∧
    ∀ block, c.running_thread = some (.user block) → units.toInt ≤ held sem c.trace posted block
  | .ut_exit => ∀ block, c.running_thread = some (.user block) → held sem c.trace posted block = 0
  | _ => True

/-- The units of a semaphore, free or held by the threads in use, are as many as at the start. -/
structure Lent (sem : S) (total : Int) (posted : Nat → Int) (a : Queues E S) : Prop where
  lends : Lends total (a.sem sem).units.toInt (held sem a.trace posted) a.live
  limit : total ≤ (a.sem sem).limit.toInt

theorem granted_append_grant (trace : List (Obs S)) (t : Thread) (units : Int32) (block : Nat) :
    granted sem (trace ++ [.grant sem t units]) block =
      granted sem trace block + if t = .user block then units.toInt else 0 := by
  simp [granted]

theorem granted_congr {trace trace' : List (Obs S)} (h : grants sem trace' = grants sem trace) :
    granted sem trace' = granted sem trace := by
  funext block
  rw [granted, h, granted]

theorem held_congr {trace trace' : List (Obs S)} (h : grants sem trace' = grants sem trace) :
    held sem trace' posted = held sem trace posted := by
  funext block
  rw [held, granted_congr h, held]

/-- A grant to a thread is what it holds more. -/
theorem held_grant {trace trace' : List (Obs S)} {block : Nat} {units : Int32}
    (h : grants sem trace' = grants sem (trace ++ [.grant sem (.user block) units])) :
    held sem trace' posted =
      Function.update (held sem trace posted) block (held sem trace posted block + units.toInt) := by
  funext other
  rw [held, granted_congr h, granted_append_grant, Function.update_apply]
  by_cases heq : other = block
  · simp only [heq, if_true, held]
    omega
  · rw [if_neg fun hsame => heq (Thread.user.inj hsame).symm, if_neg heq, add_zero, held]

theorem record_eq {c : Core E S} {call : Call E S} (h : call.posts sem = 0) :
    record sem c call posted = posted := by
  funext block
  rw [record, h, add_zero, ite_self]

variable [DecidableEq E] {a b : Queues E S} {place : Thread → Place E S} {call : Call E S}

omit [DecidableEq E] [DecidableEq S] in
theorem Queued.exists_user (h : Queued a place) {sync : Sync E S} {t : Thread} (ht : t ∈ a.blocked sync) :
    ∃ block ∈ a.live, t = .user block := by
  cases t with
  | main => exact absurd ht (h.not_main_blocked sync)
  | user block =>
    refine ⟨block, ?_, rfl⟩
    rw [h.live, (h.mem_blocked sync _).mp ht]
    simp

/-- Granting the first request lends its units to its thread. -/
theorem Lent.grant (h : Lent sem total posted a) (hqueued : Queued a place) (hfifo : Fifo sem a)
    {wblock : Nat} {rest : List Nat} (hwaiters : a.waiters (.sem sem) = wblock :: rest)
    (hfits : a.wblock_units wblock ≤ (a.sem sem).units) : Lent sem total posted (a.grant sem) := by
  obtain ⟨block, hlive, hthread⟩ :=
    hqueued.exists_user (mem_blocked_of_mem_waiters (hwaiters ▸ List.mem_cons_self))
  have hpositive : 0 < a.wblock_units wblock :=
    hfifo.positive (a.wblock_thread wblock, a.wblock_units wblock) (by simp [Queues.queued, hwaiters])
  have hnonneg := nonneg_iff.mp (Int32.le_of_lt hpositive)
  have hunits : ((a.grant sem).sem sem).units = (a.sem sem).units - a.wblock_units wblock := by
    simp [Queues.grant, Queues.wake, Queues.activate, hwaiters, take_units]
  have hlimit : ((a.grant sem).sem sem).limit = (a.sem sem).limit := by
    simp [Queues.grant, Queues.wake, Queues.activate, hwaiters, take_units]
  have hgrantlive : (a.grant sem).live = a.live := by
    simp [Queues.grant, Queues.wake, Queues.activate, hwaiters, take_units]
  have hgrants : grants sem (a.grant sem).trace =
      grants sem (a.trace ++ [.grant sem (.user block) (a.wblock_units wblock)]) := by
    simp only [a.trace_grant hwaiters, hthread, grants_append, grants_ready, List.append_nil]
  refine ⟨?_, by rw [hlimit]; exact h.limit⟩
  rw [hunits, hgrantlive, held_grant hgrants, toInt_sub_of_le (Int32.le_of_lt hpositive) hfits]
  exact h.lends.lend hlive hnonneg

theorem Lent.release (h : Lent sem total posted a) (hqueued : Queued a place) (hfifo : Fifo sem a) :
    Lent sem total posted (a.release sem) := by
  apply Queues.release_induction (P := fun a b => ∀ place, Queued a place → Fifo sem a →
    Lent sem total posted a → Lent sem total posted b)
  · exact fun a _ place _ _ h => h
  · intro a wblock rest hwaiters _ hfits ih place hqueued hfifo h
    have hfits := Int32.not_lt.mp hfits
    exact ih _ (hqueued.grant hwaiters) (hfifo.grant hwaiters hfits) (h.grant hqueued hfifo hwaiters hfits)
  · exact hqueued
  · exact hfifo
  · exact h

omit [DecidableEq E] in
/-- A post of what a thread holds neither wraps around nor reaches the limit. -/
theorem Lent.post_fits (h : Lent sem total posted a) {block : Nat} {units : Int32}
    (hheld : units.toInt ≤ held sem a.trace posted block) :
    (a.sem sem).units.toInt + units.toInt ≤ (a.sem sem).limit.toInt := by
  have hle := h.lends.held_le block
  have hlimit := h.limit
  omega

omit [DecidableEq E] in
theorem Lent.post (h : Lent sem total posted a) (hfifo : Fifo sem a) {block : Nat} {units : Int32}
    (hrunning : a.running_thread = some (.user block)) (hlive : block ∈ a.live) (hunits : 0 ≤ units)
    (hheld : units.toInt ≤ held sem a.trace posted block) :
    Lent sem total (record sem a.toCore (.sem_post sem units : Call E S) posted)
      { a with toCore := add_units a.toCore sem units } := by
  have hfits := h.post_fits hheld
  have hmax := (a.sem sem).limit.toInt_lt
  have hsum := toInt_add_of_lt hfifo.units_nonneg hunits (by omega)
  have hlow : ¬ (a.sem sem).units + units > (a.sem sem).limit := by
    rw [gt_iff_lt, Int32.lt_iff_toInt_lt, hsum]
    omega
  have hrecord : held sem a.trace (record sem a.toCore (.sem_post sem units : Call E S) posted) =
      Function.update (held sem a.trace posted) block (held sem a.trace posted block - units.toInt) := by
    funext other
    rw [held, record, hrunning, Function.update_apply]
    by_cases heq : other = block
    · simp only [heq, if_true, held, Call.posts]
      omega
    · have hother : ¬ some (Thread.user block) = some (.user other) := by simpa using Ne.symm heq
      rw [if_neg hother, if_neg heq, held]
  constructor
  · simp only [add_units, Function.update_self, if_neg hlow, hsum, hrecord]
    exact h.lends.give_back hlive hheld
  · simpa [add_units] using h.limit

/-- Where no units change hands, threads come and go with nothing. -/
theorem Lent.frame (h : Lent sem total posted a) (hsame : SameSem sem a b) (hmove : a.Move call b)
    (hexit : call = .ut_exit →
      ∀ block, a.running_thread = some (.user block) → held sem a.trace posted block = 0) :
    Lent sem total posted b := by
  have hmoved := hmove.live
  refine ⟨?_, by rw [hsame.sem_eq]; exact h.limit⟩
  rw [hsame.sem_eq, held_congr hsame.grants_eq]
  cases call with
  | ut_create new stack =>
    rw [hmoved]
    exact h.lends.widen (Finset.subset_insert _ _)
  | ut_exit =>
    obtain ⟨block, hrunning, hlive⟩ := hmoved
    rw [hlive]
    exact h.lends.erase (hexit rfl block hrunning)
  | _ =>
    have hlive : b.live = a.live := hmoved
    rw [hlive]
    exact h.lends

omit [DecidableEq E] in
theorem Lent.fast (h : Lent sem total posted a) {block : Nat} {units : Int32} (hlive : block ∈ a.live)
    (hpos : 0 < units) (hfits : units ≤ (a.sem sem).units) : Lent sem total posted { a with
      sem := Function.update a.sem sem { a.sem sem with units := (a.sem sem).units - units }
      trace := a.trace ++ [.request sem (.user block) units] ++ [.grant sem (.user block) units] } := by
  have hnonneg := Int32.le_of_lt hpos
  have hgrants : grants sem
      (a.trace ++ [.request sem (.user block) units] ++ [.grant sem (.user block) units]) =
        grants sem (a.trace ++ [.grant sem (.user block) units]) := by
    simp only [grants_append, grants_request, List.append_nil]
  constructor
  · simp only [Function.update_self]
    rw [held_grant hgrants, toInt_sub_of_le hnonneg hfits]
    exact h.lends.lend hlive (nonneg_iff.mp hnonneg)
  · simpa using h.limit

/-- A thread that has to wait is lent nothing yet. -/
theorem Lent.await (h : Lent sem total posted a) {thread : Thread} {units : Int32} {wblock : Nat}
    (hdispatch : (a.await sem thread units wblock).dispatch = some b) : Lent sem total posted b := by
  have hsame : SameSem sem (a.await sem thread units wblock) b := SameSem.dispatch hdispatch (.of_eq rfl rfl)
  have hgrants : grants sem b.trace = grants sem a.trace := by
    rw [hsame.grants_eq, Queues.await, Queues.enqueue]
    simp
  have hsem : b.sem sem = a.sem sem := hsame.sem_eq
  have hlive : b.live = a.live := (Queues.live_of_dispatch hdispatch).trans rfl
  refine ⟨?_, by rw [hsem]; exact h.limit⟩
  rw [hsem, held_congr hgrants, hlive]
  exact h.lends

/-- Every honest call leaves the balance, and keeps to the rules for the semaphore. -/
theorem Lent.perform (h : Lent sem total posted a) (hfifo : Fifo sem a) (hlocated : Located a place)
    (hallowed : Allowed a.toCore call) (hhonest : Honest sem a.toCore posted call)
    (hperform : a.perform call = some b) :
    Lent sem total (record sem a.toCore call posted) b ∧ Admissible sem a.toCore call := by
  have hmove := Queues.move_of_perform hallowed hperform
  have hsem := Queues.semMove sem hlocated hallowed hperform
  cases call with
  | sem_post other units =>
    obtain ⟨block, hrunning⟩ := hallowed
    by_cases heq : other = sem
    · subst heq
      obtain ⟨hunits, hposts⟩ := hhonest rfl
      have hheld := hposts block hrunning
      have hfits := h.post_fits hheld
      have hmax := (a.sem other).limit.toInt_lt
      have hsum : (a.sem other).units.toInt + units.toInt < 2 ^ 31 := by omega
      obtain rfl := Option.some.inj hperform
      refine ⟨?_, fun _ => ⟨hunits, hsum⟩⟩
      have hposted := h.post hfifo hrunning (hlocated.running_live hrunning) hunits hheld
      exact hposted.release hlocated.toQueued.congr (hfifo.added hunits hsum)
    · rw [record_eq (by simp [Call.posts, heq])]
      refine ⟨?_, fun hsame => absurd hsame heq⟩
      cases hsem with
      | frame hsame => exact h.frame hsame hmove (by simp)
      | post => exact absurd rfl heq
  | sem_wait other units wblock =>
    rw [record_eq rfl]
    refine ⟨?_, hhonest⟩
    by_cases heq : other = sem
    · subst heq
      have hpos := hhonest rfl
      cases hmove with
      | @granted _ _ _ block hrunning hfast => exact h.fast (hlocated.running_live hrunning) hpos hfast.2
      | sem_wait hrunning hfresh hslow hdispatch => exact h.await hdispatch
    · cases hsem with
      | frame hsame => exact h.frame hsame hmove (by simp)
      | fast | await => exact absurd rfl heq
  | _ =>
    rw [record_eq rfl]
    refine ⟨?_, trivial⟩
    cases hsem with
    | frame hsame => exact h.frame hsame hmove (by first | exact fun _ => hhonest | simp)

/-- A step of a program whose threads are honest about a semaphore, with what they posted to it. -/
def HonestStep (sem : S) (p : State E S × (Nat → Int)) (call : Call E S)
    (p' : State E S × (Nat → Int)) : Prop :=
  Step p.1 call p'.1 ∧ p'.2 = record sem p.1.toCore call p.2 ∧ Honest sem p.1.toCore p.2 call

/-- A state in which a semaphore works through its requests and its units are lent. -/
structure Lending (sem : S) (total : Int) (p : State E S × (Nat → Int)) (a : Queues E S) : Prop where
  inOrder : InOrder sem p.1 a
  lent : Lent sem total p.2 a

/-- An honest thread keeps to the rules for the semaphore. -/
theorem Lending.step {p p' : State E S × (Nat → Int)} (h : Lending sem total p a)
    (hstep : HonestStep sem p call p') :
    Admissible sem p.1.toCore call ∧ ∃ b, a.Step call b ∧ Lending sem total p' b := by
  obtain ⟨hinOrder, hlent⟩ := h
  obtain ⟨hstep, hrecord, hhonest⟩ := hstep
  obtain ⟨place, hlocated⟩ := hinOrder.located
  obtain ⟨b, _, ⟨hallowed, hperform⟩, href, _⟩ := hinOrder.refines.step hlocated hstep
  rw [hinOrder.refines.core] at hrecord hhonest
  obtain ⟨hlent', hadmissible⟩ := hlent.perform hinOrder.fifo hlocated hallowed hhonest hperform
  rw [← hinOrder.refines.core] at hadmissible
  obtain ⟨b', hstep', hinOrder'⟩ := hinOrder.step ⟨hstep, hadmissible⟩
  obtain rfl := hinOrder'.refines.unique href
  rw [← hrecord] at hlent'
  exact ⟨hadmissible, b', hstep', hinOrder', hlent'⟩

theorem Lending.run {p q : State E S × (Nat → Int)} {calls : List (Call E S)} (h : Lending sem total p a)
    (hrun : Run (HonestStep sem) p calls q) :
    (∃ labels, labels.map Prod.snd = calls ∧ Run (AdmissibleBy sem) p.1 labels q.1) ∧
      ∃ b, Lending sem total q b := by
  induction hrun with
  | nil => exact ⟨⟨[], rfl, .nil⟩, a, h⟩
  | @snoc calls middle last call _ hstep ih =>
    obtain ⟨⟨labels, hcalls, hbefore⟩, b, hmiddle⟩ := ih
    obtain ⟨hadmissible, b', _, hlast⟩ := hmiddle.step hstep
    refine ⟨⟨labels ++ [(middle.1.running_thread, call)], ?_, hbefore.snoc ⟨⟨rfl, hstep.1⟩, hadmissible⟩⟩,
      b', hlast⟩
    rw [List.map_append, hcalls, List.map_singleton]

omit [DecidableEq E] in
theorem Initial.lending {s : State E S} (h : Initial s) (hunits : 0 ≤ (s.sem sem).units)
    (hlimit : (s.sem sem).units ≤ (s.sem sem).limit) :
    Lending sem (s.sem sem).units.toInt (s, fun _ => 0) (Queues.initial s.toCore) where
  inOrder := h.inOrder hunits hlimit
  lent := by
    refine ⟨Lends.of_total fun block => ?_, Int32.le_iff_toInt_le.mp hlimit⟩
    simp [held, granted, Queues.initial, h.trace]

/-- As long as no thread posts more of a semaphore than it holds, or exits with units of it, the
    units that are free and those that the threads hold are as many as at the start. No two
    threads ever hold more between them. What a thread was granted are the calls of `sem_wait`
    that have returned to it. -/
theorem units_lent {s₀ s : State E S} {posted : Nat → Int} {calls : List (Call E S)} (sem : S)
    (hinitial : Initial s₀) (hunits : 0 ≤ (s₀.sem sem).units)
    (hlimit : (s₀.sem sem).units ≤ (s₀.sem sem).limit)
    (hrun : Run (HonestStep sem) (s₀, fun _ => 0) calls (s, posted)) :
    (∃ labels left, labels.map Prod.snd = calls ∧
      Run (Watches sem) ⟨s₀, [], (s₀.sem sem).units.toInt⟩ labels ⟨s, grants sem s.trace, left⟩) ∧
      (∀ block, 0 ≤ held sem s.trace posted block) ∧ (∀ block ∉ s.live, held sem s.trace posted block = 0) ∧
      (s.sem sem).units.toInt + ∑ block ∈ s.live, held sem s.trace posted block = (s₀.sem sem).units.toInt ∧
      ∀ block other, block ≠ other →
        held sem s.trace posted block + held sem s.trace posted other ≤ (s₀.sem sem).units.toInt := by
  obtain ⟨⟨labels, hcalls, hadmissible⟩, a, hinOrder, hlent⟩ := (hinitial.lending hunits hlimit).run hrun
  obtain ⟨answered, left, hwatch⟩ := exists_watch hinitial hunits hlimit hadmissible
  have hgrants : grants sem s.trace = answered := grants_eq_answered hinitial hunits hlimit hwatch
  have hcore : s.toCore = a.toCore := hinOrder.refines.core
  have hlends : Lends (s₀.sem sem).units.toInt (s.sem sem).units.toInt (held sem s.trace posted) s.live := by
    rw [hcore]
    exact hlent.lends
  refine ⟨⟨labels, left, hcalls, hgrants ▸ hwatch⟩, hlends.nonneg, hlends.outside, hlends.balance,
    fun block other hne => ?_⟩
  have hle := hlends.add_le hne
  have hnonneg := nonneg_iff.mp hinOrder.fifo.units_nonneg
  rw [← hcore] at hnonneg
  omega

/-- A thread has taken the one unit of a semaphore. -/
theorem units_lent_taken : ∃ s : State Unit Unit,
    Run (HonestStep ()) (booted fun _ => ⟨1, 1⟩, fun _ => 0) [.ut_create 1 4096, .ut_run, .sem_wait () 1 0]
        (s, fun _ => 0) ∧
      held () s.trace (fun _ => 0) 1 = 1 ∧ grants () s.trace = [(.user 1, 1)] ∧
      ((∃ labels left, labels.map Prod.snd = [.ut_create 1 4096, .ut_run, .sem_wait () 1 0] ∧
        Run (Watches ()) ⟨booted fun _ => ⟨1, 1⟩, [], 1⟩ labels ⟨s, grants () s.trace, left⟩) ∧
        (∀ block, 0 ≤ held () s.trace (fun _ => 0) block) ∧
        (∀ block ∉ s.live, held () s.trace (fun _ => 0) block = 0) ∧
        (s.sem ()).units.toInt + ∑ block ∈ s.live, held () s.trace (fun _ => 0) block = 1 ∧
        ∀ block other, block ≠ other →
          held () s.trace (fun _ => 0) block + held () s.trace (fun _ => 0) other ≤ 1) := by
  have hcreate : HonestStep () (booted fun _ => ⟨1, 1⟩, fun _ => 0) (.ut_create 1 4096) (_, fun _ => 0) :=
    ⟨step_created (E := Unit) fun _ : Unit => ⟨1, 1⟩, (record_eq rfl).symm, trivial⟩
  have hstart : HonestStep () (_, fun _ => 0) .ut_run (_, fun _ => 0) :=
    ⟨step_started (E := Unit) fun _ : Unit => ⟨1, 1⟩, (record_eq rfl).symm, trivial⟩
  have hwait : HonestStep () (started fun _ => ⟨1, 1⟩, fun _ => 0) (.sem_wait () 1 0) (_, fun _ => 0) :=
    ⟨⟨⟨⟨1, rfl⟩, started_frame (E := Unit) _ 0⟩, 0, rfl⟩, (record_eq rfl).symm, fun _ => by decide⟩
  have hrun := ((Run.nil.snoc hcreate).snoc hstart).snoc hwait
  exact ⟨_, hrun, rfl, rfl, units_lent () (booted_initial _) (by decide) (by decide) hrun⟩

end oslabs.uthread
