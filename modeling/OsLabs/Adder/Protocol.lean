import OsLabs.Adder.Model
import OsLabs.Lib.Tally

open oslabs.census oslabs.fifo oslabs.latch oslabs.loop oslabs.run

namespace oslabs.adder

variable {W : Type} {vals : List Int32} {nvals : UInt64} {s s' : State W}

/-- The number of tasks the caller has submitted. -/
def Caller.submitted : Caller → Nat
  | .submitting n => n
  | _ => NTHREADS

/-- One for a task that is submitted, and zero for one that is not. -/
def Caller.handedOver (c : Caller) (n : Fin NTHREADS) : Nat :=
  if n < c.submitted then 1 else 0

theorem Caller.handedOver_le (c : Caller) (n : Fin NTHREADS) : c.handedOver n ≤ 1 := by
  unfold Caller.handedOver
  split <;> omega

theorem Caller.handedOver_congr {c d : Caller} (h : c.submitted = d.submitted) (n : Fin NTHREADS) :
    c.handedOver n = d.handedOver n := by
  rw [Caller.handedOver, h, Caller.handedOver]

theorem Caller.handedOver_succ (n m : Fin NTHREADS) :
    (Caller.submitting (n + 1)).handedOver m =
      (Caller.submitting n).handedOver m + if n = m then 1 else 0 := by
  unfold Caller.handedOver Caller.submitted
  by_cases hm : n = m
  · subst hm
    simp
  · have hval : n.val ≠ m.val := fun heq => hm (Fin.ext heq)
    have hlt : m.val < n.val + 1 ↔ m.val < n.val := by omega
    simp [hm, hlt]

/-- The caller has returned from `countdownlatch_await`. -/
def Caller.past : Caller → Bool
  | .adding _ _ | .returned _ => true
  | _ => false

/-- The number of workers at work on a task. -/
def runs [Fintype W] (worker : W → Worker) (n : Fin NTHREADS) : Nat :=
  tally (fun p => if p.task? = some n then 1 else 0) worker

theorem runs_update [Fintype W] [DecidableEq W] (worker : W → Worker) (w : W) (p : Worker)
    (n : Fin NTHREADS) :
    runs (Function.update worker w p) n + (if (worker w).task? = some n then 1 else 0) =
      runs worker n + if p.task? = some n then 1 else 0 :=
  tally_update _ worker w p

theorem runs_pos [Fintype W] {worker : W → Worker} {w : W} {n : Fin NTHREADS}
    (h : (worker w).task? = some n) : 0 < runs worker n := by
  have hweight := weight_le_tally (fun p : Worker => if p.task? = some n then 1 else 0) worker w
  simp only [h, if_true] at hweight
  exact hweight

variable [Fintype W]

/-- A task that is submitted is in the queue, on one worker, or finished; one that
    is not is nowhere. The latch counts the tasks that are not finished. -/
structure Protocol (s : State W) : Prop where
  account : ∀ n, s.caller.handedOver n =
    s.work_queue.items.count (some n) + runs s.worker n + if n ∈ s.finished then 1 else 0
  counter : s.cdl.counter.toInt + s.finished.card = NTHREADS
  past : s.caller.past = true → s.finished = Finset.univ
  bound : ∀ n, s.caller = .submitting n → n ≤ NTHREADS

/-- The task of a worker is submitted and not finished. -/
theorem Protocol.of_task (h : Protocol s) {w : W} {n : Fin NTHREADS}
    (hworker : (s.worker w).task? = some n) : n < s.caller.submitted ∧ n ∉ s.finished := by
  have haccount := h.account n
  have hruns := runs_pos hworker
  constructor
  · by_contra hnot
    rw [Caller.handedOver, if_neg hnot] at haccount
    omega
  · intro hmem
    rw [if_pos hmem] at haccount
    have hle := s.caller.handedOver_le n
    omega

/-- A task in the queue is submitted. -/
theorem Protocol.of_queued (h : Protocol s) {n : Fin NTHREADS} (hmem : some n ∈ s.work_queue.items) :
    n < s.caller.submitted := by
  have haccount := h.account n
  have hcount := List.count_pos_iff.mpr hmem
  by_contra hnot
  rw [Caller.handedOver, if_neg hnot] at haccount
  omega

/-- Once all tasks are finished, none is in the queue or on a worker. -/
theorem Protocol.of_finished (h : Protocol s) (hfinished : s.finished = Finset.univ) (n : Fin NTHREADS) :
    some n ∉ s.work_queue.items ∧ ∀ w, (s.worker w).task? ≠ some n := by
  have haccount := h.account n
  have hle := s.caller.handedOver_le n
  rw [hfinished, if_pos (Finset.mem_univ n)] at haccount
  constructor
  · rw [← List.count_eq_zero]
    omega
  · intro w hworker
    have hruns := runs_pos hworker
    omega

theorem Initial.protocol (h : Initial s) : Protocol s where
  account n := by
    have hruns : runs s.worker n = 0 := by
      refine (tally_eq_zero_iff _ _).mpr fun w => ?_
      simp [h.worker w]
    simp [h.caller, Caller.handedOver, Caller.submitted, h.finished, hruns, List.count_eq_zero.mpr (h.work_queue n)]
  counter := by
    rw [h.cdl, h.finished]
    rfl
  past hpast := by
    rw [h.caller] at hpast
    cases hpast
  bound n hn := by
    rw [h.caller] at hn
    cases hn
    exact Nat.zero_le _

/-- A change that keeps the tasks where they are, and the latch as it is. -/
theorem Protocol.congr (h : Protocol s) (hsubmitted : s'.caller.submitted = s.caller.submitted)
    (hpast : s'.caller.past = true → s.caller.past = true)
    (hbound : ∀ n, s'.caller = .submitting n → n ≤ NTHREADS)
    (hitems : ∀ n, s'.work_queue.items.count (some n) = s.work_queue.items.count (some n))
    (hruns : ∀ n, runs s'.worker n = runs s.worker n) (hcdl : s'.cdl = s.cdl := by rfl)
    (hfinished : s'.finished = s.finished := by rfl) : Protocol s' where
  account n := by rw [Caller.handedOver_congr hsubmitted, hitems, hruns, hfinished, h.account]
  counter := by rw [hcdl, hfinished, h.counter]
  past hs' := by rw [hfinished, h.past (hpast hs')]
  bound := hbound

/-- The caller goes on, past its submissions, and no further past its wait. -/
theorem Protocol.caller (h : Protocol s) {caller : Caller} (hsubmitted : caller.submitted = s.caller.submitted)
    (hpast : caller.past = true → s.caller.past = true)
    (hbound : ∀ n, caller ≠ .submitting n := by simp) : Protocol { s with caller } :=
  h.congr hsubmitted hpast (fun n hn => absurd hn (hbound n)) (fun _ => rfl) (fun _ => rfl)

/-- The workers go on with the tasks they have. -/
theorem Protocol.workers (h : Protocol s) (hruns : ∀ n, runs s'.worker n = runs s.worker n)
    (hitems : ∀ n, s'.work_queue.items.count (some n) = s.work_queue.items.count (some n))
    (hcaller : s'.caller = s.caller := by rfl) (hcdl : s'.cdl = s.cdl := by rfl)
    (hfinished : s'.finished = s.finished := by rfl) : Protocol s' := by
  refine h.congr ?_ ?_ ?_ hitems hruns hcdl hfinished
  · rw [hcaller]
  · rw [hcaller]
    exact id
  · rw [hcaller]
    exact h.bound

variable [DecidableEq W]

/-- A worker that goes on with the same task, or from none to none. -/
private theorem runs_same {w : W} {p : Worker} (h : p.task? = (s.worker w).task?) (n : Fin NTHREADS) :
    runs (Function.update s.worker w p) n = runs s.worker n := by
  have hcount := runs_update s.worker w p n
  rw [h] at hcount
  exact Nat.add_right_cancel hcount

/-- A worker that takes up a task. -/
private theorem runs_start {w : W} {p : Worker} {n : Fin NTHREADS} (hidle : (s.worker w).task? = none)
    (htask : p.task? = some n) (m : Fin NTHREADS) :
    runs (Function.update s.worker w p) m = runs s.worker m + if n = m then 1 else 0 := by
  have hcount := runs_update s.worker w p m
  rw [hidle, htask] at hcount
  simpa using hcount

/-- A worker that is done with a task. -/
private theorem runs_stop {w : W} {p : Worker} {n : Fin NTHREADS} (htask : (s.worker w).task? = some n)
    (hidle : p.task? = none) (m : Fin NTHREADS) :
    runs (Function.update s.worker w p) m + (if n = m then 1 else 0) = runs s.worker m := by
  have hcount := runs_update s.worker w p m
  rw [hidle, htask] at hcount
  simpa using hcount

/-- The countdown of a task finishes it and takes its worker off it. -/
theorem Protocol.countdown (h : Protocol s) {w : W} {n : Fin NTHREADS}
    (hworker : s.worker w = .counting n) : Protocol (par_func_countdown s w n) := by
  have htask : (s.worker w).task? = some n := by rw [hworker]; rfl
  obtain ⟨_, hnot⟩ := h.of_task htask
  have hcard := Finset.card_lt_univ_of_notMem hnot
  have hpos : 0 < s.cdl.counter.toInt := by
    have hcounter := h.counter
    rw [Fintype.card_fin] at hcard
    omega
  have hcaller : (par_func_countdown s w n).caller.submitted = s.caller.submitted ∧
      (par_func_countdown s w n).caller.past = s.caller.past ∧
      ∀ k, (par_func_countdown s w n).caller = .submitting k → s.caller = .submitting k := by
    simp only [par_func_countdown]
    split
    · rename_i hwaiting
      rw [hwaiting.2]
      exact ⟨rfl, rfl, fun k hk => by cases hk⟩
    · exact ⟨rfl, rfl, fun k hk => hk⟩
  constructor
  · intro m
    have haccount := h.account m
    have hcount := runs_stop (p := .idle) htask rfl m
    rw [Caller.handedOver_congr hcaller.1, haccount]
    simp only [par_func_countdown, Finset.mem_insert]
    by_cases hm : n = m
    · subst hm
      simp only [if_true, if_neg hnot, true_or] at hcount ⊢
      omega
    · simp only [if_neg hm, Ne.symm hm, false_or] at hcount ⊢
      omega
  · have hcounter := h.counter
    simp only [par_func_countdown, toInt_countdown hpos, Finset.card_insert_of_notMem hnot]
    omega
  · intro hpast
    rw [hcaller.2.1] at hpast
    exact absurd (h.past hpast ▸ Finset.mem_univ n) hnot
  · intro k hk
    exact h.bound k (hcaller.2.2 k hk)

/-- Every step keeps the account of the tasks. -/
theorem Protocol.step {label : Label W} (h : Protocol s) (hmove : Move vals nvals s label s') :
    Protocol s' := by
  cases hmove with
  | @submit n hcaller =>
    refine ⟨fun m => ?_, h.counter, fun hpast => (by cases hpast), fun k hk => ?_⟩
    · have haccount := h.account m
      rw [hcaller] at haccount
      simp only [Caller.handedOver_succ, haccount, Fifo.enqueue_items, List.count_append,
        List.count_singleton, beq_iff_eq, Option.some.injEq]
      omega
    · obtain rfl := Caller.submitting.inj hk
      exact n.isLt
  | submitted hcaller hge =>
    have hle := h.bound _ hcaller
    refine h.caller ?_ (fun hpast => by cases hpast)
    rw [hcaller]
    exact Nat.le_antisymm hge hle
  | sleep hcaller hwaits =>
    refine h.caller ?_ (fun hpast => by cases hpast)
    obtain hcaller | hcaller := hcaller <;> rw [hcaller] <;> rfl
  | leave hcaller hwaits =>
    have hdone : s.finished = Finset.univ := by
      have hcounter := h.counter
      have hzero : ¬ 0 < s.cdl.counter.toInt := by
        rw [← countdownlatch_await_waits_iff, hwaits]
        simp
      rw [← Finset.card_eq_iff_eq_univ, Fintype.card_fin]
      have hle := Finset.card_le_univ s.finished
      rw [Fintype.card_fin] at hle
      omega
    refine ⟨fun m => ?_, h.counter, fun _ => hdone, fun k hk => by cases hk⟩
    have haccount := h.account m
    obtain hcaller | hcaller := hcaller <;> rw [hcaller] at haccount <;> exact haccount
  | spurious hcaller =>
    refine h.caller ?_ (fun hpast => by cases hpast)
    rw [hcaller]
    rfl
  | add hcaller =>
    refine h.caller ?_ (fun _ => by rw [hcaller]; rfl)
    rw [hcaller]
    rfl
  | «return» hcaller hge =>
    refine h.caller ?_ (fun _ => by rw [hcaller]; rfl)
    rw [hcaller]
    rfl
  | foreign_put =>
    exact h.workers (fun _ => rfl) (fun n => by simp [List.count_append])
  | foreign_get hworker hqueue =>
    obtain ⟨_, _, hitems⟩ := Fifo.dequeue_eq_some hqueue
    exact h.workers (runs_same (by rw [hworker]; rfl)) (fun n => by rw [hitems]; simp)
  | @get w n work_queue hworker hqueue =>
    obtain ⟨_, _, hitems⟩ := Fifo.dequeue_eq_some hqueue
    refine ⟨fun m => ?_, h.counter, h.past, h.bound⟩
    have haccount := h.account m
    have hcount := runs_start (s := s) (w := w) (p := .summing n (s.tasks n).begin 0)
      (by rw [hworker]; rfl) rfl m
    rw [hitems] at haccount
    by_cases hm : n = m
    · subst hm
      rw [List.count_cons_self] at haccount
      simp only [haccount, hcount, if_true]
      omega
    · have hne : some n ≠ some m := fun heq => hm (Option.some.inj heq)
      rw [List.count_cons_of_ne hne] at haccount
      simp only [haccount, hcount, if_neg hm]
      omega
  | foreign_return hworker =>
    exact h.workers (runs_same (by rw [hworker]; rfl)) (fun _ => rfl)
  | pass hworker hlt hpass =>
    exact h.workers (runs_same (by rw [hworker]; rfl)) (fun _ => rfl)
  | store hworker hge =>
    exact h.workers (runs_same (by rw [hworker]; rfl)) (fun _ => rfl)
  | countdown hworker => exact h.countdown hworker

end oslabs.adder
