import OsLabs.Adder.Protocol

open oslabs.census oslabs.fifo oslabs.latch oslabs.loop oslabs.run

namespace oslabs.adder

variable {W : Type} {vals : List Int32} {nvals : UInt64} {s s' : State W}

/-- What the caller has added up in its last loop, and what it returns. -/
def Caller.Adds (vals : List Int32) (nvals : UInt64) : Caller → Prop
  | .adding i total => i ≤ NTHREADS ∧ total = segmentSum vals 0 (regionsEnd nvals i)
  | .returned total => total = segmentSum vals 0 nvals.toNat
  | _ => True

/-- A submitted task has its range. A worker in the loop of `par_func` has added up
    the range from its begin to where it stands, and where a task is past its loop
    its total is the sum of its range. -/
structure Values (vals : List Int32) (nvals : UInt64) (s : State W) : Prop where
  ranges : ∀ n : Fin NTHREADS, n < s.caller.submitted →
    (s.tasks n).begin = task_begin nvals n ∧ (s.tasks n).end_ = task_end nvals n
  sums : ∀ w n p total, s.worker w = .summing n p total →
    total = segmentSum vals (task_begin nvals n).toNat p.toNat ∧ task_begin nvals n ≤ p ∧
      (p ≤ task_end nvals n ∨ p = task_begin nvals n)
  totals : ∀ n, (n ∈ s.finished ∨ ∃ w, s.worker w = .counting n) →
    (s.tasks n).total = taskSum vals nvals n
  adds : s.caller.Adds vals nvals

theorem Initial.values (h : Initial s) : Values vals nvals s where
  ranges n hn := by
    rw [h.caller] at hn
    cases hn
  sums w n p total hworker := by
    have htask := h.worker w
    rw [hworker] at htask
    cases htask
  totals n hn := by
    obtain hmem | ⟨w, hworker⟩ := hn
    · simp [h.finished] at hmem
    · have htask := h.worker w
      rw [hworker] at htask
      cases htask
  adds := by
    rw [h.caller]
    trivial

/-- A step of the caller that touches neither the tasks nor the workers. -/
theorem Values.caller (h : Values vals nvals s) {caller : Caller}
    (hsubmitted : caller.submitted = s.caller.submitted) (hadds : caller.Adds vals nvals) :
    Values vals nvals { s with caller } where
  ranges n hn := h.ranges n (hsubmitted ▸ hn)
  sums := h.sums
  totals := h.totals
  adds := hadds

variable [DecidableEq W]

/-- A worker that goes where it has no total to answer for, or the right one. -/
theorem Values.worker (h : Values vals nvals s) {w : W} {p : Worker}
    (work_queue : Fifo (Option (Fin NTHREADS)))
    (hsums : ∀ n q total, p = .summing n q total →
      total = segmentSum vals (task_begin nvals n).toNat q.toNat ∧ task_begin nvals n ≤ q ∧
        (q ≤ task_end nvals n ∨ q = task_begin nvals n))
    (hcounting : ∀ n, p ≠ .counting n) :
    Values vals nvals { s with work_queue, worker := Function.update s.worker w p } where
  ranges := h.ranges
  sums u n q total hworker := by
    by_cases heq : u = w
    · subst heq
      exact hsums n q total (by simpa using hworker)
    · exact h.sums u n q total (by simpa [heq] using hworker)
  totals n hn := by
    refine h.totals n (hn.imp_right ?_)
    rintro ⟨u, hworker⟩
    by_cases heq : u = w
    · subst heq
      exact absurd (by simpa using hworker) (hcounting n)
    · exact ⟨u, by simpa [heq] using hworker⟩
  adds := h.adds

omit [DecidableEq W] in
/-- The caller fills in and submits its next task. -/
theorem Values.submit (h : Values vals nvals s) {n : Fin NTHREADS} (hcaller : s.caller = .submitting n) :
    Values vals nvals { s with
      caller := .submitting (n + 1)
      tasks := Function.update s.tasks n
        { s.tasks n with begin := task_begin nvals n, end_ := task_end nvals n }
      work_queue := s.work_queue.enqueue (some n) } where
  ranges m hm := by
    by_cases heq : m = n
    · subst heq
      simp
    · have hlt : m.val < n.val := by
        have hle : m.val ≤ n.val := Nat.lt_succ_iff.mp hm
        have hne : m.val ≠ n.val := fun hval => heq (Fin.ext hval)
        omega
      simpa [heq] using h.ranges m (by rw [hcaller]; exact hlt)
  sums := h.sums
  totals m hm := by
    have htotal := h.totals m hm
    by_cases heq : m = n
    · subst heq
      simpa using htotal
    · simpa [heq] using htotal
  adds := trivial

/-- At the end of its loop a worker stores the sum of its task's range. -/
theorem Values.store (h : Values vals nvals s) {w : W} {n : Fin NTHREADS} {p : UInt64} {total : Int64}
    (hworker : s.worker w = .summing n p total) (hsubmitted : n < s.caller.submitted)
    (hge : ¬ p < (s.tasks n).end_) :
    Values vals nvals { s with
      tasks := Function.update s.tasks n { s.tasks n with total }
      worker := Function.update s.worker w (.counting n) } := by
  have htotal : total = taskSum vals nvals n := by
    obtain ⟨hsum, hbegin, hend⟩ := h.sums w n p total hworker
    rw [(h.ranges n hsubmitted).2, UInt64.lt_iff_toNat_lt] at hge
    rw [hsum, taskSum]
    obtain hle | rfl := hend
    · rw [UInt64.le_iff_toNat_le] at hle
      rw [show p.toNat = (task_end nvals n).toNat by omega]
    · rw [segmentSum_empty (Nat.le_refl _), segmentSum_empty (by omega)]
  constructor
  · intro m hm
    have hrange := h.ranges m hm
    by_cases heq : m = n
    · subst heq
      simpa using hrange
    · simpa [heq] using hrange
  · intro u m q t hu
    have hne : u ≠ w := by
      rintro rfl
      simp at hu
    exact h.sums u m q t (by simpa [hne] using hu)
  · intro m hm
    by_cases heq : m = n
    · subst heq
      simp [htotal]
    · have hold : m ∈ s.finished ∨ ∃ u, s.worker u = .counting m := by
        apply hm.imp_right
        rintro ⟨u, hu⟩
        by_cases hne : u = w
        · subst hne
          simp [Ne.symm heq] at hu
        · exact ⟨u, by simpa [hne] using hu⟩
      simpa [heq] using h.totals m hold
  · exact h.adds

/-- The last step of a task on the latch leaves its total where it is. -/
theorem Values.countdown (h : Values vals nvals s) {w : W} {n : Fin NTHREADS}
    (hworker : s.worker w = .counting n) : Values vals nvals (par_func_countdown s w n) := by
  have hcaller : (par_func_countdown s w n).caller.submitted = s.caller.submitted ∧
      (par_func_countdown s w n).caller.Adds vals nvals := by
    simp only [par_func_countdown]
    split
    · rename_i hwaiting
      rw [hwaiting.2]
      exact ⟨rfl, trivial⟩
    · exact ⟨rfl, h.adds⟩
  constructor
  · intro m hm
    exact h.ranges m (hcaller.1 ▸ hm)
  · intro u m q t hu
    have hne : u ≠ w := by
      rintro rfl
      simp [par_func_countdown] at hu
    exact h.sums u m q t (by simpa [par_func_countdown, hne] using hu)
  · intro m hm
    apply h.totals m
    simp only [par_func_countdown, Finset.mem_insert] at hm
    obtain (rfl | hmem) | ⟨u, hu⟩ := hm
    · exact .inr ⟨w, hworker⟩
    · exact .inl hmem
    · by_cases hne : u = w
      · subst hne
        simp at hu
      · exact .inr ⟨u, by simpa [hne] using hu⟩
  · exact hcaller.2

section Steps

variable [Fintype W] (hlength : vals.length = nvals.toNat) (hsize : nvals.toNat + (NTHREADS - 1) < 2 ^ 64)
include hlength hsize

omit [DecidableEq W] in
/-- A task reads inside the array, and adds up its range. -/
theorem Values.pass (h : Values vals nvals s) (hprotocol : Protocol s) {w : W} {n : Fin NTHREADS}
    {p : UInt64} {total : Int64} (hworker : s.worker w = .summing n p total)
    (hlt : p < (s.tasks n).end_) :
    add_pass vals (p, total) = some (p + 1, segmentSum vals (task_begin nvals n).toNat (p + 1).toNat) ∧
      task_begin nvals n ≤ p + 1 ∧ p + 1 ≤ task_end nvals n := by
  obtain ⟨hsubmitted, _⟩ := hprotocol.of_task (w := w) (n := n) (by rw [hworker]; rfl)
  obtain ⟨rfl, hbegin, _⟩ := h.sums w n p total hworker
  rw [(h.ranges n hsubmitted).2] at hlt
  have hend : (task_end nvals n).toNat ≤ vals.length := by
    rw [toNat_task_end hsize, hlength]
    omega
  have hsucc := toNat_succ hlt
  rw [UInt64.le_iff_toNat_le] at hbegin
  refine ⟨add_pass_eq hend hbegin hlt, ?_, ?_⟩
  · rw [UInt64.le_iff_toNat_le]
    omega
  · rw [UInt64.lt_iff_toNat_lt] at hlt
    rw [UInt64.le_iff_toNat_le]
    omega

theorem Values.step {label : Label W} (h : Values vals nvals s) (hprotocol : Protocol s)
    (hmove : Move vals nvals s label s') : Values vals nvals s' := by
  cases hmove with
  | submit hcaller => exact h.submit hcaller
  | @submitted n hcaller hge =>
    have hle := hprotocol.bound n hcaller
    exact h.caller (by rw [hcaller]; exact Nat.le_antisymm hge hle) trivial
  | sleep hcaller hwaits =>
    exact h.caller (by obtain hcaller | hcaller := hcaller <;> rw [hcaller] <;> rfl) trivial
  | leave hcaller hwaits =>
    apply h.caller (by obtain hcaller | hcaller := hcaller <;> rw [hcaller] <;> rfl)
    exact ⟨Nat.zero_le _, (segmentSum_empty (by simp [regionsEnd])).symm⟩
  | spurious hcaller => exact h.caller (by rw [hcaller]; rfl) trivial
  | @add i total hcaller =>
    have hdone : s.finished = Finset.univ := hprotocol.past (by rw [hcaller]; rfl)
    have hadds := h.adds
    rw [hcaller] at hadds
    refine h.caller (by rw [hcaller]; rfl) ⟨i.isLt, ?_⟩
    rw [segmentSum_regionsEnd_succ hsize, ← hadds.2, h.totals i (.inl (hdone ▸ Finset.mem_univ i))]
  | @«return» i total hcaller hge =>
    have hadds := h.adds
    rw [hcaller] at hadds
    apply h.caller (by rw [hcaller]; rfl)
    rw [Caller.Adds, hadds.2, Nat.le_antisymm hadds.1 hge, regionsEnd_last hsize]
  | foreign_put => exact ⟨h.ranges, h.sums, h.totals, h.adds⟩
  | foreign_get hworker hqueue => exact h.worker _ (by simp) (by simp)
  | @get w n work_queue hworker hqueue =>
    have hsubmitted := hprotocol.of_queued (n := n) (by
      obtain ⟨_, _, hitems⟩ := Fifo.dequeue_eq_some hqueue
      rw [hitems]
      exact List.mem_cons_self)
    refine h.worker _ ?_ (by simp)
    intro m q total heq
    obtain ⟨rfl, rfl, rfl⟩ := Worker.summing.inj heq
    rw [(h.ranges n hsubmitted).1]
    exact ⟨(segmentSum_empty (Nat.le_refl _)).symm, UInt64.le_refl _, .inr rfl⟩
  | foreign_return hworker => exact h.worker s.work_queue (by simp) (by simp)
  | @pass w n p total next hworker hlt hpass =>
    obtain ⟨hnext, hbegin, hend⟩ := h.pass hlength hsize hprotocol hworker hlt
    obtain rfl := Option.some.inj (hpass.symm.trans hnext)
    refine h.worker s.work_queue ?_ (by simp)
    intro m q t heq
    obtain ⟨rfl, rfl, rfl⟩ := Worker.summing.inj heq
    exact ⟨rfl, hbegin, .inl hend⟩
  | @store w n p total hworker hge =>
    obtain ⟨hsubmitted, _⟩ := hprotocol.of_task (w := w) (n := n) (by rw [hworker]; rfl)
    exact h.store hworker hsubmitted hge
  | countdown hworker => exact h.countdown hworker

/-- Whenever `par_adder` returns, its result is that of `seq_adder`. The ranges of
    its tasks partition the array, and the tasks read inside it. Once
    `countdownlatch_await` has returned, every total is written, and no task is in
    the queue or on a worker any more, neither then nor later. -/
theorem par_adder_correct {s₀ : State W} {labels : List (Label W)} (hinitial : Initial s₀)
    (hrun : Run (StepOf (step vals nvals)) s₀ labels s) :
    (∀ total, s.caller = .returned total → seq_adder vals nvals = some total) ∧
      ((∀ m n : Fin NTHREADS, m ≠ n → ∀ i,
          ¬ ((task_begin nvals m ≤ i ∧ i < task_end nvals m) ∧
            task_begin nvals n ≤ i ∧ i < task_end nvals n)) ∧
        (∀ n : Fin NTHREADS, task_begin nvals n < task_end nvals n → task_end nvals n ≤ nvals) ∧
        ∀ i < nvals, ∃ n : Fin NTHREADS, task_begin nvals n ≤ i ∧ i < task_end nvals n) ∧
      (∀ w n p total, s.worker w = .summing n p total →
        (s.tasks n).begin = task_begin nvals n ∧ (s.tasks n).end_ = task_end nvals n ∧
          ∃ s', par_func_pass vals s w n p total = some s') ∧
      (s.caller.past = true → ∀ n, (s.tasks n).total = taskSum vals nvals n ∧ n ∈ s.finished ∧
        some n ∉ s.work_queue.items ∧ ∀ w, (s.worker w).task? ≠ some n) := by
  obtain ⟨hprotocol, hvalues⟩ : Protocol s ∧ Values vals nvals s := by
    apply hrun.invariant (fun s => Protocol s ∧ Values vals nvals s) ⟨hinitial.protocol, hinitial.values⟩
    rintro s label s' ⟨hprotocol, hvalues⟩ hstep
    have hmove := move_of_step hstep
    exact ⟨hprotocol.step hmove, hvalues.step hlength hsize hprotocol hmove⟩
  refine ⟨?_, task_ranges hsize, ?_, ?_⟩
  · intro total hreturned
    have hadds := hvalues.adds
    rw [hreturned] at hadds
    rw [seq_adder_eq hlength, hadds]
  · intro w n p total hworker
    obtain ⟨hsubmitted, _⟩ := hprotocol.of_task (w := w) (n := n) (by rw [hworker]; rfl)
    obtain ⟨hbegin, hend⟩ := hvalues.ranges n hsubmitted
    refine ⟨hbegin, hend, ?_⟩
    unfold par_func_pass
    split
    · obtain ⟨hnext, _⟩ := hvalues.pass hlength hsize hprotocol hworker ‹_›
      rw [hnext]
      exact ⟨_, rfl⟩
    · exact ⟨_, rfl⟩
  · intro hpast n
    have hdone := hprotocol.past hpast
    have hmem : n ∈ s.finished := hdone ▸ Finset.mem_univ n
    exact ⟨hvalues.totals n (.inl hmem), hmem, hprotocol.of_finished hdone n⟩

end Steps

/-- One worker adds up two numbers in four tasks, while the caller sleeps. -/
theorem par_adder_correct_two : ∃ s : State Unit,
    Run (StepOf (step [5, 7] 2)) (par_adder_start fun _ => ⟨0, 0, 0⟩)
      [.submit, .submit, .submit, .submit, .submit, .await,
        .worker_get (), .par_func_pass (), .par_func_pass (), .countdown (),
        .worker_get (), .par_func_pass (), .par_func_pass (), .countdown (),
        .worker_get (), .par_func_pass (), .countdown (),
        .worker_get (), .par_func_pass (), .countdown (),
        .await, .add, .add, .add, .add, .add] s ∧
    s.caller = .returned 12 ∧
    (∀ total, s.caller = .returned total → seq_adder [5, 7] 2 = some total) ∧
      ((∀ m n : Fin NTHREADS, m ≠ n → ∀ i,
          ¬ ((task_begin 2 m ≤ i ∧ i < task_end 2 m) ∧ task_begin 2 n ≤ i ∧ i < task_end 2 n)) ∧
        (∀ n : Fin NTHREADS, task_begin 2 n < task_end 2 n → task_end 2 n ≤ 2) ∧
        ∀ i < 2, ∃ n : Fin NTHREADS, task_begin 2 n ≤ i ∧ i < task_end 2 n) ∧
      (∀ w n p total, s.worker w = .summing n p total →
        (s.tasks n).begin = task_begin 2 n ∧ (s.tasks n).end_ = task_end 2 n ∧
          ∃ s', par_func_pass [5, 7] s w n p total = some s') ∧
      (s.caller.past = true → ∀ n, (s.tasks n).total = taskSum [5, 7] 2 n ∧ n ∈ s.finished ∧
        some n ∉ s.work_queue.items ∧ ∀ w, (s.worker w).task? ≠ some n) := by
  have hrun := run_stepOf_iff.mpr (show exec (step [5, 7] 2)
    (par_adder_start fun _ => ⟨0, 0, 0⟩ : State Unit)
      [.submit, .submit, .submit, .submit, .submit, .await,
        .worker_get (), .par_func_pass (), .par_func_pass (), .countdown (),
        .worker_get (), .par_func_pass (), .par_func_pass (), .countdown (),
        .worker_get (), .par_func_pass (), .countdown (),
        .worker_get (), .par_func_pass (), .countdown (),
        .await, .add, .add, .add, .add, .add] = some _ from rfl)
  exact ⟨_, hrun, rfl, par_adder_correct rfl (by decide) (par_adder_start_initial _) hrun⟩

end oslabs.adder
