import OsLabs.Lib.Fifo
import OsLabs.MonitorQueue.Order

open oslabs.fifo oslabs.run

namespace oslabs.queue

variable {T I : Type} [DecidableEq T] {s s' : State T I} {nodes : List UInt64} {guard : Guard} {q : Fifo I}

/-- Each section of the monitor is one step of an abstract queue, or none. -/
theorem Ordered.serves {label : Label T I} (h : Ordered s nodes) (hq : q.Records s.puts s.taken)
    (hmove : Move guard s label s') : ∃ q', Fifo.Served q q' ∧ q'.Records s'.puts s'.taken := by
  cases hmove with
  | put_begin | get_begin | wait | spurious | get_end => exact ⟨q, .stay, hq⟩
  | put_section => exact hq.enqueue _
  | take hpc hguard hsection =>
    cases nodes with
    | nil => simp [h.waits_iff.mpr rfl] at hguard
    | cons pnode rest =>
      rw [h.queue_get_section_eq] at hsection
      obtain rfl := Option.some.inj hsection
      apply hq.dequeue
      rw [h.order, List.getElem?_append_right (Nat.le_refl _), Nat.sub_self]
      rfl

/-- The monitor queue refines the abstract one: its runs are runs of a queue whose
    operations take one step each. -/
theorem run_refines_fifo [Fintype T] {s₀ : State T I} {labels : List (Label T I)}
    (hinitial : Initial s₀) (hrun : Run (StepOf (step guard)) s₀ labels s) :
    ∃ q : Fifo I, Run (fun q _ q' => Fifo.Served q q') .empty labels q ∧ q.Records s.puts s.taken := by
  have hempty : (Fifo.empty : Fifo I).Records s₀.puts s₀.taken := by
    rw [hinitial.puts, hinitial.taken]
    exact Fifo.empty_records
  obtain ⟨q, habstract, hq, _⟩ := hrun.simulates
    (R := fun (s : State T I) (q : Fifo I) => q.Records s.puts s.taken ∧ ∃ nodes, Ordered s nodes)
    ⟨hempty, [], hinitial.ordered⟩ (by
      rintro s q label s' ⟨hq, nodes, hordered⟩ hstep
      obtain ⟨q', hserved, hq'⟩ := hordered.serves hq (move_of_step hstep)
      exact ⟨q', hserved, hq', hordered.step (move_of_step hstep)⟩)
  exact ⟨q, habstract, hq⟩

end oslabs.queue
