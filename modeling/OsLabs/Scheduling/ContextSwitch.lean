import OsLabs.ContextSwitch.Faithful

open oslabs.memory oslabs.x86 oslabs.x86.Machine oslabs.run
open oslabs.ctxswitch (Symbols State Thread Label uthread_context_t sizeof_uthread_context_t
  STACK_SIZE modify Suspended KeptBy Resumed)

namespace oslabs.scheduling.ctxsw

/-- Where the fields of a `struct uthread` lie, behind `rsp`. It is at the low end of the
    block that also holds the thread's stack. -/
def offsetof_start_routine : UInt64 := 8

def offsetof_arg : UInt64 := 16

def sizeof_uthread : UInt64 := 40

/-- Where `rbp` and `ret_addr` lie in a `uthread_context_t`. -/
def offsetof_rbp : UInt64 := 40

def offsetof_ret_addr : UInt64 := 48

variable (sym : Symbols)

/-- What `ut_create` does to the memory: `mmap` returns a block of zeros. -/
def ut_create (mem : Memory) (puthread start_routine arg : UInt64) : Memory :=
  let mem := mem.fill puthread.toNat 0 STACK_SIZE
  let pctx := puthread + UInt64.ofNat STACK_SIZE - sizeof_uthread_context_t
  let mem := mem.write64 (pctx + offsetof_rbp).toNat 0
  let mem := mem.write64 (pctx + offsetof_ret_addr).toNat sym.internal_start
  let mem := mem.write64 puthread.toNat pctx
  let mem := mem.write64 (puthread + offsetof_start_routine).toNat start_routine
  mem.write64 (puthread + offsetof_arg).toNat arg

/-- The context with which `ut_create` builds a thread. -/
def created_context : uthread_context_t where
  r15 := 0
  r14 := 0
  r13 := 0
  r12 := 0
  rbx := 0
  rbp := 0
  ret_addr := sym.internal_start

/-- The thread that `ut_create` builds. Its stack is the block above its `struct uthread`. -/
def created_thread (puthread : UInt64) : Thread where
  stack := puthread + sizeof_uthread
  stack_size := STACK_SIZE - sizeof_uthread.toNat
  saved := created_context sym
  rsp := puthread + UInt64.ofNat STACK_SIZE
  dispatched := false

/-- The block that `mmap` returns is nobody else's. -/
structure Mapped (s : State) (puthread : UInt64) : Prop where
  null : puthread ≠ 0
  bound : puthread.toNat + STACK_SIZE < 2 ^ 64
  unused : ∀ a, puthread.toNat ≤ a → a < puthread.toNat + STACK_SIZE →
    ¬ sym.Variable a ∧ ∀ u t, s.threads u = some t → ¬ t.Owns u a

/-- The steps of the running thread. `context_switch` and `internal_exit` are the same text
    as in the other scheduler, with `cleanup_thread` for `internal_cleanup`, and so are
    `schedule` and `ut_exit`. `ut_run` does not look at `running_thread` before it sets it,
    and leaves it set. -/
inductive Step : State → Label → State → Prop where
  | same {s s' : State} {label : Label} (hinside : label.Inside) (hstep : ctxswitch.Step sym s label s') :
      Step s label s'
  | ut_create {s : State} {puthread start_routine arg : UInt64} (hmapped : Mapped sym s puthread) :
      Step s (.ut_create puthread puthread start_routine arg) { s with
        machine := { s.machine with mem := ut_create sym s.machine.mem puthread start_routine arg }
        threads := Function.update s.threads puthread (some (created_thread sym puthread)) }
  | ut_run {s : State} {t : Thread} {next_thread ret_addr : UInt64} (hmain : s.running = s.main_thread)
      (hrunning : s.threads s.running = some t) (hroom : t.Room s.running (s.machine.regs .rsp) 64)
      (hnext : (s.threads next_thread).isSome) :
      Step s (.ut_run next_thread ret_addr)
        (State.schedule sym { s with machine := s.machine.store sym.running_thread s.main_thread }
          next_thread ret_addr)

/-- A thread that has never had the processor has the context that `ut_create` gave it. -/
def AsCreated (t : Thread) : Prop :=
  t.dispatched = false → t.saved = created_context sym

variable {sym} {s s' : State} {puthread start_routine arg : UInt64} {mem : Memory} {t : Thread}
  {label : Label} {labels : List Label}

section Create

variable (hmapped : Mapped sym s puthread)
include hmapped

theorem Mapped.toNat_add {offset : UInt64} (hoffset : offset.toNat ≤ STACK_SIZE) :
    (puthread + offset).toNat = puthread.toNat + offset.toNat := by
  have hbound := hmapped.bound
  rw [UInt64.toNat_add, Nat.mod_eq_of_lt (by omega)]

theorem Mapped.toNat_rsp : (created_thread sym puthread).rsp.toNat = puthread.toNat + STACK_SIZE :=
  hmapped.toNat_add (by decide)

/-- The writes of `ut_create`, one after the other. -/
theorem ut_create_eq : ut_create sym mem puthread start_routine arg =
    (((((mem.fill puthread.toNat 0 STACK_SIZE).write64 (puthread.toNat + STACK_SIZE - 16) 0).write64
      (puthread.toNat + STACK_SIZE - 8) sym.internal_start).write64 puthread.toNat
        ((created_thread sym puthread).rsp - sizeof_uthread_context_t)).write64
          (puthread.toNat + 8) start_routine).write64 (puthread.toNat + 16) arg := by
  have hrsp : (puthread + UInt64.ofNat STACK_SIZE).toNat = puthread.toNat + STACK_SIZE := hmapped.toNat_rsp
  have hbound := hmapped.bound
  have hbytes : 56 ≤ STACK_SIZE := by decide
  have hfield : ∀ offset : UInt64, offset.toNat ≤ 56 →
      (puthread + UInt64.ofNat STACK_SIZE - sizeof_uthread_context_t + offset).toNat =
        puthread.toNat + STACK_SIZE - 56 + offset.toNat := by
    intro offset hoffset
    rw [UInt64.toNat_add, ctxswitch.toNat_sub_sizeof (by omega), hrsp, Nat.mod_eq_of_lt (by omega)]
  have hrbp : offsetof_rbp.toNat = 40 := rfl
  have hret : offsetof_ret_addr.toNat = 48 := rfl
  simp only [ut_create]
  rw [hfield _ (by decide), hfield _ (by decide), hmapped.toNat_add (by decide),
    hmapped.toNat_add (by decide), hrbp, hret,
    show puthread.toNat + STACK_SIZE - 56 + 40 = puthread.toNat + STACK_SIZE - 16 by omega,
    show puthread.toNat + STACK_SIZE - 56 + 48 = puthread.toNat + STACK_SIZE - 8 by omega]
  rfl

/-- `ut_create` writes to the block it has mapped only. -/
theorem ut_create_mem_of_outside {a : Nat}
    (h : a < puthread.toNat ∨ puthread.toNat + STACK_SIZE ≤ a) :
    ut_create sym mem puthread start_routine arg a = mem a := by
  have hbytes : 56 ≤ STACK_SIZE := by decide
  rw [ut_create_eq hmapped, write64_of_outside _ _ (by omega), write64_of_outside _ _ (by omega),
    write64_of_outside _ _ (by omega), write64_of_outside _ _ (by omega),
    write64_of_outside _ _ (by omega), Memory.fill_of_outside _ _ h]

theorem Mapped.room : (created_thread sym puthread).Room puthread (created_thread sym puthread).rsp 64 := by
  have hrsp := hmapped.toNat_rsp
  have hstack : (created_thread sym puthread).stack.toNat = puthread.toNat + 40 := hmapped.toNat_add (by decide)
  have hsize : (created_thread sym puthread).stack_size = STACK_SIZE - 40 := rfl
  have hbytes : 104 ≤ STACK_SIZE := by decide
  exact ⟨by omega, by omega, .inl (by omega)⟩

/-- The new thread looks like one that was switched out on entry to `internal_start`. -/
theorem ut_create_suspended :
    Suspended (ut_create sym mem puthread start_routine arg) puthread (created_thread sym puthread) := by
  have hrsp := hmapped.toNat_rsp
  have hbytes : 104 ≤ STACK_SIZE := by decide
  refine ⟨hmapped.room, ?_, ?_⟩
  · rw [ut_create_eq hmapped, read64_write64_of_disjoint _ _ (by omega),
      read64_write64_of_disjoint _ _ (by omega), read64_write64_self]
  · have hzero : ∀ i, i < 5 → (((mem.fill puthread.toNat 0 STACK_SIZE).write64
        (puthread.toNat + STACK_SIZE - 16) 0).write64 (puthread.toNat + STACK_SIZE - 8)
          sym.internal_start).read64 (puthread.toNat + STACK_SIZE - 56 + 8 * i) = 0 := by
      intro i hi
      rw [read64_write64_of_disjoint _ _ (by omega), read64_write64_of_disjoint _ _ (by omega),
        read64_fill_zero _ (by omega) (by omega)]
    have hwords : WordsAt (((mem.fill puthread.toNat 0 STACK_SIZE).write64
        (puthread.toNat + STACK_SIZE - 16) 0).write64 (puthread.toNat + STACK_SIZE - 8)
          sym.internal_start) (puthread.toNat + STACK_SIZE - 56) (created_context sym).words := by
      intro i w hi
      have hlength : i < 7 := (List.getElem?_eq_some_iff.mp hi).1
      obtain hlt | rfl | rfl : i < 5 ∨ i = 5 ∨ i = 6 := by omega
      · have hword : (created_context sym).words[i]? = some 0 := by
          obtain rfl | rfl | rfl | rfl | rfl : i = 0 ∨ i = 1 ∨ i = 2 ∨ i = 3 ∨ i = 4 := by omega
          all_goals rfl
        rw [hzero i hlt]
        exact Option.some.inj (hword.symm.trans hi)
      · rw [show puthread.toNat + STACK_SIZE - 56 + 8 * 5 = puthread.toNat + STACK_SIZE - 16 by omega,
          read64_write64_of_disjoint _ _ (by omega), read64_write64_self]
        exact Option.some.inj hi
      · rw [show puthread.toNat + STACK_SIZE - 56 + 8 * 6 = puthread.toNat + STACK_SIZE - 8 by omega,
          read64_write64_self]
        exact Option.some.inj hi
    rw [hrsp, ut_create_eq hmapped]
    refine hwords.congr fun a hlow _ => ?_
    rw [write64_of_outside _ _ (by omega), write64_of_outside _ _ (by omega),
      write64_of_outside _ _ (by omega)]

theorem Mapped.unused_of_owns {a : Nat} (howns : (created_thread sym puthread).Owns puthread a) :
    ¬ sym.Variable a ∧ ∀ u t, s.threads u = some t → ¬ t.Owns u a := by
  have hstack : (created_thread sym puthread).stack.toNat = puthread.toNat + 40 := hmapped.toNat_add (by decide)
  have hsize : (created_thread sym puthread).stack_size = STACK_SIZE - 40 := rfl
  have hbytes : 104 ≤ STACK_SIZE := by decide
  unfold Thread.Owns at howns
  exact hmapped.unused a (by omega) (by omega)

/-- A byte that is not in the new block is as it was. -/
theorem Mapped.ut_create_eq_of_outside {a : Nat}
    (h : sym.Variable a ∨ ∃ u t, s.threads u = some t ∧ t.Owns u a) :
    ut_create sym mem puthread start_routine arg a = mem a := by
  apply ut_create_mem_of_outside hmapped
  by_contra hinside
  obtain ⟨hvariable, howned⟩ := hmapped.unused a (by omega) (by omega)
  obtain hin | ⟨u, t, hu, howns⟩ := h
  · exact hvariable hin
  · exact howned u t hu howns

end Create

theorem AsCreated.of_dispatched (h : t.dispatched = true) : AsCreated sym t := by
  intro hnever
  rw [h] at hnever
  cases hnever

/-- What one step keeps, and what it hands to the thread it resumes. -/
theorem step_kept (h : KeptBy sym (AsCreated sym) s) (hstep : Step sym s label s') :
    KeptBy sym (AsCreated sym) s' ∧ ∀ thread, label.resumes = some thread → Resumed sym s' thread := by
  cases hstep with
  | same hinside hstep => exact h.step_inside (fun _ => .of_dispatched) hinside hstep
  | ut_create hmapped =>
    refine ⟨h.create (fun _ => hmapped.unused_of_owns) (fun _ => hmapped.ut_create_eq_of_outside)
      (ut_create_suspended hmapped) fun _ => rfl, by simp [Label.resumes]⟩
  | ut_run hmain hrunning hroom hnext =>
    exact h.step_ut_run (fun _ => .of_dispatched) hmain hrunning hroom hnext

end oslabs.scheduling.ctxsw
