import OsLabs.ContextSwitch.Model

open oslabs.memory oslabs.x86 oslabs.x86.Machine

namespace oslabs.ctxswitch

variable {sym : Symbols} {m : Machine} {mem mem' : Memory} {thread next_thread ret_addr rsp : UInt64}
  {t : Thread}

/-- A thread off the processor: the first field of its `uthread_t` points to a context
    on its stack, and above the context is what it had there. -/
structure Suspended (mem : Memory) (thread : UInt64) (t : Thread) : Prop where
  room : t.Room thread t.rsp 64
  field : mem.read64 thread.toNat = t.rsp - sizeof_uthread_context_t
  words : WordsAt mem (t.rsp.toNat - 56) t.saved.words

theorem toNat_sub_sizeof (h : 56 ≤ rsp.toNat) : (rsp - sizeof_uthread_context_t).toNat = rsp.toNat - 56 :=
  UInt64.toNat_sub_of_le _ _ (UInt64.le_iff_toNat_le.mpr h)

/-- The stack below the context may change. -/
theorem Suspended.congr (h : Suspended mem thread t)
    (hagree : ∀ a, t.Owns thread a → a < t.stack.toNat ∨ t.rsp.toNat - 56 ≤ a → mem' a = mem a) :
    Suspended mem' thread t := by
  obtain ⟨hlow, hhigh, hapart⟩ := h.room
  have hfield : AgreeOn mem mem' thread.toNat (thread.toNat + 8) :=
    fun a ha ha' => hagree a (.inl ⟨ha, ha'⟩) (by omega)
  have hframe : AgreeOn mem mem' (t.rsp.toNat - 56) (t.rsp.toNat - 56 + 8 * t.saved.words.length) := by
    intro a ha ha'
    have hlength : t.saved.words.length = 7 := rfl
    exact hagree a (.inr (by omega)) (.inr ha)
  exact ⟨h.room, hfield.read64.trans h.field, h.words.congr hframe⟩

/-- The pops undo the pushes, register by register. -/
theorem Stack.restore {c : uthread_context_t} (h : m.Stack c.words) :
    context (m.exec internal_exit_return) = c ∧
      (m.exec internal_exit_return).regs .rsp = m.regs .rsp + sizeof_uthread_context_t ∧
      (m.exec internal_exit_return).mem = m.mem := by
  unfold uthread_context_t.words at h
  have h15 := h.drop.set (r := .r15) (by decide) c.r15
  have h14 := h15.drop.set (r := .r14) (by decide) c.r14
  have h13 := h14.drop.set (r := .r13) (by decide) c.r13
  have h12 := h13.drop.set (r := .r12) (by decide) c.r12
  have hbx := h12.drop.set (r := .rbx) (by decide) c.rbx
  have hbp := hbx.drop.set (r := .rbp) (by decide) c.rbp
  unfold internal_exit_return
  rw [h.exec_pop, h15.exec_pop, h14.exec_pop, h13.exec_pop, h12.exec_pop, hbx.exec_pop, hbp.exec_ret]
  refine ⟨?_, ?_, rfl⟩
  · simp [context]
  · simp [sizeof_uthread_context_t, UInt64.add_assoc]

/-- A thread whose context the stack pointer points to goes on as it left. -/
theorem Suspended.resume (h : Suspended m.mem thread t) (hrsp : m.regs .rsp = m.load thread) :
    context (m.exec internal_exit_return) = t.saved ∧
      (m.exec internal_exit_return).regs .rsp = t.rsp ∧
      (m.exec internal_exit_return).mem = m.mem := by
  have hlow := h.room.low
  have hcontext : m.regs .rsp = t.rsp - sizeof_uthread_context_t := hrsp.trans h.field
  have haddr : (m.regs .rsp).toNat = t.rsp.toNat - 56 := by
    rw [hcontext, toNat_sub_sizeof (by omega)]
  have hstack : m.Stack t.saved.words := by
    constructor
    · have hlt := t.rsp.toNat_lt
      have hlength : t.saved.words.length = 7 := rfl
      omega
    · rw [haddr]
      exact h.words
  obtain ⟨hregs, hrsp', hmem⟩ := Stack.restore hstack
  refine ⟨hregs, ?_, hmem⟩
  rw [hrsp', hcontext, UInt64.sub_add_cancel]

/-- The machine in `context_switch` once the context is pushed. -/
def pushed (sym : Symbols) (m : Machine) (next_thread ret_addr : UInt64) : Machine :=
  (((m.set .rdi (m.load sym.running_thread)).set .rsi next_thread).call sym.context_switch ret_addr).pushes
    [m.regs .rbp, m.regs .rbx, m.regs .r12, m.regs .r13, m.regs .r14, m.regs .r15]

theorem pushed_rdi : (pushed sym m next_thread ret_addr).regs .rdi = m.load sym.running_thread := by
  unfold pushed
  rw [pushes_regs_of_ne _ _ (by decide)]
  simp

theorem pushed_rsi : (pushed sym m next_thread ret_addr).regs .rsi = next_thread := by
  unfold pushed
  rw [pushes_regs_of_ne _ _ (by decide)]
  simp

/-- A call with arguments in `rdi` and `rsi` pushes its return address only. -/
theorem toNat_call_rsp {rdi rsi target : UInt64} (hroom : 8 ≤ (m.regs .rsp).toNat) :
    ((((m.set .rdi rdi).set .rsi rsi).call target ret_addr).regs .rsp).toNat = (m.regs .rsp).toNat - 8 := by
  rw [call_regs, push_rsp, toNat_rsp_sub (by simpa using hroom)]
  simp

theorem call_mem_of_outside {rdi rsi target : UInt64} (hroom : 8 ≤ (m.regs .rsp).toNat) {a : Nat}
    (h : a < (m.regs .rsp).toNat - 8 ∨ (m.regs .rsp).toNat ≤ a) :
    (((m.set .rdi rdi).set .rsi rsi).call target ret_addr).mem a = m.mem a := by
  rw [call_mem, push_mem, toNat_rsp_sub (by simpa using hroom)]
  apply write64_of_outside _ _
  simp only [ne_eq, reduceCtorEq, not_false_eq_true, set_regs_of_ne]
  omega

theorem toNat_pushed_rsp (hroom : 56 ≤ (m.regs .rsp).toNat) :
    ((pushed sym m next_thread ret_addr).regs .rsp).toNat = (m.regs .rsp).toNat - 56 := by
  unfold pushed
  rw [toNat_pushes_rsp, toNat_call_rsp (by omega)]
  · simp only [List.length_cons, List.length_nil]
    omega
  · rw [toNat_call_rsp (by omega)]
    simp only [List.length_cons, List.length_nil]
    omega

theorem pushed_rsp (hroom : 56 ≤ (m.regs .rsp).toNat) :
    (pushed sym m next_thread ret_addr).regs .rsp = m.regs .rsp - sizeof_uthread_context_t := by
  rw [← UInt64.toNat_inj, toNat_pushed_rsp hroom, toNat_sub_sizeof hroom]

theorem pushed_mem_of_outside (hroom : 56 ≤ (m.regs .rsp).toNat) {a : Nat}
    (h : a < (m.regs .rsp).toNat - 56 ∨ (m.regs .rsp).toNat ≤ a) :
    (pushed sym m next_thread ret_addr).mem a = m.mem a := by
  unfold pushed
  rw [pushes_mem_of_outside, call_mem_of_outside (by omega) (by omega)]
  · rw [toNat_call_rsp (by omega)]
    simp only [List.length_cons, List.length_nil]
    omega
  · rw [toNat_call_rsp (by omega)]
    simp only [List.length_cons, List.length_nil]
    omega

/-- The words pushed are the context, in the order of its fields. -/
theorem pushed_stack (hroom : 56 ≤ (m.regs .rsp).toNat) :
    (pushed sym m next_thread ret_addr).Stack { context m with ret_addr }.words := by
  unfold pushed
  have hcall : (((m.set .rdi (m.load sym.running_thread)).set .rsi next_thread).call
      sym.context_switch ret_addr).Stack [ret_addr] := by
    have hpush := (stack_nil ((m.set .rdi (m.load sym.running_thread)).set .rsi next_thread)).push
      (by simp only [ne_eq, reduceCtorEq, not_false_eq_true, set_regs_of_ne]; omega) ret_addr
    exact hpush.congr rfl fun a _ _ => rfl
  apply hcall.pushes _
  rw [toNat_call_rsp (by omega)]
  simp only [List.length_cons, List.length_nil]
  omega

/-- The machine in `context_switch` before the first pop. -/
def switched (sym : Symbols) (m : Machine) (next_thread ret_addr : UInt64) : Machine :=
  let m := pushed sym m next_thread ret_addr
  let m := (m.store (m.regs .rdi) (m.regs .rsp)).store sym.running_thread (m.regs .rsi)
  m.set .rsp (m.load (m.regs .rsi))

/-- `context_switch` pushes a context, leaves its address in the `uthread_t` of the
    running thread, names the next one and goes on from the context of that one. -/
theorem call_context_switch_eq : call_context_switch sym m next_thread ret_addr =
    (switched sym m next_thread ret_addr).exec internal_exit_return := by
  have hcode : context_switch sym =
      [Reg.rbp, .rbx, .r12, .r13, .r14, .r15].map Instr.push ++
        ([.mov_store .rsp .rdi, .mov_symbol .rsi sym.running_thread, .mov_load .rsi .rsp] ++
          internal_exit_return) := rfl
  unfold call_context_switch
  rw [hcode, exec_append, exec_append, exec_pushes _ _ (by decide)]
  simp only [List.map_cons, List.map_nil, call_regs, ne_eq, reduceCtorEq, not_false_eq_true,
    push_regs_of_ne, set_regs_of_ne]
  rfl

theorem switched_rsp : (switched sym m next_thread ret_addr).regs .rsp =
    (switched sym m next_thread ret_addr).load next_thread := by
  unfold switched
  simp only [store_regs, pushed_rsi, set_regs_self, set_load]

theorem switched_names :
    (switched sym m next_thread ret_addr).load sym.running_thread = next_thread := by
  unfold switched Machine.load
  simp only [set_mem, store_mem, store_regs, pushed_rsi, read64_write64_self]

/-- Three places are written to: the top of the stack, the first field of the running
    thread's `uthread_t` and the variable. -/
theorem switched_mem (hnames : m.load sym.running_thread = thread) (hroom : 56 ≤ (m.regs .rsp).toNat) :
    (switched sym m next_thread ret_addr).mem =
      ((pushed sym m next_thread ret_addr).mem.write64 thread.toNat
        (m.regs .rsp - sizeof_uthread_context_t)).write64 sym.running_thread.toNat next_thread := by
  unfold switched
  simp only [set_mem, store_mem, store_regs, pushed_rsi, pushed_rdi, hnames, pushed_rsp hroom]

theorem write_running_thread_of_not_variable (mem : Memory) (w : UInt64) {a : Nat}
    (h : ¬ sym.Variable a) : mem.write64 sym.running_thread.toNat w a = mem a := by
  unfold Symbols.Variable at h
  exact write64_of_outside mem w (by omega)

theorem read64_write_running_thread (mem : Memory) (w : UInt64) {addr : Nat}
    (h : ∀ a, addr ≤ a → a < addr + 8 → ¬ sym.Variable a) :
    (mem.write64 sym.running_thread.toNat w).read64 addr = mem.read64 addr :=
  AgreeOn.read64 fun a ha ha' => write_running_thread_of_not_variable mem w (h a ha ha')

theorem switched_mem_of_outside (hnames : m.load sym.running_thread = thread)
    (hroom : 56 ≤ (m.regs .rsp).toNat) {a : Nat}
    (hstack : a < (m.regs .rsp).toNat - 56 ∨ (m.regs .rsp).toNat ≤ a)
    (hfield : a < thread.toNat ∨ thread.toNat + 8 ≤ a) (hvariable : ¬ sym.Variable a) :
    (switched sym m next_thread ret_addr).mem a = m.mem a := by
  rw [switched_mem hnames hroom, write_running_thread_of_not_variable _ _ hvariable,
    write64_of_outside _ _ hfield, pushed_mem_of_outside hroom hstack]

/-- The running thread is suspended, with the registers it had at its call. -/
theorem switched_suspended (hnames : m.load sym.running_thread = thread)
    (hroom : t.Room thread (m.regs .rsp) 64) (hvariable : ∀ a, t.Owns thread a → ¬ sym.Variable a) :
    Suspended (switched sym m next_thread ret_addr).mem thread (t.switch_out m ret_addr) := by
  obtain ⟨hlow, hhigh, hapart⟩ := hroom
  have hbytes : 56 ≤ (m.regs .rsp).toNat := by omega
  have hpushed : WordsAt (pushed sym m next_thread ret_addr).mem ((m.regs .rsp).toNat - 56)
      { context m with ret_addr }.words := by
    rw [← toNat_pushed_rsp hbytes]
    exact (pushed_stack hbytes).words
  rw [switched_mem hnames hbytes]
  refine ⟨⟨hlow, hhigh, hapart⟩, ?_, ?_⟩
  · rw [read64_write_running_thread _ _ fun a ha ha' => hvariable a (.inl ⟨ha, ha'⟩), read64_write64_self]
    rfl
  · refine hpushed.congr fun a ha ha' => ?_
    have hlength : ({ context m with ret_addr } : uthread_context_t).words.length = 7 := rfl
    rw [write_running_thread_of_not_variable _ _ (hvariable a (.inr (by omega))),
      write64_of_outside _ _ (by omega)]

/-- The machine in `internal_exit` before its call. -/
def exiting (sym : Symbols) (m : Machine) (next_thread ret_addr : UInt64) : Machine :=
  let m := ((m.set .rdi (m.load sym.running_thread)).set .rsi next_thread).call sym.internal_exit ret_addr
  let m := m.store sym.running_thread (m.regs .rsi)
  m.set .rsp (m.load (m.regs .rsi))

/-- `internal_exit` names the next thread and moves over to its stack for the call. -/
theorem call_internal_exit_eq : call_internal_exit sym m next_thread ret_addr =
    (exiting sym m next_thread ret_addr).call sym.internal_cleanup sym.internal_exit_return := rfl

theorem exiting_rdi : (exiting sym m next_thread ret_addr).regs .rdi = m.load sym.running_thread := by
  simp [exiting]

theorem exiting_rsp : (exiting sym m next_thread ret_addr).regs .rsp =
    (exiting sym m next_thread ret_addr).load next_thread := by
  simp [exiting]

theorem exiting_names :
    (exiting sym m next_thread ret_addr).load sym.running_thread = next_thread := by
  simp [exiting, Machine.load]

theorem exiting_mem_of_outside (hroom : 8 ≤ (m.regs .rsp).toNat) {a : Nat}
    (hstack : a < (m.regs .rsp).toNat - 8 ∨ (m.regs .rsp).toNat ≤ a) (hvariable : ¬ sym.Variable a) :
    (exiting sym m next_thread ret_addr).mem a = m.mem a := by
  unfold exiting
  rw [set_mem, store_mem, write_running_thread_of_not_variable _ _ hvariable]
  exact call_mem_of_outside hroom hstack

end oslabs.ctxswitch
