import OsLabs.Lib.Run
import OsLabs.Lib.X86

open oslabs.memory oslabs.x86 oslabs.run

namespace oslabs.ctxswitch

/-- The addresses of the scheduler's code and of its variable. `internal_exit_return`
    is the instruction after the call in `internal_exit`. -/
structure Symbols where
  running_thread : UInt64
  context_switch : UInt64
  internal_exit : UInt64
  internal_exit_return : UInt64
  internal_cleanup : UInt64
  internal_start : UInt64

/-- A thread's execution context as it lies on its stack, in this order. -/
structure uthread_context_t where
  r15 : UInt64
  r14 : UInt64
  r13 : UInt64
  r12 : UInt64
  rbx : UInt64
  rbp : UInt64
  ret_addr : UInt64
  deriving DecidableEq, Repr

def uthread_context_t.words (c : uthread_context_t) : List UInt64 :=
  [c.r15, c.r14, c.r13, c.r12, c.rbx, c.rbp, c.ret_addr]

def sizeof_uthread_context_t : UInt64 := 56

/-- Where the fields of a `struct uthread` lie. Its list entry is left out. -/
def offsetof_function : UInt64 := 24

def offsetof_argument : UInt64 := 32

def offsetof_stack : UInt64 := 40

def sizeof_uthread_t : Nat := 48

def STACK_SIZE : Nat := 8 * 4096

variable (sym : Symbols)

def context_switch : List Instr :=
  [.push .rbp, .push .rbx, .push .r12, .push .r13, .push .r14, .push .r15,
    .mov_store .rsp .rdi,
    .mov_symbol .rsi sym.running_thread,
    .mov_load .rsi .rsp,
    .pop .r15, .pop .r14, .pop .r13, .pop .r12, .pop .rbx, .pop .rbp,
    .ret]

/-- The text of `internal_exit` as far as its call. -/
def internal_exit : List Instr :=
  [.mov_symbol .rsi sym.running_thread,
    .mov_load .rsi .rsp,
    .call sym.internal_cleanup sym.internal_exit_return]

/-- The text of `internal_exit` after its call. -/
def internal_exit_return : List Instr :=
  [.pop .r15, .pop .r14, .pop .r13, .pop .r12, .pop .rbx, .pop .rbp, .ret]

/-- The context with which `ut_create` builds a thread. -/
def created_context : uthread_context_t where
  r15 := 0x55555555
  r14 := 0x44444444
  r13 := 0x33333333
  r12 := 0x22222222
  rbx := 0x11111111
  rbp := 0x00000000
  ret_addr := sym.internal_start

/-- What `ut_create` writes to the two blocks it has allocated. -/
def ut_create (mem : Memory) (thread stack start_routine arg : UInt64) : Memory :=
  let mem := mem.write64 (thread + offsetof_stack).toNat stack
  let mem := mem.fill stack.toNat 0 STACK_SIZE
  let mem := mem.write64 (thread + offsetof_function).toNat start_routine
  let mem := mem.write64 (thread + offsetof_argument).toNat arg
  let context := stack + UInt64.ofNat STACK_SIZE - sizeof_uthread_context_t - 8
  let mem := mem.write64 thread.toNat context
  mem.writeWords context.toNat (created_context sym).words

/-- The registers that a switch saves, and where the code goes on. -/
def context (m : Machine) : uthread_context_t where
  r15 := m.regs .r15
  r14 := m.regs .r14
  r13 := m.regs .r13
  r12 := m.regs .r12
  rbx := m.regs .rbx
  rbp := m.regs .rbp
  ret_addr := m.rip

/-- The call `context_switch(running_thread, next_thread)` in `schedule`, from the
    instruction before it to the one at which `next_thread` goes on. -/
def call_context_switch (m : Machine) (next_thread ret_addr : UInt64) : Machine :=
  let m := (m.set .rdi (m.load sym.running_thread)).set .rsi next_thread
  (m.call sym.context_switch ret_addr).exec (context_switch sym)

/-- The call `internal_exit(running_thread, next_thread)` in `ut_exit`, as far as the
    first instruction of `internal_cleanup`. -/
def call_internal_exit (m : Machine) (next_thread ret_addr : UInt64) : Machine :=
  let m := (m.set .rdi (m.load sym.running_thread)).set .rsi next_thread
  (m.call sym.internal_exit ret_addr).exec (internal_exit sym)

/-- A thread with its stack. The other fields are a history: the registers and the stack
    pointer with which the thread last left the processor, or with which it was built,
    and whether it has ever had the processor. -/
structure Thread where
  stack : UInt64
  stack_size : Nat
  saved : uthread_context_t
  rsp : UInt64
  dispatched : Bool

/-- The bytes that are a thread's own: the first field of its `uthread_t`, in which its
    context is kept, and its stack. -/
def Thread.Owns (t : Thread) (thread : UInt64) (a : Nat) : Prop :=
  thread.toNat ≤ a ∧ a < thread.toNat + 8 ∨ t.stack.toNat ≤ a ∧ a < t.stack.toNat + t.stack_size

/-- Below a stack pointer there is room for so many bytes, and the thread's `uthread_t`
    is not there. -/
structure Thread.Room (t : Thread) (thread rsp : UInt64) (bytes : Nat) : Prop where
  low : t.stack.toNat + bytes ≤ rsp.toNat
  high : rsp.toNat ≤ t.stack.toNat + t.stack_size
  apart : thread.toNat + 8 ≤ t.stack.toNat ∨ rsp.toNat ≤ thread.toNat

/-- The thread that `ut_create` builds. -/
def created_thread (stack : UInt64) : Thread where
  stack
  stack_size := STACK_SIZE
  saved := created_context sym
  rsp := stack + UInt64.ofNat STACK_SIZE - 8
  dispatched := false

/-- A thread leaves the processor by a call that will return to `ret_addr`. -/
def Thread.switch_out (t : Thread) (m : Machine) (ret_addr : UInt64) : Thread :=
  { t with saved := { context m with ret_addr }, rsp := m.regs .rsp }

def Thread.dispatch (t : Thread) : Thread :=
  { t with dispatched := true }

/-- The machine, the threads that exist by the addresses of their `uthread_t`, and the
    thread whose code runs. The main thread is that of the operating system. -/
structure State where
  machine : Machine
  threads : UInt64 → Option Thread
  running : UInt64
  main_thread : UInt64

/-- Change one thread, if it exists. -/
def modify (threads : UInt64 → Option Thread) (thread : UInt64) (f : Thread → Thread) :
    UInt64 → Option Thread :=
  Function.update threads thread ((threads thread).map f)

/-- A byte of a thread other than the one given. -/
def State.Foreign (s : State) (thread : UInt64) (a : Nat) : Prop :=
  ∃ u t, s.threads u = some t ∧ u ≠ thread ∧ t.Owns u a

/-- A byte below the stack pointer on the stack to which it points. -/
def State.Below (s : State) (rsp : UInt64) (a : Nat) : Prop :=
  ∃ u t, s.threads u = some t ∧ t.stack.toNat ≤ a ∧ a < rsp.toNat ∧
    rsp.toNat < t.stack.toNat + t.stack_size

/-- A byte of the variable `running_thread`. -/
def Symbols.Variable (a : Nat) : Prop :=
  sym.running_thread.toNat ≤ a ∧ a < sym.running_thread.toNat + 8

/-- What `internal_cleanup` may do to the machine. It follows the calling convention, and
    of the scheduler's memory it writes to the freed thread and below its stack pointer. -/
structure internal_cleanup (s : State) (m m' : Machine) : Prop where
  callee_saved : ∀ r ∈ calleeSaved, m'.regs r = m.regs r
  rsp : m'.regs .rsp = m.regs .rsp + 8
  rip : m'.rip = m.top
  threads : ∀ a, s.Foreign (m.regs .rdi) a → ¬ s.Below (m.regs .rsp) a → m'.mem a = m.mem a
  variable_ : ∀ a, sym.Variable a → m'.mem a = m.mem a

/-- The blocks that `malloc` returns are nobody else's. -/
structure Fresh (s : State) (thread stack : UInt64) : Prop where
  null : thread ≠ 0
  thread_bound : thread.toNat + sizeof_uthread_t < 2 ^ 64
  stack_bound : stack.toNat + STACK_SIZE < 2 ^ 64
  apart : thread.toNat + sizeof_uthread_t ≤ stack.toNat ∨ stack.toNat + STACK_SIZE ≤ thread.toNat
  thread_unused : ∀ a, thread.toNat ≤ a → a < thread.toNat + sizeof_uthread_t →
    ¬ sym.Variable a ∧ ∀ u t, s.threads u = some t → ¬ t.Owns u a
  stack_unused : ∀ a, stack.toNat ≤ a → a < stack.toNat + STACK_SIZE →
    ¬ sym.Variable a ∧ ∀ u t, s.threads u = some t → ¬ t.Owns u a

/-- `schedule`, from the running thread to another. -/
def State.schedule (s : State) (next_thread ret_addr : UInt64) : State :=
  { s with
    machine := call_context_switch sym s.machine next_thread ret_addr
    threads := modify (modify s.threads s.running (·.switch_out s.machine ret_addr)) next_thread
      Thread.dispatch
    running := next_thread }

inductive Label where
  | code
  | ut_create (thread stack start_routine arg : UInt64)
  | ut_run (next_thread ret_addr : UInt64)
  | ut_run_end
  | schedule (next_thread ret_addr : UInt64)
  | ut_exit (next_thread ret_addr : UInt64)

/-- The thread that a step resumes. -/
def Label.resumes : Label → Option UInt64
  | .ut_run next_thread _ => some next_thread
  | .schedule next_thread _ => some next_thread
  | .ut_exit next_thread _ => some next_thread
  | _ => none

/-- Where the running thread will go on when it leaves the processor for a while. -/
def Label.leaves : Label → Option UInt64
  | .ut_run _ ret_addr => some ret_addr
  | .schedule _ ret_addr => some ret_addr
  | _ => none

/-- The steps of the running thread. Its code may do anything to the registers and to
    memory that belongs neither to another thread nor to the scheduler. It calls the
    scheduler with room for a context and for one more call on top of it. -/
inductive Step : State → Label → State → Prop where
  | code {s : State} {m : Machine}
      (hforeign : ∀ a, s.Foreign s.running a → m.mem a = s.machine.mem a)
      (hvariable : ∀ a, sym.Variable a → m.mem a = s.machine.mem a) :
      Step s .code { s with machine := m }
  | ut_create {s : State} {thread stack start_routine arg : UInt64} (hfresh : Fresh sym s thread stack) :
      Step s (.ut_create thread stack start_routine arg) { s with
        machine := { s.machine with mem := ut_create sym s.machine.mem thread stack start_routine arg }
        threads := Function.update s.threads thread (some (created_thread sym stack)) }
  | ut_run {s : State} {t : Thread} {next_thread ret_addr : UInt64} (hmain : s.running = s.main_thread)
      (hnull : s.machine.load sym.running_thread = 0) (hrunning : s.threads s.running = some t)
      (hroom : t.Room s.running (s.machine.regs .rsp) 64) (hnext : (s.threads next_thread).isSome) :
      Step s (.ut_run next_thread ret_addr)
        (State.schedule sym { s with machine := s.machine.store sym.running_thread s.main_thread }
          next_thread ret_addr)
  | ut_run_end {s : State} (hmain : s.running = s.main_thread) :
      Step s .ut_run_end { s with machine := s.machine.store sym.running_thread 0 }
  | schedule {s : State} {t : Thread} {next_thread ret_addr : UInt64}
      (hinside : s.machine.load sym.running_thread ≠ 0) (hrunning : s.threads s.running = some t)
      (hroom : t.Room s.running (s.machine.regs .rsp) 64) (hnext : (s.threads next_thread).isSome) :
      Step s (.schedule next_thread ret_addr) (s.schedule sym next_thread ret_addr)
  | ut_exit {s : State} {t : Thread} {m : Machine} {next_thread ret_addr : UInt64}
      (hmain : s.running ≠ s.main_thread) (hrunning : s.threads s.running = some t)
      (hroom : t.Room s.running (s.machine.regs .rsp) 8) (hnext : (s.threads next_thread).isSome)
      (hother : next_thread ≠ s.running)
      (hcleanup : internal_cleanup sym s (call_internal_exit sym s.machine next_thread ret_addr) m)
      (hreturn : m.rip = sym.internal_exit_return) :
      Step s (.ut_exit next_thread ret_addr) { s with
        machine := m.exec internal_exit_return
        threads := modify (Function.update s.threads s.running none) next_thread Thread.dispatch
        running := next_thread }

/-- The operating system's thread before its first `ut_run`. -/
structure Initial (s : State) : Prop where
  running : s.running = s.main_thread
  null : s.machine.load sym.running_thread = 0
  only : ∀ u, u ≠ s.main_thread → s.threads u = none
  thread : ∃ t, s.threads s.main_thread = some t ∧ t.dispatched = true
  apart : ∀ u t a, s.threads u = some t → t.Owns u a → ¬ sym.Variable a

/-- In a run to the last state, the thread was last on the processor in state `left`, and
    left it by a call that returns to `ret_addr`. -/
inductive LeftIn (first : State) (thread : UInt64) (left : State) (ret_addr : UInt64) : State → Prop where
  | leave {labels : List Label} {label : Label} {s : State} (hrun : Run (Step sym) first labels left)
      (hstep : Step sym left label s) (hrunning : left.running = thread)
      (hleaves : label.leaves = some ret_addr) (hother : label.resumes ≠ some thread) :
      LeftIn first thread left ret_addr s
  | wait {label : Label} {s s' : State} (hleft : LeftIn first thread left ret_addr s)
      (hstep : Step sym s label s') (hother : label.resumes ≠ some thread) :
      LeftIn first thread left ret_addr s'

end oslabs.ctxswitch
