import OsLabs.ContextSwitch.Create
import OsLabs.ContextSwitch.Invariant

open oslabs.memory oslabs.x86 oslabs.x86.Machine oslabs.run

namespace oslabs.ctxswitch

variable {sym : Symbols} {s s' : State} {m m' : Machine} {t : Thread} {u thread next_thread ret_addr : UInt64}
  {stack start_routine arg : UInt64} {mem : Memory} {label : Label} {labels : List Label}

theorem Fresh.unused (hfresh : Fresh sym s thread stack) {a : Nat}
    (howns : (created_thread sym stack).Owns thread a) :
    ¬ sym.Variable a ∧ ∀ u t, s.threads u = some t → ¬ t.Owns u a := by
  obtain ⟨hlow, hhigh⟩ | ⟨hlow, hhigh⟩ := howns
  · apply hfresh.thread_unused a hlow
    unfold sizeof_uthread_t
    omega
  · exact hfresh.stack_unused a hlow hhigh

/-- A byte that is not in the new blocks is as it was. -/
theorem Fresh.ut_create_eq_of_outside (hfresh : Fresh sym s thread stack) {a : Nat}
    (h : sym.Variable a ∨ ∃ u t, s.threads u = some t ∧ t.Owns u a) :
    ut_create sym mem thread stack start_routine arg a = mem a := by
  have hnot : ¬ (¬ sym.Variable a ∧ ∀ u t, s.threads u = some t → ¬ t.Owns u a) := by
    rintro ⟨hvariable, howned⟩
    obtain hin | ⟨u, t, hu, howns⟩ := h
    · exact hvariable hin
    · exact howned u t hu howns
  refine ut_create_mem_of_outside hfresh ?_ ?_
  · by_contra hinside
    exact hnot (hfresh.thread_unused a (by omega) (by omega))
  · by_contra hinside
    exact hnot (hfresh.stack_unused a (by omega) (by omega))

theorem Kept.create (h : Kept sym s) (hfresh : Fresh sym s thread stack) :
    Kept sym { s with
      machine := { s.machine with mem := ut_create sym s.machine.mem thread stack start_routine arg }
      threads := Function.update s.threads thread (some (created_thread sym stack)) } :=
  KeptBy.create h (fun _ howns => hfresh.unused howns) (fun _ h => hfresh.ut_create_eq_of_outside h)
    (ut_create_suspended hfresh) fun _ => ⟨rfl, rfl⟩

/-- `running_thread` is not null while one of the scheduler's threads runs. -/
theorem KeptBy.named {Built : Thread → Prop} (h : KeptBy sym Built s)
    (hinside : s.machine.load sym.running_thread ≠ 0 ∨ s.running ≠ s.main_thread) :
    s.machine.load sym.running_thread = s.running := by
  obtain hnames | ⟨hmain, hnull⟩ := h.names
  · exact hnames
  · obtain hne | hne := hinside
    · exact absurd hnull hne
    · exact absurd hmain hne

section Shared

variable {Built : Thread → Prop} (hbuilt : ∀ t, t.dispatched = true → Built t)
include hbuilt

/-- The main thread enters the scheduler in the name of `running_thread`. -/
theorem KeptBy.step_ut_run (h : KeptBy sym Built s) (hmain : s.running = s.main_thread)
    (hrunning : s.threads s.running = some t) (hroom : t.Room s.running (s.machine.regs .rsp) 64)
    (hnext : (s.threads next_thread).isSome) :
    KeptBy sym Built (State.schedule sym
        { s with machine := s.machine.store sym.running_thread s.main_thread } next_thread ret_addr) ∧
      ∀ thread, (Label.ut_run next_thread ret_addr).resumes = some thread →
        Resumed sym (State.schedule sym
          { s with machine := s.machine.store sym.running_thread s.main_thread } next_thread ret_addr) thread := by
  have hkept := h.store_running_thread s.main_thread (.inl hmain.symm)
  have hnames : (s.machine.store sym.running_thread s.main_thread).load sym.running_thread =
      s.running := by
    simp [Machine.load, hmain]
  obtain ⟨hafter, hresumed⟩ := hkept.schedule hbuilt hnames hrunning hroom hnext
  refine ⟨hafter, fun thread hthread => ?_⟩
  obtain rfl := Option.some.inj hthread
  exact hresumed

/-- The labels of what a scheduler does once it is running. -/
def Label.Inside : Label → Prop
  | .code | .schedule _ _ | .ut_exit _ _ => True
  | _ => False

theorem KeptBy.step_inside (h : KeptBy sym Built s) (hlabel : label.Inside) (hstep : Step sym s label s') :
    KeptBy sym Built s' ∧ ∀ thread, label.resumes = some thread → Resumed sym s' thread := by
  cases hstep with
  | code hforeign hvariable => exact ⟨h.code hforeign hvariable, by simp [Label.resumes]⟩
  | ut_create | ut_run_end | ut_run => exact hlabel.elim
  | schedule hinside hrunning hroom hnext =>
    obtain ⟨hafter, hresumed⟩ := h.schedule hbuilt (h.named (.inl hinside)) hrunning hroom hnext
    refine ⟨hafter, fun thread hthread => ?_⟩
    obtain rfl := Option.some.inj hthread
    exact hresumed
  | ut_exit hmain hrunning hroom hnext hother hcleanup _ =>
    obtain ⟨hafter, hresumed⟩ := h.exit hbuilt (h.named (.inr hmain)) hrunning hroom hnext hother hcleanup
    refine ⟨hafter, fun thread hthread => ?_⟩
    obtain rfl := Option.some.inj hthread
    exact hresumed

end Shared

/-- What one step keeps, and what it hands to the thread it resumes. -/
theorem Kept.step (h : Kept sym s) (hstep : Step sym s label s') :
    Kept sym s' ∧ ∀ thread, label.resumes = some thread → Resumed sym s' thread := by
  have hbuilt : ∀ t : Thread, t.dispatched = true → AsCreated sym t := fun _ => .of_dispatched
  cases hstep with
  | code hforeign hvariable => exact h.step_inside hbuilt trivial (.code hforeign hvariable)
  | ut_create hfresh => exact ⟨h.create hfresh, by simp [Label.resumes]⟩
  | ut_run_end hmain => exact ⟨h.store_running_thread 0 (.inr ⟨hmain, rfl⟩), by simp [Label.resumes]⟩
  | ut_run hmain _ hrunning hroom hnext => exact h.step_ut_run hbuilt hmain hrunning hroom hnext
  | schedule hinside hrunning hroom hnext =>
    exact h.step_inside hbuilt trivial (.schedule hinside hrunning hroom hnext)
  | ut_exit hmain hrunning hroom hnext hother hcleanup hreturn =>
    exact h.step_inside hbuilt trivial (.ut_exit hmain hrunning hroom hnext hother hcleanup hreturn)

theorem modify_dispatch_saved {threads : UInt64 → Option Thread} (hu : threads u = some t) :
    ∃ t', modify threads next_thread Thread.dispatch u = some t' ∧ t'.saved = t.saved ∧ t'.rsp = t.rsp := by
  unfold modify
  by_cases heq : u = next_thread
  · subst heq
    exact ⟨t.dispatch, by rw [Function.update_self, hu, Option.map_some], rfl, rfl⟩
  · exact ⟨t, by rw [Function.update_of_ne heq, hu], rfl, rfl⟩

/-- A switch between two threads leaves a third one as it is saved. -/
theorem State.schedule_saved (hu : s.threads u = some t) (hne : u ≠ s.running) :
    ∃ t', (s.schedule sym next_thread ret_addr).threads u = some t' ∧ t'.saved = t.saved ∧
      t'.rsp = t.rsp := by
  apply modify_dispatch_saved
  rwa [modify, Function.update_of_ne hne]

/-- No step touches what a thread off the processor left with. -/
theorem Step.saved_eq (hstep : Step sym s label s') (hu : s.threads u = some t) (hne : u ≠ s.running) :
    ∃ t', s'.threads u = some t' ∧ t'.saved = t.saved ∧ t'.rsp = t.rsp := by
  cases hstep with
  | code | ut_run_end => exact ⟨t, hu, rfl, rfl⟩
  | ut_create hfresh =>
    rename_i thread _ _ _
    refine ⟨t, ?_, rfl, rfl⟩
    have hother : u ≠ thread := by
      rintro rfl
      exact (hfresh.unused (a := u.toNat) (.inl (by omega))).2 u t hu (.inl (by omega))
    simpa only [Function.update_of_ne hother] using hu
  | ut_run | schedule => exact State.schedule_saved hu hne
  | ut_exit =>
    apply modify_dispatch_saved
    rwa [Function.update_of_ne hne]

theorem Initial.keptBy {Built : Thread → Prop} (h : Initial sym s)
    (hbuilt : ∀ t, t.dispatched = true → Built t) : KeptBy sym Built s := by
  have honly : ∀ u t, s.threads u = some t → u = s.main_thread := by
    intro u t hu
    by_contra hne
    rw [h.only u hne] at hu
    cases hu
  obtain ⟨main, hmain, hdispatched⟩ := h.thread
  refine ⟨⟨?_, h.apart⟩, ?_, ?_, .inr ⟨h.running, h.null⟩, ?_⟩
  · intro u v tu tv a hu hv _ _
    rw [honly u tu hu, honly v tv hv]
  · intro u t hu
    obtain rfl := honly u t hu
    obtain rfl : main = t := Option.some.inj (hmain.symm.trans hu)
    exact hbuilt _ hdispatched
  · exact ⟨main, by rw [h.running, hmain], hdispatched⟩
  · intro u t hu hne
    exact absurd ((honly u t hu).trans h.running.symm) hne

theorem Initial.kept (h : Initial sym s) : Kept sym s :=
  h.keptBy fun _ => .of_dispatched

theorem run_kept {first : State} (hinitial : Initial sym first) (hrun : Run (Step sym) first labels s) :
    Kept sym s :=
  hrun.invariant (Kept sym) hinitial.kept fun _ _ _ h hstep => (h.step hstep).1

/-- Who runs after a step. -/
theorem Step.running_eq (hstep : Step sym s label s') : s'.running = label.resumes.getD s.running := by
  cases hstep <;> rfl

/-- A thread off the processor is recorded as it left. -/
theorem LeftIn.saved_eq {first left : State} (h : LeftIn sym first thread left ret_addr s) :
    thread ≠ s.running ∧ ∃ t, s.threads thread = some t ∧
      t.saved = { context left.machine with ret_addr } ∧ t.rsp = left.machine.regs .rsp := by
  induction h with
  | leave _ hstep hrunning hleaves hother =>
    subst hrunning
    have hmodify : ∀ {t : Thread} {next_thread : UInt64} {m : Machine}, some next_thread ≠ some left.running →
        left.threads left.running = some t →
        modify (modify left.threads left.running (·.switch_out m ret_addr)) next_thread Thread.dispatch
          left.running = some (t.switch_out m ret_addr) := by
      intro t next_thread m hne ht
      have hnext : left.running ≠ next_thread := fun heq => hne (congrArg some heq.symm)
      rw [modify, Function.update_of_ne hnext, modify, Function.update_self, ht, Option.map_some]
    cases hstep with
    | code | ut_create | ut_run_end | ut_exit => cases hleaves
    | ut_run _ _ ht =>
      obtain rfl := Option.some.inj hleaves
      exact ⟨fun heq => hother (congrArg some heq.symm), _, hmodify hother ht, rfl, rfl⟩
    | schedule _ ht =>
      obtain rfl := Option.some.inj hleaves
      exact ⟨fun heq => hother (congrArg some heq.symm), _, hmodify hother ht, rfl, rfl⟩
  | @wait label s s' _ hstep hother ih =>
    obtain ⟨hne, t, ht, hsaved, hrsp⟩ := ih
    obtain ⟨t', ht', hsaved', hrsp'⟩ := hstep.saved_eq ht hne
    refine ⟨?_, t', ht', hsaved'.trans hsaved, hrsp'.trans hrsp⟩
    rw [hstep.running_eq]
    cases hresumes : label.resumes with
    | none => exact hne
    | some next_thread =>
      rintro rfl
      exact hother hresumes

/-- Whenever a thread gets the processor it goes on as it left, and where it has never
    had it before it enters `internal_start` at the top of its stack. -/
theorem context_switch_faithful {first : State} (hinitial : Initial sym first)
    (hrun : Run (Step sym) first labels s) (hstep : Step sym s label s')
    (hresumes : label.resumes = some thread) :
    Resumed sym s' thread ∧
      (∀ left ret_addr, LeftIn sym first thread left ret_addr s →
        context s'.machine = { context left.machine with ret_addr } ∧
          s'.machine.regs .rsp = left.machine.regs .rsp) ∧
      ∀ t, s.threads thread = some t → t.dispatched = false →
        s'.machine.rip = sym.internal_start ∧
          s'.machine.regs .rsp = t.stack + UInt64.ofNat STACK_SIZE - 8 := by
  have hkept := run_kept hinitial hrun
  have hresumed := (hkept.step hstep).2 thread hresumes
  have hback : ∀ t, s.threads thread = some t → thread ≠ s.running →
      context s'.machine = t.saved ∧ s'.machine.regs .rsp = t.rsp := by
    intro t ht hother
    obtain ⟨t', ht', hsaved, hrsp⟩ := hstep.saved_eq ht hother
    obtain ⟨after, hafter, hregs, hafter_rsp⟩ := hresumed.registers
    obtain rfl : t' = after := Option.some.inj (ht'.symm.trans hafter)
    exact ⟨hregs.trans hsaved, hafter_rsp.trans hrsp⟩
  refine ⟨hresumed, fun left ret_addr hleft => ?_, fun t ht hnever => ?_⟩
  · obtain ⟨hother, t, ht, hsaved, hrsp⟩ := hleft.saved_eq
    rw [← hsaved, ← hrsp]
    exact hback t ht hother
  · have hother : thread ≠ s.running := by
      rintro rfl
      obtain ⟨running, hrunning, hdispatched⟩ := hkept.running
      obtain rfl : t = running := Option.some.inj (ht.symm.trans hrunning)
      rw [hnever] at hdispatched
      cases hdispatched
    obtain ⟨hregs, hrsp⟩ := hback t ht hother
    obtain ⟨hsaved, hsaved_rsp⟩ := hkept.created thread t ht hnever
    rw [hsaved] at hregs
    exact ⟨congrArg uthread_context_t.ret_addr hregs, hrsp.trans hsaved_rsp⟩

/-- A main thread with registers of 7, a thread that it creates, and their run until the
    thread exits. -/
def sample_symbols : Symbols where
  running_thread := 0x1000
  context_switch := 0x2000
  internal_exit := 0x2100
  internal_exit_return := 0x2110
  internal_cleanup := 0x2200
  internal_start := 0x2300

def sample_start : State where
  machine := { regs := fun r => if r = .rsp then 0x18000 else 7, rip := 0x2400, mem := fun _ => 0 }
  threads u :=
    if u = 0x19000 then
      some {
        stack := 0x10000
        stack_size := 0x10000
        saved := ⟨0, 0, 0, 0, 0, 0, 0⟩
        rsp := 0
        dispatched := true }
    else none
  running := 0x19000
  main_thread := 0x19000

def sample_created : State :=
  { sample_start with
    machine := { sample_start.machine with
      mem := ut_create sample_symbols sample_start.machine.mem 0x20000 0x30000 0x2500 5 }
    threads := Function.update sample_start.threads 0x20000 (some (created_thread sample_symbols 0x30000)) }

def sample_running : State :=
  State.schedule sample_symbols
    { sample_created with machine := sample_created.machine.store sample_symbols.running_thread 0x19000 }
    0x20000 0x2450

theorem sample_only {u : UInt64} {t : Thread} (hu : sample_start.threads u = some t) :
    u = 0x19000 ∧ t.stack = 0x10000 ∧ t.stack_size = 0x10000 := by
  simp only [sample_start] at hu
  split at hu
  · obtain rfl := Option.some.inj hu
    exact ⟨‹_›, rfl, rfl⟩
  · cases hu

theorem sample_owns {u : UInt64} {t : Thread} {a : Nat} (hu : sample_start.threads u = some t)
    (howns : t.Owns u a) : 0x10000 ≤ a ∧ a < 0x20000 := by
  obtain ⟨rfl, hstack, hsize⟩ := sample_only hu
  unfold Thread.Owns at howns
  rw [hstack, hsize] at howns
  simp only [UInt64.reduceToNat] at howns
  omega

theorem sample_initial : Initial sample_symbols sample_start where
  running := rfl
  null := by decide +kernel
  only u hu := if_neg hu
  thread := ⟨_, rfl, rfl⟩
  apart u t a hu howns := by
    have hrange := sample_owns hu howns
    simp only [Symbols.Variable, sample_symbols, UInt64.reduceToNat]
    omega

theorem sample_fresh : Fresh sample_symbols sample_start 0x20000 0x30000 where
  null := by decide
  thread_bound := by decide
  stack_bound := by decide
  apart := by decide
  thread_unused a hlow hhigh := by
    simp only [sizeof_uthread_t, UInt64.reduceToNat] at hlow hhigh
    refine ⟨?_, fun u t hu howns => ?_⟩
    · simp only [Symbols.Variable, sample_symbols, UInt64.reduceToNat]
      omega
    · have hrange := sample_owns hu howns
      omega
  stack_unused a hlow hhigh := by
    simp only [STACK_SIZE, UInt64.reduceToNat] at hlow hhigh
    refine ⟨?_, fun u t hu howns => ?_⟩
    · simp only [Symbols.Variable, sample_symbols, UInt64.reduceToNat]
      omega
    · have hrange := sample_owns hu howns
      omega

/-- A cleanup that only returns. -/
theorem sample_cleanup (sym : Symbols) (s : State) (m : Machine) : internal_cleanup sym s m m.ret where
  callee_saved r hr := by
    have hne : r ≠ .rsp := by
      rintro rfl
      simp [calleeSaved] at hr
    rw [ret_regs, drop_regs_of_ne m hne]
  rsp := drop_rsp m
  rip := rfl
  threads _ _ _ := rfl
  variable_ _ _ := rfl

/-- The main thread goes on behind its `ut_run` when the thread exits. -/
theorem context_switch_faithful_exit : ∃ left s' : State,
    LeftIn sample_symbols sample_start 0x19000 left 0x2450 sample_running ∧
      Step sample_symbols sample_running (.ut_exit 0x19000 0x2550) s' ∧
      Resumed sample_symbols s' 0x19000 ∧
      context s'.machine = { context left.machine with ret_addr := 0x2450 } ∧
      s'.machine.regs .rsp = 0x18000 := by
  have hcreate : Run (Step sample_symbols) sample_start [.ut_create 0x20000 0x30000 0x2500 5] sample_created :=
    .snoc .nil (.ut_create sample_fresh)
  have hrun : Step sample_symbols sample_created (.ut_run 0x20000 0x2450) sample_running :=
    .ut_run rfl (by decide +kernel) rfl ⟨by decide +kernel, by decide +kernel, by decide +kernel⟩ rfl
  have hstep : Step sample_symbols sample_running (.ut_exit 0x19000 0x2550) _ :=
    .ut_exit (by decide +kernel) rfl ⟨by decide +kernel, by decide +kernel, by decide +kernel⟩ rfl
      (by decide +kernel) (sample_cleanup _ _ _) (by decide +kernel)
  have hleft : LeftIn sample_symbols sample_start 0x19000 sample_created 0x2450 sample_running :=
    .leave hcreate hrun rfl rfl (by decide)
  obtain ⟨hresumed, hgoes, _⟩ := context_switch_faithful sample_initial (hcreate.snoc hrun) hstep rfl
  obtain ⟨hcontext, hrsp⟩ := hgoes _ _ hleft
  exact ⟨_, _, hleft, hstep, hresumed, hcontext, hrsp⟩

end oslabs.ctxswitch
