import OsLabs.Scheduling.ContextSwitch

open oslabs.memory oslabs.x86 oslabs.x86.Machine oslabs.run

namespace oslabs.ctxswitch

/-- What the calling convention and the allocator give a step: calls are made with a stack
    pointer that is a multiple of 16, and blocks are aligned to `alignment`. -/
def Label.Conforms (alignment : Nat) (s : State) : Label → Prop
  | .code | .ut_run_end => True
  | .ut_create _ block _ _ => block.toNat % alignment = 0
  | .ut_run _ _ | .schedule _ _ | .ut_exit _ _ => (s.machine.regs .rsp).toNat % 16 = 0

instance (alignment : Nat) (s : State) : (label : Label) → Decidable (label.Conforms alignment s)
  | .code | .ut_run_end => isTrue trivial
  | .ut_create _ block _ _ => inferInstanceAs (Decidable (block.toNat % alignment = 0))
  | .ut_run _ _ | .schedule _ _ | .ut_exit _ _ =>
    inferInstanceAs (Decidable ((s.machine.regs .rsp).toNat % 16 = 0))

/-- What the calling convention asks of a step: a thread enters `internal_start` as if it
    had just been called, and `internal_exit` makes its call as any other function does. -/
structure Aligned (sym : Symbols) (s : State) (label : Label) (s' : State) : Prop where
  entry : ∀ thread t, label.resumes = some thread → s.threads thread = some t → t.dispatched = false →
    s'.machine.rip = sym.internal_start ∧ (s'.machine.regs .rsp).toNat % 16 = 8
  call : ∀ next_thread ret_addr, label = .ut_exit next_thread ret_addr →
    ((exiting sym s.machine next_thread ret_addr).regs .rsp).toNat % 16 = 0

/-- An exit hands the processor to a thread that has never had it. -/
def Label.ExitsToNew (s : State) (label : Label) : Prop :=
  ∀ next_thread ret_addr t, label = .ut_exit next_thread ret_addr → s.threads next_thread = some t →
    t.dispatched = false

/-- No thread exits, and none gets the processor that has never had it. -/
def Label.StartsNone (s : State) (label : Label) : Prop :=
  (∀ next_thread ret_addr, label ≠ .ut_exit next_thread ret_addr) ∧
    ∀ thread t, label.resumes = some thread → s.threads thread = some t → t.dispatched = true

/-- The steps with which the convention is kept outside the scheduler's code and that have
    a further property. -/
def ConformingStep (Step : State → Label → State → Prop) (alignment : Nat)
    (Property : State → Label → State → Prop) (s : State) (label : Label) (s' : State) : Prop :=
  Step s label s' ∧ label.Conforms alignment s ∧ Property s label s'

/-- Where the stacks of the threads off the processor end: threads that have had it left it
    by a call, the others were built with a stack pointer that is `built` modulo 16. -/
def StackPointers (built : Nat) (s : State) : Prop :=
  ∀ u t, s.threads u = some t → u ≠ s.running → t.rsp.toNat % 16 = if t.dispatched then 0 else built

variable {sym : Symbols} {Built : Thread → Prop} {built alignment : Nat} {s s' first last : State} {t : Thread}
  {u thread next_thread ret_addr : UInt64} {label : Label} {labels : List Label}

/-- Two properties that agree on the steps from states with an invariant have the same runs. -/
theorem conformingStep_run_iff {Step : State → Label → State → Prop} {P Q : State → Label → State → Prop}
    (Inv : State → Prop) (hfirst : Inv first)
    (hstep : ∀ s label s', Inv s → Step s label s' → label.Conforms alignment s →
      Inv s' ∧ (P s label s' ↔ Q s label s')) :
    Run (ConformingStep Step alignment P) first labels last ↔
      Run (ConformingStep Step alignment Q) first labels last := by
  constructor
  · intro hrun
    refine hrun.mono_of hfirst ?_
    rintro s label s' hs ⟨hone, hconforms, hp⟩
    obtain ⟨hinv, hiff⟩ := hstep s label s' hs hone hconforms
    exact ⟨⟨hone, hconforms, hiff.mp hp⟩, hinv⟩
  · intro hrun
    refine hrun.mono_of hfirst ?_
    rintro s label s' hs ⟨hone, hconforms, hq⟩
    obtain ⟨hinv, hiff⟩ := hstep s label s' hs hone hconforms
    exact ⟨⟨hone, hconforms, hiff.mpr hq⟩, hinv⟩

theorem StackPointers.create (h : StackPointers built s) (ht : t.dispatched = false)
    (hrsp : t.rsp.toNat % 16 = built) (m : Machine) :
    StackPointers built { s with machine := m, threads := Function.update s.threads thread (some t) } := by
  intro u t' hu hne
  by_cases heq : u = thread
  · subst heq
    obtain rfl : t = t' := by simpa using hu
    simpa [ht] using hrsp
  · exact h u t' (by simpa [heq] using hu) hne

/-- The running thread leaves with the stack pointer of its call. -/
theorem StackPointers.schedule (h : StackPointers built s) (hkept : KeptBy sym Built s)
    (hrsp : (s.machine.regs .rsp).toNat % 16 = 0) :
    StackPointers built (s.schedule sym next_thread ret_addr) := by
  intro u t hu hne
  obtain ⟨_, hu⟩ | ⟨heq, _⟩ := modify_eq_some hu
  · obtain ⟨hother, hu⟩ | ⟨rfl, before, hbefore, rfl⟩ := modify_eq_some hu
    · exact h u t hu hother
    · obtain ⟨running, hrunning, hdispatched⟩ := hkept.running
      obtain rfl : running = before := Option.some.inj (hrunning.symm.trans hbefore)
      simpa [Thread.switch_out, hdispatched] using hrsp
  · exact absurd heq hne

theorem StackPointers.step_inside (h : StackPointers built s) (hkept : KeptBy sym Built s)
    (hlabel : label.Inside) (hconforms : label.Conforms alignment s) (hstep : Step sym s label s') :
    StackPointers built s' := by
  cases hstep with
  | code => exact h
  | ut_create | ut_run_end | ut_run => exact hlabel.elim
  | schedule => exact h.schedule hkept hconforms
  | ut_exit =>
    intro u t hu hne
    obtain ⟨_, hu⟩ | ⟨heq, _⟩ := modify_eq_some hu
    · obtain ⟨hother, hu⟩ := remove_eq_some hu
      exact h u t hu hother
    · exact absurd heq hne

/-- A thread that has never had the processor is not the one that runs. -/
theorem KeptBy.ne_running_of_new (h : KeptBy sym Built s) (hu : s.threads u = some t)
    (hnever : t.dispatched = false) : u ≠ s.running := by
  rintro rfl
  obtain ⟨running, hrunning, hdispatched⟩ := h.running
  obtain rfl : t = running := Option.some.inj (hu.symm.trans hrunning)
  rw [hnever] at hdispatched
  cases hdispatched

/-- The call in `internal_exit` is made on the context of the next thread. -/
theorem KeptBy.exiting_rsp_mod (h : KeptBy sym Built s) (hpointers : StackPointers built s)
    (hstep : Step sym s (.ut_exit next_thread ret_addr) s') :
    ∃ t, s.threads next_thread = some t ∧
      ((exiting sym s.machine next_thread ret_addr).regs .rsp).toNat % 16 =
        ((if t.dispatched then 0 else built) + 8) % 16 := by
  cases hstep with
  | ut_exit hmain hrunning hroom hnext hother hcleanup _ =>
    obtain ⟨tn, htn⟩ := Option.isSome_iff_exists.mp hnext
    have hsuspended : Suspended (exiting sym s.machine next_thread ret_addr).mem next_thread tn :=
      h.exiting_suspended hrunning hroom htn hother
    have hlow := hsuspended.room.low
    have hcontext : (exiting sym s.machine next_thread ret_addr).regs .rsp =
        tn.rsp - sizeof_uthread_context_t := exiting_rsp.trans hsuspended.field
    have haddr : ((exiting sym s.machine next_thread ret_addr).regs .rsp).toNat = tn.rsp.toNat - 56 := by
      rw [hcontext, toNat_sub_sizeof (by omega)]
    have hmod := hpointers next_thread tn htn hother
    exact ⟨tn, htn, by omega⟩

/-- A thread that gets the processor for the first time enters `internal_start` with the
    stack pointer it was built with. -/
theorem KeptBy.enters (h : KeptBy sym Built s) (hpointers : StackPointers built s)
    (hbuilt : ∀ t, Built t → t.dispatched = false → t.saved.ret_addr = sym.internal_start)
    (hresumed : Resumed sym s' thread) (hu : s.threads thread = some t) (hnever : t.dispatched = false)
    (hsaved : ∃ t', s'.threads thread = some t' ∧ t'.saved = t.saved ∧ t'.rsp = t.rsp) :
    s'.machine.rip = sym.internal_start ∧ (s'.machine.regs .rsp).toNat % 16 = built := by
  obtain ⟨t', ht', hcontext, hrsp⟩ := hsaved
  obtain ⟨after, hafter, hregs, hafter_rsp⟩ := hresumed.registers
  obtain rfl : t' = after := Option.some.inj (ht'.symm.trans hafter)
  have hmod := hpointers thread t hu (h.ne_running_of_new hu hnever)
  rw [hnever, if_neg Bool.false_ne_true] at hmod
  constructor
  · rw [← hbuilt t (h.created thread t hu) hnever, ← hcontext, ← hregs]
    rfl
  · rwa [hafter_rsp, hrsp]

theorem Fresh.created_rsp_mod {stack : UInt64} (hfresh : Fresh sym s thread stack) (hstack : stack.toNat % 16 = 0) :
    (created_thread sym stack).rsp.toNat % 16 = 8 := by
  have hrsp := hfresh.toNat_rsp
  have hsize : STACK_SIZE = 32768 := rfl
  omega

theorem StackPointers.step (h : StackPointers 8 s) (hkept : Kept sym s) (hconforms : label.Conforms 16 s)
    (hstep : Step sym s label s') : StackPointers 8 s' := by
  cases hstep with
  | code | ut_run_end => exact h
  | ut_create hfresh => exact h.create rfl (hfresh.created_rsp_mod hconforms) _
  | ut_run hmain _ _ _ _ =>
    have hafter := hkept.store_running_thread s.main_thread (.inl hmain.symm)
    exact StackPointers.schedule h hafter hconforms
  | schedule => exact h.schedule hkept hconforms
  | ut_exit hmain hrunning hroom hnext hother hcleanup hreturn =>
    refine h.step_inside hkept ?_ hconforms (.ut_exit hmain hrunning hroom hnext hother hcleanup hreturn)
    exact trivial

/-- A thread of this scheduler starts as the convention asks. Its exits do not conform when
    the next thread was switched out by a call. -/
theorem Step.aligned_iff (hkept : Kept sym s) (hpointers : StackPointers 8 s) (hstep : Step sym s label s') :
    Aligned sym s label s' ↔ label.ExitsToNew s := by
  constructor
  · intro haligned next_thread ret_addr t hlabel ht
    subst hlabel
    obtain ⟨tn, htn, hmod⟩ := hkept.exiting_rsp_mod hpointers hstep
    obtain rfl : t = tn := Option.some.inj (ht.symm.trans htn)
    have hcall := haligned.call next_thread ret_addr rfl
    rw [hmod] at hcall
    cases hdispatched : t.dispatched with
    | false => rfl
    | true => simp [hdispatched] at hcall
  · intro hexits
    refine ⟨fun thread t hresumes ht hnever => ?_, fun next_thread ret_addr hlabel => ?_⟩
    · exact hkept.enters hpointers
        (fun t hcreated hnever => congrArg uthread_context_t.ret_addr (hcreated hnever).1)
        ((hkept.step hstep).2 thread hresumes) ht hnever (hstep.saved_eq ht (hkept.ne_running_of_new ht hnever))
    · subst hlabel
      obtain ⟨tn, htn, hmod⟩ := hkept.exiting_rsp_mod hpointers hstep
      rw [hmod, hexits next_thread ret_addr tn rfl htn]
      rfl

end oslabs.ctxswitch

namespace oslabs.scheduling.ctxsw

open oslabs.ctxswitch (Symbols State Thread Label uthread_context_t STACK_SIZE KeptBy StackPointers Aligned)

variable {sym : Symbols} {s s' : State} {t : Thread} {u puthread : UInt64} {label : Label}

theorem Mapped.created_rsp_mod (hmapped : Mapped sym s puthread) (hpage : puthread.toNat % 4096 = 0) :
    (created_thread sym puthread).rsp.toNat % 16 = 0 := by
  have hrsp := hmapped.toNat_rsp
  have hsize : STACK_SIZE = 32768 := rfl
  omega

/-- No step touches what a thread off the processor left with. -/
theorem Step.saved_eq (hstep : Step sym s label s') (hu : s.threads u = some t) (hne : u ≠ s.running) :
    ∃ t', s'.threads u = some t' ∧ t'.saved = t.saved ∧ t'.rsp = t.rsp := by
  cases hstep with
  | same _ hstep => exact hstep.saved_eq hu hne
  | @ut_create puthread _ _ hmapped =>
    refine ⟨t, ?_, rfl, rfl⟩
    have hother : u ≠ puthread := by
      rintro rfl
      exact (hmapped.unused_of_owns (a := u.toNat) (.inl (by omega))).2 u t hu (.inl (by omega))
    simpa only [Function.update_of_ne hother] using hu
  | ut_run => exact State.schedule_saved hu hne

theorem stackPointers_step (h : StackPointers 0 s) (hkept : KeptBy sym (AsCreated sym) s)
    (hconforms : label.Conforms 4096 s) (hstep : Step sym s label s') : StackPointers 0 s' := by
  cases hstep with
  | same hinside hstep => exact h.step_inside hkept hinside hconforms hstep
  | ut_create hmapped => exact h.create rfl (hmapped.created_rsp_mod hconforms) _
  | ut_run hmain =>
    have hafter := hkept.store_running_thread s.main_thread (.inl hmain.symm)
    exact StackPointers.schedule h hafter hconforms

/-- Neither the starts nor the exits of this scheduler are as the convention asks. -/
theorem Step.aligned_iff (hkept : KeptBy sym (AsCreated sym) s) (hpointers : StackPointers 0 s)
    (hstep : Step sym s label s') : Aligned sym s label s' ↔ label.StartsNone s := by
  have hcall : ∀ next_thread ret_addr, label = .ut_exit next_thread ret_addr →
      ((ctxswitch.exiting sym s.machine next_thread ret_addr).regs .rsp).toNat % 16 = 8 := by
    rintro next_thread ret_addr rfl
    cases hstep with
    | same _ hstep =>
      obtain ⟨tn, _, hmod⟩ := hkept.exiting_rsp_mod hpointers hstep
      simpa using hmod
  have hentry : ∀ thread t, label.resumes = some thread → s.threads thread = some t → t.dispatched = false →
      s'.machine.rip = sym.internal_start ∧ (s'.machine.regs .rsp).toNat % 16 = 0 := by
    intro thread t hresumes ht hnever
    exact hkept.enters hpointers (fun t hcreated hnever => congrArg uthread_context_t.ret_addr (hcreated hnever))
      ((step_kept hkept hstep).2 thread hresumes) ht hnever
      (hstep.saved_eq ht (hkept.ne_running_of_new ht hnever))
  constructor
  · intro haligned
    refine ⟨fun next_thread ret_addr hlabel => ?_, fun thread t hresumes ht => ?_⟩
    · have hmod := hcall next_thread ret_addr hlabel
      have haligned_call := haligned.call next_thread ret_addr hlabel
      omega
    · by_contra hnever
      rw [Bool.not_eq_true] at hnever
      have hmod := (hentry thread t hresumes ht hnever).2
      have haligned_entry := (haligned.entry thread t hresumes ht hnever).2
      omega
  · rintro ⟨hnoexit, hnostart⟩
    refine ⟨fun thread t hresumes ht hnever => ?_, fun next_thread ret_addr hlabel => ?_⟩
    · rw [hnostart thread t hresumes ht] at hnever
      cases hnever
    · exact absurd hlabel (hnoexit next_thread ret_addr)

end oslabs.scheduling.ctxsw

namespace oslabs.ctxswitch

variable {sym : Symbols} {first last : State} {labels : List Label}

theorem Initial.stackPointers (h : Initial sym first) (built : Nat) : StackPointers built first := by
  intro u t hu hne
  rw [h.running] at hne
  rw [h.only u hne] at hu
  cases hu

/-- The runs that keep to the convention in the schedulers' own code are, in the scheduler
    with events, those in which every exit goes to a thread that has never run, and in the
    earlier one those in which no thread starts and none exits. -/
theorem stack_aligned_iff (hinitial : Initial sym first) :
    (Run (ConformingStep (Step sym) 16 (Aligned sym)) first labels last ↔
      Run (ConformingStep (Step sym) 16 fun s label _ => label.ExitsToNew s) first labels last) ∧
    (Run (ConformingStep (scheduling.ctxsw.Step sym) 4096 (Aligned sym)) first labels last ↔
      Run (ConformingStep (scheduling.ctxsw.Step sym) 4096 fun s label _ => label.StartsNone s) first labels
        last) := by
  constructor
  · refine conformingStep_run_iff (fun s => Kept sym s ∧ StackPointers 8 s)
      ⟨hinitial.kept, hinitial.stackPointers 8⟩ ?_
    rintro s label s' ⟨hkept, hpointers⟩ hstep hconforms
    exact ⟨⟨(hkept.step hstep).1, hpointers.step hkept hconforms hstep⟩, hstep.aligned_iff hkept hpointers⟩
  · have hfirst : KeptBy sym (scheduling.ctxsw.AsCreated sym) first := hinitial.keptBy fun _ => .of_dispatched
    refine conformingStep_run_iff
      (fun s => KeptBy sym (scheduling.ctxsw.AsCreated sym) s ∧ StackPointers 0 s)
      ⟨hfirst, hinitial.stackPointers 0⟩ ?_
    rintro s label s' ⟨hkept, hpointers⟩ hstep hconforms
    exact ⟨⟨(scheduling.ctxsw.step_kept hkept hstep).1,
      scheduling.ctxsw.stackPointers_step hpointers hkept hconforms hstep⟩, hstep.aligned_iff hkept hpointers⟩

/-- A thread of the earlier scheduler. -/
def sample_page : State :=
  { sample_start with
    machine := { sample_start.machine with
      mem := scheduling.ctxsw.ut_create sample_symbols sample_start.machine.mem 0x30000 0x2500 5 }
    threads := Function.update sample_start.threads 0x30000
      (some (scheduling.ctxsw.created_thread sample_symbols 0x30000)) }

theorem sample_mapped : scheduling.ctxsw.Mapped sample_symbols sample_start 0x30000 where
  null := by decide
  bound := by decide
  unused := sample_fresh.stack_unused

theorem sample_dispatch :
    Step sample_symbols sample_created (.ut_run 0x20000 0x2450) sample_running :=
  .ut_run rfl (by decide +kernel) rfl ⟨by decide +kernel, by decide +kernel, by decide +kernel⟩ rfl

theorem stack_aligned_iff_start :
    Run (ConformingStep (Step sample_symbols) 16 (Aligned sample_symbols)) sample_start
      [.ut_create 0x20000 0x30000 0x2500 5, .ut_run 0x20000 0x2450] sample_running ∧
    Run (ConformingStep (scheduling.ctxsw.Step sample_symbols) 4096 (Aligned sample_symbols)) sample_start
      [.ut_create 0x30000 0x30000 0x2500 5] sample_page := by
  constructor
  · apply (stack_aligned_iff sample_initial).1.mpr
    refine .snoc (.snoc .nil ⟨.ut_create sample_fresh, by decide, ?_⟩)
      ⟨sample_dispatch, by decide, ?_⟩
    · intro next_thread ret_addr t hlabel
      cases hlabel
    · intro next_thread ret_addr t hlabel
      cases hlabel
  · apply (stack_aligned_iff sample_initial).2.mpr
    refine .snoc .nil ⟨.ut_create sample_mapped, by decide, ?_, ?_⟩
    · intro next_thread ret_addr hlabel
      cases hlabel
    · intro thread t hresumes
      cases hresumes

/-- The created thread once its code has pushed a word. -/
def sample_pushed : State :=
  { sample_running with
    machine := sample_running.machine.set .rsp (sample_running.machine.regs .rsp - 8) }

/-- The created thread, once its code has pushed a word, exits to the main thread. In the
    earlier scheduler the first switch to a thread is already off. -/
theorem stack_misaligned :
    (∃ s s', Run (ConformingStep (Step sample_symbols) 16 fun _ _ _ => True) sample_start
        [.ut_create 0x20000 0x30000 0x2500 5, .ut_run 0x20000 0x2450, .code, .ut_exit 0x19000 0x2550] s' ∧
      Step sample_symbols s (.ut_exit 0x19000 0x2550) s' ∧
      ((exiting sample_symbols s.machine 0x19000 0x2550).regs .rsp).toNat % 16 = 8) ∧
    ∃ s', Run (ConformingStep (scheduling.ctxsw.Step sample_symbols) 4096 fun _ _ _ => True) sample_start
        [.ut_create 0x30000 0x30000 0x2500 5, .ut_run 0x30000 0x2450] s' ∧
      s'.machine.rip = sample_symbols.internal_start ∧ (s'.machine.regs .rsp).toNat % 16 = 0 := by
  constructor
  · have hcode : Step sample_symbols sample_running .code sample_pushed :=
      .code (fun _ _ => rfl) fun _ _ => rfl
    have hexit : Step sample_symbols sample_pushed (.ut_exit 0x19000 0x2550) _ :=
      .ut_exit (by decide +kernel) rfl ⟨by decide +kernel, by decide +kernel, by decide +kernel⟩ rfl
        (by decide +kernel) (sample_cleanup _ _ _) (by decide +kernel)
    refine ⟨_, _, .snoc (.snoc (.snoc (.snoc .nil ⟨.ut_create sample_fresh, by decide, trivial⟩)
      ⟨sample_dispatch, by decide, trivial⟩) ⟨hcode, trivial, trivial⟩)
      ⟨hexit, by decide +kernel, trivial⟩, hexit, by decide +kernel⟩
  · have hstart : scheduling.ctxsw.Step sample_symbols sample_page (.ut_run 0x30000 0x2450) _ :=
      .ut_run rfl rfl ⟨by decide +kernel, by decide +kernel, by decide +kernel⟩ rfl
    exact ⟨_, .snoc (.snoc .nil ⟨.ut_create sample_mapped, by decide, trivial⟩) ⟨hstart, by decide, trivial⟩,
      by decide +kernel, by decide +kernel⟩

end oslabs.ctxswitch
