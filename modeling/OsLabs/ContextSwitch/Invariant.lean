import OsLabs.ContextSwitch.Frames

open oslabs.memory oslabs.x86 oslabs.x86.Machine oslabs.run

namespace oslabs.ctxswitch

variable {sym : Symbols} {s s' : State} {m m' : Machine} {t : Thread} {u thread next_thread ret_addr : UInt64}
  {threads threads' : UInt64 → Option Thread} {Built : Thread → Prop}

/-- No byte has two owners, and the variable belongs to the scheduler. -/
structure Layout (sym : Symbols) (threads : UInt64 → Option Thread) : Prop where
  owner : ∀ u v tu tv a, threads u = some tu → threads v = some tv → tu.Owns u a → tv.Owns v a → u = v
  variable_ : ∀ u t a, threads u = some t → t.Owns u a → ¬ sym.Variable a

/-- A thread that has never had the processor is as `ut_create` built it. -/
def AsCreated (sym : Symbols) (t : Thread) : Prop :=
  t.dispatched = false →
    t.saved = created_context sym ∧ t.rsp = t.stack + UInt64.ofNat STACK_SIZE - 8

theorem AsCreated.of_dispatched (h : t.dispatched = true) : AsCreated sym t := by
  intro hnever
  rw [h] at hnever
  cases hnever

/-- What holds while a thread runs: it is a thread that exists and that `running_thread`
    names, unless it is the main thread outside `ut_run`, and all others are suspended.
    Threads are built in the way `Built` says. -/
structure KeptBy (sym : Symbols) (Built : Thread → Prop) (s : State) : Prop where
  layout : Layout sym s.threads
  created : ∀ u t, s.threads u = some t → Built t
  running : ∃ t, s.threads s.running = some t ∧ t.dispatched = true
  names : s.machine.load sym.running_thread = s.running ∨
    s.running = s.main_thread ∧ s.machine.load sym.running_thread = 0
  suspended : ∀ u t, s.threads u = some t → u ≠ s.running → Suspended s.machine.mem u t

abbrev Kept (sym : Symbols) (s : State) : Prop :=
  KeptBy sym (AsCreated sym) s

/-- A thread has the processor as it left it: the registers, the stack pointer and the
    place in the code are those of its last switch, and `running_thread` names it. -/
structure Resumed (sym : Symbols) (s : State) (thread : UInt64) : Prop where
  running : s.running = thread
  names : s.machine.load sym.running_thread = thread
  registers : ∃ t, s.threads thread = some t ∧ context s.machine = t.saved ∧ s.machine.regs .rsp = t.rsp

theorem modify_eq_some {f : Thread → Thread} (h : modify threads thread f u = some t) :
    u ≠ thread ∧ threads u = some t ∨ u = thread ∧ ∃ before, threads thread = some before ∧ f before = t := by
  unfold modify at h
  by_cases heq : u = thread
  · subst heq
    rw [Function.update_self, Option.map_eq_some_iff] at h
    exact .inr ⟨rfl, h⟩
  · rw [Function.update_of_ne heq] at h
    exact .inl ⟨heq, h⟩

/-- A layout is kept when threads go or change, but not their blocks. -/
theorem Layout.congr (h : Layout sym threads) (hblocks : ∀ u t, threads' u = some t →
    ∃ before, threads u = some before ∧ ∀ a, t.Owns u a → before.Owns u a) : Layout sym threads' where
  owner u v tu tv a hu hv howns howns' := by
    obtain ⟨tu₀, hu₀, hkeep⟩ := hblocks u tu hu
    obtain ⟨tv₀, hv₀, hkeep'⟩ := hblocks v tv hv
    exact h.owner u v tu₀ tv₀ a hu₀ hv₀ (hkeep a howns) (hkeep' a howns')
  variable_ u t a hu howns := by
    obtain ⟨before, hbefore, hkeep⟩ := hblocks u t hu
    exact h.variable_ u before a hbefore (hkeep a howns)

theorem Layout.modified (h : Layout sym threads) {f : Thread → Thread}
    (hf : ∀ t a, (f t).Owns thread a → t.Owns thread a) :
    Layout sym (modify threads thread f) := by
  refine h.congr fun u t hu => ?_
  obtain ⟨_, hsame⟩ | ⟨rfl, before, hbefore, rfl⟩ := modify_eq_some hu
  · exact ⟨t, hsame, fun _ howns => howns⟩
  · exact ⟨before, hbefore, hf before⟩

/-- Once all threads are suspended, the pops give the processor to the one whose context
    the stack pointer points to. -/
theorem Layout.dispatch (hbuilt : ∀ t, t.dispatched = true → Built t) (hlayout : Layout sym threads)
    (hcreated : ∀ u t, threads u = some t → Built t)
    (hsuspended : ∀ u t, threads u = some t → Suspended m.mem u t)
    (hnext : threads next_thread = some t) (hrsp : m.regs .rsp = m.load next_thread)
    (hnames : m.load sym.running_thread = next_thread) (main_thread : UInt64) :
    KeptBy sym Built ⟨m.exec internal_exit_return, modify threads next_thread Thread.dispatch, next_thread,
      main_thread⟩ ∧
    Resumed sym ⟨m.exec internal_exit_return, modify threads next_thread Thread.dispatch, next_thread,
      main_thread⟩ next_thread := by
  obtain ⟨hregs, hrsp', hmem⟩ := (hsuspended next_thread t hnext).resume hrsp
  have hafter : modify threads next_thread Thread.dispatch next_thread = some t.dispatch := by
    simp [modify, hnext]
  have hload : (m.exec internal_exit_return).load sym.running_thread = next_thread := by
    unfold Machine.load at hnames ⊢
    rw [hmem, hnames]
  refine ⟨⟨?_, ?_, ⟨t.dispatch, hafter, rfl⟩, .inl hload, ?_⟩,
    ⟨rfl, hload, ⟨t.dispatch, hafter, hregs, hrsp'⟩⟩⟩
  · exact hlayout.modified fun t a howns => howns
  · intro u t' hu
    obtain ⟨_, hsame⟩ | ⟨_, before, _, rfl⟩ := modify_eq_some hu
    · exact hcreated u t' hsame
    · exact hbuilt _ rfl
  · intro u t' hu hne
    obtain ⟨_, hsame⟩ | ⟨heq, _⟩ := modify_eq_some hu
    · rw [hmem]
      exact hsuspended u t' hsame
    · exact absurd heq hne

/-- The variable may be written at any time without harm to a suspended thread. -/
theorem KeptBy.store_running_thread (h : KeptBy sym Built s) (w : UInt64)
    (hw : w = s.running ∨ s.running = s.main_thread ∧ w = 0) :
    KeptBy sym Built { s with machine := s.machine.store sym.running_thread w } where
  layout := h.layout
  created := h.created
  running := h.running
  names := by
    simpa [Machine.load] using hw
  suspended u t hu hne := (h.suspended u t hu hne).congr fun a howns _ =>
    write_running_thread_of_not_variable _ _ (h.layout.variable_ u t a hu howns)

theorem KeptBy.code (h : KeptBy sym Built s) (hforeign : ∀ a, s.Foreign s.running a → m.mem a = s.machine.mem a)
    (hvariable : ∀ a, sym.Variable a → m.mem a = s.machine.mem a) :
    KeptBy sym Built { s with machine := m } where
  layout := h.layout
  created := h.created
  running := h.running
  names := by
    have hload : m.load sym.running_thread = s.machine.load sym.running_thread :=
      AgreeOn.read64 fun a hlow hhigh => hvariable a ⟨hlow, hhigh⟩
    simpa only [hload] using h.names
  suspended u t hu hne := (h.suspended u t hu hne).congr fun a howns _ =>
    hforeign a ⟨u, t, hu, hne, howns⟩

/-- A switch suspends the running thread and resumes the next one. -/
theorem KeptBy.schedule (h : KeptBy sym Built s) (hbuilt : ∀ t, t.dispatched = true → Built t)
    (hnames : s.machine.load sym.running_thread = s.running)
    (hrunning : s.threads s.running = some t) (hroom : t.Room s.running (s.machine.regs .rsp) 64)
    (hnext : (s.threads next_thread).isSome) :
    KeptBy sym Built (s.schedule sym next_thread ret_addr) ∧
      Resumed sym (s.schedule sym next_thread ret_addr) next_thread := by
  have hbytes : 56 ≤ (s.machine.regs .rsp).toNat := by
    have hlow := hroom.low
    omega
  have hthread : ∃ t', modify s.threads s.running (·.switch_out s.machine ret_addr) next_thread = some t' := by
    obtain ⟨before, hbefore⟩ := Option.isSome_iff_exists.mp hnext
    by_cases heq : next_thread = s.running
    · exact ⟨_, by rw [modify, heq, Function.update_self, hrunning, Option.map_some]⟩
    · exact ⟨before, by rw [modify, Function.update_of_ne heq, hbefore]⟩
  obtain ⟨t', ht'⟩ := hthread
  have hlayout : Layout sym (modify s.threads s.running (·.switch_out s.machine ret_addr)) :=
    h.layout.modified fun t a howns => howns
  unfold State.schedule
  rw [call_context_switch_eq]
  refine hlayout.dispatch hbuilt ?_ ?_ ht' switched_rsp switched_names _
  · intro u t₁ hu
    obtain ⟨_, hsame⟩ | ⟨_, before, hbefore, rfl⟩ := modify_eq_some hu
    · exact h.created u t₁ hsame
    · obtain ⟨t₀, ht₀, hdispatched⟩ := h.running
      obtain rfl : before = t₀ := Option.some.inj (hbefore.symm.trans ht₀)
      exact hbuilt _ hdispatched
  · intro u t₁ hu
    obtain ⟨hne, hsame⟩ | ⟨rfl, before, hbefore, rfl⟩ := modify_eq_some hu
    · refine (h.suspended u t₁ hsame hne).congr fun a howns _ => ?_
      have hother : ¬ t.Owns s.running a :=
        fun howns' => hne (h.layout.owner u s.running t₁ t a hsame hrunning howns howns')
      have hlow := hroom.low
      have hhigh := hroom.high
      unfold Thread.Owns at hother
      exact switched_mem_of_outside hnames hbytes (by omega) (by omega)
        (h.layout.variable_ u t₁ a hsame howns)
    · obtain rfl : t = before := Option.some.inj (hrunning.symm.trans hbefore)
      exact switched_suspended hnames hroom fun a => h.layout.variable_ s.running t a hrunning

/-- The call of `internal_cleanup` pushes its return address below the context of the
    next thread, on the stack of that thread. -/
theorem call_internal_exit_mem_of_outside (h : Suspended (exiting sym m next_thread ret_addr).mem next_thread t)
    {a : Nat} (hframe : a < t.rsp.toNat - 64 ∨ t.rsp.toNat - 56 ≤ a) :
    (call_internal_exit sym m next_thread ret_addr).mem a = (exiting sym m next_thread ret_addr).mem a := by
  have hlow := h.room.low
  have hcontext : (exiting sym m next_thread ret_addr).regs .rsp = t.rsp - sizeof_uthread_context_t :=
    exiting_rsp.trans h.field
  have haddr : ((exiting sym m next_thread ret_addr).regs .rsp).toNat = t.rsp.toNat - 56 := by
    rw [hcontext, toNat_sub_sizeof (by omega)]
  rw [call_internal_exit_eq, call_mem, push_mem, toNat_rsp_sub (by omega)]
  exact write64_of_outside _ _ (by omega)

theorem toNat_call_internal_exit_rsp (h : Suspended (exiting sym m next_thread ret_addr).mem next_thread t) :
    ((call_internal_exit sym m next_thread ret_addr).regs .rsp).toNat = t.rsp.toNat - 64 := by
  have hlow := h.room.low
  have hcontext : (exiting sym m next_thread ret_addr).regs .rsp = t.rsp - sizeof_uthread_context_t :=
    exiting_rsp.trans h.field
  have haddr : ((exiting sym m next_thread ret_addr).regs .rsp).toNat = t.rsp.toNat - 56 := by
    rw [hcontext, toNat_sub_sizeof (by omega)]
  rw [call_internal_exit_eq, call_regs, push_rsp, toNat_rsp_sub (by omega)]
  omega

/-- After its call `internal_exit` is back where it was on the stack of the next thread. -/
theorem internal_cleanup.rsp_eq (h : internal_cleanup sym s (call_internal_exit sym m next_thread ret_addr) m') :
    m'.regs .rsp = (exiting sym m next_thread ret_addr).regs .rsp := by
  rw [h.rsp, call_internal_exit_eq, call_regs, push_rsp, UInt64.sub_add_cancel]

theorem remove_eq_some {threads : UInt64 → Option Thread}
    (h : Function.update threads thread none u = some t) : u ≠ thread ∧ threads u = some t := by
  by_cases heq : u = thread
  · subst heq
    rw [Function.update_self] at h
    cases h
  · rw [Function.update_of_ne heq] at h
    exact ⟨heq, h⟩

/-- Nothing that a suspended thread keeps is written to when the running thread exits,
    although `internal_cleanup` runs on the stack of one of them. -/
theorem KeptBy.exit_mem (h : KeptBy sym Built s) (hnames : s.machine.load sym.running_thread = s.running)
    (hnext : s.threads next_thread = some t)
    (hsuspended : Suspended (exiting sym s.machine next_thread ret_addr).mem next_thread t)
    (hcleanup : internal_cleanup sym s (call_internal_exit sym s.machine next_thread ret_addr) m)
    {tu : Thread} (hu : s.threads u = some tu) (hne : u ≠ s.running) {a : Nat} (howns : tu.Owns u a)
    (hkeep : a < tu.stack.toNat ∨ tu.rsp.toNat - 56 ≤ a) :
    m.mem a = (exiting sym s.machine next_thread ret_addr).mem a := by
  obtain ⟨hlow, hhigh, _⟩ := hsuspended.room
  have hrsp := toNat_call_internal_exit_rsp hsuspended
  have hrdi : (call_internal_exit sym s.machine next_thread ret_addr).regs .rdi = s.running := by
    rw [call_internal_exit_eq, call_regs, push_regs_of_ne _ _ (by decide), exiting_rdi, hnames]
  have htop : t.Owns next_thread (t.rsp.toNat - 64) := .inr (by omega)
  have hbelow : ¬ s.Below ((call_internal_exit sym s.machine next_thread ret_addr).regs .rsp) a := by
    rintro ⟨v, tv, hv, hstack, hlt, hinside⟩
    rw [hrsp] at hlt hinside
    obtain rfl : v = u := h.layout.owner v u tv tu a hv hu (.inr (by omega)) howns
    obtain rfl : v = next_thread := h.layout.owner v next_thread tv t _ hv hnext (.inr (by omega)) htop
    obtain rfl : t = tu := Option.some.inj (hnext.symm.trans hu)
    obtain rfl : t = tv := Option.some.inj (hnext.symm.trans hv)
    omega
  have hframe : a < t.rsp.toNat - 64 ∨ t.rsp.toNat - 56 ≤ a := by
    by_cases heq : u = next_thread
    · subst heq
      obtain rfl : t = tu := Option.some.inj (hnext.symm.trans hu)
      omega
    · have hother : ¬ t.Owns next_thread a :=
        fun howns' => heq (h.layout.owner u next_thread tu t a hu hnext howns howns')
      unfold Thread.Owns at hother
      omega
  rw [hcleanup.threads a ⟨u, tu, hu, by rwa [hrdi], howns⟩ hbelow,
    call_internal_exit_mem_of_outside hsuspended hframe]

/-- On its way out the running thread writes to its own stack and to the variable. -/
theorem KeptBy.exiting_suspended (h : KeptBy sym Built s) (hrunning : s.threads s.running = some t)
    (hroom : t.Room s.running (s.machine.regs .rsp) 8) {tu : Thread} (hu : s.threads u = some tu)
    (hne : u ≠ s.running) : Suspended (exiting sym s.machine next_thread ret_addr).mem u tu := by
  refine (h.suspended u tu hu hne).congr fun a howns _ => ?_
  have hnot : ¬ t.Owns s.running a :=
    fun howns' => hne (h.layout.owner u s.running tu t a hu hrunning howns howns')
  have hlow := hroom.low
  have hhigh := hroom.high
  unfold Thread.Owns at hnot
  exact exiting_mem_of_outside (by omega) (by omega) (h.layout.variable_ u tu a hu howns)

/-- An exit frees the running thread and resumes the next one. -/
theorem KeptBy.exit (h : KeptBy sym Built s) (hbuilt : ∀ t, t.dispatched = true → Built t)
    (hnames : s.machine.load sym.running_thread = s.running)
    (hrunning : s.threads s.running = some t) (hroom : t.Room s.running (s.machine.regs .rsp) 8)
    (hnext : (s.threads next_thread).isSome) (hother : next_thread ≠ s.running)
    (hcleanup : internal_cleanup sym s (call_internal_exit sym s.machine next_thread ret_addr) m) :
    KeptBy sym Built ⟨m.exec internal_exit_return,
      modify (Function.update s.threads s.running none) next_thread Thread.dispatch, next_thread,
      s.main_thread⟩ ∧
    Resumed sym ⟨m.exec internal_exit_return,
      modify (Function.update s.threads s.running none) next_thread Thread.dispatch, next_thread,
      s.main_thread⟩ next_thread := by
  obtain ⟨tn, htn⟩ := Option.isSome_iff_exists.mp hnext
  have hexiting : ∀ u tu, s.threads u = some tu → u ≠ s.running →
      Suspended (exiting sym s.machine next_thread ret_addr).mem u tu :=
    fun _ _ hu hne => h.exiting_suspended hrunning hroom hu hne
  have hsuspended : ∀ u tu, s.threads u = some tu → u ≠ s.running → Suspended m.mem u tu :=
    fun u tu hu hne => (hexiting u tu hu hne).congr fun a howns hkeep =>
      h.exit_mem hnames htn (hexiting next_thread tn htn hother) hcleanup hu hne howns hkeep
  have hrsp : m.regs .rsp = m.load next_thread := by
    rw [hcleanup.rsp_eq, exiting_rsp]
    exact (hexiting next_thread tn htn hother).field.trans
      (hsuspended next_thread tn htn hother).field.symm
  have hload : m.load sym.running_thread = next_thread := by
    have hagree : AgreeOn (exiting sym s.machine next_thread ret_addr).mem m.mem
        sym.running_thread.toNat (sym.running_thread.toNat + 8) := by
      intro a hlow hhigh
      obtain ⟨hroom_low, hroom_high, _⟩ := (hexiting next_thread tn htn hother).room
      have hnot : ¬ tn.Owns next_thread a :=
        fun howns => h.layout.variable_ next_thread tn a htn howns ⟨hlow, hhigh⟩
      unfold Thread.Owns at hnot
      rw [hcleanup.variable_ a ⟨hlow, hhigh⟩,
        call_internal_exit_mem_of_outside (hexiting next_thread tn htn hother) (by omega)]
    exact hagree.read64.trans exiting_names
  have hlayout : Layout sym (Function.update s.threads s.running none) :=
    h.layout.congr fun u tu hu => ⟨tu, (remove_eq_some hu).2, fun _ howns => howns⟩
  refine hlayout.dispatch hbuilt ?_ ?_ (t := tn) ?_ hrsp hload _
  · exact fun u tu hu => h.created u tu (remove_eq_some hu).2
  · exact fun u tu hu => hsuspended u tu (remove_eq_some hu).2 (remove_eq_some hu).1
  · rw [Function.update_of_ne hother, htn]

/-- A thread is built in memory that is nobody's, as one that is suspended. -/
theorem KeptBy.create (h : KeptBy sym Built s) {mem : Memory}
    (hunused : ∀ a, t.Owns thread a → ¬ sym.Variable a ∧ ∀ u t, s.threads u = some t → ¬ t.Owns u a)
    (hmem : ∀ a, (sym.Variable a ∨ ∃ u t, s.threads u = some t ∧ t.Owns u a) → mem a = s.machine.mem a)
    (hsuspended : Suspended mem thread t) (hbuilt : Built t) :
    KeptBy sym Built { s with
      machine := { s.machine with mem }
      threads := Function.update s.threads thread (some t) } := by
  have hcases : ∀ u t', Function.update s.threads thread (some t) u = some t' →
      u = thread ∧ t' = t ∨ u ≠ thread ∧ s.threads u = some t' := by
    intro u t' hu
    by_cases heq : u = thread
    · subst heq
      rw [Function.update_self] at hu
      exact .inl ⟨rfl, (Option.some.inj hu).symm⟩
    · rw [Function.update_of_ne heq] at hu
      exact .inr ⟨heq, hu⟩
  refine ⟨⟨?_, ?_⟩, ?_, ?_, ?_, ?_⟩
  · intro u v tu tv a hu hv howns howns'
    obtain ⟨rfl, rfl⟩ | ⟨_, hold⟩ := hcases u tu hu
    · obtain ⟨rfl, _⟩ | ⟨_, hold'⟩ := hcases v tv hv
      · rfl
      · exact absurd howns' ((hunused a howns).2 v tv hold')
    · obtain ⟨rfl, rfl⟩ | ⟨_, hold'⟩ := hcases v tv hv
      · exact absurd howns ((hunused a howns').2 u tu hold)
      · exact h.layout.owner u v tu tv a hold hold' howns howns'
  · intro u t' a hu howns
    obtain ⟨rfl, rfl⟩ | ⟨_, hu⟩ := hcases u t' hu
    · exact (hunused a howns).1
    · exact h.layout.variable_ u t' a hu howns
  · intro u t' hu
    obtain ⟨_, rfl⟩ | ⟨_, hu⟩ := hcases u t' hu
    · exact hbuilt
    · exact h.created u t' hu
  · obtain ⟨running, hrunning, hdispatched⟩ := h.running
    have hne : s.running ≠ thread := by
      rintro rfl
      have hbyte := hunused s.running.toNat (.inl (by omega))
      exact hbyte.2 s.running running hrunning (.inl (by omega))
    refine ⟨running, ?_, hdispatched⟩
    simpa only [Function.update_of_ne hne] using hrunning
  · have hload : mem.read64 sym.running_thread.toNat = s.machine.load sym.running_thread :=
      AgreeOn.read64 fun a hlow hhigh => hmem a (.inl ⟨hlow, hhigh⟩)
    simpa only [Machine.load, hload] using h.names
  · intro u t' hu hne
    obtain ⟨rfl, rfl⟩ | ⟨_, hu⟩ := hcases u t' hu
    · exact hsuspended
    · exact (h.suspended u t' hu hne).congr fun a howns _ => hmem a (.inr ⟨u, t', hu, howns⟩)

end oslabs.ctxswitch
