import OsLabs.ContextSwitch.Frames

open oslabs.memory oslabs.x86

namespace oslabs.ctxswitch

variable {sym : Symbols} {s : State} {thread stack start_routine arg : UInt64} {mem : Memory}

/-- The context is put right below the topmost word of the stack. -/
theorem created_context_addr (sym : Symbols) (stack : UInt64) :
    stack + UInt64.ofNat STACK_SIZE - sizeof_uthread_context_t - 8 =
    (created_thread sym stack).rsp - sizeof_uthread_context_t := by
  unfold created_thread
  simp only [UInt64.sub_eq_add_neg, UInt64.add_assoc]
  rw [UInt64.add_comm (-sizeof_uthread_context_t)]

section
variable (hfresh : Fresh sym s thread stack)
include hfresh

/-- Inside fresh blocks no address wraps. -/
theorem Fresh.toNat_field {offset : UInt64} (hoffset : offset.toNat < sizeof_uthread_t) :
    (thread + offset).toNat = thread.toNat + offset.toNat := by
  have hbound := hfresh.thread_bound
  rw [UInt64.toNat_add, Nat.mod_eq_of_lt (by omega)]

theorem Fresh.toNat_rsp : (created_thread sym stack).rsp.toNat = stack.toNat + STACK_SIZE - 8 := by
  have hbound := hfresh.stack_bound
  have htop : (stack + UInt64.ofNat STACK_SIZE).toNat = stack.toNat + STACK_SIZE := by
    rw [UInt64.toNat_add, show (UInt64.ofNat STACK_SIZE).toNat = STACK_SIZE from rfl,
      Nat.mod_eq_of_lt hbound]
  have hle : (8 : UInt64) ≤ stack + UInt64.ofNat STACK_SIZE := by
    rw [UInt64.le_iff_toNat_le, htop]
    exact Nat.le_trans (by decide : 8 ≤ STACK_SIZE) (Nat.le_add_left _ _)
  unfold created_thread
  rw [UInt64.toNat_sub_of_le _ _ hle, htop]
  rfl

theorem Fresh.room : (created_thread sym stack).Room thread (created_thread sym stack).rsp 64 := by
  have hrsp := hfresh.toNat_rsp
  have hapart := hfresh.apart
  have hstack : (created_thread sym stack).stack = stack := rfl
  have hsize : (created_thread sym stack).stack_size = STACK_SIZE := rfl
  unfold sizeof_uthread_t at hapart
  unfold STACK_SIZE at hrsp hsize hapart
  refine ⟨?_, ?_, ?_⟩
  · rw [hstack]
    omega
  · rw [hstack]
    omega
  · rw [hstack]
    omega

/-- The writes of `ut_create`, one after the other. -/
theorem ut_create_eq : ut_create sym mem thread stack start_routine arg =
    (((((mem.write64 (thread.toNat + 40) stack).fill stack.toNat 0 STACK_SIZE).write64
      (thread.toNat + 24) start_routine).write64 (thread.toNat + 32) arg).write64 thread.toNat
        ((created_thread sym stack).rsp - sizeof_uthread_context_t)).writeWords
          (stack.toNat + STACK_SIZE - 64) (created_context sym).words := by
  have hrsp := hfresh.toNat_rsp
  have hbytes : 64 ≤ STACK_SIZE := by decide
  simp only [ut_create]
  rw [created_context_addr sym, toNat_sub_sizeof (by omega), hrsp, hfresh.toNat_field (by decide),
    hfresh.toNat_field (by decide), hfresh.toNat_field (by decide), Nat.sub_sub]
  rfl

/-- `ut_create` writes to the blocks it has allocated only. -/
theorem ut_create_mem_of_outside {a : Nat}
    (hthread : a < thread.toNat ∨ thread.toNat + sizeof_uthread_t ≤ a)
    (hstack : a < stack.toNat ∨ stack.toNat + STACK_SIZE ≤ a) :
    ut_create sym mem thread stack start_routine arg a = mem a := by
  have hlength : (created_context sym).words.length = 7 := rfl
  unfold sizeof_uthread_t at hthread
  unfold STACK_SIZE at hstack
  rw [ut_create_eq hfresh]
  unfold STACK_SIZE
  rw [writeWords_of_outside _ _ (by omega), write64_of_outside _ _ (by omega),
    write64_of_outside _ _ (by omega), write64_of_outside _ _ (by omega),
    Memory.fill_of_outside _ _ (by omega), write64_of_outside _ _ (by omega)]

/-- The new thread looks like one that was switched out on entry to `internal_start`. -/
theorem ut_create_suspended :
    Suspended (ut_create sym mem thread stack start_routine arg) thread (created_thread sym stack) := by
  have hrsp := hfresh.toNat_rsp
  have hapart := hfresh.apart
  have hlength : (created_context sym).words.length = 7 := rfl
  unfold sizeof_uthread_t STACK_SIZE at hapart
  refine ⟨hfresh.room, ?_, ?_⟩
  · have hdisjoint : thread.toNat + 8 ≤ stack.toNat + STACK_SIZE - 64 ∨
        stack.toNat + STACK_SIZE - 64 + 8 * (created_context sym).words.length ≤ thread.toNat := by
      unfold STACK_SIZE
      omega
    rw [ut_create_eq hfresh, read64_writeWords_of_disjoint _ _ hdisjoint, read64_write64_self]
  · rw [ut_create_eq hfresh, hrsp, Nat.sub_sub]
    exact wordsAt_writeWords _ _ _

end

end oslabs.ctxswitch
