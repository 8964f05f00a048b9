import Mathlib.Logic.Function.Basic
import OsLabs.Lib.Words

open oslabs.memory

namespace oslabs.x86

/-- The registers of x86-64 that matter to code which switches stacks: those that a
    callee saves, and those of the first two arguments. -/
inductive Reg where
  | rbx
  | rbp
  | rsp
  | r12
  | r13
  | r14
  | r15
  | rdi
  | rsi
  deriving DecidableEq, Repr

/-- The registers, besides `rsp`, that a function leaves as they were. -/
def calleeSaved : List Reg := [.rbx, .rbp, .r12, .r13, .r14, .r15]

structure Machine where
  regs : Reg → UInt64
  rip : UInt64
  mem : Memory

namespace Machine

def set (m : Machine) (r : Reg) (w : UInt64) : Machine :=
  { m with regs := Function.update m.regs r w }

/-- The word at an address. -/
def load (m : Machine) (addr : UInt64) : UInt64 :=
  m.mem.read64 addr.toNat

def store (m : Machine) (addr w : UInt64) : Machine :=
  { m with mem := m.mem.write64 addr.toNat w }

end Machine

/-- Instructions, with their operands in AT&T order. -/
inductive Instr where
  /-- `push %r` -/
  | push (r : Reg)
  /-- `pop %r` -/
  | pop (r : Reg)
  /-- `mov %src, (%base)` -/
  | mov_store (src base : Reg)
  /-- `mov (%base), %dst` -/
  | mov_load (base dst : Reg)
  /-- `mov %src, symbol(%rip)` -/
  | mov_symbol (src : Reg) (symbol : UInt64)
  /-- `call target`, with the address of the instruction after it -/
  | call (target return_address : UInt64)
  | ret

namespace Machine

def push (m : Machine) (w : UInt64) : Machine :=
  (m.set .rsp (m.regs .rsp - 8)).store (m.regs .rsp - 8) w

/-- Drop the word on top of the stack. -/
def drop (m : Machine) : Machine :=
  m.set .rsp (m.regs .rsp + 8)

def top (m : Machine) : UInt64 :=
  m.load (m.regs .rsp)

def call (m : Machine) (target return_address : UInt64) : Machine :=
  { m.push return_address with rip := target }

def ret (m : Machine) : Machine :=
  { m.drop with rip := m.top }

def step (m : Machine) : Instr → Machine
  | .push r => m.push (m.regs r)
  | .pop r => m.drop.set r m.top
  | .mov_store src base => m.store (m.regs base) (m.regs src)
  | .mov_load base dst => m.set dst (m.load (m.regs base))
  | .mov_symbol src symbol => m.store symbol (m.regs src)
  | .call target return_address => m.call target return_address
  | .ret => m.ret

/-- Run straight-line code. -/
def exec (m : Machine) : List Instr → Machine
  | [] => m
  | instr :: code => (m.step instr).exec code

theorem exec_cons (m : Machine) (instr : Instr) (code : List Instr) :
    m.exec (instr :: code) = (m.step instr).exec code := rfl

theorem exec_append (m : Machine) (first second : List Instr) :
    m.exec (first ++ second) = (m.exec first).exec second := by
  induction first generalizing m with
  | nil => rfl
  | cons instr first ih => exact ih _

@[simp] theorem set_regs_self (m : Machine) (r : Reg) (w : UInt64) : (m.set r w).regs r = w := by
  simp [set]

@[simp] theorem set_regs_of_ne (m : Machine) {r r' : Reg} (w : UInt64) (h : r' ≠ r) :
    (m.set r w).regs r' = m.regs r' := by
  simp [set, h]

@[simp] theorem set_mem (m : Machine) (r : Reg) (w : UInt64) : (m.set r w).mem = m.mem := rfl

@[simp] theorem set_rip (m : Machine) (r : Reg) (w : UInt64) : (m.set r w).rip = m.rip := rfl

@[simp] theorem set_load (m : Machine) (r : Reg) (w addr : UInt64) : (m.set r w).load addr = m.load addr := rfl

@[simp] theorem store_regs (m : Machine) (addr w : UInt64) : (m.store addr w).regs = m.regs := rfl

@[simp] theorem store_mem (m : Machine) (addr w : UInt64) :
    (m.store addr w).mem = m.mem.write64 addr.toNat w := rfl

@[simp] theorem drop_mem (m : Machine) : m.drop.mem = m.mem := rfl

@[simp] theorem drop_rsp (m : Machine) : m.drop.regs .rsp = m.regs .rsp + 8 := by
  simp [drop]

@[simp] theorem drop_regs_of_ne (m : Machine) {r : Reg} (h : r ≠ .rsp) : m.drop.regs r = m.regs r := by
  simp [drop, h]

@[simp] theorem push_rsp (m : Machine) (w : UInt64) : (m.push w).regs .rsp = m.regs .rsp - 8 := by
  simp [push]

@[simp] theorem push_regs_of_ne (m : Machine) (w : UInt64) {r : Reg} (h : r ≠ .rsp) :
    (m.push w).regs r = m.regs r := by
  simp [push, h]

@[simp] theorem push_mem (m : Machine) (w : UInt64) :
    (m.push w).mem = m.mem.write64 (m.regs .rsp - 8).toNat w := rfl

@[simp] theorem ret_regs (m : Machine) : m.ret.regs = m.drop.regs := rfl

@[simp] theorem call_regs (m : Machine) (target return_address : UInt64) :
    (m.call target return_address).regs = (m.push return_address).regs := rfl

@[simp] theorem call_mem (m : Machine) (target return_address : UInt64) :
    (m.call target return_address).mem = (m.push return_address).mem := rfl

/-- The words on top of the stack, the topmost first. They lie below the end of the
    address space. -/
structure Stack (m : Machine) (ws : List UInt64) : Prop where
  bound : (m.regs .rsp).toNat + 8 * ws.length < 2 ^ 64
  words : WordsAt m.mem (m.regs .rsp).toNat ws

variable {m m' : Machine} {w : UInt64} {ws : List UInt64}

theorem stack_nil (m : Machine) : m.Stack [] where
  bound := (m.regs .rsp).toNat_lt
  words i w hi := by simp at hi

theorem Stack.congr (h : m.Stack ws) (hrsp : m'.regs .rsp = m.regs .rsp)
    (hagree : AgreeOn m.mem m'.mem (m.regs .rsp).toNat ((m.regs .rsp).toNat + 8 * ws.length)) :
    m'.Stack ws where
  bound := by rw [hrsp]; exact h.bound
  words := by rw [hrsp]; exact h.words.congr hagree

theorem Stack.top_eq (h : m.Stack (w :: ws)) : m.top = w :=
  (wordsAt_cons_iff.mp h.words).1

theorem Stack.toNat_drop (h : m.Stack (w :: ws)) : (m.regs .rsp + 8).toNat = (m.regs .rsp).toNat + 8 := by
  have hbound := h.bound
  rw [List.length_cons] at hbound
  rw [UInt64.toNat_add, show (8 : UInt64).toNat = 8 from rfl, Nat.mod_eq_of_lt (by omega)]

theorem Stack.drop (h : m.Stack (w :: ws)) : m.drop.Stack ws where
  bound := by
    have hbound := h.bound
    rw [List.length_cons] at hbound
    rw [drop_rsp, h.toNat_drop]
    omega
  words := by
    rw [drop_rsp, h.toNat_drop]
    exact (wordsAt_cons_iff.mp h.words).2

/-- Other registers than the stack pointer do not matter to the stack. -/
theorem Stack.set (h : m.Stack ws) {r : Reg} (hr : r ≠ .rsp) (v : UInt64) : (m.set r v).Stack ws := by
  refine h.congr (set_regs_of_ne m v hr.symm) fun a _ _ => rfl

theorem toNat_rsp_sub (hroom : 8 ≤ (m.regs .rsp).toNat) :
    (m.regs .rsp - 8).toNat = (m.regs .rsp).toNat - 8 :=
  UInt64.toNat_sub_of_le _ _ (UInt64.le_iff_toNat_le.mpr hroom)

theorem Stack.push (h : m.Stack ws) (hroom : 8 ≤ (m.regs .rsp).toNat) (w : UInt64) :
    (m.push w).Stack (w :: ws) where
  bound := by
    have hbound := h.bound
    rw [push_rsp, toNat_rsp_sub hroom, List.length_cons]
    omega
  words := by
    rw [push_rsp, push_mem, toNat_rsp_sub hroom, wordsAt_cons_iff]
    refine ⟨read64_write64_self _ _ _, ?_⟩
    have hagree : AgreeOn m.mem (m.mem.write64 ((m.regs .rsp).toNat - 8) w) (m.regs .rsp).toNat
        ((m.regs .rsp).toNat + 8 * ws.length) :=
      fun a hlow _ => write64_of_outside _ _ (by omega)
    rw [Nat.sub_add_cancel hroom]
    exact h.words.congr hagree

/-- Push words one after the other, so that the last one ends on top. -/
def pushes (m : Machine) : List UInt64 → Machine
  | [] => m
  | w :: ws => (m.push w).pushes ws

/-- Saving registers pushes the values they have. -/
theorem exec_pushes (rs : List Reg) (m : Machine) (hrsp : Reg.rsp ∉ rs) :
    m.exec (rs.map Instr.push) = m.pushes (rs.map m.regs) := by
  induction rs generalizing m with
  | nil => rfl
  | cons r rs ih =>
    rw [List.mem_cons, not_or] at hrsp
    have hkept : rs.map (m.push (m.regs r)).regs = rs.map m.regs :=
      List.map_congr_left fun r' hr' =>
        push_regs_of_ne m _ fun heq => hrsp.2 (heq ▸ hr')
    rw [List.map_cons, List.map_cons, exec_cons, pushes, ← hkept]
    exact ih _ hrsp.2

theorem pushes_regs_of_ne (ws : List UInt64) (m : Machine) {r : Reg} (h : r ≠ .rsp) :
    (m.pushes ws).regs r = m.regs r := by
  induction ws generalizing m with
  | nil => rfl
  | cons w ws ih =>
    unfold pushes
    rw [ih, push_regs_of_ne m w h]

theorem toNat_pushes_rsp (vs : List UInt64) (m : Machine) (hroom : 8 * vs.length ≤ (m.regs .rsp).toNat) :
    ((m.pushes vs).regs .rsp).toNat = (m.regs .rsp).toNat - 8 * vs.length := by
  induction vs generalizing m with
  | nil => rfl
  | cons v vs ih =>
    rw [List.length_cons] at hroom
    have hrsp : ((m.push v).regs .rsp).toNat = (m.regs .rsp).toNat - 8 := by
      rw [push_rsp, toNat_rsp_sub (by omega)]
    rw [List.length_cons, pushes, ih _ (by omega), hrsp]
    omega

/-- Pushing writes between the new stack pointer and the old one only. -/
theorem pushes_mem_of_outside (vs : List UInt64) (m : Machine)
    (hroom : 8 * vs.length ≤ (m.regs .rsp).toNat) {a : Nat}
    (h : a < (m.regs .rsp).toNat - 8 * vs.length ∨ (m.regs .rsp).toNat ≤ a) :
    (m.pushes vs).mem a = m.mem a := by
  induction vs generalizing m with
  | nil => rfl
  | cons v vs ih =>
    rw [List.length_cons] at hroom h
    have hrsp : ((m.push v).regs .rsp).toNat = (m.regs .rsp).toNat - 8 := by
      rw [push_rsp, toNat_rsp_sub (by omega)]
    rw [pushes, ih _ (by omega) (by omega), push_mem]
    apply write64_of_outside _ _
    rw [toNat_rsp_sub (by omega)]
    omega

theorem Stack.pushes (h : m.Stack ws) (vs : List UInt64) (hroom : 8 * vs.length ≤ (m.regs .rsp).toNat) :
    (m.pushes vs).Stack (vs.reverse ++ ws) := by
  induction vs generalizing m ws with
  | nil => exact h
  | cons v vs ih =>
    rw [List.length_cons] at hroom
    have hrsp : ((m.push v).regs .rsp).toNat = (m.regs .rsp).toNat - 8 := by
      rw [push_rsp, toNat_rsp_sub (by omega)]
    have hpushed := ih (h.push (by omega) v) (by omega)
    rwa [List.reverse_cons, List.append_assoc]

/-- A pop moves the word on top to its register. -/
theorem Stack.exec_pop (h : m.Stack (w :: ws)) (r : Reg) (code : List Instr) :
    m.exec (.pop r :: code) = (m.drop.set r w).exec code := by
  rw [exec_cons, step, h.top_eq]

/-- A return goes on at the address on top. -/
theorem Stack.exec_ret (h : m.Stack (w :: ws)) : m.exec [.ret] = { m.drop with rip := w } := by
  rw [exec_cons, step, ret, h.top_eq]
  rfl

end Machine

end oslabs.x86
