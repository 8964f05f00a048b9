import Mathlib.Logic.Basic

namespace oslabs.memory

/-- A memory of bytes. -/
def Memory := Nat → UInt8

/-- The `len` bytes from an address on. -/
def Memory.load (m : Memory) (addr len : Nat) : List UInt8 :=
  (List.range len).map fun i => m (addr + i)

/-- Write bytes from an address on. -/
def Memory.store (m : Memory) (addr : Nat) (bytes : List UInt8) : Memory := fun a =>
  if h : addr ≤ a ∧ a - addr < bytes.length then bytes.get ⟨a - addr, h.2⟩ else m a

/-- Set all of a range to one byte. -/
def Memory.fill (m : Memory) (addr : Nat) (b : UInt8) (len : Nat) : Memory := fun a =>
  if addr ≤ a ∧ a < addr + len then b else m a

theorem Memory.fill_of_outside (m : Memory) {addr a len : Nat} (b : UInt8)
    (h : a < addr ∨ addr + len ≤ a) : m.fill addr b len a = m a := by
  unfold Memory.fill
  rw [if_neg]
  omega

@[simp] theorem Memory.length_load (m : Memory) (addr len : Nat) : (m.load addr len).length = len := by
  simp [Memory.load]

/-- A load depends on the bytes it covers only. -/
theorem Memory.load_congr {m m' : Memory} {addr len : Nat}
    (h : ∀ a, addr ≤ a → a < addr + len → m a = m' a) : m.load addr len = m'.load addr len := by
  refine List.map_congr_left fun i hi => ?_
  rw [List.mem_range] at hi
  exact h _ (by omega) (by omega)

theorem Memory.load_store_self (m : Memory) (addr : Nat) (bytes : List UInt8) :
    (m.store addr bytes).load addr bytes.length = bytes := by
  refine List.ext_getElem (by simp) fun i hi hi' => ?_
  simp [Memory.load, Memory.store, hi']

theorem Memory.store_of_outside (m : Memory) {addr a : Nat} {bytes : List UInt8}
    (h : a < addr ∨ addr + bytes.length ≤ a) : m.store addr bytes a = m a := by
  unfold Memory.store
  rw [dif_neg]
  omega

/-- A store leaves all ranges alone that it does not meet. -/
theorem Memory.load_store_of_disjoint (m : Memory) {addr other len : Nat} {bytes : List UInt8}
    (h : other + len ≤ addr ∨ addr + bytes.length ≤ other) :
    (m.store addr bytes).load other len = m.load other len := by
  refine Memory.load_congr fun a hlow hhigh => m.store_of_outside ?_
  omega

end oslabs.memory
