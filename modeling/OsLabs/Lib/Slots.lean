import Mathlib.Data.Nat.ModEq
import OsLabs.Lib.Memory

namespace oslabs.memory

variable {m : Memory} {size i j k capacity : Nat} {bytes : List UInt8}

/-- The memory as an array of places of one size. -/
def Memory.slot (m : Memory) (size i : Nat) : List UInt8 :=
  m.load (i * size) size

/-- Different places do not meet. -/
theorem slot_disjoint (hne : i ≠ j) : j * size + size ≤ i * size ∨ i * size + size ≤ j * size := by
  obtain hlt | hlt := Nat.lt_or_gt_of_ne hne
  · right
    rw [← Nat.succ_mul]
    exact Nat.mul_le_mul_right size hlt
  · left
    rw [← Nat.succ_mul]
    exact Nat.mul_le_mul_right size hlt

/-- A place with a small number lies inside the array. -/
theorem slot_inside (h : i < capacity) : i * size + size ≤ size * capacity := by
  rw [← Nat.succ_mul, Nat.mul_comm size]
  exact Nat.mul_le_mul_right size h

theorem Memory.slot_store_self (hlength : bytes.length = size) :
    (m.store (i * size) bytes).slot size i = bytes := by
  subst hlength
  exact m.load_store_self _ _

theorem Memory.slot_store_of_ne (hlength : bytes.length = size) (hne : i ≠ j) :
    (m.store (i * size) bytes).slot size j = m.slot size j := by
  subst hlength
  exact m.load_store_of_disjoint (slot_disjoint hne)

/-- Numbers less than one turn apart have different remainders, so their places in
    a circular array differ. -/
theorem mod_ne_of_sub_lt (hlt : k < j) (hturn : j - k < capacity) : j % capacity ≠ k % capacity := by
  intro heq
  have hdvd : capacity ∣ j - k := (Nat.modEq_iff_dvd' (Nat.le_of_lt hlt)).mp heq.symm
  have hle := Nat.le_of_dvd (by omega) hdvd
  omega

/-- That is so for counters that wrap, too, when a whole number of turns makes up the wrap. -/
theorem wrapped_mod_ne {modulus : Nat} (hdvd : capacity ∣ modulus) (hlt : k < j)
    (hturn : j - k < capacity) : j % modulus % capacity ≠ k % modulus % capacity := by
  rw [Nat.mod_mod_of_dvd _ hdvd, Nat.mod_mod_of_dvd _ hdvd]
  exact mod_ne_of_sub_lt hlt hturn

/-- Otherwise the first count of the last turn, which the wrap cuts short, and the first
    count after the wrap name one place. -/
theorem wrapped_mod_eq {modulus : Nat} (hdvd : ¬ capacity ∣ modulus) :
    0 < modulus % capacity ∧
      (modulus - modulus % capacity) % modulus % capacity = modulus % modulus % capacity := by
  have hpos : 0 < modulus % capacity := by
    rw [Nat.pos_iff_ne_zero]
    exact fun hzero => hdvd (Nat.dvd_of_mod_eq_zero hzero)
  have hmod : 0 < modulus := by
    rw [Nat.pos_iff_ne_zero]
    rintro rfl
    exact hdvd (Nat.dvd_zero capacity)
  refine ⟨hpos, ?_⟩
  rw [Nat.mod_self, Nat.zero_mod, Nat.mod_eq_of_lt (Nat.sub_lt hmod hpos)]
  exact Nat.sub_mod_eq_zero_of_mod_eq (Nat.mod_mod modulus capacity).symm

end oslabs.memory
