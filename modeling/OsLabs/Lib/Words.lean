import Mathlib.Algebra.Order.Ring.Nat
import OsLabs.Lib.Memory

namespace oslabs.memory

/-- The lowest `len` bytes of a number, little-endian. -/
def leBytes : Nat → Nat → List UInt8
  | 0, _ => []
  | len + 1, n => UInt8.ofNat n :: leBytes len (n / 256)

/-- The number that little-endian bytes stand for. -/
def leValue : List UInt8 → Nat
  | [] => 0
  | b :: bytes => b.toNat + 256 * leValue bytes

@[simp] theorem length_leBytes (len n : Nat) : (leBytes len n).length = len := by
  induction len generalizing n with
  | zero => rfl
  | succ len ih => simp [leBytes, ih]

theorem leValue_leBytes (len n : Nat) : leValue (leBytes len n) = n % 256 ^ len := by
  induction len generalizing n with
  | zero => simp [leBytes, leValue, Nat.mod_one]
  | succ len ih =>
    have hsplit : n % (256 * 256 ^ len) = n % 256 + 256 * (n / 256 % 256 ^ len) := Nat.mod_mul
    unfold leBytes leValue
    rw [ih, UInt8.toNat_ofNat', Nat.pow_succ' (m := 256), hsplit]

variable {m m' : Memory} {addr other : Nat} {w : UInt64} {ws : List UInt64}

/-- The 64-bit word at an address. -/
def Memory.read64 (m : Memory) (addr : Nat) : UInt64 :=
  UInt64.ofNat (leValue (m.load addr 8))

def Memory.write64 (m : Memory) (addr : Nat) (w : UInt64) : Memory :=
  m.store addr (leBytes 8 w.toNat)

/-- The two memories agree on the bytes from one address to another. -/
def AgreeOn (m m' : Memory) (low high : Nat) : Prop :=
  ∀ a, low ≤ a → a < high → m' a = m a

theorem AgreeOn.mono {low high low' high' : Nat} (h : AgreeOn m m' low high) (hlow : low ≤ low')
    (hhigh : high' ≤ high) : AgreeOn m m' low' high' := by
  intro a ha ha'
  exact h a (by omega) (by omega)

theorem AgreeOn.read64 (h : AgreeOn m m' addr (addr + 8)) : m'.read64 addr = m.read64 addr := by
  unfold Memory.read64
  rw [Memory.load_congr h]

@[simp] theorem read64_write64_self (m : Memory) (addr : Nat) (w : UInt64) :
    (m.write64 addr w).read64 addr = w := by
  have hload := m.load_store_self addr (leBytes 8 w.toNat)
  rw [length_leBytes] at hload
  unfold Memory.read64 Memory.write64
  rw [hload, leValue_leBytes, show 256 ^ 8 = 2 ^ 64 from rfl, Nat.mod_eq_of_lt w.toNat_lt]
  exact UInt64.ofNat_toNat

theorem write64_of_outside (m : Memory) (w : UInt64) {a : Nat} (h : a < addr ∨ addr + 8 ≤ a) :
    m.write64 addr w a = m a := by
  apply m.store_of_outside
  rwa [length_leBytes]

theorem read64_write64_of_disjoint (m : Memory) (w : UInt64) (h : other + 8 ≤ addr ∨ addr + 8 ≤ other) :
    (m.write64 addr w).read64 other = m.read64 other := by
  refine AgreeOn.read64 fun a hlow hhigh => write64_of_outside m w ?_
  omega

theorem read64_fill_zero (m : Memory) {len : Nat} (hlow : addr ≤ other) (hhigh : other + 8 ≤ addr + len) :
    (m.fill addr 0 len).read64 other = 0 := by
  have hzero : (m.fill addr 0 len).load other 8 = List.replicate 8 0 := by
    rw [List.eq_replicate_iff, Memory.length_load]
    refine ⟨rfl, fun b hb => ?_⟩
    obtain ⟨i, hi, rfl⟩ := List.mem_map.mp hb
    rw [List.mem_range] at hi
    exact if_pos ⟨by omega, by omega⟩
  rw [Memory.read64, hzero]
  rfl

/-- The words of a list stand one after the other from an address on. -/
def WordsAt (m : Memory) (addr : Nat) (ws : List UInt64) : Prop :=
  ∀ i w, ws[i]? = some w → m.read64 (addr + 8 * i) = w

theorem WordsAt.congr (h : WordsAt m addr ws) (hagree : AgreeOn m m' addr (addr + 8 * ws.length)) :
    WordsAt m' addr ws := by
  intro i w hi
  have hlt : i < ws.length := (List.getElem?_eq_some_iff.mp hi).1
  have hword : AgreeOn m m' (addr + 8 * i) (addr + 8 * i + 8) := hagree.mono (by omega) (by omega)
  rw [hword.read64]
  exact h i w hi

theorem wordsAt_cons_iff : WordsAt m addr (w :: ws) ↔ m.read64 addr = w ∧ WordsAt m (addr + 8) ws := by
  constructor
  · intro h
    refine ⟨h 0 w rfl, fun i v hi => ?_⟩
    rw [Nat.add_assoc, Nat.add_comm 8, ← Nat.mul_succ]
    exact h (i + 1) v hi
  · rintro ⟨hhead, htail⟩ i v hi
    cases i with
    | zero =>
      rw [← Option.some.inj hi]
      exact hhead
    | succ i =>
      rw [Nat.mul_succ, Nat.add_comm (8 * i), ← Nat.add_assoc]
      exact htail i v hi

/-- Write words one after the other, the first one first. -/
def Memory.writeWords (m : Memory) (addr : Nat) : List UInt64 → Memory
  | [] => m
  | w :: ws => (m.write64 addr w).writeWords (addr + 8) ws

theorem writeWords_of_outside (ws : List UInt64) (m : Memory) {addr a : Nat}
    (h : a < addr ∨ addr + 8 * ws.length ≤ a) : m.writeWords addr ws a = m a := by
  induction ws generalizing m addr with
  | nil => rfl
  | cons w ws ih =>
    rw [List.length_cons] at h
    unfold Memory.writeWords
    rw [ih _ (by omega), write64_of_outside m w (by omega)]

theorem read64_writeWords_of_disjoint (ws : List UInt64) (m : Memory)
    (h : other + 8 ≤ addr ∨ addr + 8 * ws.length ≤ other) :
    (m.writeWords addr ws).read64 other = m.read64 other := by
  refine AgreeOn.read64 fun a hlow hhigh => writeWords_of_outside ws m ?_
  omega

theorem wordsAt_writeWords (ws : List UInt64) (m : Memory) (addr : Nat) :
    WordsAt (m.writeWords addr ws) addr ws := by
  induction ws generalizing m addr with
  | nil =>
    intro i w hi
    simp at hi
  | cons w ws ih =>
    rw [wordsAt_cons_iff]
    refine ⟨?_, ih _ _⟩
    have hagree : AgreeOn (m.write64 addr w) ((m.write64 addr w).writeWords (addr + 8) ws) addr (addr + 8) :=
      fun a _ hhigh => writeWords_of_outside ws _ (.inl hhigh)
    rw [Memory.writeWords, hagree.read64, read64_write64_self]

end oslabs.memory
