import OsLabs.Lib.Memory

namespace oslabs.memory

/-- The string at an address, read for `size` bytes at most. -/
def Memory.string (m : Memory) (addr size : Nat) : List UInt8 :=
  (m.load addr size).takeWhile (· ≠ 0)

/-- The length of that string. -/
def strlen (m : Memory) (addr size : Nat) : Nat :=
  (m.string addr size).length

/-- A range ends where the next one starts. -/
theorem Memory.load_append (m : Memory) (addr len more : Nat) :
    m.load addr (len + more) = m.load addr len ++ m.load (addr + len) more := by
  simp only [Memory.load, List.range_add, List.map_append, List.map_map]
  congr 1
  apply List.map_congr_left
  intro i _
  simp [Nat.add_assoc]

theorem takeWhile_append_zero {s : List UInt8} (rest : List UInt8) (hs : 0 ∉ s) :
    (s ++ 0 :: rest).takeWhile (· ≠ 0) = s := by
  rw [List.takeWhile_append_of_pos]
  · simp
  · intro b hb
    simp only [ne_eq, decide_eq_true_eq]
    rintro rfl
    exact hs hb

/-- A string is read back up to its terminating zero. -/
theorem Memory.string_of_load {m : Memory} {addr size : Nat} {s : List UInt8} (hs : 0 ∉ s)
    (hload : m.load addr (s.length + 1) = s ++ [0]) (hsize : s.length < size) :
    m.string addr size = s := by
  obtain ⟨more, rfl⟩ : ∃ more, size = s.length + 1 + more := ⟨size - (s.length + 1), by omega⟩
  rw [Memory.string, Memory.load_append, hload, List.append_assoc]
  exact takeWhile_append_zero _ hs

/-- `strncmp` of the string at an address with a string constant, whose terminating
    zero is left out of the list. It looks at `n` characters at most. -/
def strncmp (m : Memory) (addr : Nat) : List UInt8 → Nat → Int
  | _, 0 => 0
  | [], _ + 1 => (m addr).toNat
  | c :: s, n + 1 =>
    if m addr = c then
      if c = 0 then 0 else strncmp m (addr + 1) s n
    else (m addr).toNat - c.toNat

theorem Memory.load_concat (m : Memory) (addr len : Nat) :
    m.load addr (len + 1) = m.load addr len ++ [m (addr + len)] := by
  rw [m.load_append]
  rfl

theorem Memory.load_succ (m : Memory) (addr len : Nat) :
    m.load addr (len + 1) = m addr :: m.load (addr + 1) len := by
  rw [Nat.add_comm, m.load_append]
  rfl

/-- Compared over its whole length a constant is equal just when its characters are there. -/
theorem strncmp_eq_zero_iff {m : Memory} {addr : Nat} {s : List UInt8} (hs : 0 ∉ s) :
    strncmp m addr s s.length = 0 ↔ m.load addr s.length = s := by
  induction s generalizing addr with
  | nil => exact iff_of_true rfl rfl
  | cons c s ih =>
    rw [List.mem_cons, not_or] at hs
    rw [List.length_cons, m.load_succ, List.cons.injEq, ← ih hs.2, strncmp]
    by_cases hfirst : m addr = c
    · rw [if_pos hfirst, if_neg (Ne.symm hs.1)]
      simp [hfirst]
    · have hne : ((m addr).toNat : Int) - c.toNat ≠ 0 := by
        intro heq
        apply hfirst
        apply UInt8.toNat_inj.1
        omega
      rw [if_neg hfirst]
      exact iff_of_false hne fun h => hfirst h.1

end oslabs.memory
