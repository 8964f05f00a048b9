import Mathlib.Data.Nat.Digits.Lemmas

namespace oslabs.printf

/-- The decimal digits of a number as characters, the most significant one first. -/
def decimal (n : Nat) : List UInt8 :=
  if n = 0 then [48] else (Nat.digits 10 n).reverse.map fun d => UInt8.ofNat (48 + d)

/-- What `%d` prints for an `int`. -/
def sprintf_d (x : Int32) : List UInt8 :=
  if x < 0 then 45 :: decimal x.toInt.natAbs else decimal x.toInt.natAbs

/-- The value of a row of digit characters. -/
def value (digits : List UInt8) : Nat :=
  Nat.ofDigits 10 (digits.reverse.map fun b => b.toNat - 48)

theorem toNat_digit {d : Nat} (hd : d < 10) : (UInt8.ofNat (48 + d)).toNat = 48 + d := by
  rw [UInt8.toNat_ofNat']
  omega

theorem value_decimal (n : Nat) : value (decimal n) = n := by
  unfold decimal value
  split
  · rename_i hzero
    subst hzero
    rfl
  · have hdigits : (Nat.digits 10 n).map (fun d => (UInt8.ofNat (48 + d)).toNat - 48) =
        Nat.digits 10 n := by
      refine (List.map_congr_left fun d hd => ?_).trans (List.map_id _)
      rw [toNat_digit (Nat.digits_lt_base (by decide) hd), id_eq]
      omega
    rw [← List.map_reverse, List.reverse_reverse, List.map_map]
    show Nat.ofDigits 10 ((Nat.digits 10 n).map fun d => (UInt8.ofNat (48 + d)).toNat - 48) = n
    rw [hdigits, Nat.ofDigits_digits]

theorem decimal_injective : Function.Injective decimal :=
  Function.LeftInverse.injective value_decimal

/-- The characters are digits. -/
theorem le_of_mem_decimal {n : Nat} {b : UInt8} (hb : b ∈ decimal n) : 48 ≤ b.toNat := by
  unfold decimal at hb
  split at hb
  · rw [List.mem_singleton.1 hb]
    decide
  · obtain ⟨d, hd, rfl⟩ := List.mem_map.1 hb
    rw [toNat_digit (Nat.digits_lt_base (by decide) (List.mem_reverse.1 hd))]
    exact Nat.le_add_right 48 d

theorem zero_notMem_decimal (n : Nat) : 0 ∉ decimal n :=
  fun hmem => absurd (le_of_mem_decimal hmem) (by decide)

theorem length_decimal_le_iff {n k : Nat} (hk : 0 < k) : (decimal n).length ≤ k ↔ n < 10 ^ k := by
  unfold decimal
  split
  · rename_i hzero
    rw [hzero]
    exact iff_of_true hk (Nat.pow_pos (by decide))
  · rw [List.length_map, List.length_reverse]
    exact Nat.digits_length_le_iff (by decide) n

section Printing

variable {x y : Int32}

theorem sprintf_d_of_nonneg (hx : 0 ≤ x) : sprintf_d x = decimal x.toInt.natAbs := by
  rw [sprintf_d, if_neg (Int32.not_lt.2 hx)]

theorem sprintf_d_of_neg (hx : x < 0) : sprintf_d x = 45 :: decimal x.toInt.natAbs := by
  rw [sprintf_d, if_pos hx]

theorem sprintf_d_ne_of_signs (hx : x < 0) (hy : 0 ≤ y) : sprintf_d x ≠ sprintf_d y := by
  rw [sprintf_d_of_neg hx, sprintf_d_of_nonneg hy]
  intro h
  have hsign : 45 ∈ decimal y.toInt.natAbs := by
    rw [← h]
    exact List.mem_cons_self
  exact absurd (le_of_mem_decimal hsign) (by decide)

/-- Different numbers print differently: a sign is no digit, and the digits have a value. -/
theorem sprintf_d_injective : Function.Injective sprintf_d := by
  intro x y h
  by_cases hx : x < 0
  · by_cases hy : y < 0
    · rw [sprintf_d_of_neg hx, sprintf_d_of_neg hy] at h
      have habs := decimal_injective (List.cons.inj h).2
      rw [Int32.lt_iff_toInt_lt, Int32.toInt_zero] at hx hy
      apply Int32.toInt_inj.1
      omega
    · exact absurd h (sprintf_d_ne_of_signs hx (Int32.not_lt.1 hy))
  · by_cases hy : y < 0
    · exact absurd h.symm (sprintf_d_ne_of_signs hy (Int32.not_lt.1 hx))
    · rw [sprintf_d_of_nonneg (Int32.not_lt.1 hx), sprintf_d_of_nonneg (Int32.not_lt.1 hy)] at h
      have habs := decimal_injective h
      rw [Int32.lt_iff_toInt_lt, Int32.toInt_zero] at hx hy
      apply Int32.toInt_inj.1
      omega

theorem zero_notMem_sprintf_d (x : Int32) : 0 ∉ sprintf_d x := by
  unfold sprintf_d
  split
  · rw [List.mem_cons, not_or]
    exact ⟨by decide, zero_notMem_decimal _⟩
  · exact zero_notMem_decimal _

/-- An `int` has ten digits at most, and with a sign it has more than ten characters when
    there are ten digits. -/
theorem length_sprintf_d_le_iff (x : Int32) : (sprintf_d x).length ≤ 10 ↔ -1000000000 < x.toInt := by
  have hlt := x.toInt_lt
  by_cases hx : x < 0
  · rw [sprintf_d_of_neg hx, List.length_cons, Nat.succ_le_succ_iff, length_decimal_le_iff (by decide)]
    rw [Int32.lt_iff_toInt_lt, Int32.toInt_zero] at hx
    omega
  · rw [sprintf_d_of_nonneg (Int32.not_lt.1 hx), length_decimal_le_iff (by decide)]
    rw [Int32.lt_iff_toInt_lt, Int32.toInt_zero] at hx
    omega

end Printing

end oslabs.printf
