import Mathlib.Algebra.Order.Ring.Nat
import Mathlib.Data.List.Infix
import OsLabs.Lib.Loop

open oslabs.loop

namespace oslabs.adder

def NTHREADS : Nat := 4

/-- The sum of the elements `lo`, ..., `hi - 1` of an array, as `long` adds them. -/
def segmentSum (vals : List Int32) (lo hi : Nat) : Int64 :=
  (((vals.drop lo).take (hi - lo)).map Int32.toInt64).sum

/-- One pass through the loops that add up an array from an index to an end. The
    loop is undefined where it would read outside the array. -/
def add_pass (vals : List Int32) (s : UInt64 × Int64) : Option (UInt64 × Int64) := do
  let v ← vals[s.1.toNat]?
  some (s.1 + 1, s.2 + v.toInt64)

/-- `seq_adder`. Its loop tests its condition at most `nvals + 1` times. -/
def seq_adder (vals : List Int32) (nvals : UInt64) : Option Int64 :=
  (whileLoop (fun s => s.1 < nvals) (fun s => (add_pass vals s).map .again) (nvals.toNat + 1)
    (0, 0)).map Prod.snd

/-- How many elements `par_adder` gives to a task. -/
def region_size (nvals : UInt64) : UInt64 :=
  (nvals + (UInt64.ofNat NTHREADS - 1)) / UInt64.ofNat NTHREADS

/-- The index that `tasks[n].begin` points to. -/
def task_begin (nvals : UInt64) (n : Fin NTHREADS) : UInt64 :=
  UInt64.ofNat n * region_size nvals

/-- The index that `tasks[n].end` points to. -/
def task_end (nvals : UInt64) (n : Fin NTHREADS) : UInt64 :=
  if task_begin nvals n + region_size nvals > nvals then nvals
  else task_begin nvals n + region_size nvals

section Sums

variable {vals : List Int32} {lo mid hi : Nat}

theorem segmentSum_empty (h : hi ≤ lo) : segmentSum vals lo hi = 0 := by
  unfold segmentSum
  rw [Nat.sub_eq_zero_of_le h]
  rfl

theorem segmentSum_append (hlo : lo ≤ mid) (hhi : mid ≤ hi) :
    segmentSum vals lo hi = segmentSum vals lo mid + segmentSum vals mid hi := by
  have hlength : hi - lo = (mid - lo) + (hi - mid) := by omega
  have hmid : lo + (mid - lo) = mid := by omega
  unfold segmentSum
  rw [hlength, List.take_add, List.drop_drop, hmid, List.map_append, List.sum_append]

theorem segmentSum_succ (hlo : lo ≤ mid) {v : Int32} (hv : vals[mid]? = some v) :
    segmentSum vals lo (mid + 1) = segmentSum vals lo mid + v.toInt64 := by
  obtain ⟨hlt, hget⟩ := List.getElem?_eq_some_iff.mp hv
  have hone : segmentSum vals mid (mid + 1) = v.toInt64 := by
    unfold segmentSum
    rw [Nat.add_sub_cancel_left, List.drop_eq_getElem_cons hlt, hget]
    simp
  rw [segmentSum_append hlo (Nat.le_succ mid), hone]

end Sums

/-- An index that has a larger one counts up without wrapping around. -/
theorem toNat_succ {p bound : UInt64} (h : p < bound) : (p + 1).toNat = p.toNat + 1 := by
  rw [UInt64.lt_iff_toNat_lt] at h
  have hbound := bound.toNat_lt
  rw [UInt64.toNat_add, UInt64.toNat_one]
  omega

/-- A pass adds the element at an index inside the array. -/
theorem add_pass_eq {vals : List Int32} {p bound : UInt64} {lo : Nat} (hbound : bound.toNat ≤ vals.length)
    (hlo : lo ≤ p.toNat) (hp : p < bound) :
    add_pass vals (p, segmentSum vals lo p.toNat) =
      some (p + 1, segmentSum vals lo (p + 1).toNat) := by
  have hlt : p.toNat < vals.length := by
    rw [UInt64.lt_iff_toNat_lt] at hp
    omega
  have hv := List.getElem?_eq_getElem hlt
  rw [add_pass, hv, toNat_succ hp, segmentSum_succ hlo hv]
  rfl

/-- `seq_adder` reads inside its array only, and adds up all of it. -/
theorem seq_adder_eq {vals : List Int32} {nvals : UInt64} (hlength : vals.length = nvals.toNat) :
    seq_adder vals nvals = some (segmentSum vals 0 nvals.toNat) := by
  let Summed (s : UInt64 × Int64) (i : UInt64) : Prop :=
    s = (i, segmentSum vals 0 i.toNat) ∧ i ≤ nvals
  have hexit : ∀ s i, Summed s i → decide (s.1 < nvals) = false → nvals = i := by
    rintro s i ⟨rfl, hle⟩ hcond
    rw [decide_eq_false_iff_not, UInt64.not_lt] at hcond
    exact UInt64.le_antisymm hcond hle
  have hbody : ∀ s i, Summed s i → decide (s.1 < nvals) = true →
      (∃ s' i', (add_pass vals s).map Flow.again = some (.again s') ∧ Summed s' i' ∧ nvals = nvals ∧
        nvals.toNat - i'.toNat < nvals.toNat - i.toNat) ∨
      ∃ s', (add_pass vals s).map Flow.again = some (.leave s') ∧ Summed s' nvals := by
    rintro s i ⟨rfl, hle⟩ hcond
    have hlt : i < nvals := of_decide_eq_true hcond
    have hsucc := toNat_succ hlt
    have hpass := add_pass_eq hlength.ge (Nat.zero_le i.toNat) hlt
    rw [UInt64.lt_iff_toNat_lt] at hlt
    refine .inl ⟨_, i + 1, by rw [hpass]; rfl, ⟨rfl, ?_⟩, rfl, ?_⟩
    · rw [UInt64.le_iff_toNat_le, hsucc]
      exact hlt
    · omega
  have hstart : Summed (0, 0) 0 := ⟨by rw [segmentSum_empty (by simp)], UInt64.zero_le⟩
  have hfuel : nvals.toNat - (0 : UInt64).toNat < nvals.toNat + 1 := by omega
  obtain ⟨s, hloop, hs, _⟩ := whileLoop_refines Summed (fun _ => nvals) _ hexit hbody hstart hfuel
  rw [seq_adder, hloop, Option.map_some, hs]

section Regions

variable {nvals : UInt64} (hsize : nvals.toNat + (NTHREADS - 1) < 2 ^ 64)
include hsize

theorem toNat_region_size : (region_size nvals).toNat = (nvals.toNat + 3) / 4 := by
  unfold region_size
  rw [UInt64.toNat_div, UInt64.toNat_add]
  simp only [NTHREADS] at hsize ⊢
  rw [Nat.mod_eq_of_lt]
  · rfl
  · exact hsize

theorem toNat_task_begin (n : Fin NTHREADS) :
    (task_begin nvals n).toNat = n * ((nvals.toNat + 3) / 4) := by
  have hn : n.val < 4 := n.isLt
  have hbound : n.val * ((nvals.toNat + 3) / 4) ≤ 3 * ((nvals.toNat + 3) / 4) :=
    Nat.mul_le_mul_right _ (by omega)
  have hname : (UInt64.ofNat n).toNat = n := by
    rw [UInt64.toNat_ofNat']
    omega
  unfold task_begin
  rw [UInt64.toNat_mul, toNat_region_size hsize, hname, Nat.mod_eq_of_lt]
  simp only [NTHREADS] at hsize
  omega

theorem toNat_task_end (n : Fin NTHREADS) :
    (task_end nvals n).toNat = min ((n + 1) * ((nvals.toNat + 3) / 4)) nvals.toNat := by
  have hn : n.val < 4 := n.isLt
  have hbound : n.val * ((nvals.toNat + 3) / 4) ≤ 3 * ((nvals.toNat + 3) / 4) :=
    Nat.mul_le_mul_right _ (by omega)
  have hsum : (task_begin nvals n + region_size nvals).toNat = (n + 1) * ((nvals.toNat + 3) / 4) := by
    rw [UInt64.toNat_add, toNat_task_begin hsize, toNat_region_size hsize, Nat.add_one_mul,
      Nat.mod_eq_of_lt]
    simp only [NTHREADS] at hsize
    omega
  unfold task_end
  split
  · rename_i hgt
    rw [gt_iff_lt, UInt64.lt_iff_toNat_lt, hsum] at hgt
    omega
  · rename_i hle
    rw [gt_iff_lt, UInt64.lt_iff_toNat_lt, hsum] at hle
    omega

/-- The ranges of the tasks are disjoint, inside the array where they hold an
    index at all, and cover it. -/
theorem task_ranges :
    (∀ m n : Fin NTHREADS, m ≠ n → ∀ i, ¬ ((task_begin nvals m ≤ i ∧ i < task_end nvals m) ∧
      task_begin nvals n ≤ i ∧ i < task_end nvals n)) ∧
    (∀ n : Fin NTHREADS, task_begin nvals n < task_end nvals n → task_end nvals n ≤ nvals) ∧
    ∀ i < nvals, ∃ n : Fin NTHREADS, task_begin nvals n ≤ i ∧ i < task_end nvals n := by
  simp only [UInt64.le_iff_toNat_le, UInt64.lt_iff_toNat_lt, toNat_task_begin hsize,
    toNat_task_end hsize]
  refine ⟨?_, fun n _ => by omega, ?_⟩
  · have hordered : ∀ m n : Fin NTHREADS, m.val < n.val →
        (m.val + 1) * ((nvals.toNat + 3) / 4) ≤ n.val * ((nvals.toNat + 3) / 4) :=
      fun m n hlt => Nat.mul_le_mul_right _ hlt
    rintro m n hne i ⟨⟨hm, hm'⟩, hn, hn'⟩
    obtain hlt | hlt := Nat.lt_or_gt_of_ne (Fin.val_ne_of_ne hne)
    · have hle := hordered m n hlt
      omega
    · have hle := hordered n m hlt
      omega
  · intro i hi
    have hpos : 0 < (nvals.toNat + 3) / 4 := by omega
    have hquotient : i.toNat / ((nvals.toNat + 3) / 4) < NTHREADS := by
      rw [Nat.div_lt_iff_lt_mul hpos]
      simp only [NTHREADS]
      omega
    have hnext := Nat.lt_mul_div_succ i.toNat hpos
    rw [Nat.mul_comm] at hnext
    exact ⟨⟨_, hquotient⟩, Nat.div_mul_le_self _ _, Nat.lt_min.mpr ⟨hnext, hi⟩⟩

end Regions

/-- The sum over the range of a task. -/
def taskSum (vals : List Int32) (nvals : UInt64) (n : Fin NTHREADS) : Int64 :=
  segmentSum vals (task_begin nvals n).toNat (task_end nvals n).toNat

/-- Where the first `n` regions of the array end. -/
def regionsEnd (nvals : UInt64) (n : Nat) : Nat :=
  min (n * (region_size nvals).toNat) nvals.toNat

/-- The range of a task goes from where the regions before it end to where its own
    does. Where it begins behind the array, it is empty and so is its region. -/
theorem segmentSum_regionsEnd_succ {vals : List Int32} {nvals : UInt64}
    (hsize : nvals.toNat + (NTHREADS - 1) < 2 ^ 64) (n : Fin NTHREADS) :
    segmentSum vals 0 (regionsEnd nvals (n + 1)) =
      segmentSum vals 0 (regionsEnd nvals n) + taskSum vals nvals n := by
  have hcut : taskSum vals nvals n =
      segmentSum vals (regionsEnd nvals n) (regionsEnd nvals (n + 1)) := by
    unfold taskSum regionsEnd
    rw [toNat_task_begin hsize, toNat_task_end hsize, toNat_region_size hsize]
    by_cases hinside : n.val * ((nvals.toNat + 3) / 4) ≤ nvals.toNat
    · rw [Nat.min_eq_left hinside]
    · rw [segmentSum_empty (by omega), segmentSum_empty (by omega)]
  rw [hcut]
  apply segmentSum_append (Nat.zero_le _)
  unfold regionsEnd
  rw [Nat.add_one_mul]
  omega

/-- All regions together end with the array. -/
theorem regionsEnd_last {nvals : UInt64} (hsize : nvals.toNat + (NTHREADS - 1) < 2 ^ 64) :
    regionsEnd nvals NTHREADS = nvals.toNat := by
  unfold regionsEnd
  rw [toNat_region_size hsize]
  simp only [NTHREADS]
  omega

end oslabs.adder
