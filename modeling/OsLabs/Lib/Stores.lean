import Mathlib.Data.List.Basic
import Mathlib.Data.List.Induction

namespace oslabs.stores

variable {σ τ α : Type*}

/-- What a series of stores makes of an object, the first store first. -/
def build (stores : List (σ → σ)) (s : σ) : σ :=
  stores.foldl (fun s store => store s) s

@[simp] theorem build_nil (s : σ) : build [] s = s := rfl

@[simp] theorem build_cons (store : σ → σ) (stores : List (σ → σ)) (s : σ) :
    build (store :: stores) s = build stores (store s) := rfl

@[simp] theorem build_append (first second : List (σ → σ)) (s : σ) :
    build (first ++ second) s = build second (build first s) :=
  List.foldl_append

/-- One more store. -/
theorem build_take_succ {stores : List (σ → σ)} {k : Nat} {store : σ → σ} (s : σ)
    (h : stores[k]? = some store) :
    build (stores.take (k + 1)) s = store (build (stores.take k) s) := by
  rw [List.take_add_one, h, build_append]
  rfl

/-- A part of the object that no store touches stays as it was. -/
theorem build_frame {stores : List (σ → σ)} (view : σ → τ)
    (h : ∀ store ∈ stores, ∀ s, view (store s) = view s) (s : σ) : view (build stores s) = view s := by
  induction stores generalizing s with
  | nil => rfl
  | cons store stores ih =>
    rw [build_cons, ih fun other hother => h other (List.mem_cons_of_mem _ hother)]
    exact h store List.mem_cons_self s

/-- The places of an array stored one after the other. -/
theorem build_set_range (f : Nat → α) (l : List α) {n : Nat} (h : n ≤ l.length) :
    build ((List.range n).map fun i l => l.set i (f i)) l = (List.range n).map f ++ l.drop n := by
  induction n with
  | zero => simp
  | succ n ih =>
    have hn : ((List.range n).map f).length = n := by simp
    have hdrop : (l.drop n).set 0 (f n) = f n :: l.drop (n + 1) := by
      rw [List.drop_eq_getElem_cons h, List.set_cons_zero]
    rw [List.range_succ, List.map_append, build_append, ih (Nat.le_of_succ_le h), List.map_append,
      List.append_assoc, List.map_singleton, List.map_singleton, List.singleton_append, ← hdrop]
    simp only [build_cons, build_nil]
    rw [List.set_append_right _ _ (Nat.le_of_eq hn), hn, Nat.sub_self]

end oslabs.stores
