import Mathlib.Data.List.TakeWhile
import OsLabs.Net.Handler

open oslabs.memory oslabs.loop
open oslabs.async (BUFSIZE Command QUIT STOP)

namespace oslabs.net

/-- What a client and the server see of a loop: the bytes written back, the number of reads
    and how it has ended. -/
def outcome : Flow State → List UInt8 × Nat × Option Ending
  | .again s => (s.written, s.reads, s.ending)
  | .leave s => (s.written, s.reads, s.ending)

variable {server : Server} {f : Nat → List UInt8} {n k : Nat}

/-- No message as far as the one that ends the loop has a zero in it. -/
def ZeroFree (f : Nat → List UInt8) (n : Nat) : Prop :=
  ∀ i < n, (∀ j < i, ¬ (Command QUIT (f j) ∨ Command STOP (f j))) → 0 ∉ f i

/-- The messages that are handled in `n` passes: all, or as far as the first command. -/
theorem exists_handled (hsize : ∀ i, (f i).length ≤ BUFSIZE) (n : Nat) :
    ∃ k ≤ n, (∀ i < k, ∀ j < i, ending (f j) = none) ∧ (k < n → ∃ i < k, ending (f i) ≠ none) ∧
      ∃ last, ∀ (server : Server) buf, outcome (forLoop (server.handler fun i => some (f i)) n (start buf)) =
        ((List.range k).flatMap fun i => server.reply (f i), k, last) := by
  obtain hnone | ⟨k, hk, hfirst, last, hlast⟩ := first_ending f n
  · refine ⟨n, Nat.le_refl n, fun i hi j hj => hnone j (by omega), fun h => absurd h (Nat.lt_irrefl n),
      none, ?_⟩
    intro server buf
    obtain ⟨after, hrun⟩ := forLoop_again hsize server buf hnone
    rw [hrun, outcome]
  · refine ⟨k + 1, hk, fun i hi j hj => hfirst j (by omega), fun _ => ⟨k, by omega, by simp [hlast]⟩,
      some last, ?_⟩
    intro server buf
    obtain ⟨after, hrun⟩ := forLoop_leave hsize server buf hfirst hlast hk
    rw [hrun, outcome]

theorem takeWhile_eq_self_iff {data : List UInt8} : data.takeWhile (· ≠ 0) = data ↔ 0 ∉ data := by
  rw [List.takeWhile_eq_self_iff]
  constructor
  · intro hall hzero
    simpa using hall 0 hzero
  · intro hfree b hb
    rw [decide_eq_true_iff]
    rintro rfl
    exact hfree hb

/-- Messages that are each cut short give the same bytes only if none is. -/
theorem flatMap_takeWhile_eq_iff :
    ((List.range k).flatMap fun i => (f i).takeWhile (· ≠ 0)) = ((List.range k).flatMap fun i => f i) ↔
      ∀ i < k, 0 ∉ f i := by
  induction k with
  | zero => exact iff_of_true rfl fun i hi => absurd hi (Nat.not_lt_zero i)
  | succ k ih =>
    have hle : ∀ k, ((List.range k).flatMap fun i => (f i).takeWhile (· ≠ 0)).length ≤
        ((List.range k).flatMap fun i => f i).length := by
      intro k
      induction k with
      | zero => exact Nat.le_refl 0
      | succ k ih =>
        simp only [List.range_succ, List.flatMap_append, List.flatMap_singleton, List.length_append]
        exact Nat.add_le_add ih (List.takeWhile_prefix _).length_le
    simp only [List.range_succ, List.flatMap_append, List.flatMap_singleton, Nat.lt_succ_iff_lt_or_eq,
      or_imp, forall_and, forall_eq]
    rw [← ih, ← takeWhile_eq_self_iff]
    constructor
    · intro heq
      have hlength := congrArg List.length heq
      rw [List.length_append, List.length_append] at hlength
      have hbefore := hle k
      have hlast := (List.takeWhile_prefix (l := f k) (· ≠ 0)).length_le
      exact List.append_inj heq (by omega)
    · rintro ⟨hbefore, hlast⟩
      rw [hbefore, hlast]

/-- The messages that are handled are those before which there is no command. -/
theorem zeroFree_iff (hk : k ≤ n) (hnone : ∀ i < k, ∀ j < i, ending (f j) = none)
    (hrest : k < n → ∃ i < k, ending (f i) ≠ none) : ZeroFree f n ↔ ∀ i < k, 0 ∉ f i := by
  constructor
  · intro hfree i hi
    exact hfree i (by omega) fun j hj => ending_eq_none_iff.1 (hnone i hi j hj)
  · intro hfree i hi hbefore
    obtain hlt | hle := Nat.lt_or_ge i k
    · exact hfree i hlt
    · obtain ⟨j, hj, hcommand⟩ := hrest (by omega)
      exact absurd (ending_eq_none_iff.2 (hbefore j (by omega))) hcommand

/-- After any number of passes a threaded handler has done the same as the inner loop of the
    basic server just when no message has a zero, as far as the one that ends both. -/
theorem handlers_agree_iff (buf buf' : Memory) (hsize : ∀ i, (f i).length < BUFSIZE) (n : Nat)
    (hserver : server = .multithreaded ∨ server = .thread_pool) :
    outcome (forLoop (server.handler fun i => some (f i)) n (start buf)) =
        outcome (forLoop (inner_loop fun i => some (f i)) n (start buf')) ↔
      ZeroFree f n := by
  obtain ⟨k, hk, hnone, hrest, last, hrun⟩ := exists_handled (fun i => Nat.le_of_lt (hsize i)) n
  have hbasic := hrun .basic buf'
  have hreply : server.reply = fun data => data.takeWhile (· ≠ 0) := by
    obtain rfl | rfl := hserver
    · rfl
    · rfl
  rw [Server.handler] at hbasic
  rw [hrun, hbasic, zeroFree_iff hk hnone hrest, ← flatMap_takeWhile_eq_iff, hreply]
  simp only [Server.reply, Prod.mk.injEq, and_true]

theorem handlers_agree_iff_hi :
    outcome (forLoop (multithreaded.process_connection fun i => some (if i = 0 then [104, 105] else QUIT)) 3
        (start fun _ => 7)) =
      outcome (forLoop (inner_loop fun i => some (if i = 0 then [104, 105] else QUIT)) 3 (start fun _ => 0)) := by
  refine (handlers_agree_iff _ _ (fun i => ?_) 3 (.inl rfl)).mpr ?_
  · split <;> decide
  · intro i _ _
    dsimp only
    split <;> decide

/-- What follows a zero is lost. -/
theorem handlers_agree_fails : ∃ f : Nat → List UInt8, (∀ i, 0 < (f i).length ∧ (f i).length < BUFSIZE) ∧
    outcome (forLoop (multithreaded.process_connection fun i => some (f i)) 1 (start fun _ => 0)) =
      ([97], 1, none) ∧
    outcome (forLoop (inner_loop fun i => some (f i)) 1 (start fun _ => 0)) = ([97, 0, 98], 1, none) := by
  have hlength : 0 < ([97, 0, 98] : List UInt8).length ∧ ([97, 0, 98] : List UInt8).length < BUFSIZE := by
    decide
  have hsize : ∀ _ : Nat, ([97, 0, 98] : List UInt8).length ≤ BUFSIZE := fun _ => Nat.le_of_lt hlength.2
  have hnone : ∀ i < 1, ending [97, 0, 98] = none := fun _ _ => by decide
  refine ⟨fun _ => [97, 0, 98], fun _ => hlength, ?_, ?_⟩
  · obtain ⟨after, hrun⟩ := forLoop_again hsize .multithreaded (fun _ => 0) hnone
    exact congrArg outcome hrun
  · obtain ⟨after, hrun⟩ := forLoop_again hsize .basic (fun _ => 0) hnone
    exact congrArg outcome hrun

end oslabs.net
