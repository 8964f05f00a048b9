import OsLabs.Net.Handler

open oslabs.memory oslabs.loop
open oslabs.async (BUFSIZE Command QUIT STOP)

namespace oslabs.net

/-- A client that sends some messages and goes away: from then on `read` returns nothing. -/
def stream (chunks : List (List UInt8)) (i : Nat) : List UInt8 :=
  chunks[i]?.getD []

/-- The loop over a connection ends, with the connection closed, and how. -/
def EndsClosed (server : Server) (buf : Memory) (chunks : List (List UInt8)) (last : Ending) : Prop :=
  ∃ n s, forLoop (server.handler fun i => some (stream chunks i)) n (start buf) = .leave s ∧
    s.conn_open = false ∧ s.ending = some last

variable {server : Server} {buf : Memory} {chunks : List (List UInt8)} {data : List UInt8} {last : Ending}

/-- There is no command in what `read` returns at the end of the stream. -/
theorem ending_nil : ending [] = none := by decide

theorem stream_mem_or_nil (chunks : List (List UInt8)) (i : Nat) :
    stream chunks i ∈ chunks ∨ stream chunks i = [] := by
  unfold stream
  cases hchunk : chunks[i]? with
  | none => exact .inr rfl
  | some data => exact .inl (List.mem_of_getElem? hchunk)

theorem stream_length_le (hsize : ∀ data ∈ chunks, data.length < BUFSIZE) (i : Nat) :
    (stream chunks i).length ≤ BUFSIZE := by
  obtain hmem | hnil := stream_mem_or_nil chunks i
  · exact Nat.le_of_lt (hsize _ hmem)
  · rw [hnil]
    exact Nat.zero_le _

/-- The first message that ends the loop, in the order in which they come. -/
theorem findSome_ending_iff : chunks.findSome? ending = some last ↔
    ∃ k, (∀ i < k, ending (stream chunks i) = none) ∧ ending (stream chunks k) = some last := by
  induction chunks with
  | nil =>
    apply iff_of_false
    · simp
    · rintro ⟨k, _, hk⟩
      have hnil : stream [] k = [] := by simp [stream]
      rw [hnil, ending_nil] at hk
      cases hk
  | cons data chunks ih =>
    have hzero : stream (data :: chunks) 0 = data := rfl
    have hsucc : ∀ i, stream (data :: chunks) (i + 1) = stream chunks i := fun i => by simp [stream]
    rw [List.findSome?_cons]
    cases hdata : ending data with
    | none =>
      simp only [ih]
      constructor
      · rintro ⟨k, hnone, hk⟩
        refine ⟨k + 1, fun i hi => ?_, by rwa [hsucc]⟩
        cases i with
        | zero => exact hdata
        | succ i => exact hsucc i ▸ hnone i (by omega)
      · rintro ⟨k, hnone, hk⟩
        cases k with
        | zero => simp [hzero, hdata] at hk
        | succ k =>
          exact ⟨k, fun i hi => hsucc i ▸ hnone (i + 1) (by omega), hsucc k ▸ hk⟩
    | some first =>
      simp only [Option.some.injEq]
      constructor
      · rintro rfl
        exact ⟨0, fun i hi => absurd hi (Nat.not_lt_zero i), hdata⟩
      · rintro ⟨k, hnone, hk⟩
        cases k with
        | zero => exact Option.some.inj (hdata.symm.trans hk)
        | succ k =>
          have hfirst := hnone 0 (Nat.succ_pos k)
          rw [hzero, hdata] at hfirst
          cases hfirst

/-- The loop ends as the first command asks, and not at all without one. -/
theorem endsClosed_iff (hsize : ∀ data ∈ chunks, data.length < BUFSIZE) :
    EndsClosed server buf chunks last ↔ chunks.findSome? ending = some last := by
  rw [findSome_ending_iff]
  constructor
  · rintro ⟨n, s, hrun, _, hlast⟩
    obtain hnone | ⟨k, hk, hfirst, last', hlast'⟩ := first_ending (stream chunks) n
    · obtain ⟨after, hagain⟩ := forLoop_again (stream_length_le hsize) server buf hnone
      rw [hagain] at hrun
      cases hrun
    · obtain ⟨after, hleave⟩ := forLoop_leave (stream_length_le hsize) server buf hfirst hlast' hk
      rw [hleave] at hrun
      cases hrun
      obtain rfl := Option.some.inj hlast
      exact ⟨k, hfirst, hlast'⟩
  · rintro ⟨k, hfirst, hlast⟩
    obtain ⟨after, hleave⟩ :=
      forLoop_leave (stream_length_le hsize) server buf hfirst hlast (Nat.lt_succ_self k)
    exact ⟨k + 1, _, hleave, rfl, rfl⟩

/-- A loop over a stream that ends is left just when some message is a command. The server
    goes on with the next client when the first command is `quit`, not `stop`. -/
theorem handler_ends_iff (server : Server) (buf : Memory)
    (hsize : ∀ data ∈ chunks, 0 < data.length ∧ data.length < BUFSIZE) :
    ((∃ last, EndsClosed server buf chunks last) ↔
      ∃ data ∈ chunks, Command QUIT data ∨ Command STOP data) ∧
    (EndsClosed server buf chunks .returned ↔
      ∃ before data after, chunks = before ++ data :: after ∧ Command QUIT data ∧
        ∀ other ∈ before, ¬ (Command QUIT other ∨ Command STOP other)) := by
  have hends (last : Ending) : EndsClosed server buf chunks last ↔ chunks.findSome? ending = some last :=
    endsClosed_iff fun data hdata => (hsize data hdata).2
  constructor
  · simp only [hends, ← Option.isSome_iff_exists, List.findSome?_isSome_iff]
    refine exists_congr fun data => and_congr_right fun _ => ?_
    rw [Option.isSome_iff_ne_none, ne_eq, ending_eq_none_iff, not_not]
  · rw [hends, List.findSome?_eq_some_iff]
    simp only [ending_eq_none_iff]
    refine exists_congr fun before => exists_congr fun data => exists_congr fun after => ?_
    refine and_congr_right fun _ => and_congr_left fun _ => ?_
    unfold ending
    split
    · exact iff_of_true rfl ‹_›
    · split <;> simp_all

theorem handler_ends_iff_quit : EndsClosed .thread_pool (fun _ => 7) [[104, 105], QUIT ++ [10]] .returned :=
  (handler_ends_iff .thread_pool _ (by decide)).2.mpr ⟨[[104, 105]], _, [], rfl, by decide +kernel⟩

/-- A client that says `hi` and goes away keeps its handler busy for ever. -/
theorem handler_ends_fails :
    ¬ ∀ (server : Server) (buf : Memory) (chunks : List (List UInt8)),
      (∀ data ∈ chunks, 0 < data.length ∧ data.length < BUFSIZE) →
        ∃ last, EndsClosed server buf chunks last := by
  intro h
  obtain ⟨last, hends⟩ := h .basic (fun _ => 0) [[104, 105]] (by decide)
  have hnone := (endsClosed_iff (by decide)).mp hends
  have hending : List.findSome? ending [[104, 105]] = none := by decide
  rw [hending] at hnone
  cases hnone

end oslabs.net
