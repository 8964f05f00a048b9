import Mathlib.Data.List.DropRight
import OsLabs.Uds.Model

open oslabs.memory oslabs.run
open oslabs.async (BUFSIZE QUIT STOP Command is_command received)

namespace oslabs.uds

/-- What the client sends of a chunk: CR and LF at its end are cut off. -/
def text (chunk : List UInt8) : List UInt8 :=
  chunk.rdropWhile fun c => c = 13 ∨ c = 10

/-- What `fgets` returns. -/
structure Chunk (chunk : List UInt8) : Prop where
  length : chunk.length < LINE_LEN
  zero_free : 0 ∉ chunk

variable {s : State} {line : Memory} {chunk t : List UInt8} {input rest : List (List UInt8)} {len : Nat}

theorem Chunk.text (h : Chunk chunk) : Chunk (text chunk) where
  length := Nat.lt_of_le_of_lt (List.rdropWhile_prefix _ _).length_le h.length
  zero_free hzero := h.zero_free ((List.rdropWhile_prefix _ _).subset hzero)

/-- The loop leaves the text with a zero behind it. -/
theorem strip_eq (hload : line.load 0 (t.length + 1) = t ++ [0]) :
    (strip line t.length).2 = (text t).length ∧
      (strip line t.length).1.load 0 ((text t).length + 1) = text t ++ [0] := by
  induction t using List.reverseRecOn generalizing line with
  | nil => exact ⟨rfl, hload⟩
  | append_singleton t c ih =>
    rw [List.length_append, List.length_singleton]
    rw [List.length_append, List.length_singleton, line.load_concat, line.load_concat] at hload
    obtain ⟨hchars, _⟩ := List.append_inj' hload rfl
    obtain ⟨htext, hlast⟩ := List.append_inj' hchars rfl
    rw [Nat.zero_add, List.singleton_inj] at hlast
    unfold text
    by_cases hcut : c = 13 ∨ c = 10
    · rw [strip, if_pos (hlast ▸ hcut), List.rdropWhile_concat_pos _ _ _ (by simpa using hcut)]
      apply ih
      rw [Memory.load_concat, Memory.load_store_of_disjoint _ (.inl (by omega)), htext]
      simp [Memory.store]
    · rw [strip, if_neg (hlast ▸ hcut), List.rdropWhile_concat_neg _ _ _ (by simpa using hcut)]
      rw [List.length_append, List.length_singleton, Memory.load_concat, Memory.load_concat]
      exact ⟨rfl, hload⟩

theorem load_store_zero (m : Memory) (t : List UInt8) :
    (m.store 0 (t ++ [0])).load 0 (t.length + 1) = t ++ [0] := by
  have hload := m.load_store_self 0 (t ++ [0])
  rwa [List.length_append, List.length_singleton] at hload

/-- The client sends the text of a chunk with a zero behind it, as long as the connection
    is open. -/
theorem send_eq (hinput : s.input = chunk :: input) (hchunk : Chunk chunk) :
    ∃ line accesses, (send s = if s.server.Here then { s with
          input
          line
          client := .waiting
          requests := s.requests ++ [text chunk ++ [0]]
          accesses := s.accesses ++ accesses }
        else { s with input, line, client := .failed, accesses := s.accesses ++ accesses }) ∧
      ∀ a ∈ accesses, a.Inside := by
  have hload := load_store_zero s.line chunk
  have hlength := hchunk.length
  have hfull : strlen (s.line.store 0 (chunk ++ [0])) 0 (LINE_LEN + 1) = chunk.length := by
    rw [strlen, Memory.string_of_load hchunk.zero_free hload (Nat.lt_succ_of_lt hlength)]
  obtain ⟨hlen, htext⟩ := strip_eq hload
  have hshort := hchunk.text.length
  unfold send
  rw [hinput]
  simp only [hfull, hlen, htext]
  refine ⟨_, _, rfl, ?_⟩
  intro a ha
  simp only [List.mem_cons, List.not_mem_nil, or_false] at ha
  obtain rfl | rfl | rfl := ha
  all_goals
    simp only [Access.Inside, Buffer.size]
    omega

theorem size_t_natCast {n : Nat} (h : n < UInt64.size) : size_t n = n := by
  rw [size_t, BitVec.ofInt_natCast, BitVec.toNat_ofNat, Nat.mod_eq_of_lt h]

/-- A message that fits is read as a whole. -/
theorem read_cons {count : Nat} {bytes : List UInt8} (h : bytes.length ≤ count) (here unread : Bool) :
    read count here unread (bytes :: rest) = some ((bytes.length : Int), bytes, rest) := by
  rw [read, if_pos h]

/-- The client prints the text that has come back. -/
theorem receive_eq (hreplies : s.replies = (t ++ [0]) :: rest) (ht : Chunk t) :
    ∃ data accesses, receive s = some { s with
        data
        replies := rest
        client := .reading
        printed := s.printed ++ [t]
        accesses := s.accesses ++ accesses } ∧
      ∀ a ∈ accesses, a.Inside := by
  have hlength := ht.length
  have hload : ((s.data.store 0 (t ++ [0])).store (t ++ [0]).length [0]).load 0 (t.length + 1) = t ++ [0] := by
    rw [Memory.load_store_of_disjoint _ (.inl (by simp)), load_store_zero]
  have hstring : ((s.data.store 0 (t ++ [0])).store (t ++ [0]).length [0]).string 0 (LINE_LEN + 1) = t :=
    Memory.string_of_load ht.zero_free hload (Nat.lt_succ_of_lt hlength)
  have hcount : (t ++ [0]).length = t.length + 1 := by rw [List.length_append, List.length_singleton]
  have hfits : (t ++ [0]).length ≤ LINE_LEN := by omega
  have hdlen : size_t (t ++ [0]).length = (t ++ [0]).length :=
    size_t_natCast (Nat.lt_of_le_of_lt hfits (by decide))
  unfold receive
  rw [hreplies, read_cons hfits]
  simp only [Option.bind_eq_bind, Option.bind_some, hdlen, strlen, hstring, List.append_assoc]
  rw [if_neg (by simp), if_neg (by omega)]
  refine ⟨_, _, rfl, ?_⟩
  intro a ha
  simp only [List.mem_append, List.mem_cons, List.not_mem_nil, or_false] at ha
  obtain rfl | rfl | rfl := ha
  all_goals
    simp only [Access.Inside, Buffer.size, List.length_append, List.length_singleton]
    omega

/-- The server closes the connection at `quit`. It answers every other text with the text,
    and stops after `stop`. -/
theorem process_connection_eq (hrequests : s.requests = (t ++ [0]) :: rest) (ht : Chunk t)
    (hclient : s.client.Here) :
    ∃ buf accesses, process_connection s = some { s with
        buf
        requests := rest
        replies := if Command QUIT t then s.replies else s.replies ++ [t ++ [0]]
        server := if Command QUIT t then .closed else if Command STOP t then .stopping else .serving
        accesses := s.accesses ++ accesses } ∧
      ∀ a ∈ accesses, a.Inside := by
  have hlength := ht.length
  have hroom : LINE_LEN + 4 < BUFSIZE := by decide
  have hcount : (t ++ [0]).length = t.length + 1 := by rw [List.length_append, List.length_singleton]
  have hsize : (t ++ [0]).length < BUFSIZE := by omega
  have hload : (received s.buf (t ++ [0])).load 0 (t.length + 1) = t ++ [0] := by
    rw [← hcount, async.load_received]
  have hstring : (received s.buf (t ++ [0])).string 0 (BUFSIZE + 1) = t := by
    exact Memory.string_of_load ht.zero_free hload (by omega)
  have hcommand : ∀ word : List UInt8, word.length = 4 → 0 ∉ word →
      (is_command (received s.buf (t ++ [0])) word = true ↔ Command word t) := by
    intro word hfour hword
    rw [async.is_command_received_iff _ hfour hword, async.command_concat_zero_iff hfour hword]
  unfold process_connection
  rw [hrequests, read_cons (Nat.le_of_lt hsize)]
  simp only [Option.bind_eq_bind, Option.bind_some, strlen, hstring, hload, hcommand QUIT rfl (by decide),
    hcommand STOP rfl (by decide), hclient, if_true]
  rw [if_neg (by omega)]
  by_cases hquit : Command QUIT t
  · rw [if_pos (.inr hquit)]
    simp only [hquit, if_true]
    refine ⟨_, _, rfl, ?_⟩
    intro a ha
    simp only [List.mem_cons, List.not_mem_nil, or_false] at ha
    obtain rfl | rfl | rfl | rfl | rfl := ha
    all_goals
      simp only [Access.Inside, Buffer.size]
      omega
  · rw [if_neg (by simp [hquit]; omega)]
    simp only [hquit, if_false, List.append_assoc]
    refine ⟨_, _, rfl, ?_⟩
    intro a ha
    simp only [List.mem_append, List.mem_cons, List.not_mem_nil, or_false] at ha
    obtain (rfl | rfl | rfl | rfl | rfl) | rfl := ha
    all_goals
      simp only [Access.Inside, Buffer.size]
      omega

/-- When the client is gone, with everything read, the server closes the connection. -/
theorem process_connection_end (hrequests : s.requests = []) (hreplies : s.replies = [])
    (hclient : ¬ s.client.Here) :
    ∃ buf accesses, process_connection s = some { s with
        buf
        server := .closed
        accesses := s.accesses ++ accesses } ∧
      ∀ a ∈ accesses, a.Inside := by
  have hzero : strlen (received s.buf []) 0 (BUFSIZE + 1) = 0 := by
    rw [strlen, async.string_received _ (by decide)]
    rfl
  have hread : read BUFSIZE s.client.Here (s.replies ≠ []) s.requests = some (0, [], s.requests) := by
    simp [read, hrequests, hreplies, hclient]
  unfold process_connection
  rw [hread]
  simp only [Option.bind_eq_bind, Option.bind_some, hzero]
  rw [if_neg (by decide), if_pos (by simp)]
  refine ⟨_, _, rfl, ?_⟩
  intro a ha
  simp only [List.mem_cons, List.not_mem_nil, or_false] at ha
  obtain rfl | rfl | rfl | rfl | rfl := ha
  all_goals
    simp only [Access.Inside, Buffer.size]
    decide

/-- When the connection is closed, with everything read, the client ends. -/
theorem receive_end (hrequests : s.requests = []) (hreplies : s.replies = []) (hserver : ¬ s.server.Here) :
    ∃ data accesses, receive s = some { s with
        data
        client := .ended
        accesses := s.accesses ++ accesses } ∧
      ∀ a ∈ accesses, a.Inside := by
  have hread : read LINE_LEN s.server.Here (s.requests ≠ []) s.replies = some (0, [], s.replies) := by
    simp [read, hrequests, hreplies, hserver]
  unfold receive
  rw [hread]
  simp only [Option.bind_eq_bind, Option.bind_some]
  rw [if_pos (by decide), if_neg (by decide)]
  refine ⟨_, _, rfl, ?_⟩
  intro a ha
  obtain rfl := List.mem_singleton.1 ha
  simp only [Access.Inside, Buffer.size]
  decide

/-- When the server has gone without reading everything, the client's `read` fails and it
    stores far outside `data`. -/
theorem receive_reset (hrequests : s.requests ≠ []) (hreplies : s.replies = []) (hserver : ¬ s.server.Here) :
    ∃ s' a, receive s = some s' ∧ a ∈ s'.accesses ∧ ¬ a.Inside := by
  have hread : read LINE_LEN s.server.Here (s.requests ≠ []) s.replies = some (-1, [], []) := by
    simp [read, hrequests, hreplies, hserver]
  unfold receive
  rw [hread]
  simp only [Option.bind_eq_bind, Option.bind_some]
  rw [if_neg (by decide)]
  refine ⟨_, ⟨.data, size_t (-1), 1⟩, rfl, by simp, ?_⟩
  simp only [Access.Inside, Buffer.size]
  decide

end oslabs.uds
