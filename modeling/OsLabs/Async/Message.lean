import OsLabs.Lib.CString

open oslabs.memory

namespace oslabs.async

def BUFSIZE : Nat := 1024

/-- `FOPEN_MAX` of the C library. -/
def FOPEN_MAX : Nat := 16

def MAX_CLIENTS : Nat := FOPEN_MAX

/-- What the servers find in `buf` when `read` has returned `data` and they have put
    a zero behind it. The memory goes on behind `buf`: a message of `BUFSIZE` bytes
    has its zero there, in a place that none of the other variables has here. -/
def received (buf : Memory) (data : List UInt8) : Memory :=
  (buf.store 0 data).store data.length [0]

/-- The words `quit` and `stop`. -/
def QUIT : List UInt8 := [113, 117, 105, 116]

def STOP : List UInt8 := [115, 116, 111, 112]

/-- Whether what is in `buf` starts with a word of four letters and then has something that
    is less than a space. A `char` is signed. The servers test for their commands so. -/
def is_command (buf : Memory) (word : List UInt8) : Bool :=
  strncmp buf 0 word 4 = 0 && (buf 4).toInt8 < 32

/-- A message that is a command: a word, alone or followed by a signed character that is
    less than a space. -/
def Command (word data : List UInt8) : Prop :=
  word <+: data ∧ ∀ c ∈ data[4]?, c.toInt8 < 32

instance (word data : List UInt8) : Decidable (Command word data) :=
  inferInstanceAs (Decidable (_ ∧ _))

/-- Whether a server closes the connection after the message it has in `buf`: at the
    end of the stream, or when it starts with `quit` and what comes next is less than
    a space. A `char` is signed. -/
def closing (buf : Memory) (len : Nat) : Bool :=
  len = 0 || (strncmp buf 0 [113, 117, 105, 116] 4 = 0 && (buf 4).toInt8 < 32)

/-- What the server uses of `buf` to find that out: some places from an index on. -/
def closing_uses (buf : Memory) (len : Nat) : List (Nat × Nat) :=
  if len = 0 then [] else (0, 4) :: if strncmp buf 0 [113, 117, 105, 116] 4 = 0 then [(4, 1)] else []

/-- Whether a client that has sent `data` is closed. -/
def closes (buf : Memory) (data : List UInt8) : Bool :=
  closing (received buf data) data.length

theorem received_of_lt (buf : Memory) {data : List UInt8} {i : Nat} (hi : i < data.length) :
    received buf data i = data[i] := by
  rw [received, Memory.store_of_outside _ (.inl hi)]
  simp [Memory.store, hi]

@[simp] theorem received_length (buf : Memory) (data : List UInt8) :
    received buf data data.length = 0 := by
  simp [received, Memory.store]

/-- The bytes the server writes back are the ones it has read. -/
theorem load_received (buf : Memory) (data : List UInt8) :
    (received buf data).load 0 data.length = data := by
  rw [received, Memory.load_store_of_disjoint _ (.inl (by simp))]
  exact Memory.load_store_self _ _ _

/-- As a string, `buf` holds the message up to its first zero. -/
theorem string_received (buf : Memory) {data : List UInt8} {size : Nat} (hsize : data.length < size) :
    (received buf data).string 0 size = data.takeWhile (· ≠ 0) := by
  obtain ⟨more, rfl⟩ : ∃ more, size = data.length + (1 + more) := ⟨size - (data.length + 1), by omega⟩
  have hzero : (received buf data).load (0 + data.length) 1 = [0] := by
    simp [Memory.load]
  rw [Memory.string, Memory.load_append, load_received, Memory.load_append, hzero, List.takeWhile_append]
  split
  · rename_i hall
    rw [(List.takeWhile_prefix _).eq_of_length hall]
    simp
  · rfl

/-- The first bytes of `buf` are those of the message. -/
theorem load_received_take (buf : Memory) {data : List UInt8} {n : Nat} (hn : n ≤ data.length) :
    (received buf data).load 0 n = data.take n := by
  obtain ⟨more, hmore⟩ := Nat.exists_eq_add_of_le hn
  have hload := load_received buf data
  rw [hmore, Memory.load_append] at hload
  calc (received buf data).load 0 n
      = ((received buf data).load 0 n ++ (received buf data).load (0 + n) more).take n := by
        rw [List.take_append_of_le_length (by simp), List.take_of_length_le (by simp)]
    _ = data.take n := by rw [hload]

/-- A message starts with a word when `strncmp` finds the word in `buf`. -/
theorem strncmp_received_iff (buf : Memory) {word data : List UInt8} (hlength : word.length = 4)
    (hword : 0 ∉ word) : strncmp (received buf data) 0 word 4 = 0 ↔ word <+: data := by
  have hstring : strncmp (received buf data) 0 word 4 = 0 ↔ (received buf data).load 0 4 = word := by
    rw [← hlength]
    exact strncmp_eq_zero_iff hword
  rw [hstring]
  obtain hshort | hlong := Nat.lt_or_ge data.length 4
  · have hzero : (0 : UInt8) ∈ (received buf data).load 0 4 :=
      List.mem_map.2 ⟨data.length, List.mem_range.2 hshort, by rw [Nat.zero_add, received_length]⟩
    apply iff_of_false
    · intro hload
      exact hword (hload ▸ hzero)
    · intro hleads
      have hle := hleads.length_le
      omega
  · rw [load_received_take buf hlong, List.prefix_iff_eq_take, hlength, eq_comm]

/-- Whether a message is a command depends on its bytes alone. -/
theorem is_command_received_iff (buf : Memory) {word data : List UInt8} (hlength : word.length = 4)
    (hword : 0 ∉ word) : is_command (received buf data) word = true ↔ Command word data := by
  unfold is_command Command
  rw [Bool.and_eq_true, decide_eq_true_iff, decide_eq_true_iff, strncmp_received_iff buf hlength hword]
  apply and_congr_right
  intro hleads
  have hlong : 4 ≤ data.length := hlength ▸ hleads.length_le
  obtain heq | hlt := Nat.eq_or_lt_of_le hlong
  · have hnext : received buf data 4 = 0 := heq ▸ received_length buf data
    simp [hnext, List.getElem?_eq_none (Nat.le_of_eq heq.symm)]
  · simp [received_of_lt buf hlt, List.getElem?_eq_getElem hlt]

/-- A zero at the end of a message does not count. -/
theorem command_concat_zero_iff {word data : List UInt8} (hlength : word.length = 4) (hword : 0 ∉ word) :
    Command word (data ++ [0]) ↔ Command word data := by
  have hleads : word <+: data ++ [0] ↔ word <+: data := by
    rw [List.prefix_concat_iff]
    refine or_iff_right fun heq => hword ?_
    rw [heq]
    exact List.mem_concat_self
  unfold Command
  rw [hleads]
  apply and_congr_right
  intro hdata
  have hle := hdata.length_le
  obtain heq | hlt := Nat.eq_or_lt_of_le (hlength ▸ hle)
  · have hlast : (data ++ [0])[4]? = some 0 := by
      rw [heq, List.getElem?_concat_length]
    simp [hlast, List.getElem?_eq_none (Nat.le_of_eq heq.symm)]
  · rw [List.getElem?_append_left hlt]

/-- Whether a client is closed depends on its message alone. -/
theorem closes_congr (buf buf' : Memory) (data : List UInt8) : closes buf data = closes buf' data := by
  have hcommand (m : Memory) : is_command (received m data) [113, 117, 105, 116] = true ↔
      Command [113, 117, 105, 116] data := is_command_received_iff m rfl (by decide)
  have hsame : is_command (received buf data) [113, 117, 105, 116] =
      is_command (received buf' data) [113, 117, 105, 116] := by
    rw [Bool.eq_iff_iff, hcommand, hcommand]
  unfold closes closing
  unfold is_command at hsame
  rw [hsame]

/-- What a server uses of `buf` for a message, each from an index on: `read`, the zero that
    is put behind the message, `printf`, `write`, and the test for `quit`. -/
def uses (buf : Memory) (data : List UInt8) : List (Nat × Nat) :=
  let len := data.length
  let buf := received buf data
  [(0, len), (len, 1), (0, strlen buf 0 (BUFSIZE + 1) + 1)] ++
    (if len > 0 then [(0, len)] else []) ++ closing_uses buf len

/-- This depends on the message alone, too. -/
theorem uses_congr (buf buf' : Memory) (data : List UInt8) : uses buf data = uses buf' data := by
  have hstring : (received buf data).string 0 (BUFSIZE + 1) = (received buf' data).string 0 (BUFSIZE + 1) := by
    obtain hshort | hlong := Nat.lt_or_ge data.length (BUFSIZE + 1)
    · rw [string_received buf hshort, string_received buf' hshort]
    · rw [Memory.string, Memory.string, load_received_take buf hlong, load_received_take buf' hlong]
  have hword (m : Memory) : strncmp (received m data) 0 [113, 117, 105, 116] 4 = 0 ↔
      [113, 117, 105, 116] <+: data := strncmp_received_iff m rfl (by decide)
  unfold uses closing_uses strlen
  simp only [hstring, hword]

/-- The zero behind a message is the only thing that may be outside `buf`. -/
theorem uses_inside_iff (buf : Memory) {data : List UInt8} :
    (∀ use ∈ uses buf data, use.1 + use.2 ≤ BUFSIZE) ↔ data.length < BUFSIZE := by
  constructor
  · intro h
    exact h (data.length, 1) (by simp [uses])
  · intro hshort use huse
    have hfive : 5 ≤ BUFSIZE := by decide
    have hstring : strlen (received buf data) 0 (BUFSIZE + 1) ≤ data.length := by
      rw [strlen, string_received buf (by omega)]
      exact (List.takeWhile_prefix _).length_le
    simp only [uses, closing_uses, List.mem_append, List.mem_cons, List.not_mem_nil, or_false] at huse
    obtain ((rfl | rfl | rfl) | hwrite) | htest := huse
    · omega
    · omega
    · omega
    · split at hwrite
      · obtain rfl := List.mem_singleton.1 hwrite
        omega
      · cases hwrite
    · split at htest
      · cases htest
      · obtain rfl | htest := List.mem_cons.1 htest
        · omega
        · split at htest
          · obtain rfl := List.mem_singleton.1 htest
            omega
          · cases htest

end oslabs.async
