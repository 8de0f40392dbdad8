import PpsDht.Server
import Mathlib.Data.List.Count

/-! The strings of a request in the receive buffer. The server hands on pointers into
`in_msg` and leaves it to the zeroes behind the datagram to end them, of which there are
none when a datagram fills the buffer. -/
namespace PpsDht

open CLib

/-- Where the strings start that the server passes to its table. -/
def passedStrings (payload : List UInt8) : List Nat :=
  let inMsg := Buffer.receive maxMsgSize payload
  if inMsg.written.length = 0 then []
  else if inMsg.written.length = 1 ∧ strncmp 1 [0] inMsg.written = 0 then []
  else if (0 : UInt8) ∈ inMsg.written then [0, (CString.ofMemory inMsg.written).strlen + 1]
  else [0]

/-- The string starts in the receive buffer and is ended by a NUL inside it. -/
def StringInside (payload : List UInt8) (start : Nat) : Prop :=
  ∃ stop, start ≤ stop ∧ (Buffer.receive maxMsgSize payload).byte stop = some 0

theorem stringInside_iff_mem (payload : List UInt8) (start : Nat) :
    StringInside payload start ↔ (0 : UInt8) ∈ (Buffer.receive maxMsgSize payload).memory.drop start := by
  simp only [StringInside, Buffer.byte_eq_memory, List.mem_iff_getElem?, List.getElem?_drop]
  constructor
  · rintro ⟨stop, after, here⟩
    exact ⟨stop - start, by rwa [Nat.add_sub_cancel' after]⟩
  · rintro ⟨offset, here⟩
    exact ⟨start + offset, Nat.le_add_right .., here⟩

theorem stringInside_iff_string (payload : List UInt8) (start : Nat) :
    StringInside payload start ↔ (Buffer.receive maxMsgSize payload).string start ≠ none := by
  rw [stringInside_iff_mem, ne_eq, Buffer.string_eq_none_iff, not_not]

theorem receiveRequest_ne_none_iff (payload : List UInt8) :
    receiveRequest payload ≠ none ↔ ∀ start ∈ passedStrings payload, StringInside payload start := by
  simp only [receiveRequest, passedStrings, stringInside_iff_string]
  split
  · simp
  split
  · simp
  split
  · cases read : (Buffer.receive maxMsgSize payload).string 0 with
    | none => simp [read]
    | some key =>
      have same : CString.ofMemory (Buffer.receive maxMsgSize payload).written = key := by
        simp only [Buffer.string, List.drop_zero] at read
        split at read
        · exact Option.some.inj read
        · contradiction
      simp [read, same]
  · simp

/-- Behind its first NUL a datagram is followed by zeroes up to the end of the buffer. -/
theorem memory_drop_strlen {payload rest : List UInt8} {key : CString}
    (fits : payload.length ≤ maxMsgSize) (split : payload = key.bytes ++ 0 :: rest) :
    (Buffer.receive maxMsgSize payload).memory.drop (key.strlen + 1) =
      rest ++ List.replicate (maxMsgSize - payload.length) 0 := by
  have written := Buffer.written_receive payload fits
  have whole : (Buffer.receive maxMsgSize payload).memory =
      (key.bytes ++ [0]) ++ (rest ++ List.replicate (maxMsgSize - payload.length) 0) := by
    rw [Buffer.memory, written]
    generalize maxMsgSize - payload.length = free
    simp [split]
  rw [whole]
  exact List.drop_left' (by simp [CString.strlen])

/-- The strings of a datagram are inside the buffer exactly when it leaves a byte of the
buffer free or holds two NULs. -/
theorem request_strings_inside_iff {payload : List UInt8} (fits : payload.length ≤ maxMsgSize) :
    (∀ start ∈ passedStrings payload, StringInside payload start) ↔
      payload.length < maxMsgSize ∨ 2 ≤ payload.count 0 := by
  have written := Buffer.written_receive payload fits
  have zeroes (n : Nat) : (0 : UInt8) ∈ List.replicate n 0 ↔ 0 < n := by
    simp [List.mem_replicate, Nat.pos_iff_ne_zero]
  have large : maxMsgSize = 65507 := rfl
  simp only [passedStrings, written]
  split
  next empty => simp [empty, large]
  split
  next lone => simp [lone.1, large]
  split
  next nul =>
    obtain ⟨front, rest, split, first⟩ := List.eq_append_cons_of_mem nul
    have key : CString.ofMemory payload = ⟨front, first⟩ := by
      rw [split]
      exact CString.ofMemory_terminated ⟨front, first⟩ rest
    have value := @memory_drop_strlen payload rest ⟨front, first⟩ fits split
    have count : payload.count 0 = rest.count 0 + 1 := by
      rw [split, List.count_append, List.count_cons_self, List.count_eq_zero.mpr first, Nat.zero_add]
    have start : (0 : UInt8) ∈ (Buffer.receive maxMsgSize payload).memory.drop 0 := by
      rw [List.drop_zero, Buffer.memory, written]
      exact List.mem_append_left _ nul
    simp only [List.forall_mem_cons, List.not_mem_nil, false_imp_iff, implies_true, and_true, start,
      true_and, key, stringInside_iff_mem, value, List.mem_append, zeroes, count]
    rw [← List.count_pos_iff]
    omega
  next none =>
    have count : payload.count 0 = 0 := List.count_eq_zero.mpr none
    simp only [List.forall_mem_singleton, stringInside_iff_mem, List.drop_zero, Buffer.memory,
      written, List.mem_append, none, false_or, zeroes, count]
    omega

theorem request_strings_inside_short : StringInside [107, 0, 118] 2 :=
  (request_strings_inside_iff (by decide)).mpr (.inl (by decide)) 2 (by decide)

/-- The longest key with the longest value fills the buffer, and no NUL ends the value. -/
theorem longest_put_is_unterminated :
    ¬ ∀ payload : List UInt8, payload.length ≤ maxMsgSize →
      ∀ start ∈ passedStrings payload, StringInside payload start := by
  intro inside
  have max : maxMsgSize = 65507 := rfl
  have elem : maxMsgElemSize = 32753 := rfl
  obtain ⟨s, long⟩ := CString.exists_strlen 32753
  have some : s ≠ CString.empty := CString.strlen_eq_zero_iff.not.mp (by omega)
  have within : (putMessage s s).length ≤ maxMsgSize := by
    rw [length_putMessage]
    omega
  have handled := receiveRequest_putMessage (show s.strlen ≤ maxMsgElemSize by omega)
    (show s.strlen ≤ maxMsgElemSize by omega)
  have full : ¬ s.strlen + s.strlen + 1 < maxMsgSize := by omega
  rw [if_neg (fun empty => some empty.1), if_neg full] at handled
  exact (receiveRequest_ne_none_iff _).mpr (inside _ within) handled

end PpsDht
