import PpsDht.KvList
import PpsDht.Network
import PpsDht.Lib.Decimal

/-! The server's receive loop and its answers: `launch-server.c`. Four kinds of request
share one byte format; the loop tells them apart by length and by the presence of a NUL.
A string that runs past the receive buffer, or a copy past the dump buffer, is a fault. -/
namespace PpsDht

open CLib Loop

inductive Request where
  | alive
  | dump
  | write (key value : CString)
  | get (key : CString)
  deriving DecidableEq

/-- How the loop reads a datagram; none when a string does not end inside `in_msg`. -/
def receiveRequest (payload : List UInt8) : Option Request :=
  let inMsg := Buffer.receive maxMsgSize payload
  if inMsg.written.length = 0 then some .alive
  else if inMsg.written.length = 1 ∧ strncmp 1 [0] inMsg.written = 0 then some .dump
  else if (0 : UInt8) ∈ inMsg.written then
    (inMsg.string 0).bind fun key => (inMsg.string (key.strlen + 1)).map (.write key)
  else (inMsg.string 0).map .get

/-- The datagrams sent back. The answer for an unknown key points to no memory, so that
`sendto` fails. -/
def serveGetRequest (t : Htable) (key : CString) (a : Alloc) : List (List UInt8) :=
  match getHtableValue t key a with
  | (some value, _) => [value.bytes]
  | (none, _) => []

def serveWriteRequest (t : Htable) (key value : CString) (a : Alloc) :
    Htable × List (List UInt8) :=
  match addHtableValue t key value a with
  | (.none, t, _) => (t, [[]])
  | (_, t, _) => (t, [])

/-- `strncpy(msg + index, s, strlen(s)); index += strlen(s) + 1` in a zeroed buffer, of
which the first `index` bytes are kept; none when bytes are copied past its end. -/
def putString (msg : List UInt8) (s : CString) : Option (List UInt8) :=
  if s.strlen = 0 ∨ msg.length + s.strlen ≤ maxMsgSize then some (msg ++ s.bytes ++ [0]) else none

def putPair (msg : List UInt8) (current : KvPair) : Option (List UInt8) :=
  (putString msg current.key).bind fun msg => putString msg current.value

def pairLength (pair : KvPair) : Nat := pair.key.strlen + pair.value.strlen + 2

/-- `size_t` subtraction. -/
def sizeSub (a b : Nat) : Nat := (a + 2 ^ 64 - b) % 2 ^ 64

/-- The inner loop of `serve_dump_node`: one message and the pairs left for later ones. -/
def fillMessage (msg : List UInt8) (current : KvPair) :
    List KvPair → Outcome (List UInt8 × List KvPair)
  | [] =>
    match putPair msg current with
    | none => .fault
    | some msg => .done (msg, [])
  | next :: rest =>
    match putPair msg current with
    | none => .fault
    | some msg =>
      if pairLength next < sizeSub maxMsgSize msg.length then fillMessage msg next rest
      else .done (msg, next :: rest)

structure DumpState where
  msg : List UInt8
  pairs : List KvPair
  sent : List (List UInt8)

def dumpStep (s : DumpState) : Step DumpState (List (List UInt8)) :=
  match s.pairs with
  | [] => .done s.sent
  | current :: rest =>
    match fillMessage s.msg current rest with
    | .done (msg, left) =>
      if maxMsgSize < msg.length then .fault else .next ⟨[], left, s.sent ++ [msg]⟩
    | _ => .fault

/-- `sprintf(msg, "%zu", list->size)` and its NUL. -/
def dumpHeader (size : Nat) : List UInt8 := Decimal.print size ++ [0]

def serveDumpNode (fuel : Nat) (t : Htable) (a : Alloc) : Outcome (ErrorCode × List (List UInt8)) :=
  (getHtableContent fuel t a).bind fun
    | (none, _) => .done (.nomem, [])
    | (some list, _) =>
      (iterate dumpStep fuel ⟨dumpHeader list.size, list.elems, []⟩).bind fun sent =>
        .done (.none, sent)

/-- One turn of the receive loop: the new table and what is sent back to the client. -/
def serve (fuel : Nat) (t : Htable) (payload : List UInt8) (a : Alloc) :
    Outcome (Htable × List (List UInt8)) :=
  match receiveRequest payload with
  | none => .fault
  | some .alive => .done (t, [[]])
  | some .dump => (serveDumpNode fuel t a).bind fun (_, sent) => .done (t, sent)
  | some (.write key value) => .done (serveWriteRequest t key value a)
  | some (.get key) => .done (t, serveGetRequest t key a)

/-! The wire format. -/

/-- The liveness request of `pps-list-nodes`. -/
def listNodesMessage : List UInt8 := []

/-- The dump request of `pps-dump-node`. -/
def dumpNodeMessage : List UInt8 := [0]

theorem lone_nul_iff (written : List UInt8) :
    (written.length = 1 ∧ strncmp 1 [0] written = 0) ↔ written = [0] := by
  rcases written with _ | ⟨byte, _ | ⟨next, rest⟩⟩
  · simp
  · have same : strncmp 1 [0] [byte] = 0 ↔ byte = 0 := by
      rw [strncmp_eq_zero_iff_cut, cut_cons, cut_cons]
      by_cases zero : byte = 0 <;> simp [zero]
    simp [same]
  · simp

theorem length_putMessage (key value : CString) :
    (putMessage key value).length = key.strlen + value.strlen + 1 := by
  simp only [putMessage, List.length_append, List.length_cons, CString.strlen, Nat.add_assoc]

theorem receiveRequest_getMessage {key : CString} (short : key.strlen ≤ maxMsgElemSize) :
    receiveRequest (getMessage key) =
      if key = CString.empty then some .alive else some (.get key) := by
  have below : key.strlen < maxMsgSize := by
    rw [maxMsgSize]
    omega
  have written : (Buffer.receive maxMsgSize key.bytes).written = key.bytes :=
    Buffer.written_receive _ below.le
  have read : (Buffer.receive maxMsgSize key.bytes).string 0 = some key := by
    apply Buffer.string_of_last
    · exact written
    · rwa [Nat.zero_add]
  have empty : key.bytes.length = 0 ↔ key = CString.empty := CString.strlen_eq_zero_iff
  have notDump : key.bytes ≠ [0] := fun lone => key.nulFree (lone ▸ List.mem_singleton_self 0)
  simp only [receiveRequest, getMessage, written, empty, lone_nul_iff, notDump, key.nulFree, read,
    ↓reduceIte, Option.map_some]

/-- What a write request is taken for; none when the value fills the buffer to its end. -/
theorem receiveRequest_putMessage {key value : CString} (short : key.strlen ≤ maxMsgElemSize)
    (short' : value.strlen ≤ maxMsgElemSize) :
    receiveRequest (putMessage key value) =
      if key = CString.empty ∧ value = CString.empty then some .dump
      else if key.strlen + value.strlen + 1 < maxMsgSize then some (.write key value) else none := by
  have length := length_putMessage key value
  have fits : (putMessage key value).length ≤ maxMsgSize := by
    rw [length, maxMsgSize]
    omega
  set inMsg := Buffer.receive maxMsgSize (putMessage key value) with inMsg_eq
  have written : inMsg.written = putMessage key value := Buffer.written_receive _ fits
  have readKey : inMsg.string 0 = some key :=
    Buffer.string_of_terminated inMsg 0 key value.bytes (by rw [written, List.drop_zero, putMessage])
  have behind : inMsg.written.drop (key.strlen + 1) = value.bytes := by
    have split : putMessage key value = (key.bytes ++ [0]) ++ value.bytes := by simp [putMessage]
    rw [written, split]
    exact List.drop_left' (by simp [CString.strlen])
  have readValue : inMsg.string (key.strlen + 1) =
      if key.strlen + value.strlen + 1 < maxMsgSize then some value else none := by
    have order : key.strlen + 1 + value.strlen = key.strlen + value.strlen + 1 := by omega
    simp only [Buffer.string, behind, CString.ofMemory_bytes, order]
  have lone : putMessage key value = [0] ↔ key = CString.empty ∧ value = CString.empty := by
    rw [putMessage, ← CString.bytes_eq_nil_iff, ← CString.bytes_eq_nil_iff]
    cases key.bytes <;> simp
  have nul : (0 : UInt8) ∈ putMessage key value := by simp [putMessage]
  have some : (putMessage key value).length ≠ 0 := by omega
  simp only [receiveRequest, ← inMsg_eq, written, some, lone_nul_iff, lone, nul, readKey,
    Option.bind_some, readValue, ↓reduceIte]
  congr 1
  split <;> rfl

/-- The server handles the datagram as this request, and it is no other client's. -/
structure Understood (payload : List UInt8) (request : Request) : Prop where
  handled : receiveRequest payload = some request
  notLiveness : payload ≠ listNodesMessage
  notDump : payload ≠ dumpNodeMessage

/-- A read request is understood for every key but the empty one. A write request is
understood unless key and value are both empty or both of the greatest length. -/
theorem wire_format_understood_iff {key value : CString} (short : key.strlen ≤ maxMsgElemSize)
    (short' : value.strlen ≤ maxMsgElemSize) :
    (Understood (getMessage key) (.get key) ↔ key ≠ CString.empty) ∧
    (Understood (putMessage key value) (.write key value) ↔
      ¬ (key = CString.empty ∧ value = CString.empty) ∧
        ¬ (key.strlen = maxMsgElemSize ∧ value.strlen = maxMsgElemSize)) := by
  have read := receiveRequest_getMessage short
  have write := receiveRequest_putMessage short short'
  have full : key.strlen + value.strlen + 1 < maxMsgSize ↔
      ¬ (key.strlen = maxMsgElemSize ∧ value.strlen = maxMsgElemSize) := by
    rw [maxMsgSize]
    omega
  refine ⟨⟨fun understood empty => ?_, fun named => ?_⟩, ⟨fun understood => ?_, ?_⟩⟩
  · exact understood.notLiveness (by rw [empty]; rfl)
  · rw [if_neg named] at read
    refine ⟨read, fun empty => named (CString.bytes_eq_nil_iff.mp empty), fun lone => ?_⟩
    have whole : key.bytes = [0] := lone
    exact key.nulFree (whole ▸ List.mem_singleton_self 0)
  · have handled := understood.handled
    rw [write] at handled
    refine ⟨fun empty => by simp [empty] at handled, fun long => ?_⟩
    have beyond : ¬ key.strlen + value.strlen + 1 < maxMsgSize := full.not.mpr (not_not.mpr long)
    simp only [beyond, ↓reduceIte] at handled
    split at handled <;> simp at handled
  · rintro ⟨some, room⟩
    rw [if_neg some, if_pos (full.mpr room)] at write
    refine ⟨write, by simp [putMessage, listNodesMessage], fun lone => some ?_⟩
    rw [← CString.bytes_eq_nil_iff, ← CString.bytes_eq_nil_iff]
    rw [putMessage, dumpNodeMessage] at lone
    cases whole : key.bytes <;> simp_all

theorem wire_format_understood_short :
    Understood [107] (.get ⟨[107], by decide⟩) ∧
      Understood [107, 0] (.write ⟨[107], by decide⟩ CString.empty) := by
  have both := wire_format_understood_iff (show CString.strlen ⟨[107], by decide⟩ ≤ _ by decide)
    (show CString.empty.strlen ≤ _ by decide)
  exact ⟨both.1.mpr (by decide), both.2.mpr (by decide)⟩

/-- Reading the empty key sends the liveness request. -/
theorem empty_key_is_liveness_request :
    ¬ ∀ key value : CString, key.strlen ≤ maxMsgElemSize → value.strlen ≤ maxMsgElemSize →
      Understood (getMessage key) (.get key) ∧
        Understood (putMessage key value) (.write key value) := by
  intro understood
  have read := (understood CString.empty CString.empty (by decide) (by decide)).1
  exact read.notLiveness rfl

end PpsDht
