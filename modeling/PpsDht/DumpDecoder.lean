import PpsDht.Dump

/-! The loop of `dump-node.c` on datagrams of any bytes. The byte kept free behind the
datagram ends the string that reaches it, but nothing ends the loop there: with more
pairs announced the next string is looked for behind the buffer. -/
namespace PpsDht

open CLib Loop

/-- One datagram: the pairs printed and what is announced from then on; none when a
string is looked for behind the buffer. -/
def printDatagram (nbKv totalKv : Nat) (payload : List UInt8) : Option (List KvPair × Nat) :=
  (readHeader (receiveResponse payload) nbKv totalKv).bind fun (totalKv, index) =>
    (printLoop (receiveResponse payload) (totalKv - nbKv) index).map fun printed =>
      (printed, totalKv)

theorem receiveDump_cons (nbKv totalKv : Nat) (payload : List UInt8)
    (payloads : List (List UInt8)) :
    receiveDump nbKv totalKv (payload :: payloads) =
      (printDatagram nbKv totalKv payload).bind fun (printed, totalKv) =>
        (receiveDump (nbKv + printed.length) totalKv payloads).map (printed ++ ·) := by
  rw [receiveDump, printDatagram]
  cases readHeader (receiveResponse payload) nbKv totalKv with
  | none => rfl
  | some header =>
    obtain ⟨total, index⟩ := header
    dsimp only [Option.bind_some]
    cases printLoop (receiveResponse payload) (total - nbKv) index <;> rfl

def announced : Nat → Nat → List (List UInt8) → Nat
  | _, totalKv, [] => totalKv
  | nbKv, totalKv, payload :: payloads =>
    match printDatagram nbKv totalKv payload with
    | none => totalKv
    | some (printed, totalKv) => announced (nbKv + printed.length) totalKv payloads

/-- Every string is read inside the buffer, and no more pairs are printed than announced. -/
def DecodesSafely (payloads : List (List UInt8)) : Prop :=
  ∃ printed, receiveDump 0 0 payloads = some printed ∧ printed.length ≤ announced 0 0 payloads

/-! Where the strings of a buffer run out. -/

/-- The bytes are fewer pairs with a key than announced, possibly with another key behind. -/
def CutShort (announced : Nat) (bytes : List UInt8) : Prop :=
  ∃ pairs : List KvPair, pairs.length < announced ∧ (∀ pair ∈ pairs, pair.key ≠ CString.empty) ∧
    (bytes = pairsBytes pairs ∨
      ∃ key, key ≠ CString.empty ∧ bytes = pairsBytes pairs ++ (key.bytes ++ [0]))

theorem pairsBytes_cons_append (pair : KvPair) (pairs : List KvPair) (rest : List UInt8) :
    pairsBytes (pair :: pairs) ++ rest =
      pair.key.bytes ++ 0 :: (pair.value.bytes ++ 0 :: (pairsBytes pairs ++ rest)) := by
  rw [pairsBytes_cons]
  simp

theorem cutShort_nil (n : Nat) : CutShort (n + 1) [] :=
  ⟨[], Nat.succ_pos n, by simp, .inl rfl⟩

theorem cutShort_key (n : Nat) {key : CString} (named : key ≠ CString.empty) :
    CutShort (n + 1) (key.bytes ++ [0]) :=
  ⟨[], Nat.succ_pos n, by simp, .inr ⟨key, named, rfl⟩⟩

theorem not_cutShort_empty (n : Nat) (rest : List UInt8) :
    ¬ CutShort n (CString.empty.bytes ++ 0 :: rest) := by
  rintro ⟨_ | ⟨pair, pairs⟩, _, named, whole | ⟨key, some, whole⟩⟩
  · simp [pairsBytes] at whole
  · exact some (CString.append_nul_inj.mp whole).1.symm
  · rw [pairsBytes_cons] at whole
    exact named pair List.mem_cons_self (CString.append_nul_inj.mp whole).1.symm
  · rw [pairsBytes_cons_append] at whole
    exact named pair List.mem_cons_self (CString.append_nul_inj.mp whole).1.symm

theorem cutShort_pair_iff (n : Nat) {key : CString} (named : key ≠ CString.empty) (value : CString)
    (rest : List UInt8) :
    CutShort (n + 1) (key.bytes ++ 0 :: (value.bytes ++ 0 :: rest)) ↔ CutShort n rest := by
  constructor
  · rintro ⟨_ | ⟨pair, pairs⟩, fewer, named', whole | ⟨last, some, whole⟩⟩
    · simp [pairsBytes] at whole
    · have tail := (CString.append_nul_inj.mp whole).2
      simp at tail
    · rw [pairsBytes_cons, CString.append_nul_inj, CString.append_nul_inj] at whole
      exact ⟨pairs, Nat.lt_of_succ_lt_succ fewer,
        fun p member => named' p (List.mem_cons_of_mem _ member), .inl whole.2.2⟩
    · rw [pairsBytes_cons_append, CString.append_nul_inj, CString.append_nul_inj] at whole
      exact ⟨pairs, Nat.lt_of_succ_lt_succ fewer,
        fun p member => named' p (List.mem_cons_of_mem _ member), .inr ⟨last, some, whole.2.2⟩⟩
  · rintro ⟨pairs, fewer, named', whole⟩
    refine ⟨⟨key, value⟩ :: pairs, Nat.succ_lt_succ fewer, ?_, ?_⟩
    · rw [List.forall_mem_cons]
      exact ⟨named, named'⟩
    · rcases whole with rfl | ⟨last, some, rfl⟩
      · exact .inl (pairsBytes_cons ⟨key, value⟩ pairs).symm
      · exact .inr ⟨last, some, (pairsBytes_cons_append ⟨key, value⟩ pairs _).symm⟩

theorem memory_drop_string {capacity : Nat} {b : Buffer capacity} {i : Nat} {s : CString}
    (read : b.string i = some s) :
    b.memory.drop i = s.bytes ++ 0 :: b.memory.drop (i + s.strlen + 1) := by
  obtain ⟨rest, whole⟩ := (b.string_eq_some_iff_drop i s).mp read
  rw [whole, (drop_string whole).1]

/-- The inner loop leaves the buffer exactly when the bytes are cut short. -/
theorem printLoop_eq_none_iff (response : Buffer (maxMsgSize + 1))
    (room : response.written.length < maxMsgSize + 1) (remaining index : Nat) :
    printLoop response remaining index = none ↔
      CutShort remaining (response.memory.drop index) := by
  induction remaining generalizing index with
  | zero => exact iff_of_false (by simp [printLoop]) fun ⟨_, fewer, _⟩ => absurd fewer (Nat.not_lt_zero _)
  | succ remaining ih =>
    cases read : response.string index with
    | none =>
      rw [(response.string_eq_none_iff_of_room room index).mp read]
      exact iff_of_true (by simp only [printLoop, read]) (cutShort_nil remaining)
    | some key =>
      rw [memory_drop_string read]
      by_cases empty : key.strlen = 0
      · obtain rfl := CString.strlen_eq_zero_iff.mp empty
        exact iff_of_false (by simp only [printLoop, read, empty, ↓reduceIte, reduceCtorEq, not_false_eq_true])
          (not_cutShort_empty _ _)
      · have named : key ≠ CString.empty := CString.strlen_eq_zero_iff.not.mp empty
        cases read' : response.string (index + key.strlen + 1) with
        | none =>
          rw [(response.string_eq_none_iff_of_room room _).mp read']
          exact iff_of_true (by simp only [printLoop, read, empty, ↓reduceIte, read'])
            (cutShort_key remaining named)
        | some value =>
          rw [memory_drop_string read', cutShort_pair_iff remaining named, ← ih]
          simp only [printLoop, read, empty, ↓reduceIte, read', Option.map_eq_none_iff]

/-! Datagrams and runs. -/

/-- In the state with these counters the datagram's bytes behind the count are cut short. -/
def RunsOut (nbKv totalKv : Nat) (payload : List UInt8) : Prop :=
  ∃ total index, readHeader (receiveResponse payload) nbKv totalKv = some (total, index) ∧
    CutShort (total - nbKv) ((receiveResponse payload).memory.drop index)

/-- No datagram runs out in the state it arrives in. -/
def NeverRunsOut : Nat → Nat → List (List UInt8) → Prop
  | _, _, [] => True
  | nbKv, totalKv, payload :: payloads =>
    ¬ RunsOut nbKv totalKv payload ∧
      ∀ printed total, printDatagram nbKv totalKv payload = some (printed, total) →
        NeverRunsOut (nbKv + printed.length) total payloads

theorem receiveResponse_room (payload : List UInt8) :
    (receiveResponse payload).written.length < maxMsgSize + 1 := by
  have short := List.length_take_le maxMsgSize payload
  exact Nat.lt_succ_of_le short

theorem readHeader_ne_none (payload : List UInt8) (nbKv totalKv : Nat) :
    readHeader (receiveResponse payload) nbKv totalKv ≠ none := by
  have first : (receiveResponse payload).string 0 ≠ none := by
    rw [ne_eq, Buffer.string_eq_none_iff_of_room _ (receiveResponse_room payload), List.drop_zero]
    intro empty
    have lengths := congrArg List.length empty
    simp at lengths
  rw [readHeader]
  split
  · simpa using first
  · simp

theorem printDatagram_eq_none_iff (nbKv totalKv : Nat) (payload : List UInt8) :
    printDatagram nbKv totalKv payload = none ↔ RunsOut nbKv totalKv payload := by
  obtain ⟨⟨total, index⟩, header⟩ :=
    Option.ne_none_iff_exists'.mp (readHeader_ne_none payload nbKv totalKv)
  simp only [printDatagram, header, Option.bind_some, Option.map_eq_none_iff,
    printLoop_eq_none_iff _ (receiveResponse_room payload), RunsOut, Option.some.injEq,
    Prod.mk.injEq]
  constructor
  · intro short
    exact ⟨total, index, ⟨rfl, rfl⟩, short⟩
  · rintro ⟨_, _, ⟨rfl, rfl⟩, short⟩
    exact short

theorem receiveDump_eq_none_iff (nbKv totalKv : Nat) (payloads : List (List UInt8)) :
    receiveDump nbKv totalKv payloads ≠ none ↔ NeverRunsOut nbKv totalKv payloads := by
  induction payloads generalizing nbKv totalKv with
  | nil => simp [receiveDump, NeverRunsOut]
  | cons payload payloads ih =>
    rw [receiveDump_cons, NeverRunsOut, ← printDatagram_eq_none_iff]
    cases printDatagram nbKv totalKv payload with
    | none => simp
    | some result =>
      obtain ⟨printed, total⟩ := result
      simp only [Option.bind_some, ne_eq, Option.map_eq_none_iff, reduceCtorEq, not_false_eq_true,
        true_and, Option.some.injEq, Prod.mk.injEq]
      rw [← ne_eq, ih]
      exact ⟨by rintro safe _ _ ⟨rfl, rfl⟩; exact safe, fun safe => safe printed total ⟨rfl, rfl⟩⟩

theorem printLoop_length {response : Buffer (maxMsgSize + 1)} {remaining index : Nat}
    {printed : List KvPair} (ended : printLoop response remaining index = some printed) :
    printed.length ≤ remaining := by
  induction remaining generalizing index printed with
  | zero =>
    obtain rfl := Option.some.inj ended
    exact Nat.le_refl 0
  | succ remaining ih =>
    rw [printLoop] at ended
    split at ended
    · contradiction
    · split at ended
      · obtain rfl := Option.some.inj ended
        exact Nat.zero_le _
      · split at ended
        · contradiction
        · obtain ⟨rest, loop, rfl⟩ := Option.map_eq_some_iff.mp ended
          exact Nat.succ_le_succ (ih loop)

theorem printDatagram_le {nbKv totalKv total : Nat} {payload : List UInt8} {printed : List KvPair}
    (below : nbKv ≤ totalKv) (ended : printDatagram nbKv totalKv payload = some (printed, total)) :
    nbKv + printed.length ≤ total := by
  simp only [printDatagram, Option.bind_eq_some_iff, Option.map_eq_some_iff] at ended
  obtain ⟨⟨total', index⟩, header, printed', loop, same⟩ := ended
  obtain ⟨rfl, rfl⟩ := Prod.mk.inj same
  have few := printLoop_length loop
  rw [readHeader] at header
  split at header
  next start => omega
  next =>
    obtain ⟨rfl, _⟩ := Prod.mk.inj (Option.some.inj header)
    omega

theorem receiveDump_le {nbKv totalKv : Nat} {payloads : List (List UInt8)} {printed : List KvPair}
    (below : nbKv ≤ totalKv) (ended : receiveDump nbKv totalKv payloads = some printed) :
    nbKv + printed.length ≤ announced nbKv totalKv payloads := by
  induction payloads generalizing nbKv totalKv printed with
  | nil =>
    obtain rfl := Option.some.inj ended
    exact below
  | cons payload payloads ih =>
    rw [receiveDump_cons, Option.bind_eq_some_iff] at ended
    obtain ⟨⟨now, total⟩, first, later⟩ := ended
    obtain ⟨rest, run, rfl⟩ := Option.map_eq_some_iff.mp later
    have bound := ih (printDatagram_le below first) run
    simp only [announced, first, List.length_append]
    omega

/-- A run of the decoder is safe exactly when no datagram runs out in its state. -/
theorem dump_decoder_safe_iff (payloads : List (List UInt8)) :
    DecodesSafely payloads ↔ NeverRunsOut 0 0 payloads := by
  rw [← receiveDump_eq_none_iff]
  constructor
  · rintro ⟨printed, ended, _⟩
    simp [ended]
  · intro safe
    obtain ⟨printed, ended⟩ := Option.ne_none_iff_exists'.mp safe
    have few := receiveDump_le (Nat.le_refl 0) ended
    exact ⟨printed, ended, by omega⟩

/-- One full datagram that announces a pair and is a key to its last byte: the value is
looked for behind the buffer. -/
theorem dump_decoder_leaves_buffer :
    ¬ ∀ payloads : List (List UInt8), (∀ payload ∈ payloads, payload.length ≤ maxMsgSize) →
      DecodesSafely payloads := by
  intro safe
  obtain ⟨key, long⟩ := CString.exists_strlen 65505
  have max : maxMsgSize = 65507 := rfl
  have lengths : ([49, 0] ++ key.bytes).length = maxMsgSize := by
    rw [List.length_append, ← CString.strlen, long]
    rfl
  have written := written_receiveResponse lengths.le
  have memory : (receiveResponse ([49, 0] ++ key.bytes)).memory = [49, 0] ++ (key.bytes ++ [0]) := by
    rw [Buffer.memory, written, lengths, Nat.add_sub_cancel_left, List.append_assoc]
    rfl
  have count : (receiveResponse ([49, 0] ++ key.bytes)).string 0 =
      some (CString.ofMemory [49]) :=
    (Buffer.string_eq_some_iff_drop _ 0 _).mpr ⟨key.bytes ++ [0], memory⟩
  have header : readHeader (receiveResponse ([49, 0] ++ key.bytes)) 0 0 = some (1, 2) := by
    simp only [readHeader, ↓reduceIte, count]
    decide
  have named : key ≠ CString.empty := CString.strlen_eq_zero_iff.not.mp (by omega)
  have out : RunsOut 0 0 ([49, 0] ++ key.bytes) := by
    refine ⟨1, 2, header, ?_⟩
    rw [memory]
    exact cutShort_key 0 named
  obtain ⟨printed, ended, _⟩ := safe [[49, 0] ++ key.bytes] (by simpa using lengths.le)
  rw [receiveDump_cons, (printDatagram_eq_none_iff 0 0 _).mpr out] at ended
  contradiction

end PpsDht
