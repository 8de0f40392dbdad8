import PpsDht.Server

/-! A dump read back: the messages of `serve_dump_node` against the loop of
`dump-node.c`, which finds the count in its first datagram and takes an empty string for
the end of a datagram. -/
namespace PpsDht

open CLib Loop

/-- The inner loop of `pps-dump-node`, with the pairs still announced; none when a
string runs past `response`. -/
def printLoop (response : Buffer (maxMsgSize + 1)) : Nat → Nat → Option (List KvPair)
  | 0, _ => some []
  | remaining + 1, index =>
    match response.string index with
    | none => none
    | some key =>
      if key.strlen = 0 then some []
      else
        match response.string (index + key.strlen + 1) with
        | none => none
        | some value =>
          (printLoop response remaining (index + key.strlen + 1 + value.strlen + 1)).map
            (⟨key, value⟩ :: ·)

/-- What is announced and where the pairs start. The count is looked for in every
datagram until a pair was printed. -/
def readHeader (response : Buffer (maxMsgSize + 1)) (nbKv totalKv : Nat) : Option (Nat × Nat) :=
  if nbKv = 0 then
    (response.string 0).map fun head =>
      match Decimal.scan head.bytes with
      | some total => (total.toNat, head.strlen + 1)
      | none => (totalKv, 0)
  else some (totalKv, 0)

/-- `recvfrom(s, response, MAX_MSG_SIZE, ...)`, with one zero byte left behind it. -/
def receiveResponse (payload : List UInt8) : Buffer (maxMsgSize + 1) :=
  ⟨payload.take maxMsgSize, by rw [List.length_take]; omega⟩

theorem written_receiveResponse {payload : List UInt8} (fits : payload.length ≤ maxMsgSize) :
    (receiveResponse payload).written = payload := List.take_of_length_le fits

/-- The pairs printed for the datagrams of the queried server, in order. -/
def receiveDump : Nat → Nat → List (List UInt8) → Option (List KvPair)
  | _, _, [] => some []
  | nbKv, totalKv, payload :: rest =>
    match readHeader (receiveResponse payload) nbKv totalKv with
    | none => none
    | some (totalKv, index) =>
      match printLoop (receiveResponse payload) (totalKv - nbKv) index with
      | none => none
      | some printed => (receiveDump (nbKv + printed.length) totalKv rest).map (printed ++ ·)

/-! Encoding. -/

def pairBytes (pair : KvPair) : List UInt8 := pair.key.bytes ++ 0 :: (pair.value.bytes ++ [0])

def pairsBytes (pairs : List KvPair) : List UInt8 := pairs.flatMap pairBytes

theorem length_pairBytes (pair : KvPair) : (pairBytes pair).length = pairLength pair := by
  simp only [pairBytes, pairLength, CString.strlen, List.length_append, List.length_cons,
    List.length_nil]
  omega

theorem pairsBytes_cons (pair : KvPair) (pairs : List KvPair) :
    pairsBytes (pair :: pairs) =
      pair.key.bytes ++ 0 :: (pair.value.bytes ++ 0 :: pairsBytes pairs) := by
  simp [pairsBytes, pairBytes]

theorem putPair_fits {msg : List UInt8} {pair : KvPair}
    (fits : msg.length + pairLength pair ≤ maxMsgSize) :
    putPair msg pair = some (msg ++ pairBytes pair) := by
  have first : msg.length + pair.key.strlen ≤ maxMsgSize := by
    rw [pairLength] at fits
    omega
  have second : (msg ++ pair.key.bytes ++ [0]).length + pair.value.strlen ≤ maxMsgSize := by
    simp only [List.length_append, List.length_singleton]
    rw [pairLength, CString.strlen] at fits
    omega
  simp only [putPair, putString, first, second, or_true, ↓reduceIte, Option.bind_some]
  simp [pairBytes]

theorem putPair_some {msg msg' : List UInt8} {pair : KvPair} (put : putPair msg pair = some msg') :
    msg'.length = msg.length + pairLength pair := by
  simp only [putPair, putString, Option.bind_eq_some_iff, Option.ite_none_right_eq_some,
    Option.some.injEq] at put
  obtain ⟨_, ⟨_, rfl⟩, _, rfl⟩ := put
  simp only [List.length_append, List.length_singleton, pairLength, CString.strlen]
  omega

/-- A first pair that fits makes a message within the buffer. -/
theorem fillMessage_fits {msg : List UInt8} {current : KvPair} (rest : List KvPair)
    (fits : msg.length + pairLength current ≤ maxMsgSize) :
    ∃ taken left, taken ≠ [] ∧ current :: rest = taken ++ left ∧
      (msg ++ pairsBytes taken).length ≤ maxMsgSize ∧
      fillMessage msg current rest = .done (msg ++ pairsBytes taken, left) := by
  have put := putPair_fits fits
  have length : (msg ++ pairBytes current).length ≤ maxMsgSize := by
    rwa [List.length_append, length_pairBytes]
  have single : pairsBytes [current] = pairBytes current := by simp [pairsBytes]
  induction rest generalizing msg current with
  | nil =>
    refine ⟨[current], [], by simp, rfl, by rwa [single], ?_⟩
    simp only [fillMessage, put, single]
  | cons next rest ih =>
    by_cases room : pairLength next < sizeSub maxMsgSize (msg ++ pairBytes current).length
    · have space : (msg ++ pairBytes current).length + pairLength next ≤ maxMsgSize := by
        rw [sizeSub] at room
        have : maxMsgSize = 65507 := rfl
        omega
      obtain ⟨taken, left, _, whole, within, filled⟩ := ih space (putPair_fits space)
        (by rwa [List.length_append, length_pairBytes]) (by simp [pairsBytes])
      have regroup : msg ++ pairsBytes (current :: taken) =
          (msg ++ pairBytes current) ++ pairsBytes taken := by
        simp [pairsBytes]
      refine ⟨current :: taken, left, by simp, by rw [whole, List.cons_append],
        by rwa [regroup], ?_⟩
      simp only [fillMessage, put, room, ↓reduceIte, filled, regroup]
    · refine ⟨[current], next :: rest, by simp, rfl, by rwa [single], ?_⟩
      simp only [fillMessage, put, room, ↓reduceIte, single]

/-- A first pair that does not fit is never sent. -/
theorem fillMessage_over {msg : List UInt8} {current : KvPair} (rest : List KvPair)
    (beyond : maxMsgSize < msg.length + pairLength current) :
    fillMessage msg current rest = .fault ∨
      ∃ msg' left, fillMessage msg current rest = .done (msg', left) ∧ maxMsgSize < msg'.length := by
  induction rest generalizing msg current with
  | nil =>
    cases put : putPair msg current with
    | none => exact .inl (by simp only [fillMessage, put])
    | some msg' =>
      exact .inr ⟨msg', [], by simp only [fillMessage, put], putPair_some put ▸ beyond⟩
  | cons next rest ih =>
    cases put : putPair msg current with
    | none => exact .inl (by simp only [fillMessage, put])
    | some msg' =>
      have long : maxMsgSize < msg'.length := putPair_some put ▸ beyond
      by_cases room : pairLength next < sizeSub maxMsgSize msg'.length
      · -- the subtraction has wrapped around, and the next pair follows
        simpa only [fillMessage, put, room, ↓reduceIte] using ih (by omega)
      · exact .inr ⟨msg', next :: rest, by simp only [fillMessage, put, room, ↓reduceIte], long⟩

/-- The messages carry the pairs in order, the first one behind a header. -/
inductive Packed : List UInt8 → List KvPair → List (List UInt8) → Prop where
  | nil (header : List UInt8) : Packed header [] []
  | cons {header : List UInt8} {taken left : List KvPair} {messages : List (List UInt8)}
      (some : taken ≠ []) (fits : (header ++ pairsBytes taken).length ≤ maxMsgSize)
      (rest : Packed [] left messages) :
      Packed header (taken ++ left) ((header ++ pairsBytes taken) :: messages)

/-- Every pair fits a message, the first one behind the header. -/
structure Fits (header : List UInt8) (pairs : List KvPair) : Prop where
  each : ∀ pair ∈ pairs, pairLength pair ≤ maxMsgSize
  first : ∀ pair ∈ pairs.head?, header.length + pairLength pair ≤ maxMsgSize

theorem fits_nil_header {pairs : List KvPair} (each : ∀ pair ∈ pairs, pairLength pair ≤ maxMsgSize) :
    Fits [] pairs :=
  ⟨each, fun pair head => by simpa using each pair (List.mem_of_mem_head? head)⟩

theorem dumpStep_fits {msg : List UInt8} {current : KvPair} (rest : List KvPair)
    (sent : List (List UInt8)) (fits : msg.length + pairLength current ≤ maxMsgSize) :
    ∃ taken left, taken ≠ [] ∧ current :: rest = taken ++ left ∧
      (msg ++ pairsBytes taken).length ≤ maxMsgSize ∧
      dumpStep ⟨msg, current :: rest, sent⟩ =
        .next ⟨[], left, sent ++ [msg ++ pairsBytes taken]⟩ := by
  obtain ⟨taken, left, some, whole, within, filled⟩ := fillMessage_fits rest fits
  exact ⟨taken, left, some, whole, within,
    by simp only [dumpStep, filled, Nat.not_lt.mpr within, ↓reduceIte]⟩

theorem dumpStep_over {msg : List UInt8} {current : KvPair} (rest : List KvPair)
    (sent : List (List UInt8)) (beyond : maxMsgSize < msg.length + pairLength current) :
    dumpStep ⟨msg, current :: rest, sent⟩ = .fault := by
  rcases fillMessage_over rest beyond with fault | ⟨msg', left, filled, long⟩
  · simp only [dumpStep, fault]
  · simp only [dumpStep, filled, long, ↓reduceIte]

/-- The induction is on the number of pairs left: every message takes at least one. -/
theorem dump_packs (header : List UInt8) (pairs : List KvPair) (sent : List (List UInt8))
    (fits : Fits header pairs) :
    ∃ messages, Packed header pairs messages ∧
      Returns dumpStep ⟨header, pairs, sent⟩ (sent ++ messages) := by
  generalize bound : pairs.length = n
  induction n using Nat.strongRecOn generalizing header pairs sent with
  | ind n ih =>
    cases pairs with
    | nil => exact ⟨[], .nil header, returns_done (by simp [dumpStep])⟩
    | cons current rest =>
      obtain ⟨taken, left, some, whole, within, step⟩ :=
        dumpStep_fits rest sent (fits.first current rfl)
      have shorter : left.length < n := by
        have lengths := congrArg List.length whole
        have := List.length_pos_iff.mpr some
        rw [List.length_append] at lengths
        omega
      have each : ∀ pair ∈ left, pairLength pair ≤ maxMsgSize := fun pair member =>
        fits.each pair (whole ▸ List.mem_append_right taken member)
      obtain ⟨messages, packed, returns⟩ :=
        ih left.length shorter [] left (sent ++ [header ++ pairsBytes taken]) (fits_nil_header each) rfl
      rw [List.append_assoc] at returns
      rw [whole]
      exact ⟨_, .cons some within packed, (returns_next (whole ▸ step)).mpr returns⟩

theorem length_le_pairsBytes {pair : KvPair} {pairs : List KvPair} (member : pair ∈ pairs) :
    pairLength pair ≤ (pairsBytes pairs).length := by
  rw [← length_pairBytes]
  rw [pairsBytes, List.flatMap_def]
  exact (List.sublist_flatten_of_mem (List.mem_map_of_mem member)).length_le

/-- A pair that does not fit is reached and then overruns the buffer. -/
theorem dump_faults (header : List UInt8) (pairs : List KvPair) (sent : List (List UInt8))
    (beyond : ¬ Fits header pairs) : Faults dumpStep ⟨header, pairs, sent⟩ := by
  generalize bound : pairs.length = n
  induction n using Nat.strongRecOn generalizing header pairs sent with
  | ind n ih =>
    cases pairs with
    | nil => exact absurd ⟨by simp, by simp⟩ beyond
    | cons current rest =>
      by_cases first : header.length + pairLength current ≤ maxMsgSize
      · obtain ⟨taken, left, some, whole, within, step⟩ := dumpStep_fits rest sent first
        have shorter : left.length < n := by
          have lengths := congrArg List.length whole
          have := List.length_pos_iff.mpr some
          rw [List.length_append] at lengths
          omega
        have later : ¬ Fits [] left := by
          intro fits
          refine beyond ⟨fun pair member => ?_, fun pair head => ?_⟩
          · rw [whole] at member
            rcases List.mem_append.mp member with now | later
            · have := length_le_pairsBytes now
              rw [List.length_append] at within
              omega
            · exact fits.each pair later
          · obtain rfl := Option.some.inj head
            exact first
        obtain ⟨fuel, ended⟩ := ih left.length shorter [] left _ later rfl
        exact ⟨fuel + 1, by rw [iterate_next step, ended]⟩
      · exact ⟨1, iterate_fault (dumpStep_over rest sent (Nat.lt_of_not_le first)) 0⟩

/-! Decoding. -/

theorem drop_string {written rest : List UInt8} {index : Nat} {s : CString}
    (here : written.drop index = s.bytes ++ 0 :: rest) :
    written.drop (index + s.strlen + 1) = rest ∧ index + s.strlen + 1 ≤ written.length := by
  have lengths := congrArg List.length here
  simp only [List.length_drop, List.length_append, List.length_cons] at lengths
  constructor
  · rw [Nat.add_assoc, ← List.drop_drop, here]
    have split : s.bytes ++ 0 :: rest = (s.bytes ++ [0]) ++ rest := by simp
    rw [split]
    exact List.drop_left' (by simp [CString.strlen])
  · rw [CString.strlen]
    omega

/-- Reading stops at the end of the written bytes, or at an empty key. -/
theorem printLoop_pairs (response : Buffer (maxMsgSize + 1))
    (short : response.written.length ≤ maxMsgSize) (pairs : List KvPair) (remaining index : Nat)
    (here : response.written.drop index = pairsBytes pairs)
    (inside : index ≤ response.written.length) (enough : pairs.length ≤ remaining)
    (named : ∀ pair ∈ pairs, pair.key ≠ CString.empty) :
    printLoop response remaining index = some pairs := by
  induction pairs generalizing remaining index with
  | nil =>
    cases remaining with
    | zero => rfl
    | succ remaining =>
      have stop : response.string index = some CString.empty := by
        apply Buffer.string_of_last
        · exact here
        · have : CString.empty.strlen = 0 := rfl
          omega
      simp [printLoop, stop, CString.strlen]
  | cons pair pairs ih =>
    obtain ⟨remaining, rfl⟩ : ∃ k, remaining = k + 1 :=
      ⟨remaining - 1, by rw [List.length_cons] at enough; omega⟩
    rw [pairsBytes_cons] at here
    have readKey := Buffer.string_of_terminated response index pair.key _ here
    obtain ⟨after, _⟩ := drop_string here
    have readValue := Buffer.string_of_terminated response _ pair.value _ after
    obtain ⟨left, inside'⟩ := drop_string after
    have some : pair.key.strlen ≠ 0 := fun zero =>
      named pair List.mem_cons_self (CString.strlen_eq_zero_iff.mp zero)
    have rest := ih remaining _ left inside' (by simpa using enough)
      fun p member => named p (List.mem_cons_of_mem _ member)
    simp only [printLoop, readKey, some, ↓reduceIte, readValue, rest, Option.map_some]

theorem printLoop_named (response : Buffer (maxMsgSize + 1)) (remaining index : Nat)
    (printed : List KvPair) (ended : printLoop response remaining index = some printed) :
    ∀ pair ∈ printed, pair.key ≠ CString.empty := by
  induction remaining generalizing index printed with
  | zero =>
    obtain rfl := Option.some.inj ended
    simp
  | succ remaining ih =>
    rw [printLoop] at ended
    split at ended
    · contradiction
    next key _ =>
      split at ended
      · obtain rfl := Option.some.inj ended
        simp
      next some =>
        split at ended
        · contradiction
        · obtain ⟨rest, loop, rfl⟩ := Option.map_eq_some_iff.mp ended
          intro pair member
          rcases List.mem_cons.mp member with rfl | later
          · rintro rfl
            exact some rfl
          · exact ih _ rest loop pair later

theorem receiveDump_named (messages : List (List UInt8)) (nbKv totalKv : Nat)
    (printed : List KvPair) (ended : receiveDump nbKv totalKv messages = some printed) :
    ∀ pair ∈ printed, pair.key ≠ CString.empty := by
  induction messages generalizing nbKv totalKv printed with
  | nil =>
    obtain rfl := Option.some.inj ended
    simp
  | cons payload rest ih =>
    rw [receiveDump] at ended
    split at ended
    · contradiction
    next total index _ =>
      split at ended
      · contradiction
      next now loop =>
        obtain ⟨later, decoded, rfl⟩ := Option.map_eq_some_iff.mp ended
        intro pair member
        rcases List.mem_append.mp member with here | there
        · exact printLoop_named _ _ _ now loop pair here
        · exact ih _ _ later decoded pair there

/-- Once a pair was printed, later messages are read from their start. -/
theorem receiveDump_rest {header : List UInt8} {pairs : List KvPair}
    {messages : List (List UInt8)} (packed : Packed header pairs messages) (bare : header = [])
    (named : ∀ pair ∈ pairs, pair.key ≠ CString.empty) (nbKv totalKv : Nat) (started : nbKv ≠ 0)
    (enough : nbKv + pairs.length ≤ totalKv) :
    receiveDump nbKv totalKv messages = some pairs := by
  induction packed generalizing nbKv with
  | nil header => rfl
  | @cons header taken left messages some fits rest ih =>
    subst bare
    rw [List.nil_append] at fits
    rw [List.length_append] at enough
    have written := written_receiveResponse fits
    have printed := printLoop_pairs (receiveResponse (pairsBytes taken)) (by rw [written]; exact fits) taken
      (totalKv - nbKv) 0 (by rw [List.drop_zero, written]) (Nat.zero_le _) (by omega)
      fun pair member => named pair (List.mem_append_left left member)
    have later := ih rfl (fun pair member => named pair (List.mem_append_right taken member))
      (nbKv + taken.length) (by omega) (by omega)
    simp only [receiveDump, List.nil_append, readHeader, started, ↓reduceIte, printed, later,
      Option.map_some]

/-- The first message announces the number of pairs and starts with some of them. -/
theorem receiveDump_packed {pairs : List KvPair} {messages : List (List UInt8)}
    (packed : Packed (dumpHeader pairs.length) pairs messages) (small : pairs.length < 2 ^ 64)
    (named : ∀ pair ∈ pairs, pair.key ≠ CString.empty) :
    receiveDump 0 0 messages = some pairs := by
  generalize count : pairs.length = size at packed small
  generalize start : dumpHeader size = header at packed
  cases packed with
  | nil header => rfl
  | @cons header taken left messages some fits rest =>
    subst start
    rw [List.length_append] at count
    have written := written_receiveResponse fits
    have front : (receiveResponse (dumpHeader size ++ pairsBytes taken)).written.drop 0 =
        (⟨Decimal.print size, Decimal.zero_notMem_print size⟩ : CString).bytes ++
          0 :: pairsBytes taken := by
      rw [written, List.drop_zero]
      simp [dumpHeader]
    have head := Buffer.string_of_terminated _ 0 _ _ front
    obtain ⟨after, inside⟩ := drop_string front
    rw [Nat.zero_add] at after inside
    have total : (UInt64.ofNat size).toNat = size := by
      rw [UInt64.toNat_ofNat']
      exact Nat.mod_eq_of_lt small
    have read : readHeader (receiveResponse (dumpHeader size ++ pairsBytes taken)) 0 0 =
        Option.some (size, (⟨Decimal.print size, Decimal.zero_notMem_print size⟩ : CString).strlen
          + 1) := by
      simp only [readHeader, ↓reduceIte, head, Option.map_some, Decimal.scan_print size small, total]
    have printed := printLoop_pairs _ (by rw [written]; exact fits) taken (size - 0) _ after inside (by omega)
      fun pair member => named pair (List.mem_append_left left member)
    have later := receiveDump_rest rest rfl
      (fun pair member => named pair (List.mem_append_right taken member)) (0 + taken.length) size
      (by have := List.length_pos_iff.mpr some; omega) (by omega)
    simp only [receiveDump, read, printed, later, Option.map_some]

/-! The dump and its reader together. -/

/-- With enough fuel the server answers the dump request, and from its datagrams, each
delivered once and in order, `pps-dump-node` prints every stored pair exactly once. -/
def DumpsExactly (t : Htable) : Prop :=
  ∃ bound error sent printed,
    (∀ fuel, bound ≤ fuel → serveDumpNode fuel t [] = .done (error, sent)) ∧
      receiveDump 0 0 sent = some printed ∧ printed.Perm t.content

/-- The content can be dumped: it is not too long to be listed, and its pairs have keys
and fit a message each, the first one behind the count. -/
structure Dumpable (content : List KvPair) : Prop where
  listed : content.length < maxAllocated
  named : ∀ pair ∈ content, pair.key ≠ CString.empty
  fits : Fits (dumpHeader content.length) content

theorem serveDumpNode_listed {t : Htable} (listed : t.content.length < maxAllocated)
    {sent : List (List UInt8)} {fuel : Nat}
    (ended : iterate dumpStep (fuel + 2) ⟨dumpHeader t.content.length, t.content, []⟩ = .done sent) :
    serveDumpNode (fuel + 2) t [] = .done (.none, sent) := by
  rcases getHtableContent_nil t fuel with ⟨_, list, elems, size, built⟩ | ⟨full, _⟩
  · simp only [serveDumpNode, built, Outcome.bind, elems, size, ended]
  · omega

theorem Dumpable.dumpsExactly {t : Htable} (dumpable : Dumpable t.content) : DumpsExactly t := by
  obtain ⟨messages, packed, bound, ended⟩ := dump_packs _ _ [] dumpable.fits
  refine ⟨bound + 2, .none, messages, t.content, fun fuel enough => ?_, ?_, List.Perm.refl _⟩
  · obtain ⟨more, rfl⟩ : ∃ k, fuel = k + 2 := ⟨fuel - 2, by omega⟩
    have longer : bound ≤ more + 2 := by omega
    apply serveDumpNode_listed dumpable.listed
    rw [iterate_mono longer (by simp [ended]), ended, List.nil_append]
  · have small : t.content.length < 2 ^ 64 := Nat.lt_trans dumpable.listed (by decide)
    exact receiveDump_packed packed small dumpable.named

theorem DumpsExactly.dumpable {t : Htable} (dumps : DumpsExactly t) (some : t.content ≠ []) :
    Dumpable t.content := by
  obtain ⟨bound, error, sent, printed, served, decoded, same⟩ := dumps
  obtain ⟨result, content, answer⟩ := Outcome.bind_eq_done_iff.mp (served (bound + 2) (by omega))
  rcases getHtableContent_nil t bound with ⟨listed, list, elems, size, built⟩ | ⟨_, built⟩
  · obtain rfl := Outcome.done.inj (built.symm.trans content)
    obtain ⟨sent', ended, _⟩ := Outcome.bind_eq_done_iff.mp answer
    rw [elems, size] at ended
    refine ⟨listed, fun pair member => ?_, ?_⟩
    · exact receiveDump_named sent 0 0 printed decoded pair (same.mem_iff.mpr member)
    · by_contra beyond
      exact Returns.not_faults ⟨_, ended⟩ (dump_faults _ _ [] beyond)
  · -- the listing failed, so nothing is sent and nothing printed
    obtain rfl := Outcome.done.inj (built.symm.trans content)
    simp only [Outcome.done.injEq, Prod.mk.injEq] at answer
    obtain ⟨_, rfl⟩ := answer
    obtain rfl := Option.some.inj decoded
    exact absurd (List.nil_perm.mp same) some

theorem dumpsExactly_of_empty {t : Htable} (empty : t.content = []) : DumpsExactly t := by
  have listed : t.content.length < maxAllocated := by
    rw [empty]
    decide
  refine ⟨2, .none, [], [], fun fuel enough => ?_, rfl, by rw [empty]⟩
  obtain ⟨more, rfl⟩ : ∃ k, fuel = k + 2 := ⟨fuel - 2, by omega⟩
  apply serveDumpNode_listed listed
  exact iterate_done (by simp [dumpStep, empty]) _

/-- A table is dumped exactly when it is empty, or its pairs are fewer than 2^59, have
keys that are not empty, and fit a message each, the first one behind the count. -/
theorem dump_exact_iff (t : Htable) :
    DumpsExactly t ↔ t.content = [] ∨ Dumpable t.content := by
  constructor
  · intro dumps
    by_cases empty : t.content = []
    · exact .inl empty
    · exact .inr (dumps.dumpable empty)
  · rintro (empty | dumpable)
    · exact dumpsExactly_of_empty empty
    · exact dumpable.dumpsExactly

/-- The table after the server has handled these datagrams in turn. -/
def serveAll (fuel : Nat) : List (List UInt8) → Htable → Outcome Htable
  | [], t => .done t
  | payload :: rest, t => (serve fuel t payload []).bind fun (t, _) => serveAll fuel rest t

/-- A pair stored under the empty key ends every dump before it is printed. -/
theorem dump_loses_empty_key :
    ¬ ∀ fuel payloads t, (∀ payload ∈ payloads, payload.length ≤ maxMsgSize) →
      serveAll fuel payloads (Htable.empty htableSize) = .done t → DumpsExactly t := by
  intro exactly
  have dumps := exactly 0 [[0, 120]]
    ((Htable.empty htableSize).put CString.empty ⟨[120], by decide⟩) (by decide)
    (by decide +kernel)
  have stored : ((Htable.empty htableSize).put CString.empty ⟨[120], by decide⟩).content =
      [⟨CString.empty, ⟨[120], by decide⟩⟩] := by decide +kernel
  have dumpable := dumps.dumpable (by simp [stored])
  exact dumpable.named ⟨CString.empty, ⟨[120], by decide⟩⟩ (by simp [stored]) rfl

end PpsDht
