import PpsDht.Dump
import PpsDht.KvListRuns

/-! The buffer of `serve_dump_node`. Every access to `msg` is recorded with its index; the
accesses stay inside exactly when every pair fits a message, the first one behind the
count. The look-ahead test protects no first pair, and write requests can store pairs
longer than any message. -/
namespace PpsDht

open CLib Loop

inductive DumpEvent where
  | copy (index length : Nat)
  | subtract (index : Nat)
  | send (index : Nat)
  deriving DecidableEq

/-- Bytes are copied into the buffer, and `index` is within it when it is subtracted
from its size or sent. -/
def DumpEvent.Safe : DumpEvent → Prop
  | .copy index length => length = 0 ∨ index + length ≤ maxMsgSize
  | .subtract index => index ≤ maxMsgSize
  | .send index => index ≤ maxMsgSize

def copyEvents (index : Nat) (current : KvPair) : List DumpEvent :=
  [.copy index current.key.strlen, .copy (index + current.key.strlen + 1) current.value.strlen]

def dumpEvents (index : Nat) : List KvPair → List DumpEvent
  | [] => []
  | [current] => copyEvents index current ++ [.send (index + pairLength current)]
  | current :: next :: rest =>
    copyEvents index current ++ .subtract (index + pairLength current) ::
      if pairLength next < sizeSub maxMsgSize (index + pairLength current) then
        dumpEvents (index + pairLength current) (next :: rest)
      else .send (index + pairLength current) :: dumpEvents 0 (next :: rest)

def serveDumpEvents (fuel : Nat) (t : Htable) (a : Alloc) : List DumpEvent :=
  match getHtableContent fuel t a with
  | .done (some list, _) =>
    .copy 0 (dumpHeader list.size).length :: dumpEvents (dumpHeader list.size).length list.elems
  | _ => []

theorem copyEvents_safe {index : Nat} {current : KvPair}
    (fits : index + pairLength current ≤ maxMsgSize) :
    ∀ event ∈ copyEvents index current, event.Safe := by
  rw [pairLength] at fits
  simp only [copyEvents, List.mem_cons, List.not_mem_nil, or_false, forall_eq_or_imp, forall_eq,
    DumpEvent.Safe]
  omega

/-- Every pair fits a message, the first one behind `index` bytes. -/
def FitsFrom (index : Nat) (pairs : List KvPair) : Prop :=
  (∀ pair ∈ pairs, pairLength pair ≤ maxMsgSize) ∧
    ∀ pair ∈ pairs.head?, index + pairLength pair ≤ maxMsgSize

theorem fits_iff_fitsFrom (header : List UInt8) (pairs : List KvPair) :
    Fits header pairs ↔ FitsFrom header.length pairs :=
  ⟨fun fits => ⟨fits.each, fits.first⟩, fun fits => ⟨fits.1, fits.2⟩⟩

theorem fitsFrom_cons {index : Nat} {current : KvPair} {rest : List KvPair} :
    FitsFrom index (current :: rest) ↔
      index + pairLength current ≤ maxMsgSize ∧ ∀ pair ∈ rest, pairLength pair ≤ maxMsgSize := by
  simp only [FitsFrom, List.forall_mem_cons, List.head?_cons, Option.mem_some_iff, forall_eq']
  exact ⟨fun fits => ⟨fits.2, fits.1.2⟩, fun fits => ⟨⟨by omega, fits.2⟩, fits.1⟩⟩

theorem dumpEvents_safe_iff (index : Nat) (pairs : List KvPair) :
    (∀ event ∈ dumpEvents index pairs, event.Safe) ↔ FitsFrom index pairs := by
  induction pairs generalizing index with
  | nil => simp [dumpEvents, FitsFrom]
  | cons current rest ih =>
    rw [fitsFrom_cons]
    cases rest with
    | nil =>
      simp only [dumpEvents, List.forall_mem_append, List.mem_singleton, forall_eq,
        DumpEvent.Safe, List.not_mem_nil, false_imp_iff, implies_true, and_true]
      exact ⟨fun safe => safe.2, fun fits => ⟨copyEvents_safe fits, fits⟩⟩
    | cons next rest =>
      have shared := ih (index + pairLength current)
      have alone := ih 0
      rw [fitsFrom_cons] at shared alone
      simp only [dumpEvents, List.forall_mem_append, List.forall_mem_cons]
      by_cases fits : index + pairLength current ≤ maxMsgSize
      · have left : sizeSub maxMsgSize (index + pairLength current) =
            maxMsgSize - (index + pairLength current) := by
          have : maxMsgSize = 65507 := rfl
          rw [sizeSub]
          omega
        have start : (∀ event ∈ copyEvents index current, event.Safe) ∧
            DumpEvent.Safe (.subtract (index + pairLength current)) := ⟨copyEvents_safe fits, fits⟩
        rw [← and_assoc, and_iff_right start, and_iff_right fits]
        split
        next room =>
          rw [shared]
          exact ⟨fun both => ⟨by omega, both.2⟩, fun both => ⟨by omega, both.2⟩⟩
        · rw [List.forall_mem_cons, alone, Nat.zero_add]
          exact ⟨fun both => both.2, fun both => ⟨fits, both⟩⟩
      · exact iff_of_false (fun safe => fits safe.2.1) fun both => fits both.1

/-- The recorded accesses agree with the loop: it goes past the buffer when one of them does. -/
theorem dumpEvents_safe_iff_not_faults (header : List UInt8) (pairs : List KvPair)
    (sent : List (List UInt8)) :
    (∀ event ∈ dumpEvents header.length pairs, event.Safe) ↔
      ¬ Faults dumpStep ⟨header, pairs, sent⟩ := by
  rw [dumpEvents_safe_iff, ← fits_iff_fitsFrom]
  constructor
  · intro fits
    obtain ⟨messages, _, returns⟩ := dump_packs header pairs sent fits
    exact returns.not_faults
  · intro inside
    by_contra beyond
    exact inside (dump_faults header pairs sent beyond)

theorem length_dumpHeader {size : Nat} (small : size < maxAllocated) :
    (dumpHeader size).length ≤ maxMsgSize := by
  have digits : (Decimal.print size).length ≤ 18 := by
    apply Decimal.length_print_le (by decide)
    rw [maxAllocated] at small
    omega
  have : maxMsgSize = 65507 := rfl
  rw [dumpHeader, List.length_append, List.length_singleton]
  omega

theorem fits_of_safe {t : Htable} (below : t.content.length < maxAllocated)
    (safe : ∀ event ∈ serveDumpEvents 2 t [], event.Safe) :
    Fits (dumpHeader t.content.length) t.content := by
  rw [fits_iff_fitsFrom, ← dumpEvents_safe_iff]
  rcases getHtableContent_nil t 0 with ⟨_, list, elems, size, built⟩ | ⟨full, _⟩
  · simp only [serveDumpEvents, built, elems, size, List.forall_mem_cons] at safe
    exact safe.2
  · omega

/-- The buffer is never overrun exactly when the table cannot be listed, having 2^59
pairs or more, or every pair fits a message and the first one does so behind the count. -/
theorem dump_buffer_safe_iff (t : Htable) :
    (∀ fuel a, ∀ event ∈ serveDumpEvents (fuel + 2) t a, event.Safe) ↔
      maxAllocated ≤ t.content.length ∨ Fits (dumpHeader t.content.length) t.content := by
  constructor
  · intro safe
    rcases Nat.lt_or_ge t.content.length maxAllocated with below | full
    · exact .inr (fits_of_safe below (safe 0 []))
    · exact .inl full
  · intro fits fuel a
    rw [fits_iff_fitsFrom, ← dumpEvents_safe_iff] at fits
    rw [serveDumpEvents]
    split
    next list rest built =>
      obtain ⟨elems, size, below⟩ := getHtableContent_some built
      have safe := fits.resolve_left (Nat.not_le.mpr below)
      rw [elems, size, List.forall_mem_cons]
      exact ⟨.inr (by simpa using length_dumpHeader below), safe⟩
    · simp

/-! A table that write requests can build. -/

theorem content_put_empty (size : Nat) (positive : 0 < size) (key value : CString) :
    ((Htable.empty size).put key value).content = [⟨key, value⟩] := by
  have one (n index : Nat) (inside : index < n) (pairs : Bucket) :
      ((List.replicate n ([] : Bucket)).set index pairs).flatten = pairs := by
    induction n generalizing index with
    | zero => omega
    | succ n ih =>
      cases index with
      | zero => simp [List.replicate_succ]
      | succ index => simpa [List.replicate_succ] using ih index (by omega)
  have fresh : Chain.put key value [] = [⟨key, value⟩] :=
    Chain.put_of_miss key value [] (by simp)
  rw [Htable.put, Htable.bucket_empty, Htable.size_empty, fresh]
  exact one size _ (hashFunction_lt key positive) _

theorem serveAll_put (key value : CString) (short : key.strlen ≤ maxMsgElemSize)
    (short' : value.strlen ≤ maxMsgElemSize) (named : key ≠ CString.empty)
    (room : key.strlen + value.strlen + 1 < maxMsgSize) (t : Htable) :
    serveAll 0 [putMessage key value] t = .done (t.put key value) := by
  have handled := receiveRequest_putMessage short short'
  rw [if_neg (fun empty => named empty.1), if_pos room] at handled
  simp only [serveAll, serve, handled, serveWriteRequest, addHtableValue_nil, Outcome.bind]

/-- A pair that fills a message does not fit behind the count, and is copied all the same. -/
theorem dump_overruns_buffer :
    ¬ ∀ payloads t, (∀ payload ∈ payloads, payload.length ≤ maxMsgSize) →
      serveAll 0 payloads (Htable.empty htableSize) = .done t →
        ∀ fuel a, ∀ event ∈ serveDumpEvents (fuel + 2) t a, event.Safe := by
  intro safe
  have max : maxMsgSize = 65507 := rfl
  have elem : maxMsgElemSize = 32753 := rfl
  obtain ⟨key, long⟩ := CString.exists_strlen 32753
  obtain ⟨value, long'⟩ := CString.exists_strlen 32752
  have named : key ≠ CString.empty := CString.strlen_eq_zero_iff.not.mp (by omega)
  have served := serveAll_put key value (by omega) (by omega) named (by omega)
    (Htable.empty htableSize)
  have within : ∀ payload ∈ [putMessage key value], payload.length ≤ maxMsgSize := by
    intro payload member
    rw [List.mem_singleton.mp member, length_putMessage]
    omega
  have content := content_put_empty htableSize (by decide) key value
  have one : ((Htable.empty htableSize).put key value).content.length = 1 :=
    congrArg List.length content
  have fits := fits_of_safe (by rw [one]; decide) (safe _ _ within served 0 [])
  rw [one, content] at fits
  have first := fits.first _ List.head?_cons
  have header : (dumpHeader 1).length = 2 := by decide
  rw [header, pairLength] at first
  dsimp only at first
  omega

end PpsDht
