import PpsDht.Dump
import Mathlib.Data.List.Flatten
import Mathlib.Data.List.Perm.Subperm

/-! A dump over a network that loses datagrams and reorders them. The first message carries
the count; what arrives before it is skipped, and of the rest exactly the pairs that arrive
are printed. -/
namespace PpsDht

open CLib Loop

structure Part (pairs : List KvPair) : Prop where
  some : pairs ≠ []
  fits : (pairsBytes pairs).length ≤ maxMsgSize

theorem parts_of_packed {header : List UInt8} {pairs : List KvPair} {messages : List (List UInt8)}
    (packed : Packed header pairs messages) (bare : header = []) :
    ∃ parts : List (List KvPair), parts.flatten = pairs ∧ messages = parts.map pairsBytes ∧
      ∀ part ∈ parts, Part part := by
  induction packed with
  | nil => exact ⟨[], rfl, rfl, by simp⟩
  | @cons header taken left messages some fits rest ih =>
    subst bare
    obtain ⟨parts, rfl, rfl, each⟩ := ih rfl
    exact ⟨taken :: parts, rfl, rfl, List.forall_mem_cons.mpr ⟨⟨some, fits⟩, each⟩⟩

theorem packed_of_parts {parts : List (List KvPair)} (each : ∀ part ∈ parts, Part part) :
    Packed [] parts.flatten (parts.map pairsBytes) := by
  induction parts with
  | nil => exact .nil []
  | cons part parts ih =>
    obtain ⟨first, later⟩ := List.forall_mem_cons.mp each
    exact .cons first.some first.fits (ih later)

theorem string_part {part : List KvPair} (good : Part part) :
    ∃ pair ∈ part.head?, (receiveResponse (pairsBytes part)).string 0 = some pair.key := by
  cases part with
  | nil => exact absurd rfl good.some
  | cons pair part =>
    refine ⟨pair, rfl, ?_⟩
    apply Buffer.string_of_terminated _ 0 pair.key (pair.value.bytes ++ 0 :: pairsBytes part)
    rw [List.drop_zero, written_receiveResponse good.fits]
    simp [pairsBytes, pairBytes]

/-- Before the count is known, a part whose first key does not begin with a number is
skipped. -/
theorem receiveDump_early {early : List (List KvPair)} (each : ∀ part ∈ early, Part part)
    (unnumbered : ∀ part ∈ early, ∀ pair ∈ part.head?, Decimal.scan pair.key.bytes = none)
    (messages : List (List UInt8)) :
    receiveDump 0 0 (early.map pairsBytes ++ messages) = receiveDump 0 0 messages := by
  induction early with
  | nil => rfl
  | cons part early ih =>
    obtain ⟨good, each⟩ := List.forall_mem_cons.mp each
    obtain ⟨plain, unnumbered⟩ := List.forall_mem_cons.mp unnumbered
    obtain ⟨pair, head, read⟩ := string_part good
    have header : readHeader (receiveResponse (pairsBytes part)) 0 0 = some (0, 0) := by
      simp only [readHeader, ↓reduceIte, read, Option.map_some, plain pair head]
    rw [List.map_cons, List.cons_append, receiveDump, header]
    simp only [Nat.sub_self, printLoop, List.length_nil, Nat.add_zero, List.nil_append,
      Option.map_id']
    exact ih each unnumbered

theorem flatten_subperm {α : Type} {first second : List (List α)} (sub : first.Subperm second) :
    first.flatten.Subperm second.flatten := by
  obtain ⟨part, same, inside⟩ := sub
  exact ⟨part.flatten, same.flatten, inside.flatten⟩

theorem receiveDump_counted {size : Nat} (small : size < 2 ^ 64) {start : List KvPair}
    (some : start ≠ []) (fits : (dumpHeader size ++ pairsBytes start).length ≤ maxMsgSize)
    {late : List (List KvPair)} (each : ∀ part ∈ late, Part part)
    (named : ∀ pair ∈ start ++ late.flatten, pair.key ≠ CString.empty)
    (enough : start.length + late.flatten.length ≤ size) :
    receiveDump 0 0 ((dumpHeader size ++ pairsBytes start) :: late.map pairsBytes) =
      Option.some (start ++ late.flatten) := by
  let count : CString := ⟨Decimal.print size, Decimal.zero_notMem_print size⟩
  have written := written_receiveResponse fits
  have front : (receiveResponse (dumpHeader size ++ pairsBytes start)).written.drop 0 =
      count.bytes ++ 0 :: pairsBytes start := by
    rw [written, List.drop_zero]
    simp [dumpHeader, count]
  have head := Buffer.string_of_terminated _ 0 count _ front
  obtain ⟨after, inside⟩ := drop_string front
  rw [Nat.zero_add] at after inside
  have total : (UInt64.ofNat size).toNat = size := by
    rw [UInt64.toNat_ofNat']
    exact Nat.mod_eq_of_lt small
  have read : readHeader (receiveResponse (dumpHeader size ++ pairsBytes start)) 0 0 =
      Option.some (size, count.strlen + 1) := by
    simp only [readHeader, ↓reduceIte, head, Option.map_some, count, Decimal.scan_print size small,
      total]
  have printed := printLoop_pairs _ (by rw [written]; exact fits) start (size - 0) _ after inside
    (by omega) fun pair member => named pair (List.mem_append_left _ member)
  have positive := List.length_pos_iff.mpr some
  have later := receiveDump_rest (packed_of_parts each) rfl
    (fun pair member => named pair (List.mem_append_right _ member)) (0 + start.length) size
    (by omega) (by omega)
  simp only [receiveDump, read, printed, later, Option.map_some]

/-- The datagrams of a dump are parts of the table's content, the first one behind the count.
Whichever of the others are lost, and in whatever order the rest arrive, `pps-dump-node`
prints the pairs of the first one and of those that follow it. What overtakes the first one is
left out, if it does not begin with a number. -/
theorem dump_under_loss {t : Htable} (dumpable : Dumpable t.content) (some : t.content ≠ []) :
    ∃ bound start parts, start ++ parts.flatten = t.content ∧ start ≠ [] ∧
      (dumpHeader t.content.length ++ pairsBytes start).length ≤ maxMsgSize ∧
      (∀ part ∈ parts, Part part) ∧
      (∀ fuel, bound ≤ fuel → serveDumpNode fuel t [] = .done (.none,
        (dumpHeader t.content.length ++ pairsBytes start) :: parts.map pairsBytes)) ∧
      ∀ early late : List (List KvPair), (early ++ late).Subperm parts →
        (∀ part ∈ early, ∀ pair ∈ part.head?, Decimal.scan pair.key.bytes = none) →
        receiveDump 0 0 (early.map pairsBytes ++
          (dumpHeader t.content.length ++ pairsBytes start) :: late.map pairsBytes) =
            Option.some (start ++ late.flatten) := by
  obtain ⟨messages, packed, bound, ended⟩ := dump_packs _ _ [] dumpable.fits
  generalize whole : t.content = pairs at packed some
  generalize counted : dumpHeader pairs.length = header at packed
  cases packed with
  | nil => exact absurd rfl some
  | @cons header start left messages filled fits rest =>
    subst counted
    obtain ⟨parts, rfl, rfl, each⟩ := parts_of_packed rest rfl
    refine ⟨bound + 2, start, parts, rfl, filled, whole ▸ fits, each, fun fuel enough => ?_,
      fun early late sub unnumbered => ?_⟩
    · obtain ⟨more, rfl⟩ : ∃ k, fuel = k + 2 := ⟨fuel - 2, by omega⟩
      have longer : bound ≤ more + 2 := by omega
      rw [← whole]
      apply serveDumpNode_listed dumpable.listed
      rw [iterate_mono longer (by simp [ended]), ended, List.nil_append, whole]
    · have known (part) (member : part ∈ early ++ late) : Part part := each part (sub.subset member)
      have fewer : late.flatten.Subperm parts.flatten :=
        flatten_subperm ((List.sublist_append_right early late).subperm.trans sub)
      have small := Nat.lt_trans dumpable.listed (show maxAllocated < 2 ^ 64 by decide)
      rw [whole] at small
      rw [receiveDump_early (fun part member => known part (List.mem_append_left late member))
        unnumbered]
      refine receiveDump_counted small filled fits
        (fun part member => known part (List.mem_append_right early member)) (fun pair member => ?_)
        (by rw [List.length_append]; exact Nat.add_le_add_left fewer.length_le _)
      refine dumpable.named pair (whole ▸ ?_)
      rcases List.mem_append.mp member with first | later
      · exact List.mem_append_left _ first
      · exact List.mem_append_right _ (fewer.subset later)

/-- Where no two pairs fit in one message, each has its own. -/
theorem parts_of_long {parts : List (List KvPair)} (each : ∀ part ∈ parts, Part part)
    (long : ∀ pair ∈ parts.flatten, maxMsgSize < 2 * pairLength pair) :
    parts = parts.flatten.map fun pair => [pair] := by
  induction parts with
  | nil => rfl
  | cons part parts ih =>
    obtain ⟨⟨some, fits⟩, each⟩ := List.forall_mem_cons.mp each
    have later := ih each fun pair member => long pair (List.mem_append_right part member)
    match part with
    | [] => contradiction
    | [pair] =>
      rw [List.flatten_cons, List.map_append, ← later, List.map_singleton, List.singleton_append]
    | first :: second :: rest =>
      have first_long := long first (by simp)
      have second_long := long second (by simp)
      simp only [pairsBytes, List.flatMap_cons, List.length_append, length_pairBytes] at fits
      omega

def longPair (key : UInt8) : KvPair :=
  ⟨.ofMemory [key], ⟨List.replicate maxMsgElemSize 120, by simp [List.mem_replicate]⟩⟩

def longTable : Htable :=
  ((((Htable.empty 1).put (longPair 100).key (longPair 100).value).put (longPair 99).key
    (longPair 99).value).put (longPair 98).key (longPair 98).value).put (longPair 97).key
      (longPair 97).value

theorem content_longTable :
    longTable.content = [longPair 97, longPair 98, longPair 99, longPair 100] := rfl

theorem pairLength_longPair (key : UInt8) (some : key ≠ 0) :
    pairLength (longPair key) = maxMsgElemSize + 3 := by
  simp [pairLength, longPair, CString.ofMemory, CString.strlen, some]
  omega

/-- Of four datagrams the second one is lost and the third one overtakes the first one. -/
theorem dump_under_loss_four :
    (∃ bound, ∀ fuel, bound ≤ fuel → serveDumpNode fuel longTable [] = .done (.none,
      [dumpHeader 4 ++ pairsBytes [longPair 97], pairsBytes [longPair 98],
        pairsBytes [longPair 99], pairsBytes [longPair 100]])) ∧
    receiveDump 0 0 [pairsBytes [longPair 99], dumpHeader 4 ++ pairsBytes [longPair 97],
      pairsBytes [longPair 100]] = some [longPair 97, longPair 100] := by
  have lengths : ∀ pair ∈ longTable.content, pairLength pair = maxMsgElemSize + 3 := by
    simp [content_longTable, pairLength_longPair]
  have dumpable : Dumpable longTable.content := by
    refine ⟨by decide, ?_, fun pair member => ?_, fun pair first => ?_⟩
    · simp only [content_longTable, List.forall_mem_cons]
      decide
    · rw [lengths pair member]
      decide
    · rw [lengths pair (List.mem_of_mem_head? first)]
      decide
  obtain ⟨bound, start, parts, whole, some, fits, each, ended, printed⟩ :=
    dump_under_loss dumpable (by simp [content_longTable])
  have all : ∀ part ∈ start :: parts, Part part := by
    rw [List.length_append] at fits
    exact List.forall_mem_cons.mpr ⟨⟨some, Nat.le_of_add_left_le fits⟩, each⟩
  have alone := parts_of_long all fun pair member => by
    rw [List.flatten_cons, whole] at member
    rw [lengths pair member]
    decide
  rw [List.flatten_cons, whole, content_longTable] at alone
  obtain ⟨rfl, rfl⟩ := List.cons.inj alone
  have late := printed [[longPair 99]] [[longPair 100]] (List.sublist_cons_self _ _).subperm
    (by simpa using (by decide : Decimal.scan (longPair 99).key.bytes = none))
  exact ⟨⟨bound, ended⟩, late⟩

end PpsDht
