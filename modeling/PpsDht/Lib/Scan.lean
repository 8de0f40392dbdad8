import PpsDht.Lib.Decimal
import Mathlib.Algebra.Group.Int.Defs
import Mathlib.Data.List.Infix

/-! Formatted input as `fscanf` reads it: strings of a bounded width and decimal numbers,
each behind any blanks. What is read is compared with the words that the same bytes
consist of. -/
namespace Scan

open Decimal

structure Numeral where
  negative : Bool
  magnitude : Nat
  deriving DecidableEq

namespace Numeral

def value (n : Numeral) : Int := if n.negative then -n.magnitude else n.magnitude

/-- What `%lu` stores. -/
def toUnsigned (n : Numeral) : UInt64 :=
  if n.negative then negate n.magnitude else saturate n.magnitude

/-- What `%d` stores: the lower 32 bits of the number saturated to 64 bits. -/
def toInt (n : Numeral) : Int := (max (-2 ^ 63) (min n.value (2 ^ 63 - 1))).bmod (2 ^ 32)

end Numeral

/-- A number that is not negative and not too large is stored as it is. -/
theorem Numeral.toNat_toUnsigned {n : Numeral} (nonnegative : 0 ≤ n.value)
    (small : n.toUnsigned.toNat < 2 ^ 64 - 1) : (n.toUnsigned.toNat : Int) = n.value := by
  obtain ⟨negative, magnitude⟩ := n
  cases negative with
  | false =>
    simp only [toUnsigned, value, saturate, Bool.false_eq_true, ↓reduceIte] at small ⊢
    split at small
    next below =>
      rw [if_pos below, UInt64.toNat_ofNat']
      omega
    next above => simp at small
  | true =>
    simp only [value, ↓reduceIte] at nonnegative ⊢
    obtain rfl : magnitude = 0 := by omega
    rfl

theorem Numeral.toInt_of_small {n : Numeral} (low : 0 ≤ n.value) (high : n.value ≤ 65535) :
    n.toInt = n.value := by
  have saturated : max (-2 ^ 63) (min n.value (2 ^ 63 - 1)) = n.value := by omega
  rw [toInt, saturated, Int.bmod_def]
  omega

def string (width : Nat) (text : List UInt8) : Option (List UInt8 × List UInt8) :=
  match text.dropWhile isSpace with
  | [] => none
  | byte :: rest =>
    let word := ((byte :: rest).take width).takeWhile fun b => !isSpace b
    some (word, (byte :: rest).drop word.length)

def magnitude (negative : Bool) (text : List UInt8) : Option (Numeral × List UInt8) :=
  match text.takeWhile isDigit with
  | [] => none
  | digits => some (⟨negative, Decimal.value digits⟩, text.dropWhile isDigit)

/-- An optional sign and all digits that follow it, and what follows these. -/
def number (text : List UInt8) : Option (Numeral × List UInt8) :=
  match text.dropWhile isSpace with
  | [] => none
  | sign :: rest =>
    if sign = 45 then magnitude true rest
    else if sign = 43 then magnitude false rest
    else magnitude false (sign :: rest)

def words (text : List UInt8) : List (List UInt8) := (text.splitOnP isSpace).filter (· ≠ [])

def integer (word : List UInt8) : Option Int :=
  match number word with
  | some (n, []) => some n.value
  | _ => none

/-- The end of the text or a blank comes next. -/
def Separated (rest : List UInt8) : Prop := ∀ byte ∈ rest.head?, isSpace byte = true

instance (rest : List UInt8) : Decidable (Separated rest) :=
  inferInstanceAs (Decidable (∀ byte ∈ rest.head?, isSpace byte = true))

structure Word (word : List UInt8) : Prop where
  some : word ≠ []
  solid : ∀ byte ∈ word, isSpace byte = false

theorem Word.not_space_head {word rest : List UInt8} (solid : Word word) :
    (word ++ rest).dropWhile isSpace = word ++ rest := by
  obtain ⟨byte, tail, rfl⟩ := List.exists_cons_of_ne_nil solid.some
  have head := solid.solid byte List.mem_cons_self
  simp [head]

/-! The words of a text. -/

theorem words_cons_blank {byte : UInt8} (blank : isSpace byte = true) (text : List UInt8) :
    words (byte :: text) = words text := by
  simp [words, List.splitOnP_cons_eq_if_modifyHead, blank]

theorem words_dropWhile (text : List UInt8) : words (text.dropWhile isSpace) = words text := by
  induction text with
  | nil => rfl
  | cons byte text ih =>
    by_cases blank : isSpace byte = true
    · rw [List.dropWhile_cons_of_pos blank, ih, words_cons_blank blank]
    · rw [List.dropWhile_cons_of_neg blank]

theorem words_append {word rest : List UInt8} (solid : Word word) (separated : Separated rest) :
    words (word ++ rest) = word :: words rest := by
  cases rest with
  | nil =>
    have whole : word.splitOnP isSpace = [word] := List.splitOnP_eq_singleton solid.solid
    simp [words, whole, solid.some]
  | cons byte rest =>
    have blank : isSpace byte = true := separated byte rfl
    have split := List.splitOnP_append_cons_of_forall_mem solid.solid byte blank rest
    rw [words_cons_blank blank]
    simp [words, split, solid.some]

theorem dropWhile_blank_or_word (text : List UInt8) :
    text.dropWhile isSpace = [] ∨
      ∃ word rest, text.dropWhile isSpace = word ++ rest ∧ Word word ∧ Separated rest := by
  cases first : text.dropWhile isSpace with
  | nil => exact .inl rfl
  | cons byte rest =>
    have head : isSpace byte = false := by
      have := List.head?_dropWhile_not isSpace text
      rw [first] at this
      simpa using this
    refine .inr ⟨(byte :: rest).takeWhile fun b => !isSpace b,
      (byte :: rest).dropWhile fun b => !isSpace b, List.takeWhile_append_dropWhile.symm,
      ⟨by simp [head], fun b member => by simpa using List.mem_takeWhile_imp member⟩, ?_⟩
    intro b next
    have := List.head?_dropWhile_not (fun b => !isSpace b) (byte :: rest)
    rw [Option.mem_def.mp next] at this
    simpa using this

theorem words_eq_nil_iff (text : List UInt8) :
    words text = [] ↔ text.dropWhile isSpace = [] := by
  rw [← words_dropWhile]
  rcases dropWhile_blank_or_word text with blank | ⟨word, rest, whole, solid, separated⟩
  · simp [blank, words]
  · rw [whole, words_append solid separated]
    simp [solid.some]

theorem words_eq_cons_iff (text word : List UInt8) (more : List (List UInt8)) :
    words text = word :: more ↔ ∃ rest, text.dropWhile isSpace = word ++ rest ∧ Word word ∧
      Separated rest ∧ words rest = more := by
  constructor
  · intro cut
    rcases dropWhile_blank_or_word text with blank | ⟨first, rest, whole, solid, separated⟩
    · rw [(words_eq_nil_iff text).mpr blank] at cut
      contradiction
    · rw [← words_dropWhile, whole, words_append solid separated, List.cons.injEq] at cut
      obtain ⟨rfl, rfl⟩ := cut
      exact ⟨rest, whole, solid, separated, rfl⟩
  · rintro ⟨rest, whole, solid, separated, rfl⟩
    rw [← words_dropWhile, whole, words_append solid separated]

/-! Strings. -/

theorem string_eq_none_iff (width : Nat) (text : List UInt8) :
    string width text = none ↔ text.dropWhile isSpace = [] := by
  rw [string]
  cases text.dropWhile isSpace <;> simp

/-- What is read is the front of the first word, as far as the width goes. -/
theorem string_some {width : Nat} (positive : 0 < width) {text word rest : List UInt8}
    (read : string width text = some (word, rest)) :
    text.dropWhile isSpace = word ++ rest ∧ Word word ∧ word.length ≤ width := by
  rw [string] at read
  rcases dropWhile_blank_or_word text with blank | ⟨first, tail, whole, solid, separated⟩
  · simp [blank] at read
  obtain ⟨byte, more, cons⟩ := List.exists_cons_of_ne_nil solid.some
  rw [whole, cons, List.cons_append] at read ⊢
  simp only [Option.some.injEq, Prod.mk.injEq] at read
  obtain ⟨rfl, rfl⟩ := read
  have front := (List.takeWhile_prefix (fun b => !isSpace b)
    (l := (byte :: (more ++ tail)).take width)).trans (List.take_prefix _ _)
  have head : isSpace byte = false := solid.solid byte (cons ▸ List.mem_cons_self)
  obtain ⟨k, rfl⟩ : ∃ k, width = k + 1 := ⟨width - 1, by omega⟩
  refine ⟨?_, ⟨?_, fun b member => by simpa using List.mem_takeWhile_imp member⟩, ?_⟩
  · exact List.prefix_append_drop front
  · simp [head]
  · exact (List.takeWhile_prefix _).length_le.trans (List.length_take_le _ _)

theorem string_word {width : Nat} {text word rest : List UInt8}
    (whole : text.dropWhile isSpace = word ++ rest) (solid : Word word)
    (separated : Separated rest) (short : word.length ≤ width) :
    string width text = some (word, rest) := by
  obtain ⟨byte, more, cons⟩ := List.exists_cons_of_ne_nil solid.some
  have kept : ((word ++ rest).take width).takeWhile (fun b => !isSpace b) = word := by
    rw [List.take_append, List.take_of_length_le short,
      List.takeWhile_append_of_pos (by simpa using solid.solid)]
    cases rest with
    | nil => simp
    | cons next tail =>
      have blank : isSpace next = true := separated next rfl
      cases width - word.length <;> simp [blank]
  rw [string, whole, cons, List.cons_append]
  simp only [← List.cons_append, ← cons, kept, List.drop_left]

/-! Numbers. -/

theorem magnitude_eq_some_iff (negative : Bool) (text rest : List UInt8) (n : Numeral) :
    magnitude negative text = some (n, rest) ↔ ∃ digits, text = digits ++ rest ∧ digits ≠ [] ∧
      (∀ digit ∈ digits, isDigit digit = true) ∧ (∀ byte ∈ rest.head?, isDigit byte = false) ∧
      n = ⟨negative, Decimal.value digits⟩ := by
  constructor
  · intro read
    rw [magnitude] at read
    cases digits : text.takeWhile isDigit with
    | nil => simp [digits] at read
    | cons digit more =>
      simp only [digits, Option.some.injEq, Prod.mk.injEq] at read
      obtain ⟨rfl, rfl⟩ := read
      refine ⟨digit :: more, ?_, by simp, fun d member => ?_, fun byte next => ?_, rfl⟩
      · rw [← digits, List.takeWhile_append_dropWhile]
      · exact List.mem_takeWhile_imp (digits ▸ member)
      · have := List.head?_dropWhile_not isDigit text
        rw [Option.mem_def.mp next] at this
        simpa using this
  · rintro ⟨digits, rfl, some, all, stop, rfl⟩
    have front : (digits ++ rest).takeWhile isDigit = digits := by
      rw [List.takeWhile_append_of_pos all]
      cases rest with
      | nil => simp
      | cons byte rest => simp [stop byte rfl]
    have behind : (digits ++ rest).dropWhile isDigit = rest := by
      rw [List.dropWhile_append_of_pos all]
      cases rest with
      | nil => rfl
      | cons byte rest => simp [stop byte rfl]
    obtain ⟨digit, more, cons⟩ := List.exists_cons_of_ne_nil some
    rw [magnitude, front, behind, cons]

theorem not_digit_sign {byte : UInt8} (digit : isDigit byte = true) : byte ≠ 45 ∧ byte ≠ 43 := by
  constructor <;> rintro rfl <;> simp [isDigit] at digit

/-- The bytes of a number: its sign, if there is one, and its digits. -/
structure Spelled (word : List UInt8) (n : Numeral) : Prop where
  split : ∃ sign digits, word = sign ++ digits ∧ (sign = [] ∨ sign = [43] ∨ sign = [45]) ∧
    digits ≠ [] ∧ (∀ digit ∈ digits, isDigit digit = true) ∧
    n = ⟨decide (sign = [45]), Decimal.value digits⟩

theorem number_eq_some_iff (text rest : List UInt8) (n : Numeral) :
    number text = some (n, rest) ↔ ∃ word, text.dropWhile isSpace = word ++ rest ∧
      Spelled word n ∧ ∀ byte ∈ rest.head?, isDigit byte = false := by
  rw [number]
  constructor
  · intro read
    cases first : text.dropWhile isSpace with
    | nil => simp [first] at read
    | cons sign tail =>
      simp only [first] at read
      split at read
      next minus =>
        obtain ⟨digits, rfl, some, all, stop, rfl⟩ := (magnitude_eq_some_iff ..).mp read
        exact ⟨45 :: digits, by rw [minus]; rfl,
          ⟨[45], digits, rfl, by simp, some, all, by simp⟩, stop⟩
      split at read
      next plus =>
        obtain ⟨digits, rfl, some, all, stop, rfl⟩ := (magnitude_eq_some_iff ..).mp read
        exact ⟨43 :: digits, by rw [plus]; rfl,
          ⟨[43], digits, rfl, by simp, some, all, by simp⟩, stop⟩
      · obtain ⟨digits, whole, some, all, stop, rfl⟩ := (magnitude_eq_some_iff ..).mp read
        exact ⟨digits, whole, ⟨[], digits, rfl, by simp, some, all, by simp⟩, stop⟩
  · rintro ⟨word, whole, ⟨sign, digits, rfl, signs, some, all, rfl⟩, stop⟩
    rw [whole]
    obtain ⟨digit, more, cons⟩ := List.exists_cons_of_ne_nil some
    rcases signs with rfl | rfl | rfl
    · obtain ⟨minus, plus⟩ := not_digit_sign (all digit (cons ▸ List.mem_cons_self))
      subst cons
      simp only [List.nil_append, List.cons_append, minus, plus, ↓reduceIte]
      exact (magnitude_eq_some_iff ..).mpr ⟨digit :: more, rfl, some, all, stop, by simp⟩
    · exact (magnitude_eq_some_iff ..).mpr ⟨digits, rfl, some, all, stop, by simp⟩
    · exact (magnitude_eq_some_iff ..).mpr ⟨digits, rfl, some, all, stop, by simp⟩

theorem isSpace_of_digit {byte : UInt8} (digit : isDigit byte = true) : isSpace byte = false := by
  have range := of_decide_eq_true digit
  rw [isSpace, decide_eq_false_iff_not]
  omega

theorem isDigit_of_space {byte : UInt8} (blank : isSpace byte = true) : isDigit byte = false := by
  by_contra digit
  rw [Bool.not_eq_false] at digit
  simp [isSpace_of_digit digit] at blank

theorem Spelled.word {word : List UInt8} {n : Numeral} (spelled : Spelled word n) : Word word := by
  obtain ⟨sign, digits, rfl, signs, some, all, _⟩ := spelled
  have solid : ∀ digit ∈ digits, isSpace digit = false := fun d member => isSpace_of_digit (all d member)
  rcases signs with rfl | rfl | rfl
  · exact ⟨some, solid⟩
  · exact ⟨by simp, List.forall_mem_cons.mpr ⟨by decide, solid⟩⟩
  · exact ⟨by simp, List.forall_mem_cons.mpr ⟨by decide, solid⟩⟩

theorem integer_eq_some_iff {word : List UInt8} (solid : Word word) (v : Int) :
    integer word = some v ↔ ∃ n, Spelled word n ∧ n.value = v := by
  have whole : word.dropWhile isSpace = word := by
    simpa using @Word.not_space_head word [] solid
  have read (n : Numeral) : number word = some (n, []) ↔ Spelled word n := by
    rw [number_eq_some_iff, whole]
    simp
  constructor
  · intro same
    rw [integer] at same
    split at same
    next n found => exact ⟨n, (read n).mp found, Option.some.inj same⟩
    next => contradiction
  · rintro ⟨n, spelled, rfl⟩
    simp [integer, (read n).mpr spelled]

/-- The word begins with a number, which all its first digits belong to. -/
def Begins (word : List UInt8) (n : Numeral) : Prop :=
  ∃ front rest, word = front ++ rest ∧ Spelled front n ∧ ∀ byte ∈ rest.head?, isDigit byte = false

/-- Where a number is read a word begins with it. -/
theorem number_iff_begins (text : List UInt8) (n : Numeral) :
    (∃ rest, number text = some (n, rest)) ↔
      ∃ word more, words text = word :: more ∧ Begins word n := by
  constructor
  · rintro ⟨rest, read⟩
    obtain ⟨front, whole, spelled, stop⟩ := (number_eq_some_iff ..).mp read
    rw [← List.takeWhile_append_dropWhile (p := fun b => !isSpace b) (l := rest)] at whole stop
    set glued := rest.takeWhile fun b => !isSpace b with glued_eq
    set behind := rest.dropWhile fun b => !isSpace b with behind_eq
    have solid : ∀ byte ∈ glued, isSpace byte = false :=
      fun byte member => by simpa using List.mem_takeWhile_imp member
    have separated : Separated behind := by
      intro byte next
      have := List.head?_dropWhile_not (fun b => !isSpace b) rest
      rw [← behind_eq, Option.mem_def.mp next] at this
      simpa using this
    have word : Word (front ++ glued) :=
      ⟨by simp [spelled.word.some], List.forall_mem_append.mpr ⟨spelled.word.solid, solid⟩⟩
    refine ⟨front ++ glued, words behind, (words_eq_cons_iff ..).mpr
      ⟨behind, by rw [whole, List.append_assoc], word, separated, rfl⟩, front, glued, rfl, spelled, ?_⟩
    exact fun byte first => stop byte (by rw [List.head?_append, Option.mem_def.mp first]; rfl)
  · rintro ⟨_, more, cut, front, glued, rfl, spelled, stop⟩
    obtain ⟨behind, whole, solid, separated, later⟩ := (words_eq_cons_iff ..).mp cut
    refine ⟨glued ++ behind, (number_eq_some_iff ..).mpr
      ⟨front, by rw [whole, List.append_assoc], spelled, fun byte first => ?_⟩⟩
    cases glued with
    | nil => exact isDigit_of_space (separated byte first)
    | cons next tail => exact stop byte first

/-! Fields that are words of their own. -/

theorem words_of_string {width : Nat} (positive : 0 < width) {text word rest : List UInt8}
    (read : string width text = some (word, rest)) (separated : Separated rest) :
    words text = word :: words rest := by
  obtain ⟨whole, solid, _⟩ := string_some positive read
  exact (words_eq_cons_iff ..).mpr ⟨rest, whole, solid, separated, rfl⟩

theorem string_of_words {width : Nat} {text word : List UInt8} {more : List (List UInt8)}
    (cut : words text = word :: more) (short : word.length ≤ width) :
    ∃ rest, string width text = some (word, rest) ∧ Separated rest ∧ words rest = more := by
  obtain ⟨rest, whole, solid, separated, later⟩ := (words_eq_cons_iff ..).mp cut
  exact ⟨rest, string_word whole solid separated short, separated, later⟩

theorem words_of_number {text rest : List UInt8} {n : Numeral}
    (read : number text = some (n, rest)) (separated : Separated rest) :
    ∃ word, words text = word :: words rest ∧ integer word = some n.value := by
  obtain ⟨word, whole, spelled, _⟩ := (number_eq_some_iff ..).mp read
  refine ⟨word, (words_eq_cons_iff ..).mpr ⟨rest, whole, spelled.word, separated, rfl⟩, ?_⟩
  exact (integer_eq_some_iff spelled.word _).mpr ⟨n, spelled, rfl⟩

theorem number_of_words {text word : List UInt8} {more : List (List UInt8)} {v : Int}
    (cut : words text = word :: more) (integral : integer word = some v) :
    ∃ n rest, number text = some (n, rest) ∧ n.value = v ∧ Separated rest ∧ words rest = more := by
  obtain ⟨rest, whole, solid, separated, later⟩ := (words_eq_cons_iff ..).mp cut
  obtain ⟨n, spelled, value⟩ := (integer_eq_some_iff solid v).mp integral
  refine ⟨n, rest, (number_eq_some_iff ..).mpr ⟨word, whole, spelled, ?_⟩, value, separated, later⟩
  exact fun byte next => isDigit_of_space (separated byte next)

theorem length_lt_of_string {width : Nat} (positive : 0 < width) {text word rest : List UInt8}
    (read : string width text = some (word, rest)) : rest.length < text.length := by
  obtain ⟨whole, solid, _⟩ := string_some positive read
  have shorter := (List.dropWhile_suffix isSpace (l := text)).length_le
  have some := List.length_pos_iff.mpr solid.some
  rw [whole, List.length_append] at shorter
  omega

theorem length_le_of_number {text rest : List UInt8} {n : Numeral}
    (read : number text = some (n, rest)) : rest.length ≤ text.length := by
  obtain ⟨word, whole, _, _⟩ := (number_eq_some_iff ..).mp read
  have shorter := (List.dropWhile_suffix isSpace (l := text)).length_le
  rw [whole, List.length_append] at shorter
  omega

end Scan
