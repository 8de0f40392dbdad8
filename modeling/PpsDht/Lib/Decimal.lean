import Mathlib.Algebra.Group.Nat.Defs
import Mathlib.Data.List.Basic
import Mathlib.Data.List.Induction
import Mathlib.Data.List.TakeWhile
import Mathlib.Tactic.ByContra

/-! Unsigned decimal numbers as the C library prints and scans them: `%zu` of
`sprintf` and of `sscanf`, the latter with its blanks, its sign and its saturation. -/
namespace Decimal

def isDigit (byte : UInt8) : Bool := decide (48 ≤ byte.toNat ∧ byte.toNat ≤ 57)

/-- `isspace` in the C locale. -/
def isSpace (byte : UInt8) : Bool :=
  decide (byte.toNat = 32 ∨ 9 ≤ byte.toNat ∧ byte.toNat ≤ 13)

def digit (n : Nat) : UInt8 := UInt8.ofNat (48 + n)

def digits : Nat → Nat → List UInt8
  | 0, _ => []
  | fuel + 1, n => if n < 10 then [digit n] else digits fuel (n / 10) ++ [digit (n % 10)]

def print (n : Nat) : List UInt8 := digits (n + 1) n

def value (digits : List UInt8) : Nat := digits.foldl (fun n d => 10 * n + (d.toNat - 48)) 0

/-- The leading digits; none when there are none. -/
def number (text : List UInt8) : Option Nat :=
  match text.takeWhile isDigit with
  | [] => none
  | digits => some (value digits)

/-- A number too large for the type is its largest value, with or without a sign. -/
def saturate (n : Nat) : UInt64 := if n < 2 ^ 64 then UInt64.ofNat n else UInt64.ofNat (2 ^ 64 - 1)

def negate (n : Nat) : UInt64 := if n < 2 ^ 64 then 0 - UInt64.ofNat n else UInt64.ofNat (2 ^ 64 - 1)

/-- What `sscanf` stores for `%zu`; none when the text does not match. -/
def scan (text : List UInt8) : Option UInt64 :=
  match text.dropWhile isSpace with
  | [] => none
  | sign :: rest =>
    if sign = 45 then (number rest).map negate
    else if sign = 43 then (number rest).map saturate
    else (number (sign :: rest)).map saturate

theorem toNat_digit {n : Nat} (small : n < 10) : (digit n).toNat = 48 + n := by
  rw [digit, UInt8.toNat_ofNat']
  omega

theorem isDigit_digit {n : Nat} (small : n < 10) : isDigit (digit n) = true := by
  rw [isDigit, toNat_digit small, decide_eq_true_eq]
  omega

theorem value_concat (ds : List UInt8) (d : UInt8) :
    value (ds ++ [d]) = 10 * value ds + (d.toNat - 48) := by
  simp [value, List.foldl_append]

theorem digits_spec (fuel n : Nat) (enough : n < fuel) :
    (digits fuel n).all isDigit = true ∧ value (digits fuel n) = n ∧ digits fuel n ≠ [] := by
  induction fuel generalizing n with
  | zero => omega
  | succ fuel ih =>
    by_cases small : n < 10
    · simp [digits, small, isDigit_digit small, value, toNat_digit small]
    · have less : n / 10 < fuel := by omega
      obtain ⟨all, same, _⟩ := ih (n / 10) less
      have last : n % 10 < 10 := Nat.mod_lt _ (by omega)
      rw [digits, if_neg small]
      refine ⟨?_, ?_, by simp⟩
      · simp [List.all_append, all, isDigit_digit last]
      · rw [value_concat, same, toNat_digit last]
        omega

theorem print_digits (n : Nat) : ∀ byte ∈ print n, isDigit byte = true :=
  List.all_eq_true.mp (digits_spec (n + 1) n (Nat.lt_succ_self n)).1

theorem value_print (n : Nat) : value (print n) = n :=
  (digits_spec (n + 1) n (Nat.lt_succ_self n)).2.1

theorem print_injective {m n : Nat} (same : print m = print n) : m = n := by
  rw [← value_print m, same, value_print]

theorem print_ne_nil (n : Nat) : print n ≠ [] := (digits_spec (n + 1) n (Nat.lt_succ_self n)).2.2

theorem zero_notMem_print (n : Nat) : (0 : UInt8) ∉ print n :=
  fun member => absurd (print_digits n 0 member) (by decide)

theorem scan_print (n : Nat) (small : n < 2 ^ 64) : scan (print n) = some (UInt64.ofNat n) := by
  obtain ⟨d, ds, whole⟩ := List.exists_cons_of_ne_nil (print_ne_nil n)
  have first : isDigit d = true := print_digits n d (whole ▸ List.mem_cons_self)
  have range := of_decide_eq_true first
  have blank : ¬ isSpace d = true := by
    intro blank
    have space := of_decide_eq_true blank
    omega
  have minus : d ≠ 45 := by rintro rfl; simp at range
  have plus : d ≠ 43 := by rintro rfl; simp at range
  have found : number (print n) = some n := by
    have kept : (print n).takeWhile isDigit = print n :=
      List.takeWhile_eq_self_iff.mpr (print_digits n)
    rw [number, kept, whole]
    simp only [Option.some.injEq]
    rw [← whole, value_print]
  rw [scan, whole, List.dropWhile_cons_of_neg blank]
  simp only [minus, plus, ↓reduceIte]
  rw [← whole, found, Option.map_some, saturate, if_pos small]

theorem length_digits_le (fuel n k : Nat) (some : 0 < k) (small : n < 10 ^ k) :
    (digits fuel n).length ≤ k := by
  induction fuel generalizing n k with
  | zero => exact Nat.zero_le k
  | succ fuel ih =>
    rw [digits]
    split
    · exact some
    next large =>
      obtain ⟨k, rfl⟩ : ∃ j, k = j + 1 := ⟨k - 1, by omega⟩
      have power : 10 ^ (k + 1) = 10 ^ k * 10 := Nat.pow_succ ..
      have more : 0 < k := by
        by_contra zero
        obtain rfl : k = 0 := by omega
        simp at small
        omega
      have rest := ih (n / 10) k more (by omega)
      rw [List.length_append, List.length_singleton]
      omega

theorem length_print_le {n k : Nat} (some : 0 < k) (small : n < 10 ^ k) : (print n).length ≤ k :=
  length_digits_le (n + 1) n k some small

theorem digits_enough {fuel more n : Nat} (enough : n < fuel) (enough' : n < more) :
    digits fuel n = digits more n := by
  induction fuel generalizing more n with
  | zero => omega
  | succ fuel ih =>
    obtain ⟨more, rfl⟩ : ∃ k, more = k + 1 := ⟨more - 1, by omega⟩
    rw [digits, digits]
    split
    · rfl
    · rw [ih (by omega) (show n / 10 < more by omega)]

theorem print_eq (n : Nat) :
    print n = if n < 10 then [digit n] else print (n / 10) ++ [digit (n % 10)] := by
  rw [print, digits]
  split
  · rfl
  · rw [digits_enough (show n / 10 < n by omega) (Nat.lt_succ_self _), print]

theorem digit_toNat {byte : UInt8} (decimal : isDigit byte = true) :
    digit (byte.toNat - 48) = byte := by
  have range := of_decide_eq_true decimal
  apply UInt8.toNat_inj.mp
  rw [toNat_digit (by omega)]
  omega

/-- Only zero is printed with a zero in front. -/
theorem print_leading_zero {n : Nat} (zero : (print n).head? = some 48) : n = 0 := by
  induction n using Nat.strongRecOn with
  | ind n ih =>
    rw [print_eq] at zero
    split at zero
    next small =>
      have same := congrArg UInt8.toNat (Option.some.inj zero)
      rw [toNat_digit small] at same
      exact Nat.add_left_cancel same
    next large =>
      rw [List.head?_append_of_ne_nil _ (print_ne_nil _)] at zero
      have := ih (n / 10) (by omega) zero
      omega

/-- Digits without a zero in front are printed back. -/
theorem print_value {ds : List UInt8} (nonempty : ds ≠ []) (all : ∀ d ∈ ds, isDigit d = true)
    (leading : ds.head? = some 48 → ds.length = 1) : print (value ds) = ds := by
  induction ds using List.reverseRecOn with
  | nil => exact absurd rfl nonempty
  | append_singleton front last ih =>
    have decimal := all last (by simp)
    have range := of_decide_eq_true decimal
    rw [value_concat, print_eq]
    by_cases lone : front = []
    · subst lone
      rw [if_pos (by simp [value]; omega)]
      simp [value, digit_toNat decimal]
    · rw [List.head?_append_of_ne_nil _ lone, List.length_append, List.length_singleton] at leading
      have long := List.length_pos_iff.mpr lone
      have again := ih lone (fun d member => all d (by simp [member])) fun zero => by
        have := leading zero
        omega
      have large : value front ≠ 0 := by
        intro zero
        rw [zero] at again
        have := leading (again ▸ rfl)
        omega
      rw [if_neg (by omega), show (10 * value front + (last.toNat - 48)) / 10 = value front by omega,
        show (10 * value front + (last.toNat - 48)) % 10 = last.toNat - 48 by omega, again,
        digit_toNat decimal]

end Decimal
