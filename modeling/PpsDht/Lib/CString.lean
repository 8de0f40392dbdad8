import Mathlib.Data.List.Infix
import Mathlib.Data.List.Lex
import Mathlib.Data.List.TakeWhile
import Mathlib.Order.Basic

/-! C strings and zero-filled buffers. A string is its bytes before the NUL, so a
value with an inner NUL cannot be built. Strings are ordered by prefix; byte arrays
compared by `strncmp` are ordered by what precedes their first NUL. -/
namespace CLib

/-- The first separator decides where the part before it ends. -/
theorem append_separator_inj {a b rest rest' : List UInt8} {separator : UInt8}
    (first : separator ∉ a) (second : separator ∉ b)
    (same : a ++ separator :: rest = b ++ separator :: rest') : a = b ∧ rest = rest' := by
  induction a generalizing b with
  | nil =>
    cases b with
    | nil => exact ⟨rfl, (List.cons.inj same).2⟩
    | cons byte b => exact absurd ((List.cons.inj same).1 ▸ List.mem_cons_self) second
  | cons byte a ih =>
    cases b with
    | nil => exact absurd ((List.cons.inj same).1 ▸ List.mem_cons_self) first
    | cons byte' b =>
      obtain ⟨rfl, later⟩ := List.cons.inj same
      obtain ⟨rfl, tails⟩ := ih (fun member => first (List.mem_cons_of_mem _ member))
        (fun member => second (List.mem_cons_of_mem _ member)) later
      exact ⟨rfl, tails⟩

theorem toNat_pos {byte : UInt8} (nonzero : byte ≠ 0) : 0 < byte.toNat := by
  have : byte.toNat ≠ 0 := fun zero => nonzero (UInt8.toNat_inj.mp zero)
  omega

/-- The bytes of a C string, without the NUL that ends it. -/
structure CString where
  bytes : List UInt8
  nulFree : (0 : UInt8) ∉ bytes
  deriving DecidableEq

namespace CString

@[ext] theorem ext {s t : CString} (h : s.bytes = t.bytes) : s = t := by
  cases s; cases t; simp_all

theorem ne_zero_of_mem (s : CString) {byte : UInt8} (member : byte ∈ s.bytes) : byte ≠ 0 := by
  rintro rfl
  exact s.nulFree member

def strlen (s : CString) : Nat := s.bytes.length

def empty : CString := ⟨[], List.not_mem_nil⟩

@[simp] theorem bytes_empty : empty.bytes = [] := rfl

theorem bytes_eq_nil_iff {s : CString} : s.bytes = [] ↔ s = empty :=
  ⟨fun h => ext h, fun h => by rw [h]; rfl⟩

theorem strlen_eq_zero_iff {s : CString} : s.strlen = 0 ↔ s = empty := by
  rw [← bytes_eq_nil_iff, strlen, List.length_eq_zero_iff]

theorem exists_strlen (n : Nat) : ∃ s : CString, s.strlen = n :=
  ⟨⟨List.replicate n 97, by simp [List.mem_replicate]⟩, List.length_replicate⟩

/-- `s ≤ t` when `s` is a prefix of `t`. -/
instance : LE CString := ⟨fun s t => s.bytes <+: t.bytes⟩

theorem le_def {s t : CString} : s ≤ t ↔ s.bytes <+: t.bytes := Iff.rfl

instance : PartialOrder CString where
  le_refl s := List.prefix_rfl
  le_trans _ _ _ := List.IsPrefix.trans
  le_antisymm s t st ts := ext (st.eq_of_length (Nat.le_antisymm st.length_le ts.length_le))

instance (s t : CString) : Decidable (s ≤ t) :=
  inferInstanceAs (Decidable (s.bytes <+: t.bytes))

instance (s t : CString) : Decidable (s < t) :=
  decidable_of_iff (s ≤ t ∧ ¬ t ≤ s) lt_iff_le_not_ge.symm

/-- The string that starts at a pointer to `memory`, provided a NUL follows. -/
def ofMemory (memory : List UInt8) : CString :=
  ⟨memory.takeWhile (· ≠ 0), fun member => by simpa using List.mem_takeWhile_imp member⟩

@[simp] theorem bytes_ofMemory (memory : List UInt8) :
    (ofMemory memory).bytes = memory.takeWhile (· ≠ 0) := rfl

theorem takeWhile_bytes (s : CString) (rest : List UInt8) :
    (s.bytes ++ 0 :: rest).takeWhile (· ≠ 0) = s.bytes := by
  rw [List.takeWhile_append_of_pos]
  · simp
  · intro byte member
    simpa using s.ne_zero_of_mem member

theorem takeWhile_bytes_self (s : CString) : s.bytes.takeWhile (· ≠ 0) = s.bytes := by
  apply List.takeWhile_eq_self_iff.mpr
  intro byte member
  simpa using s.ne_zero_of_mem member

@[simp] theorem ofMemory_bytes (s : CString) : ofMemory s.bytes = s := ext s.takeWhile_bytes_self

@[simp] theorem ofMemory_terminated (s : CString) (rest : List UInt8) :
    ofMemory (s.bytes ++ 0 :: rest) = s := ext (s.takeWhile_bytes rest)

/-- The first NUL decides where a string ends. -/
theorem append_nul_inj {s t : CString} {rest rest' : List UInt8} :
    s.bytes ++ 0 :: rest = t.bytes ++ 0 :: rest' ↔ s = t ∧ rest = rest' := by
  constructor
  · intro same
    obtain ⟨strings, tails⟩ := append_separator_inj s.nulFree t.nulFree same
    exact ⟨ext strings, tails⟩
  · rintro ⟨rfl, rfl⟩
    rfl

def append (s t : CString) : CString :=
  ⟨s.bytes ++ t.bytes, fun member => (List.mem_append.mp member).elim s.nulFree t.nulFree⟩

@[simp] theorem strlen_append (s t : CString) : (s.append t).strlen = s.strlen + t.strlen :=
  List.length_append

theorem append_assoc (s t u : CString) : (s.append t).append u = s.append (t.append u) :=
  ext (List.append_assoc ..)

@[simp] theorem append_empty (s : CString) : s.append empty = s := ext (List.append_nil _)

def join (strings : List CString) : CString := strings.foldr append empty

@[simp] theorem join_nil : join [] = empty := rfl

@[simp] theorem join_cons (s : CString) (strings : List CString) :
    join (s :: strings) = s.append (join strings) := rfl

end CString

/-- Appends at most `n` bytes and a NUL to the string in an array of `capacity` bytes; none
when a byte would be written behind the array. -/
def strncat (capacity : Nat) (dest src : CString) (n : Nat) : Option CString :=
  if dest.strlen + (src.bytes.take n).length < capacity then
    some (dest.append ⟨src.bytes.take n, fun member => src.nulFree (List.mem_of_mem_take member)⟩)
  else none

theorem strncat_whole {capacity n : Nat} {dest src : CString} (short : src.strlen ≤ n)
    (fits : dest.strlen + src.strlen < capacity) :
    strncat capacity dest src n = some (dest.append src) := by
  have whole : src.bytes.take n = src.bytes := List.take_of_length_le short
  simp only [strncat, whole]
  exact if_pos fits

/-- Only the sign of the result is specified by the C library. A list stands for the
bytes up to and excluding the terminator, or for a whole array when `n` is its size. -/
def strncmp : Nat → List UInt8 → List UInt8 → Int
  | 0, _, _ => 0
  | n + 1, a, b =>
    if a.headD 0 ≠ b.headD 0 then (a.headD 0).toNat - (b.headD 0).toNat
    else if a.headD 0 = 0 then 0
    else strncmp n a.tail b.tail

theorem strncmp_cons (n : Nat) (x y : UInt8) (a b : List UInt8) :
    strncmp (n + 1) (x :: a) (y :: b) =
      if x ≠ y then (x.toNat : Int) - y.toNat else if x = 0 then 0 else strncmp n a b := rfl

/-- Bounded by the length of the searched string, the comparison accepts exactly
the strings it is a prefix of. -/
theorem strncmp_eq_zero_iff (key stored : CString) :
    strncmp key.strlen stored.bytes key.bytes = 0 ↔ key ≤ stored := by
  obtain ⟨k, nulk⟩ := key
  obtain ⟨s, nuls⟩ := stored
  simp only [CString.strlen, CString.le_def]
  induction k generalizing s with
  | nil => simp [strncmp]
  | cons x k ih =>
    simp only [List.mem_cons, not_or] at nulk
    cases s with
    | nil =>
      have nonzero : (0 : UInt8) ≠ x := nulk.1
      have positive := toNat_pos nonzero.symm
      simp only [List.length_cons, strncmp, List.headD_nil, List.headD_cons, ne_eq, nonzero,
        not_false_eq_true, ↓reduceIte, List.prefix_nil, reduceCtorEq, iff_false]
      simp only [UInt8.toNat_zero]
      omega
    | cons y s =>
      simp only [List.mem_cons, not_or] at nuls
      rw [List.length_cons, strncmp_cons, List.cons_prefix_cons]
      by_cases same : y = x
      · subst same
        have nonzero : y ≠ 0 := Ne.symm nulk.1
        simpa [nonzero] using ih nulk.2 s nuls.2
      · have apart : y.toNat ≠ x.toNat := fun h => same (UInt8.toNat_inj.mp h)
        simp only [ne_eq, same, not_false_eq_true, ↓reduceIte, Ne.symm same, false_and, iff_false]
        omega

/-- What `strncmp` orders an array by: the bytes before the first NUL among the first `n`. -/
def cut (n : Nat) (a : List UInt8) : List Nat :=
  ((a.take n).takeWhile (· ≠ 0)).map UInt8.toNat

theorem cut_cons (n : Nat) (x : UInt8) (a : List UInt8) :
    cut (n + 1) (x :: a) = if x = 0 then [] else x.toNat :: cut n a := by
  by_cases zero : x = 0 <;> simp [cut, zero]

/-- `strncmp` compares two arrays as the lexicographic order compares their cuts. -/
theorem strncmp_sign (n : Nat) (a b : List UInt8) :
    (0 < strncmp n a b ↔ cut n b < cut n a) ∧ (strncmp n a b = 0 ↔ cut n a = cut n b) := by
  induction n generalizing a b with
  | zero => simp [strncmp, cut]
  | succ n ih =>
    -- a missing byte reads as the terminator, so both arrays may be taken nonempty
    have pad (l : List UInt8) : cut (n + 1) l = cut (n + 1) (l.headD 0 :: l.tail) := by
      cases l <;> simp [cut]
    have unfolded : strncmp (n + 1) a b =
        strncmp (n + 1) (a.headD 0 :: a.tail) (b.headD 0 :: b.tail) := rfl
    rw [unfolded, pad a, pad b, strncmp_cons, cut_cons, cut_cons]
    generalize a.headD 0 = x
    generalize b.headD 0 = y
    by_cases same : x = y
    · subst same
      by_cases zero : x = 0
      · simp [zero]
      · simpa [zero] using ih a.tail b.tail
    · have apart : x.toNat ≠ y.toNat := fun h => same (UInt8.toNat_inj.mp h)
      simp only [ne_eq, same, not_false_eq_true, ↓reduceIte]
      by_cases zx : x = 0 <;> by_cases zy : y = 0
      · exact absurd (zx.trans zy.symm) same
      · have positive := toNat_pos zy
        simp only [zx, zy, ↓reduceIte, UInt8.toNat_zero]
        exact ⟨⟨fun h => by omega, fun h => absurd h (List.not_lt_nil _)⟩,
          ⟨fun h => by omega, fun h => by simp at h⟩⟩
      · have positive := toNat_pos zx
        simp only [zx, zy, ↓reduceIte, UInt8.toNat_zero]
        exact ⟨⟨fun _ => List.nil_lt_cons _ _, fun _ => by omega⟩,
          ⟨fun h => by omega, fun h => by simp at h⟩⟩
      · simp only [zx, zy, ↓reduceIte, List.cons_lt_cons_iff, List.cons.injEq]
        omega

theorem strncmp_pos_iff (n : Nat) (a b : List UInt8) : 0 < strncmp n a b ↔ cut n b < cut n a :=
  (strncmp_sign n a b).1

theorem strncmp_eq_zero_iff_cut (n : Nat) (a b : List UInt8) :
    strncmp n a b = 0 ↔ cut n a = cut n b := (strncmp_sign n a b).2

theorem strncmp_nonpos_iff (n : Nat) (a b : List UInt8) : strncmp n a b ≤ 0 ↔ cut n a ≤ cut n b := by
  rw [← Int.not_lt, strncmp_pos_iff, not_lt]

theorem strncmp_neg_iff (n : Nat) (a b : List UInt8) : strncmp n a b < 0 ↔ cut n a < cut n b := by
  rw [Int.lt_iff_le_and_ne, lt_iff_le_and_ne, strncmp_nonpos_iff, ne_eq, strncmp_eq_zero_iff_cut]

/-- Cutting at the first NUL only forgets differences behind it. -/
theorem lt_of_cut_lt {n : Nat} {a b : List UInt8} (less : cut n a < cut n b) :
    a.map UInt8.toNat < b.map UInt8.toNat := by
  induction n generalizing a b with
  | zero => simp [cut] at less
  | succ n ih =>
    cases b with
    | nil => simp [cut, List.not_lt_nil] at less
    | cons y b =>
      cases a with
      | nil => exact List.nil_lt_cons _ _
      | cons x a =>
        rw [cut_cons, cut_cons] at less
        by_cases zy : y = 0
        · simp [zy, List.not_lt_nil] at less
        · by_cases zx : x = 0
          · simpa [zx, List.cons_lt_cons_iff] using .inl (toNat_pos zy)
          · simp only [zx, zy, ↓reduceIte, List.cons_lt_cons_iff] at less
            simp only [List.map_cons, List.cons_lt_cons_iff]
            exact less.imp_right fun ⟨same, later⟩ => ⟨same, ih later⟩

/-- An array of `capacity` bytes, zero-filled and then overwritten from its start. -/
structure Buffer (capacity : Nat) where
  written : List UInt8
  fits : written.length ≤ capacity
  deriving DecidableEq

namespace Buffer

variable {capacity : Nat}

/-- A datagram longer than the array loses its tail. -/
def receive (capacity : Nat) (payload : List UInt8) : Buffer capacity :=
  ⟨payload.take capacity, by rw [List.length_take]; exact Nat.min_le_left _ _⟩

theorem written_receive (payload : List UInt8) (fits : payload.length ≤ capacity) :
    (receive capacity payload).written = payload := List.take_of_length_le fits

/-- Reading outside the array has no value. -/
def byte (b : Buffer capacity) (i : Nat) : Option UInt8 :=
  if i < capacity then some (b.written.getD i 0) else none

/-- The string starting at index `i`; none when no NUL ends it inside the array. -/
def string (b : Buffer capacity) (i : Nat) : Option CString :=
  let s := CString.ofMemory (b.written.drop i)
  if i + s.strlen < capacity then some s else none

private theorem takeWhile_eq_iff (l s : List UInt8) (nulFree : (0 : UInt8) ∉ s) :
    l.takeWhile (· ≠ 0) = s ↔
      (∀ j, j < s.length → l.getD j 0 = s.getD j 0) ∧ l.getD s.length 0 = 0 := by
  induction s generalizing l with
  | nil => cases l <;> simp [List.takeWhile_cons]
  | cons x s ih =>
    simp only [List.mem_cons, not_or] at nulFree
    have nonzero : x ≠ 0 := Ne.symm nulFree.1
    cases l with
    | nil =>
      simp only [List.takeWhile_nil, List.length_cons, List.getD_nil, reduceCtorEq, false_iff,
        not_and]
      intro agree
      exact absurd (agree 0 (by omega)).symm (by simpa using nonzero)
    | cons y l =>
      have tail := ih l nulFree.2
      constructor
      · intro eq
        have head : y ≠ 0 := by
          rintro rfl
          simp at eq
        simp only [List.takeWhile_cons, ne_eq, head, not_false_eq_true, decide_true, ↓reduceIte,
          List.cons.injEq] at eq
        obtain ⟨agree, stop⟩ := tail.mp eq.2
        refine ⟨fun j bound => ?_, by simpa using stop⟩
        cases j with
        | zero => simpa using eq.1
        | succ j => simpa using agree j (by simpa using bound)
      · rintro ⟨agree, stop⟩
        have head : y = x := by simpa using agree 0 (by simp)
        subst head
        simp only [List.takeWhile_cons, ne_eq, nonzero, not_false_eq_true, decide_true, ↓reduceIte,
          List.cons.injEq, true_and]
        refine tail.mpr ⟨fun j bound => ?_, by simpa using stop⟩
        simpa using agree (j + 1) (by simpa using bound)

/-- `string` is what a byte-by-byte scan for the terminator reads. -/
theorem string_eq_some_iff (b : Buffer capacity) (i : Nat) (s : CString) :
    b.string i = some s ↔
      (∀ j, j < s.strlen → b.byte (i + j) = some (s.bytes.getD j 0)) ∧
        b.byte (i + s.strlen) = some 0 := by
  have scan : (b.written.drop i).takeWhile (· ≠ 0) = s.bytes ↔
      (∀ j, j < s.strlen → (b.written.drop i).getD j 0 = s.bytes.getD j 0) ∧
        (b.written.drop i).getD s.strlen 0 = 0 := takeWhile_eq_iff _ _ s.nulFree
  simp only [List.getD_eq_getElem?_getD, List.getElem?_drop] at scan
  simp only [string, byte, List.getD_eq_getElem?_getD]
  constructor
  · intro eq
    split at eq
    next inside =>
      obtain rfl := Option.some.inj eq
      obtain ⟨agree, stop⟩ := scan.mp rfl
      refine ⟨fun j bound => ?_, by rw [if_pos inside, stop]⟩
      rw [if_pos (by omega), agree j bound]
    next => contradiction
  · rintro ⟨agree, stop⟩
    have inside : i + s.strlen < capacity := by
      by_contra outside
      simp [outside] at stop
    rw [if_pos inside] at stop
    have same : CString.ofMemory (b.written.drop i) = s := by
      refine CString.ext (scan.mpr ⟨fun j bound => ?_, Option.some.inj stop⟩)
      have here := agree j bound
      rw [if_pos (by omega)] at here
      exact Option.some.inj here
    rw [same, if_pos inside]

/-- A string followed by a NUL among the written bytes is read back. -/
theorem string_of_terminated (b : Buffer capacity) (i : Nat) (s : CString) (rest : List UInt8)
    (here : b.written.drop i = s.bytes ++ 0 :: rest) : b.string i = some s := by
  have bound : i + s.strlen < capacity := by
    have := congrArg List.length here
    simp only [List.length_drop, List.length_append, List.length_cons] at this
    have := b.fits
    simp only [CString.strlen]
    omega
  simp only [string, here, CString.ofMemory_terminated, bound, ↓reduceIte]

/-- A string that ends the written bytes is read back when the array is not full. -/
theorem string_of_last (b : Buffer capacity) (i : Nat) (s : CString)
    (here : b.written.drop i = s.bytes) (room : i + s.strlen < capacity) :
    b.string i = some s := by
  simp only [string, here, CString.ofMemory_bytes, room, ↓reduceIte]

def memory (b : Buffer capacity) : List UInt8 :=
  b.written ++ List.replicate (capacity - b.written.length) 0

@[simp] theorem length_memory (b : Buffer capacity) : b.memory.length = capacity := by
  have := b.fits
  rw [memory, List.length_append, List.length_replicate]
  omega

theorem byte_eq_memory (b : Buffer capacity) (i : Nat) : b.byte i = b.memory[i]? := by
  have := b.fits
  rw [byte, memory, List.getElem?_append, List.getElem?_replicate]
  split
  next inside =>
    split
    next here => simp [here]
    next beyond =>
      have filled : i - b.written.length < capacity - b.written.length := by omega
      simp [filled, List.getElem?_eq_none (Nat.le_of_not_lt beyond)]
  next outside =>
    have beyond : ¬ i < b.written.length := by omega
    have last : ¬ i - b.written.length < capacity - b.written.length := by omega
    rw [if_neg beyond, if_neg last]

theorem string_eq_some_iff_drop (b : Buffer capacity) (i : Nat) (s : CString) :
    b.string i = some s ↔ ∃ rest, b.memory.drop i = s.bytes ++ 0 :: rest := by
  simp only [string_eq_some_iff, byte_eq_memory, ← List.getElem?_drop]
  generalize b.memory.drop i = memory
  constructor
  · rintro ⟨agree, stop⟩
    refine ⟨memory.drop (s.strlen + 1), List.ext_getElem? fun j => ?_⟩
    rcases Nat.lt_trichotomy j s.strlen with before | rfl | after
    · have bound : j < s.bytes.length := before
      rw [agree j before, List.getElem?_append_left bound]
      simp [bound]
    · rw [stop]
      simp [CString.strlen]
    · obtain ⟨k, rfl⟩ : ∃ k, j = s.strlen + 1 + k := ⟨j - (s.strlen + 1), by omega⟩
      have behind : s.bytes.length ≤ s.strlen + 1 + k := by
        rw [CString.strlen]
        omega
      have position : s.strlen + 1 + k - s.bytes.length = k + 1 := by
        rw [CString.strlen]
        omega
      rw [List.getElem?_append_right behind, position, List.getElem?_cons_succ,
        List.getElem?_drop]
  · rintro ⟨rest, rfl⟩
    refine ⟨fun j bound => ?_, ?_⟩
    · have bound : j < s.bytes.length := bound
      rw [List.getElem?_append_left bound]
      simp [bound]
    · simp [CString.strlen]

theorem string_eq_none_iff (b : Buffer capacity) (i : Nat) :
    b.string i = none ↔ (0 : UInt8) ∉ b.memory.drop i := by
  constructor
  · intro none nul
    obtain ⟨front, rest, whole, first⟩ := List.eq_append_cons_of_mem nul
    have read := (b.string_eq_some_iff_drop i ⟨front, first⟩).mpr ⟨rest, whole⟩
    rw [none] at read
    contradiction
  · intro absent
    by_contra read
    obtain ⟨s, found⟩ := Option.ne_none_iff_exists'.mp read
    obtain ⟨rest, whole⟩ := (b.string_eq_some_iff_drop i s).mp found
    exact absent (by simp [whole])

/-- With a free byte at its end the array holds a string at every index. -/
theorem string_eq_none_iff_of_room (b : Buffer capacity) (room : b.written.length < capacity)
    (i : Nat) : b.string i = none ↔ b.memory.drop i = [] := by
  rw [string_eq_none_iff]
  constructor
  · intro absent
    by_contra nonempty
    have inside : i < capacity := by
      by_contra outside
      exact nonempty (List.drop_eq_nil_of_le (by rw [length_memory]; omega))
    have last : (b.memory.drop i)[capacity - 1 - i]? = some 0 := by
      rw [List.getElem?_drop, ← byte_eq_memory, byte, if_pos (by omega)]
      simp [List.getElem?_eq_none (show b.written.length ≤ i + (capacity - 1 - i) by omega)]
    exact absent (List.mem_of_getElem? last)
  · intro empty
    simp [empty]

end Buffer

/-! Searching in a string. -/

/-- The place of the needle, where the C library returns a pointer to it. -/
def strstr (haystack needle : CString) : Option Nat :=
  haystack.bytes.tails.findIdx? fun tail => needle.bytes.isPrefixOf tail

theorem strstr_eq_some_iff (haystack needle : CString) (i : Nat) :
    strstr haystack needle = some i ↔ i ≤ haystack.strlen ∧
      needle.bytes <+: haystack.bytes.drop i ∧ ∀ j < i, ¬ needle.bytes <+: haystack.bytes.drop j := by
  rw [strstr, List.findIdx?_eq_some_iff_getElem]
  simp only [List.getElem_tails, List.isPrefixOf_iff_prefix, List.length_tails, Nat.lt_succ_iff]
  constructor
  · rintro ⟨inside, here, before⟩
    exact ⟨inside, here, fun j earlier => by simpa using before j earlier⟩
  · rintro ⟨inside, here, before⟩
    exact ⟨inside, here, fun j earlier => by simpa using before j earlier⟩

theorem strstr_eq_none_iff (haystack needle : CString) :
    strstr haystack needle = none ↔ ¬ needle.bytes <:+: haystack.bytes := by
  rw [strstr, List.findIdx?_eq_none_iff, List.infix_iff_prefix_suffix]
  simp only [List.mem_tails, Bool.eq_false_iff, ne_eq, List.isPrefixOf_iff_prefix]
  constructor
  · rintro nowhere ⟨tail, here, inside⟩
    exact nowhere tail inside here
  · intro none tail inside here
    exact none ⟨tail, here, inside⟩

end CLib
