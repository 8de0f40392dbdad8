import PpsDht.Lib.CString

/-! Texts made of fields that follow one another. A code is unambiguous when no text can begin
with the codes of two things, whatever follows them; a row of such codes is read back. -/
namespace Code

variable {α β : Type}

def Unambiguous (encode : α → List UInt8) : Prop :=
  ∀ a b x y, encode a ++ x = encode b ++ y → a = b

namespace Unambiguous

variable {encode : α → List UInt8} {other : β → List UInt8}

theorem split (code : Unambiguous encode) {a b : α} {x y : List UInt8}
    (same : encode a ++ x = encode b ++ y) : a = b ∧ x = y := by
  obtain rfl := code a b x y same
  exact ⟨rfl, List.append_cancel_left same⟩

theorem injective (code : Unambiguous encode) : Function.Injective encode := by
  intro a b same
  exact code a b [] [] (by rw [same])

theorem append (first : Unambiguous encode) (second : Unambiguous other) :
    Unambiguous fun fields : α × β => encode fields.1 ++ other fields.2 := by
  rintro ⟨a, b⟩ ⟨a', b'⟩ x y same
  simp only [List.append_assoc] at same
  obtain ⟨rfl, rest⟩ := first.split same
  obtain ⟨rfl, _⟩ := second.split rest
  rfl

theorem prepend (code : Unambiguous encode) (front : List UInt8) :
    Unambiguous fun a => front ++ encode a := by
  intro a b x y same
  simp only [List.append_assoc] at same
  exact code a b x y (List.append_cancel_left same)

end Unambiguous

theorem unambiguous_of_length {encode : α → List UInt8} {n : Nat} (length : ∀ a, (encode a).length = n)
    (inj : Function.Injective encode) : Unambiguous encode := by
  intro a b x y same
  exact inj (List.append_inj_left same ((length a).trans (length b).symm))

/-- A field that ends at the first byte it cannot contain. -/
theorem unambiguous_of_terminated {encode : α → List UInt8} {stop : UInt8}
    (absent : ∀ a, stop ∉ encode a) (inj : Function.Injective encode) :
    Unambiguous fun a => encode a ++ [stop] := by
  intro a b x y same
  simp only [List.append_assoc, List.singleton_append] at same
  exact inj (CLib.append_separator_inj (absent a) (absent b) same).1

/-- A field that ends where the next one begins, whose first byte it cannot contain. -/
theorem unambiguous_before {encode : α → List UInt8} {other : β → List UInt8} (stops : UInt8 → Bool)
    (inside : ∀ a, ∀ byte ∈ encode a, stops byte = false)
    (begins : ∀ b, ∃ byte ∈ (other b).head?, stops byte = true) (inj : Function.Injective encode)
    (code : Unambiguous other) : Unambiguous fun fields : α × β => encode fields.1 ++ other fields.2 := by
  have front (a : α) (b : β) (x : List UInt8) :
      (encode a ++ (other b ++ x)).takeWhile (fun byte => !stops byte) = encode a := by
    obtain ⟨byte, head, stop⟩ := begins b
    obtain ⟨rest, whole⟩ := List.head?_eq_some_iff.mp head
    rw [whole, List.takeWhile_append_of_pos fun byte member => by rw [inside a byte member]; rfl,
      List.cons_append, List.takeWhile_cons_of_neg (by rw [stop]; decide), List.append_nil]
  rintro ⟨a, b⟩ ⟨a', b'⟩ x y same
  simp only [List.append_assoc] at same
  obtain rfl : a = a' := by
    apply inj
    rw [← front a b x, same, front]
  obtain rfl := code _ _ x y (List.append_cancel_left same)
  rfl

/-- A row of fields that is followed by something no field begins with. -/
theorem unambiguous_row {encode : α → List UInt8} (code : Unambiguous encode) {stop : UInt8}
    (begins : ∀ a, ∃ byte ∈ (encode a).head?, byte ≠ stop) :
    Unambiguous fun row : List α => row.flatMap encode ++ [stop] := by
  have ends (a : α) (tail y : List UInt8) : encode a ++ tail ≠ stop :: y := by
    intro same
    obtain ⟨byte, head, apart⟩ := begins a
    cases whole : encode a with
    | nil => simp [whole] at head
    | cons first rest =>
      rw [whole] at head same
      obtain rfl := Option.some.inj head
      exact apart (List.cons.inj same).1
  intro row
  induction row with
  | nil =>
    intro row' x y same
    cases row' with
    | nil => rfl
    | cons b row' =>
      simp only [List.flatMap_nil, List.nil_append, List.flatMap_cons, List.append_assoc,
        List.singleton_append] at same
      exact absurd same.symm (ends b _ x)
  | cons a row ih =>
    intro row' x y same
    cases row' with
    | nil =>
      simp only [List.flatMap_nil, List.nil_append, List.flatMap_cons, List.append_assoc,
        List.singleton_append] at same
      exact absurd same (ends a _ y)
    | cons b row' =>
      simp only [List.flatMap_cons, List.append_assoc] at same
      obtain ⟨rfl, rest⟩ := code.split same
      rw [ih row' x y (by simpa only [List.append_assoc] using rest)]

/-- Any row of fields, when none is empty. -/
theorem flatMap_injective {encode : α → List UInt8} (code : Unambiguous encode)
    (some : ∀ a, encode a ≠ []) : Function.Injective fun row : List α => row.flatMap encode := by
  intro row
  induction row with
  | nil =>
    intro row' same
    cases row' with
    | nil => rfl
    | cons b row' => simp [some b] at same
  | cons a row ih =>
    intro row' same
    cases row' with
    | nil => simp [some a] at same
    | cons b row' =>
      simp only [List.flatMap_cons] at same
      obtain ⟨rfl, rest⟩ := code.split same
      rw [ih rest]

end Code
