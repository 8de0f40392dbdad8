import Mathlib.Data.List.Count

/-! A loop that is fed a stream of events and gives up after a fixed number of them.
Some events leave its state alone and still cost a turn. Without them the loop can only
succeed more often, and it does exactly when the completing event comes too late. -/
namespace Budget

variable {σ ε ρ : Type} (feed : σ → ε → σ ⊕ ρ)

/-- The result of a loop that takes at most `n` events. -/
def run : Nat → σ → List ε → Option ρ
  | 0, _, _ => none
  | _ + 1, _, [] => none
  | n + 1, s, e :: es =>
    match feed s e with
    | .inl s' => run n s' es
    | .inr r => some r

/-- The position of the event that completes an unbounded loop, and the result. -/
def first : σ → List ε → Option (Nat × ρ)
  | _, [] => none
  | s, e :: es =>
    match feed s e with
    | .inl s' => (first s' es).map fun (k, r) => (k + 1, r)
    | .inr r => some (0, r)

theorem first_cons_next {s s' : σ} {e : ε} (next : feed s e = .inl s') (es : List ε) :
    first feed s (e :: es) = (first feed s' es).map fun (k, r) => (k + 1, r) := by
  simp only [first, next]

theorem first_cons_done {s : σ} {e : ε} {r : ρ} (done : feed s e = .inr r) (es : List ε) :
    first feed s (e :: es) = some (0, r) := by
  simp only [first, done]

theorem first_succ_iff {s s' : σ} {e : ε} (next : feed s e = .inl s') (es : List ε) (k : Nat)
    (r : ρ) : first feed s (e :: es) = some (k + 1, r) ↔ first feed s' es = some (k, r) := by
  rw [first_cons_next feed next]
  cases first feed s' es <;> simp [Prod.ext_iff]

theorem first_ne_zero {s s' : σ} {e : ε} (next : feed s e = .inl s') (es : List ε) (r : ρ) :
    first feed s (e :: es) ≠ some (0, r) := by
  rw [first_cons_next feed next]
  cases first feed s' es <;> simp

/-- A budget is enough when the completing event is within it. -/
theorem run_eq (n : Nat) (s : σ) (es : List ε) :
    run feed n s es = (first feed s es).bind fun (k, r) => if k < n then some r else none := by
  induction es generalizing n s with
  | nil => cases n <;> rfl
  | cons e es ih =>
    cases n with
    | zero => cases first feed s (e :: es) <;> simp [run]
    | succ n =>
      cases step : feed s e with
      | inl s' =>
        rw [first_cons_next feed step]
        simp only [run, step, ih]
        cases first feed s' es <;> simp
      | inr r =>
        rw [first_cons_done feed step]
        simp [run, step]

section Ignored

variable {p : ε → Bool} (ignored : ∀ s e, p e = false → feed s e = .inl s)

include ignored

/-- Dropping ignored events moves the completing event forward by their number. -/
theorem first_filter (s : σ) (es : List ε) :
    first feed s (es.filter p) =
      (first feed s es).map fun (k, r) => ((es.take k).countP p, r) := by
  induction es generalizing s with
  | nil => rfl
  | cons e es ih =>
    by_cases kept : p e = true
    · rw [List.filter_cons_of_pos kept]
      cases step : feed s e with
      | inl s' =>
        rw [first_cons_next feed step, first_cons_next feed step, ih]
        cases first feed s' es <;> simp [kept]
      | inr r =>
        rw [first_cons_done feed step, first_cons_done feed step]
        rfl
    · have step := ignored s e (Bool.eq_false_iff.mpr kept)
      rw [List.filter_cons_of_neg kept, first_cons_next feed step, ih]
      cases first feed s es <;> simp [kept]

theorem countP_take_first {s : σ} {es : List ε} {k : Nat} {r : ρ}
    (ended : first feed s es = some (k, r)) :
    (es.take (k + 1)).countP p = (es.take k).countP p + 1 := by
  induction es generalizing s k with
  | nil => simp [first] at ended
  | cons e es ih =>
    cases step : feed s e with
    | inl s' =>
      rw [first_cons_next feed step, Option.map_eq_some_iff] at ended
      obtain ⟨⟨k', r'⟩, inner, same⟩ := ended
      simp only [Prod.mk.injEq] at same
      obtain ⟨rfl, rfl⟩ := same
      have later := ih inner
      simp only [List.take_succ_cons, List.countP_cons] at later ⊢
      omega
    | inr r' =>
      rw [first_cons_done feed step] at ended
      obtain ⟨rfl, _⟩ := Prod.mk.inj (Option.some.inj ended)
      have kept : p e = true := by
        by_contra other
        have next := ignored s e (Bool.eq_false_iff.mpr other)
        rw [step] at next
        contradiction
      simp [kept]

/-- The ignored events change nothing exactly when the event that completes the loop
without them is among the first `n` of all. -/
theorem run_filter_eq_iff (n : Nat) (s : σ) (es : List ε) :
    run feed n s es = run feed n s (es.filter p) ↔
      ∀ k r, first feed s (es.filter p) = some (k, r) → k < n → k < (es.take n).countP p := by
  rw [run_eq, run_eq, first_filter feed ignored]
  cases ended : first feed s es with
  | none => simp
  | some found =>
    obtain ⟨i, r⟩ := found
    have completing := countP_take_first feed ignored ended
    have shorter : (es.take i).countP p ≤ i :=
      Nat.le_trans List.countP_le_length (List.length_take_le i es)
    have grows {m m' : Nat} (le : m ≤ m') : (es.take m).countP p ≤ (es.take m').countP p :=
      (List.take_prefix_take_left le).sublist.countP_le
    have inTime : i < n ↔ (es.take i).countP p < (es.take n).countP p := by
      constructor
      · intro within
        have : (es.take (i + 1)).countP p ≤ (es.take n).countP p := grows within
        omega
      · intro less
        by_contra late
        have := grows (Nat.le_of_not_lt late)
        omega
    simp only [Option.map_some, Option.bind_some, Option.some.injEq, Prod.mk.injEq]
    constructor
    · rintro same k r' ⟨rfl, rfl⟩ within
      rw [if_pos within] at same
      apply inTime.mp
      by_contra late
      simp [late] at same
    · intro timely
      by_cases within : (es.take i).countP p < n
      · rw [if_pos (inTime.mpr (timely _ r ⟨rfl, rfl⟩ within)), if_pos within]
      · have late : ¬ i < n := by omega
        rw [if_neg late, if_neg within]

end Ignored

end Budget
