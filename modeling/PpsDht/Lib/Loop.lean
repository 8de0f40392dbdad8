import Mathlib.Tactic.ByContra

/-! Loops without a built-in bound. A step goes on, ends with a result or faults;
running out of fuel is none of these, so a loop that never ends is not mistaken for
one that returns. -/
namespace Loop

inductive Step (σ α : Type) where
  | next (state : σ)
  | done (result : α)
  | fault
  deriving DecidableEq

inductive Outcome (α : Type) where
  | done (result : α)
  | fault
  | outOfFuel
  deriving DecidableEq

def Outcome.bind (outcome : Outcome α) (f : α → Outcome β) : Outcome β :=
  match outcome with
  | .done result => f result
  | .fault => .fault
  | .outOfFuel => .outOfFuel

theorem Outcome.bind_done (a : α) (f : α → Outcome β) : (Outcome.done a).bind f = f a := rfl

theorem Outcome.bind_assoc (outcome : Outcome α) (f : α → Outcome β) (g : β → Outcome γ) :
    (outcome.bind f).bind g = outcome.bind fun a => (f a).bind g := by
  cases outcome <;> rfl

theorem Outcome.bind_eq_done_iff {outcome : Outcome α} {f : α → Outcome β} :
    outcome.bind f = .done b ↔ ∃ a, outcome = .done a ∧ f a = .done b := by
  cases outcome <;> simp [Outcome.bind]

def iterate (step : σ → Step σ α) : Nat → σ → Outcome α
  | 0, _ => .outOfFuel
  | fuel + 1, s =>
    match step s with
    | .next s' => iterate step fuel s'
    | .done result => .done result
    | .fault => .fault

def Returns (step : σ → Step σ α) (s : σ) (result : α) : Prop :=
  ∃ fuel, iterate step fuel s = .done result

def Faults (step : σ → Step σ α) (s : σ) : Prop := ∃ fuel, iterate step fuel s = .fault

def Diverges (step : σ → Step σ α) (s : σ) : Prop := ∀ fuel, iterate step fuel s = .outOfFuel

/-- The states in which the step is evaluated. -/
def visits (step : σ → Step σ α) : Nat → σ → List σ
  | 0, _ => []
  | fuel + 1, s =>
    s :: match step s with
      | .next s' => visits step fuel s'
      | _ => []

variable {step : σ → Step σ α} {s s' : σ} {result other : α}

theorem iterate_next (h : step s = .next s') (fuel : Nat) :
    iterate step (fuel + 1) s = iterate step fuel s' := by simp [iterate, h]

theorem iterate_done (h : step s = .done result) (fuel : Nat) :
    iterate step (fuel + 1) s = .done result := by simp [iterate, h]

theorem iterate_fault (h : step s = .fault) (fuel : Nat) :
    iterate step (fuel + 1) s = .fault := by simp [iterate, h]

theorem iterate_mono {fuel more : Nat} (h : fuel ≤ more)
    (ended : iterate step fuel s ≠ .outOfFuel) : iterate step more s = iterate step fuel s := by
  induction fuel generalizing s more with
  | zero => exact absurd rfl ended
  | succ fuel ih =>
    obtain ⟨more, rfl⟩ : ∃ k, more = k + 1 := ⟨more - 1, by omega⟩
    cases hs : step s with
    | next s' =>
      rw [iterate_next hs] at ended ⊢
      rw [iterate_next hs]
      exact ih (by omega) ended
    | done result => rw [iterate_done hs, iterate_done hs]
    | fault => rw [iterate_fault hs, iterate_fault hs]

theorem iterate_agree {m n : Nat} (first : iterate step m s ≠ .outOfFuel)
    (second : iterate step n s ≠ .outOfFuel) : iterate step m s = iterate step n s :=
  (iterate_mono (Nat.le_max_left m n) first).symm.trans (iterate_mono (Nat.le_max_right m n) second)

theorem Returns.unique (first : Returns step s result) (second : Returns step s other) :
    result = other := by
  obtain ⟨m, hm⟩ := first
  obtain ⟨n, hn⟩ := second
  have same : iterate step m s = iterate step n s := iterate_agree (by simp [hm]) (by simp [hn])
  rw [hm, hn] at same
  exact Outcome.done.inj same

theorem Returns.not_faults (returns : Returns step s result) : ¬ Faults step s := by
  obtain ⟨m, hm⟩ := returns
  rintro ⟨n, hn⟩
  have same : iterate step m s = iterate step n s := iterate_agree (by simp [hm]) (by simp [hn])
  rw [hm, hn] at same
  contradiction

theorem returns_next (h : step s = .next s') :
    Returns step s result ↔ Returns step s' result := by
  constructor
  · rintro ⟨fuel, ended⟩
    cases fuel with
    | zero => simp [iterate] at ended
    | succ fuel => exact ⟨fuel, by rwa [iterate_next h] at ended⟩
  · rintro ⟨fuel, ended⟩
    exact ⟨fuel + 1, by rwa [iterate_next h]⟩

theorem returns_done (h : step s = .done result) : Returns step s result :=
  ⟨1, iterate_done h 0⟩

theorem Returns.not_diverges (h : Returns step s result) : ¬ Diverges step s := by
  obtain ⟨fuel, ended⟩ := h
  intro forever
  simp [forever fuel] at ended

/-- Divergence: an invariant under which every step goes on. -/
theorem diverges_of_invariant (invariant : σ → Prop)
    (progress : ∀ s, invariant s → ∃ s', step s = .next s' ∧ invariant s')
    (initial : invariant s) : Diverges step s := by
  intro fuel
  induction fuel generalizing s with
  | zero => rfl
  | succ fuel ih =>
    obtain ⟨s', hs, next⟩ := progress s initial
    rw [iterate_next hs]
    exact ih next

/-- An invariant kept by every step that goes on holds wherever the step is evaluated. -/
theorem visits_of_invariant (invariant : σ → Prop)
    (kept : ∀ s s', invariant s → step s = .next s' → invariant s') (initial : invariant s)
    (fuel : Nat) : ∀ visited ∈ visits step fuel s, invariant visited := by
  induction fuel generalizing s with
  | zero => simp [visits]
  | succ fuel ih =>
    intro visited member
    rcases List.mem_cons.mp member with rfl | later
    · exact initial
    · cases hs : step s with
      | next s' =>
        rw [hs] at later
        exact ih (kept s s' initial hs) visited later
      | done result => simp [hs] at later
      | fault => simp [hs] at later

/-- With fuel above a measure that every step lowers, a loop ends. -/
theorem iterate_ends_of_decreasing (measure : σ → Nat)
    (decreases : ∀ s s', step s = .next s' → measure s' < measure s) {fuel : Nat}
    (enough : measure s < fuel) : iterate step fuel s ≠ .outOfFuel := by
  induction fuel generalizing s with
  | zero => omega
  | succ fuel ih =>
    cases hs : step s with
    | next s' =>
      have less := decreases s s' hs
      rw [iterate_next hs]
      exact ih (by omega)
    | done result => simp [iterate_done hs]
    | fault => simp [iterate_fault hs]

theorem iterate_ne_fault (sound : ∀ s, step s ≠ .fault) (fuel : Nat) :
    iterate step fuel s ≠ .fault := by
  induction fuel generalizing s with
  | zero => simp [iterate]
  | succ fuel ih =>
    cases hs : step s with
    | next s' =>
      rw [iterate_next hs]
      exact ih
    | done result => simp [iterate_done hs]
    | fault => exact absurd hs (sound s)

/-- A loop whose steps another one takes as well, to a result that it gives as well. -/
theorem iterate_simulates {τ β : Type} {other : τ → Step τ β} (state : σ → τ) {a : α} {b : β}
    (goes : ∀ s s', step s = .next s' → other (state s) = .next (state s'))
    (ends : ∀ s, step s = .done a → other (state s) = .done b) {fuel : Nat}
    (ran : iterate step fuel s = .done a) : iterate other fuel (state s) = .done b := by
  induction fuel generalizing s with
  | zero => contradiction
  | succ fuel ih =>
    cases hs : step s with
    | next s' =>
      rw [iterate_next hs] at ran
      rw [iterate_next (goes s s' hs)]
      exact ih ran
    | done result =>
      rw [iterate_done hs] at ran
      obtain rfl := Outcome.done.inj ran
      exact iterate_done (ends s hs) fuel
    | fault => rw [iterate_fault hs] at ran; contradiction

end Loop
