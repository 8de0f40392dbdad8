import PpsDht.Lib.Loop

/-! Programs that ask and go on with the answers. One tree is run with answers given
beforehand, with those of a system that the questions change, and with those of a state
machine that says what the system is for; when each answer of the system is the machine's,
so is every program's result. -/

open Loop

/-- A program that asks questions `Q`, is answered with `A` and ends with an `R`. -/
inductive Interaction (Q A R : Type) where
  | halt (outcome : Outcome R)
  | ask (query : Q) (next : A → Interaction Q A R)

namespace Interaction

variable {Q A R L S M : Type}

def run (answer : Nat → Q → Outcome A) : Interaction Q A R → Outcome R
  | halt outcome => outcome
  | ask query next => (answer 0 query).bind fun a => (next a).run fun i => answer (i + 1)

/-- The outcome against a state machine, and the state behind it. -/
def against (f : M → Q → A × M) : M → Interaction Q A R → Outcome R × M
  | m, halt outcome => (outcome, m)
  | m, ask query next => against f (f m query).2 (next (f m query).1)

def Within (allowed : Q → Prop) (f : M → Q → A × M) : M → Interaction Q A R → Prop
  | _, halt _ => True
  | m, ask query next => allowed query ∧ Within allowed f (f m query).2 (next (f m query).1)

/-- The program ends, and each of its questions takes the system on by one step. The step of
question number `i` has the label `labels i`. -/
inductive Runs (step : L → S → Q → A → S → Prop) :
    (Nat → L) → S → Interaction Q A R → R → S → Prop
  | halt (labels : Nat → L) (s : S) (result : R) : Runs step labels s (halt (.done result)) result s
  | ask {labels : Nat → L} {s s' s'' : S} {query : Q} {a : A} {next : A → Interaction Q A R}
      {result : R} (answered : step (labels 0) s query a s')
      (later : Runs step (fun i => labels (i + 1)) s' (next a) result s'') :
      Runs step labels s (ask query next) result s''

variable {step : L → S → Q → A → S → Prop} {labels : Nat → L} {s s' : S}
  {program : Interaction Q A R} {result : R}

/-- Where the labels give the answers, the program ends alike with these. -/
theorem Runs.run_eq {answer : L → Q → Outcome A}
    (given : ∀ l s query a s', step l s query a s' → answer l query = .done a)
    (runs : Runs step labels s program result s') :
    program.run (fun i => answer (labels i)) = .done result := by
  induction runs with
  | halt => rfl
  | ask answered _ ih => simp only [run, given _ _ _ _ _ answered, Outcome.bind, ih]

/-- The system in a state that stands for the machine's answers every allowed question, and
answers it as the machine does. -/
structure Refines (step : L → S → Q → A → S → Prop) (allowed : Q → Prop) (f : M → Q → A × M)
    (Rel : S → M → Prop) : Prop where
  sound : ∀ {l s query a s' m}, Rel s m → allowed query → step l s query a s' →
    a = (f m query).1 ∧ Rel s' (f m query).2
  answers : ∀ {s query m}, Rel s m → allowed query → ∃ l a s', step l s query a s'

section Refinement

variable {Rel : S → M → Prop} {allowed : Q → Prop} {f : M → Q → A × M} {m : M}

theorem Runs.simulates (refines : Refines step allowed f Rel) (rel : Rel s m)
    (within : program.Within allowed f m) (runs : Runs step labels s program result s') :
    (against f m program).1 = .done result ∧ Rel s' (against f m program).2 := by
  induction runs generalizing m with
  | halt => exact ⟨rfl, rel⟩
  | ask answered _ ih =>
    obtain ⟨allow, within⟩ := within
    obtain ⟨rfl, rel'⟩ := refines.sound rel allow answered
    exact ih rel' within

theorem Refines.exists_runs [Nonempty L] (refines : Refines step allowed f Rel) (rel : Rel s m)
    (within : program.Within allowed f m) (ends : (against f m program).1 = .done result) :
    ∃ labels s', Runs step labels s program result s' := by
  induction program generalizing s m with
  | halt outcome =>
    obtain ⟨l⟩ := ‹Nonempty L›
    obtain rfl : outcome = .done result := ends
    exact ⟨fun _ => l, s, .halt ..⟩
  | ask query next ih =>
    obtain ⟨allow, within⟩ := within
    obtain ⟨l, a, s', answered⟩ := refines.answers rel allow
    obtain ⟨rfl, rel'⟩ := refines.sound rel allow answered
    obtain ⟨labels, s'', later⟩ := ih _ rel' within ends
    exact ⟨fun i => i.casesOn l labels, s'', .ask answered later⟩

end Refinement

end Interaction
