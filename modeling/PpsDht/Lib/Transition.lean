import Mathlib.Data.List.Infix

/-! Machines whose actions are possible in some states only, and the events they record.
A log lists its newest event first. -/
namespace Transition

variable {σ α ε : Type}

/-- Takes the actions one after the other; none when one of them is not possible. -/
def run (step : σ → α → Option σ) (s : σ) : List α → Option σ
  | [] => some s
  | action :: rest => (step s action).bind fun s => run step s rest

section Run

variable {step : σ → α → Option σ} {s s' : σ}

theorem run_cons_iff {action : α} {rest : List α} :
    run step s (action :: rest) = some s' ↔ ∃ t, step s action = some t ∧ run step t rest = some s' :=
  Option.bind_eq_some_iff

theorem run_append {first second : List α} {t : σ} (before : run step s first = some t)
    (after : run step t second = some s') : run step s (first ++ second) = some s' := by
  induction first generalizing s with
  | nil =>
    obtain rfl := Option.some.inj before
    exact after
  | cons action rest ih =>
    obtain ⟨u, stepped, ran⟩ := run_cons_iff.mp before
    exact run_cons_iff.mpr ⟨u, stepped, ih ran⟩

/-- What every action keeps, every run keeps. -/
theorem run_invariant {invariant : σ → Prop}
    (kept : ∀ s action s', invariant s → step s action = some s' → invariant s')
    {actions : List α} (start : invariant s) (ran : run step s actions = some s') :
    invariant s' := by
  induction actions generalizing s with
  | nil => exact Option.some.inj ran ▸ start
  | cons action rest ih =>
    obtain ⟨t, stepped, ran⟩ := run_cons_iff.mp ran
    exact ih (kept s action t start stepped) ran

end Run

/-- Every event stands in this relation to the events before it. -/
def Every (related : ε → List ε → Prop) : List ε → Prop
  | [] => True
  | event :: older => related event older ∧ Every related older

/-- Some event started it, and none has stopped it since. -/
def Since (start stop : ε → Prop) : List ε → Prop
  | [] => False
  | event :: older => start event ∨ ¬ stop event ∧ Since start stop older

end Transition
