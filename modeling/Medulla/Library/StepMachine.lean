import Mathlib.Tactic.Common

/-! # Step machines

A deterministic machine that takes one input at a time and may give a value for it. -/

namespace Medulla.Library.StepMachine

/-- A machine with states `σ` over inputs `ι` that gives values `ν`. -/
structure Machine (σ ι ν : Type) where
  init : σ
  step : σ → ι → σ × Option ν

namespace Machine

variable {σ ι ν τ : Type} (m : Machine σ ι ν)

/-- The state after some inputs, each under a key. -/
def after (s : σ) : List (τ × ι) → σ
  | [] => s
  | row :: rows => after (m.step s row.2).1 rows

/-- The values given, under the keys of their inputs. -/
def outputs (s : σ) : List (τ × ι) → List (τ × ν)
  | [] => []
  | row :: rows =>
    ((m.step s row.2).2.map fun v => (row.1, v)).toList ++ outputs (m.step s row.2).1 rows

theorem after_append : ∀ (rows rest : List (τ × ι)) (s : σ),
    m.after s (rows ++ rest) = m.after (m.after s rows) rest
  | [], _, _ => rfl
  | row :: rows, rest, s => after_append rows rest (m.step s row.2).1

/-- **A run may be cut**: the rest gives what it gives from the state reached. -/
theorem outputs_append : ∀ (rows rest : List (τ × ι)) (s : σ),
    m.outputs s (rows ++ rest) = m.outputs s rows ++ m.outputs (m.after s rows) rest
  | [], _, _ => rfl
  | row :: rows, rest, s => by
    have hrest := outputs_append rows rest (m.step s row.2).1
    simp only [List.cons_append, outputs, after, hrest, List.append_assoc]

end Machine

end Medulla.Library.StepMachine
