import Mathlib.Algebra.GroupWithZero.Nat
import Mathlib.Algebra.Ring.Int.Defs
import Mathlib.Tactic.Common

/-! # Fallible steps and fixed-width counters

Refusals with a message are `Except String`; `require` is one guard. A counter of a fixed width is a
natural number with its bound explicit: `checkedAdd` refuses to pass the bound and `saturatingAdd`
stops at it. -/

namespace Medulla.Library.Checked

/-! ### Guards -/

variable {ε : Type}

/-- Refuse with a message unless the condition holds. -/
def require (c : Prop) [Decidable c] (message : String) : Except String Unit :=
  if c then .ok () else .error message

def okOr {α : Type} (x : Option α) (message : String) : Except String α :=
  match x with
  | some a => .ok a
  | none => .error message

def rejectIf {ε : Type} (c : Prop) [Decidable c] (e : ε) : Except ε Unit :=
  if c then .error e else .ok ()

section
variable {α β : Type}

@[simp] theorem rejectIf_eq_ok {c : Prop} [Decidable c] {e : ε} {u : Unit} :
    rejectIf c e = .ok u ↔ ¬ c := by
  unfold rejectIf
  split_ifs with h <;> simp [h]

@[simp] theorem require_eq_ok {c : Prop} [Decidable c] {message : String} {u : Unit} :
    require c message = .ok u ↔ c := by
  unfold require
  split_ifs with h <;> simp [h]

@[simp] theorem okOr_eq_ok {x : Option α} {message : String} {a : α} :
    okOr x message = .ok a ↔ x = some a := by
  cases x <;> simp [okOr]

theorem bind_eq_ok {x : Except ε α} {f : α → Except ε β} {b : β} :
    (x >>= f) = .ok b ↔ ∃ a, x = .ok a ∧ f a = .ok b := by
  cases x <;> simp [bind, Except.bind]

/-- What a computation that succeeds has computed first. -/
theorem unbind {x : Except ε α} {f : α → Except ε β} {b : β} (h : (x >>= f) = .ok b) :
    ∃ a, x = .ok a ∧ f a = .ok b :=
  bind_eq_ok.mp h

theorem check_eq_ok {x : Except ε Unit} {f : Unit → Except ε β} {b : β} :
    (x >>= f) = .ok b ↔ x = .ok () ∧ f () = .ok b := by
  cases x <;> simp [bind, Except.bind]

@[simp] theorem pure_eq_ok {a b : α} : (pure a : Except ε α) = .ok b ↔ a = b := by
  simp [pure, Except.pure]

theorem exists_ok_of_any {ε α : Type} {r : Except ε α} {p : α → Bool}
    (h : r.toOption.any p = true) : ∃ a, r = .ok a ∧ p a = true := by
  cases r with
  | error e => exact absurd h (by simp [Except.toOption])
  | ok a => exact ⟨a, rfl, h⟩

def mapError (f : String → String) : Except String α → Except String α
  | .ok a => .ok a
  | .error e => .error (f e)

@[simp] theorem mapError_eq_ok {f : String → String} {x : Except String α} {a : α} :
    mapError f x = .ok a ↔ x = .ok a := by
  cases x <;> simp [mapError]

end

/-! ### Counters -/

/-- Greatest 64-bit unsigned value. -/
def u64Max : ℕ := 18446744073709551615

/-- Greatest 32-bit unsigned value. -/
def u32Max : ℕ := 4294967295

def checkedAdd (bound a b : ℕ) : Option ℕ := if a + b ≤ bound then some (a + b) else none

/-- Subtraction that refuses to go below zero. -/
def checkedSub (a b : ℕ) : Option ℕ := if b ≤ a then some (a - b) else none

def saturatingAdd (bound a b : ℕ) : ℕ := min (a + b) bound

@[simp] theorem checkedAdd_eq_some {bound a b c : ℕ} :
    checkedAdd bound a b = some c ↔ a + b = c ∧ a + b ≤ bound := by
  unfold checkedAdd
  split_ifs with h <;> simp [h]

@[simp] theorem checkedSub_eq_some {a b c : ℕ} : checkedSub a b = some c ↔ b ≤ a ∧ a - b = c := by
  unfold checkedSub
  split_ifs with h <;> simp [h]

/-! ### Signed words -/

/-- A value that fits a signed 128-bit word. -/
def checkedI128 (v : Int) : Option Int := if -2 ^ 127 ≤ v ∧ v < 2 ^ 127 then some v else none

theorem checkedI128_eq_some {v w : Int} (h : checkedI128 v = some w) : v = w := by
  unfold checkedI128 at h
  split_ifs at h
  exact Option.some.inj h

end Medulla.Library.Checked
