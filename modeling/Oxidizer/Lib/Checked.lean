import Mathlib
/-!
# Functions that return early or panic

A value of `Checked ε α` is an `α`, an early return of an `ε` (`?`, `return
Err(..)`), or a panic: an index past the end, or an operation of a machine
integer that leaves its type.
-/

namespace Lib

inductive Halt (ε : Type) where
  | fails (e : ε)
  | panics
  deriving DecidableEq

abbrev Checked (ε α : Type) := Except (Halt ε) α

namespace Checked
variable {ε α β : Type} {w a b n : Nat} {e : ε} {c : Prop} [Decidable c]

/-- The result of an operation of a `w`-bit unsigned type. -/
def fit (w n : Nat) : Checked ε Nat := if n < 2 ^ w then .ok n else .error .panics

def add (w a b : Nat) : Checked ε Nat := fit w (a + b)
def mul (w a b : Nat) : Checked ε Nat := fit w (a * b)
def sub (a b : Nat) : Checked ε Nat := if b ≤ a then .ok (a - b) else .error .panics

def index (xs : List α) (i : Nat) : Checked ε α :=
  match xs[i]? with
  | some x => .ok x
  | none => .error .panics

/-- `if !c { return e; }` -/
def require (c : Prop) [Decidable c] (e : ε) : Checked ε Unit := if c then .ok () else .error (.fails e)

@[simp] theorem ok_bind (a : α) (f : α → Checked ε β) : ((Except.ok a : Checked ε α) >>= f) = f a := rfl

@[simp] theorem error_bind (h : Halt ε) (f : α → Checked ε β) :
    ((Except.error h : Checked ε α) >>= f) = .error h := rfl

theorem add_ok (h : a + b < 2 ^ w) : (add w a b : Checked ε Nat) = .ok (a + b) := if_pos h
theorem mul_ok (h : a * b < 2 ^ w) : (mul w a b : Checked ε Nat) = .ok (a * b) := if_pos h
theorem sub_ok (h : b ≤ a) : (sub a b : Checked ε Nat) = .ok (a - b) := if_pos h
theorem index_ok {xs : List α} {i : Nat} {x : α} (h : xs[i]? = some x) : (index xs i : Checked ε α) = .ok x := by
  rw [index, h]

theorem require_true (h : c) : require c e = .ok () := if_pos h
theorem require_false (h : ¬c) : require c e = .error (.fails e) := if_neg h

@[simp] theorem require_eq_ok {u : Unit} : require c e = .ok u ↔ c := by
  unfold require
  split <;> simp_all

variable {x : Checked ε α} {f : α → Checked ε β}

theorem bind_ok {r : β} : (x >>= f) = .ok r ↔ ∃ a, x = .ok a ∧ f a = .ok r := by
  cases x with
  | error h => exact ⟨nofun, nofun⟩
  | ok a =>
    constructor
    · exact fun h => ⟨a, rfl, h⟩
    · rintro ⟨_, ⟨⟩, h⟩
      exact h

/-- The function returns, early or not. -/
def Safe (x : Checked ε α) : Prop := x ≠ .error .panics

@[simp] theorem safe_ok (a : α) : Safe (.ok a : Checked ε α) := nofun
@[simp] theorem safe_fails (e : ε) : Safe (.error (.fails e) : Checked ε α) := nofun

theorem safe_require : Safe (require c e) := by
  unfold require
  split <;> simp

theorem safe_bind (hx : Safe x) (hf : ∀ a, x = .ok a → Safe (f a)) : Safe (x >>= f) := by
  cases x with
  | error h => exact fun he => hx (by cases he; rfl)
  | ok a => exact hf a rfl

end Checked

end Lib
