import Mathlib
/-!
# `usize` arithmetic

A `usize` is a `Nat` that is at most `usizeMax`. `checked_*` give `none` where
the machine operation does; `wrapping_*` reduce modulo `2 ^ 64`.
-/

namespace Lib

def usizeMax : Nat := 2 ^ 64 - 1

def checked_add (a b : Nat) : Option Nat := if a + b ≤ usizeMax then some (a + b) else none

def checked_sub (a b : Nat) : Option Nat := if b ≤ a then some (a - b) else none

def wrapping_add (a b : Nat) : Nat := (a + b) % (usizeMax + 1)

def wrapping_sub (a b : Nat) : Nat := (a + (usizeMax + 1 - b)) % (usizeMax + 1)

variable {a b : Nat}

theorem checked_add_of_le (h : a + b ≤ usizeMax) : checked_add a b = some (a + b) := if_pos h

theorem checked_add_of_gt (h : usizeMax < a + b) : checked_add a b = none := if_neg (by omega)

theorem checked_add_eq_some {c : Nat} (h : checked_add a b = some c) : c = a + b ∧ c ≤ usizeMax := by
  unfold checked_add at h
  split at h
  · cases h; exact ⟨rfl, by assumption⟩
  · cases h

theorem checked_sub_of_le (h : b ≤ a) : checked_sub a b = some (a - b) := if_pos h

theorem wrapping_add_of_le (h : a + b ≤ usizeMax) : wrapping_add a b = a + b :=
  Nat.mod_eq_of_lt (by omega)

theorem wrapping_sub_of_le (hb : b ≤ a) (ha : a ≤ usizeMax) : wrapping_sub a b = a - b := by
  have h : a + (usizeMax + 1 - b) = (a - b) + (usizeMax + 1) := by omega
  rw [wrapping_sub, h, Nat.add_mod_right]
  exact Nat.mod_eq_of_lt (by omega)

end Lib
