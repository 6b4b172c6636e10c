import Mathlib

/-!
# Three-valued logic

A truth value is an `Option Bool`, where `none` is unknown. A false operand decides `and`, a true
one decides `or`, and `not` leaves unknown as it is. De Morgan's laws hold, and both operations are
true just when they are so in two-valued logic (`and_eq_true`, `or_eq_true`), which is all that a
filter asks.
-/

namespace Kleene

variable (a : Option Bool)

def not : Option Bool := a.map fun b => !b

def and : Option Bool → Option Bool → Option Bool
  | some false, _ | _, some false => some false
  | some true, some true => some true
  | none, _ | _, none => none

def or : Option Bool → Option Bool → Option Bool
  | some true, _ | _, some true => some true
  | some false, some false => some false
  | none, _ | _, none => none

@[simp] theorem not_not : not (not a) = a := by
  revert a; decide

variable (a b : Option Bool)

theorem not_and : not (and a b) = or (not a) (not b) := by
  revert a b; decide

theorem not_or : not (or a b) = and (not a) (not b) := by
  revert a b; decide

theorem and_comm : and a b = and b a := by
  revert a b; decide

theorem or_comm : or a b = or b a := by
  revert a b; decide

@[simp] theorem true_and : and (some true) a = a := by
  revert a; decide

@[simp] theorem false_and : and (some false) a = some false := by
  revert a; decide

@[simp] theorem true_or : or (some true) a = some true := by
  revert a; decide

@[simp] theorem false_or : or (some false) a = a := by
  revert a; decide

theorem and_eq_true : and a b = some true ↔ a = some true ∧ b = some true := by
  revert a b; decide

theorem or_eq_true : or a b = some true ↔ a = some true ∨ b = some true := by
  revert a b; decide

end Kleene
