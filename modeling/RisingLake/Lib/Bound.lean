import Mathlib

/-!
# Range bounds

`Bound` is `std::ops::Bound` and `Bound.contains` is `RangeBounds::contains` of a pair of bounds.
-/

/-- `std::ops::Bound`. -/
inductive Bound (α : Type) where
  | included (a : α)
  | excluded (a : α)
  | unbounded
  deriving DecidableEq, Repr

namespace Bound

variable {α : Type}

section
variable [LinearOrder α]

def aboveStart : Bound α → α → Bool
  | included a, k => a ≤ k
  | excluded a, k => a < k
  | unbounded, _ => true

def belowEnd : Bound α → α → Bool
  | included a, k => k ≤ a
  | excluded a, k => k < a
  | unbounded, _ => true

/-- `range.contains(&k)`. -/
def contains (range : Bound α × Bound α) (k : α) :
    Bool := range.1.aboveStart k && range.2.belowEnd k

/-- `k` is not before the key of the start bound, which may be excluded. -/
def closedStart : Bound α → α → Bool
  | included a, k | excluded a, k => a ≤ k
  | unbounded, _ => true

/-- `k` is not after the key of the end bound, which may be excluded. -/
def closedEnd : Bound α → α → Bool
  | included a, k | excluded a, k => k ≤ a
  | unbounded, _ => true

theorem aboveStart_eq (b : Bound α) (k : α) :
    b.aboveStart k = (b.closedStart k && decide (b ≠ excluded k)) := by
  cases b <;> simp [aboveStart, closedStart, lt_iff_le_and_ne]

theorem belowEnd_eq (b : Bound α) (k : α) :
    b.belowEnd k = (b.closedEnd k && decide (b ≠ excluded k)) := by
  cases b <;> simp [belowEnd, closedEnd, lt_iff_le_and_ne, eq_comm]

theorem aboveStart_mono {b : Bound α} {k k' : α} (h : b.aboveStart k = true) (hk : k ≤ k') :
    b.aboveStart k' = true := by
  cases b with
  | included a | excluded a => simp only [aboveStart, decide_eq_true_eq] at *; order
  | unbounded => rfl

theorem belowEnd_mono {b : Bound α} {k k' : α} (h : b.belowEnd k = true) (hk : k' ≤ k) :
    b.belowEnd k' = true := by
  cases b with
  | included a | excluded a => simp only [belowEnd, decide_eq_true_eq] at *; order
  | unbounded => rfl

end

end Bound
