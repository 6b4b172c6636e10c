import RisingLake.Lib.Res

/-!
# Comparison values of intervals (`common/src/types/interval.rs`)

Intervals are compared, hashed and stored by the microseconds they last, with months of 30 days.
What is read back is an interval that lasts as long.
-/

namespace Types

open Res

structure Interval where
  months : BitVec 32
  days : BitVec 32
  usecs : BitVec 64

namespace Interval

def usecsPerDay : Int := 86400000000

abbrev Fits (w : Nat) (x : Int) : Prop := -2 ^ (w - 1) ≤ x ∧ x < 2 ^ (w - 1)

/-- Arithmetic of `w` bits, which must not overflow. -/
def checked (w : Nat) (x : Int) : Res Int := if Fits w x then .ok x else .error .overflow

def tryInto (w : Nat) (x : Int) : Option Int := if Fits w x then some x else none

/-- The cast `as`. -/
def cast (w : Nat) (x : Int) : Int := (BitVec.ofInt w x).toInt

def fromMonthDayUsec (months days usecs : Int) : Interval :=
  ⟨.ofInt 32 months, .ofInt 32 days, .ofInt 64 usecs⟩

/-- `IntervalCmpValue::from`. -/
def cmpValue (value : Interval) : Res Int := do
  let days ← checked 64 (value.days.toInt + (← checked 64 (30 * value.months.toInt)))
  checked 128 (value.usecs.toInt + (← checked 128 (usecsPerDay * days)))

def asJustified (v : Int) : Option Interval := do
  let usecs := cast 64 (v.tmod usecsPerDay)
  let remainingDays := v.tdiv usecsPerDay
  let days := cast 32 (remainingDays.tmod 30)
  let months ← tryInto 32 (remainingDays.tdiv 30)
  some (fromMonthDayUsec months days usecs)

section
variable (nearer : Int → Int → Int) (limit : Nat → Int)

/-- What is left after dividing by the unit, with as many units put back as can be held, and the
other units. -/
def fill (w : Nat) (unit total : Int) : Res (Int × Int) := do
  let low := cast w (total.tmod unit)
  let remaining := total.tdiv unit
  let extra := nearer ((← checked w (limit w - low)).tdiv unit) ((tryInto w remaining).getD (limit w))
  let low ← checked w (low + (← checked w (extra * unit)))
  .ok (low, ← checked 128 (remaining - extra))

/-- The branches of `as_alternate` for positive and for negative values. -/
def alternate (v : Int) : Res (Option Interval) := do
  let (usecs, remainingDays) ← fill nearer limit 64 usecsPerDay v
  let (days, remainingMonths) ← fill nearer limit 32 30 remainingDays
  .ok ((tryInto 32 remainingMonths).map fun months => fromMonthDayUsec months days usecs)

end

def maxOf (w : Nat) : Int := 2 ^ (w - 1) - 1
def minOf (w : Nat) : Int := -2 ^ (w - 1)

def asAlternate (v : Int) : Res (Option Interval) :=
  if v = 0 then .ok (some (fromMonthDayUsec 0 0 0))
  else if 0 < v then alternate min maxOf v else alternate max minOf v

/-- `HashKeyDe::deserialize`; `Deserialize::deserialize` returns an error where this panics. -/
def deserialize (v : Int) : Res Interval := do
  let interval ← match asJustified v with
    | some interval => .ok (some interval)
    | none => asAlternate v
  unwrap interval "HashKey deserialize interval overflow"

end Interval

end Types
