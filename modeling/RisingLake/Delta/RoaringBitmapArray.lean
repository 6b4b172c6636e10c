import Mathlib

/-!
# Deletion-vector bitmaps (`RoaringBitmapArray.scala`)

A 32-bit bitmap is the set of its values. A value that is refused (`require`) gives `none`; a range
whose step is not 1 is added value by value. `Run` is how an array is built, call by call.
-/

namespace Delta.RoaringBitmapArray

abbrev RoaringBitmap := Finset (Fin (2 ^ 32))

abbrev Bitmaps := List RoaringBitmap

def maxRepresentableValue : Nat := (2 ^ 31 - 2) * 2 ^ 32 + 2 ^ 31

def highBytes (value : Nat) : Nat := value / 2 ^ 32

def lowBytes (value : Nat) : Fin (2 ^ 32) := Fin.ofNat (2 ^ 32) value

variable (bitmaps that : Bitmaps) (value : Nat)

def extendBitmaps (newLength : Nat) :
    Bitmaps := bitmaps ++ List.replicate (newLength - bitmaps.length) ∅

def add : Option Bitmaps :=
  if value ≤ maxRepresentableValue then
    let high := highBytes value
    let bitmaps := if high ≥ bitmaps.length then extendBitmaps bitmaps (high + 1) else bitmaps
    some (bitmaps.modify high (insert (lowBytes value)))
  else none

/-- `RoaringBitmap.add` of a range. -/
def interval (start stop : Nat) : RoaringBitmap :=
  Finset.univ.filter fun v => start ≤ v.val ∧ v.val < stop

/-- The bitmap of the last value of a range. -/
def lastHigh (stop : Nat) (isInclusive : Bool) : Nat :=
  if lowBytes stop = 0 ∧ !isInclusive then highBytes stop - 1 else highBytes stop

/-- What a range adds to the bitmap at `currentHigh`. -/
def rangeAt (start stop : Nat) (isInclusive : Bool) (currentHigh : Nat) : RoaringBitmap :=
  let first := if currentHigh = highBytes start then (lowBytes start).val else 0
  let last :=
    if currentHigh = highBytes stop then (lowBytes stop).val + (if isInclusive then 1 else 0)
    else 2 ^ 32
  interval first last

def addRange (start stop : Nat) (isInclusive : Bool) : Option Bitmaps :=
  if start ≤ stop ∧ stop ≤ maxRepresentableValue then
    if start = stop ∧ !isInclusive then some bitmaps
    else
      let lastHigh := lastHigh stop isInclusive
      let bitmaps :=
        if lastHigh ≥ bitmaps.length then extendBitmaps bitmaps (lastHigh + 1) else bitmaps
      some ((List.range' (highBytes start) (lastHigh + 1 - highBytes start)).foldl
        (fun bitmaps currentHigh =>
          bitmaps.modify currentHigh (· ∪ rangeAt start stop isInclusive currentHigh)) bitmaps)
  else none

/-- The array is shrunk if the bitmap of the value gets empty. -/
def remove : Option Bitmaps :=
  if value ≤ maxRepresentableValue then
    let bitmaps := bitmaps.modify (highBytes value) (·.erase (lowBytes value))
    if bitmaps[highBytes value]? = some ∅ then some (bitmaps.rdropWhile (· = ∅)) else some bitmaps
  else none

def or : Bitmaps :=
  let bitmaps := if bitmaps.length < that.length then extendBitmaps bitmaps that.length else bitmaps
  bitmaps.mapIdx fun index bitmap => bitmap ∪ that.getD index ∅

def and : Bitmaps :=
  bitmaps.mapIdx fun index bitmap => if index < that.length then bitmap ∩ that.getD index ∅ else ∅

/-- Also `diff`. -/
def andNot : Bitmaps :=
  bitmaps.mapIdx fun index bitmap =>
    if index < min bitmaps.length that.length then bitmap \ that.getD index ∅ else bitmap

def copy : Bitmaps := or [] bitmaps

def contains : Bool := bitmaps[highBytes value]?.any (lowBytes value ∈ ·)

def equals : Bool := bitmaps = that

/-- `131 * Arrays.deepHashCode`, with the hash codes of the bitmaps. -/
def hashCode (hash : RoaringBitmap → BitVec 32) : BitVec 32 :=
  131 * bitmaps.foldl (fun result bitmap => 31 * result + hash bitmap) 1

/-- The calls that build an array. The other array of a call is built in the same way. -/
inductive Run where
  | new
  | add (r : Run) (value : Nat)
  | addRange (r : Run) (start stop : Nat) (isInclusive : Bool)
  | remove (r : Run) (value : Nat)
  | or (r that : Run)
  | and (r that : Run)
  | andNot (r that : Run)
  | copy (r : Run)
  | clear (r : Run)

def Run.eval : Run → Option Bitmaps
  | .new => some []
  | .add r value => do RoaringBitmapArray.add (← r.eval) value
  | .addRange r start stop isInclusive => do
    RoaringBitmapArray.addRange (← r.eval) start stop isInclusive
  | .remove r value => do RoaringBitmapArray.remove (← r.eval) value
  | .or r that => do return RoaringBitmapArray.or (← r.eval) (← that.eval)
  | .and r that => do return RoaringBitmapArray.and (← r.eval) (← that.eval)
  | .andNot r that => do return RoaringBitmapArray.andNot (← r.eval) (← that.eval)
  | .copy r => do return RoaringBitmapArray.copy (← r.eval)
  | .clear r => do
    let _ ← r.eval
    return []

end Delta.RoaringBitmapArray
