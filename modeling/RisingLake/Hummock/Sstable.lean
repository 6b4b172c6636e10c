import RisingLake.Hummock.Key

/-!
# SST descriptions (`key_range.rs`, `sstable_info.rs`, `can_concat` of `lib.rs`)

An SST has a key range between two encoded full keys, the right one possibly exclusive; an empty
bound is infinite. `canConcat` says that consecutive SSTs do not overlap: each one's right user key
is below the next one's left user key, or equal to it if the right bound is exclusive.
-/

namespace Hummock

open Res

structure KeyRange where
  left : Bytes
  right : Bytes
  rightExclusive : Bool
  deriving DecidableEq, Repr

namespace KeyRange

def startBoundInf (r : KeyRange) : Bool := r.left.isEmpty
def endBoundInf (r : KeyRange) : Bool := r.right.isEmpty

/-- The first half of `key_range_cmp!`. -/
def compareLeft (left right : KeyRange) : Res Ordering :=
  if left.startBoundInf && right.startBoundInf then .ok .eq
  else if !left.startBoundInf && !right.startBoundInf then
    compareEncodedFullKey left.left right.left
  else if left.left.isEmpty then .ok .lt
  else .ok .gt

/-- `Ord for KeyRange` (`key_range_cmp!`). -/
def compare (left right : KeyRange) : Res Ordering := do
  let ret ← compareLeft left right
  if ret != .eq then .ok ret
  else if left.endBoundInf && right.endBoundInf then .ok .eq
  else if !left.endBoundInf && !right.endBoundInf then
    compareEncodedFullKey left.right right.right
  else if left.endBoundInf then .ok .gt
  else .ok .lt

/-- An equal user key counts as less if the right bound is exclusive. -/
def compareRightWithUserKey (r : KeyRange) (ukey : UserKey) : Res Ordering := do
  let right ← FullKey.decode r.right
  let ret := cmp right.userKey ukey
  .ok (if ret == .eq && r.rightExclusive then .lt else ret)

def compareRightWith (r : KeyRange) (fullKey : Bytes) : Res Ordering := do
  let key ← FullKey.decode fullKey
  r.compareRightWithUserKey key.userKey

end KeyRange

/-- `SstableInfoInner`, with the fields that applying a version delta reads or writes. -/
structure SstableInfo where
  objectId : Nat
  sstId : Nat
  keyRange : KeyRange
  tableIds : List TableId
  uncompressedFileSize : Nat
  sstSize : Nat
  deriving DecidableEq, Repr

def canConcat : List SstableInfo → Res Bool
  | a :: b :: ssts => do
    if (← a.keyRange.compareRightWith b.keyRange.left) != .lt then .ok false
    else canConcat (b :: ssts)
  | _ => .ok true

/-- The sums the size counters of a level keep. -/
def sumSstSize (ssts : List SstableInfo) : Nat := (ssts.map (·.sstSize)).sum
def sumUncompressed (ssts : List SstableInfo) : Nat := (ssts.map (·.uncompressedFileSize)).sum

/-- `ssts.sort_by(|sst1, sst2| sst1.key_range.cmp(&sst2.key_range))`. -/
def cmpKeyRange (sst1 sst2 : SstableInfo) : Res Ordering := sst1.keyRange.compare sst2.keyRange

end Hummock
