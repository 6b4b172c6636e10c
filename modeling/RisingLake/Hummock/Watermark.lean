import RisingLake.Hummock.Key
import RisingLake.Lib.Maps
import RisingLake.Lib.Slice

/-!
# Table watermarks (`table_watermark.rs`)

A table watermark of an epoch gives, for the vnodes of each bitmap, the key up to which
(`ascending`) or from which (`descending`) rows have expired. `TableWatermarks` is the part stored
in a version; `TableWatermarksIndex` is what a reader keeps: the watermarks of epochs that are not
committed yet, newest at the back, over the ones of the committed version.

A bitmap is the list of its bits; `is_set` beyond the end panics.
-/

namespace Hummock

open Res

variable (dbg : Bool)

abbrev Bitmap := List Bool

namespace Bitmap

def isSet (b : Bitmap) (idx : Nat) : Res Bool := do
  assert (decide (idx < b.length)) "idx < self.len()"
  .ok (b[idx]?.getD false)

def iterOnes (b : Bitmap) : List Nat := (List.range b.length).filter fun i => b[i]?.getD false

def zeroed (len : Nat) : Bitmap := List.replicate len false

def set (b : Bitmap) (n : Nat) (val : Bool) : Res Bitmap := do
  assert (decide (n < b.length)) "n < self.len"
  .ok (List.set b n val)

/-- A zeroed builder with the given bits set. -/
def ofOnes (len : Nat) (ones : List Nat) : Res Bitmap :=
  ones.foldlM (fun b n => Bitmap.set b n true) (zeroed len)

def iterVnodes (b : Bitmap) : Res (List VirtualNode) := b.iterOnes.mapM (VirtualNode.fromIndex dbg)

end Bitmap

inductive WatermarkDirection where
  | ascending | descending
  deriving DecidableEq, Repr

namespace WatermarkDirection

def filterByWatermark (self : WatermarkDirection) (key watermark : Bytes) : Bool :=
  match self with
  | ascending => key < watermark
  | descending => watermark < key

end WatermarkDirection

structure VnodeWatermark where
  vnodeBitmap : Bitmap
  watermark : Bytes
  deriving DecidableEq, Repr

/-- Derived from the bitmap. -/
def VnodeWatermark.vnodeCount (w : VnodeWatermark) : Nat := w.vnodeBitmap.length

abbrev EpochWatermarks := HummockEpoch × List VnodeWatermark

/-- Later epochs are at the back. -/
structure TableWatermarks where
  watermarks : List EpochWatermarks
  direction : WatermarkDirection
  deriving DecidableEq, Repr

namespace TableWatermarks

def applyNewTableWatermarks (self newlyAdded : TableWatermarks) : Res TableWatermarks := do
  assert (decide (self.direction = newlyAdded.direction)) "self.direction == newly_added.direction"
  assert (decide ((self.watermarks.map (·.1)).Pairwise (· ≤ ·))) "self.watermarks is_sorted()"
  assert (decide ((newlyAdded.watermarks.map (·.1)).Pairwise (· ≤ ·))) "newly_added is_sorted()"
  match self.watermarks.getLast?, newlyAdded.watermarks.head? with
  | some (prevLastEpoch, _), some (newFirstEpoch, _) =>
    assert (decide (prevLastEpoch < newFirstEpoch)) "prev_last_epoch < new_first_epoch"
  | _, _ => .ok ()
  .ok { self with watermarks := self.watermarks ++ newlyAdded.watermarks }

/-- The locals of `clear_stale_epoch_watermark`; `result` holds the last pushed entry first. -/
structure ClearState where
  vnodeCount : Option Nat
  setVnode : BTreeSet VirtualNode
  result : List EpochWatermarks

/-- The watermarks of an epoch at or after the safe epoch: kept, their vnodes recorded. -/
def keepEpoch (s : ClearState) (e : EpochWatermarks) : Res ClearState := do
  let s' ← e.2.foldlM (fun (acc : Option Nat × BTreeSet VirtualNode) w => do
    let vnodes ← w.vnodeBitmap.iterVnodes dbg
    .ok (some (acc.1.getD w.vnodeCount), vnodes.foldl (fun set v => set.insert v) acc.2))
    (s.vnodeCount, s.setVnode)
  .ok ⟨s'.1, s'.2, e :: s.result⟩

/-- Of a stale watermark only the vnodes without a later one are kept. -/
def staleWatermark (acc : Option Nat × BTreeSet VirtualNode × List VnodeWatermark)
    (w : VnodeWatermark) : Res (Option Nat × BTreeSet VirtualNode × List VnodeWatermark) := do
  let vnodes ← w.vnodeBitmap.iterVnodes dbg
  let newSetVnode := vnodes.filter fun v => !acc.2.1.contains v
  let setVnode := vnodes.foldl (fun set v => set.insert v) acc.2.1
  let vnodeCount := some (acc.1.getD w.vnodeCount)
  if newSetVnode.isEmpty then .ok (vnodeCount, setVnode, acc.2.2)
  else do
    let bitmap ← Bitmap.ofOnes w.vnodeCount (newSetVnode.map (·.toIndex))
    .ok (vnodeCount, setVnode, acc.2.2 ++ [⟨bitmap, w.watermark⟩])

/-- The stale epochs from new to old, until every vnode has a watermark. What is kept of them moves
to the safe epoch. -/
def clearStaleLoop (safeEpoch : HummockEpoch) : ClearState → List EpochWatermarks → Res ClearState
  | s, [] => .ok s
  | s, e :: es =>
    if s.vnodeCount.all fun count => s.setVnode.size != count then do
      let (vnodeCount, setVnode, new) ← e.2.foldlM (staleWatermark dbg) (s.vnodeCount, s.setVnode, [])
      let result :=
        if new.isEmpty then s.result
        else match s.result with
          | (lastEpoch, lastWatermarks) :: rest =>
            if lastEpoch = safeEpoch then (lastEpoch, lastWatermarks ++ new) :: rest
            else (safeEpoch, new) :: s.result
          | [] => [(safeEpoch, new)]
      clearStaleLoop safeEpoch ⟨vnodeCount, setVnode, result⟩ es
    else .ok s

def clearStaleEpochWatermark (self : TableWatermarks) (safeEpoch : HummockEpoch) :
    Res TableWatermarks :=
  match self.watermarks.head? with
  | none => .ok self
  | some (earliestEpoch, _) =>
    if safeEpoch ≤ earliestEpoch then .ok self
    else do
      let newest := self.watermarks.reverse
      let s ← (newest.takeWhile fun e => safeEpoch ≤ e.1).foldlM (keepEpoch dbg) ⟨none, ∅, []⟩
      let s ← clearStaleLoop dbg safeEpoch s (newest.dropWhile fun e => safeEpoch ≤ e.1)
      assert (decide ((s.result.map (·.1)).Pairwise (· < ·))) "result_epoch_watermark.is_sorted_by(<)"
      .ok { self with watermarks := s.result }

end TableWatermarks

/-! ## The reader's index -/

structure TableWatermarksIndex where
  watermarkDirection : WatermarkDirection
  stagingWatermarks : List EpochWatermarks
  committedWatermarks : Option TableWatermarks
  latestEpoch : HummockEpoch
  committedEpoch : Option HummockEpoch
  deriving DecidableEq, Repr

namespace TableWatermarksIndex

def new (direction : WatermarkDirection) (firstEpoch : HummockEpoch)
    (firstVnodeWatermark : List VnodeWatermark) (committedEpoch : Option HummockEpoch) :
    Res TableWatermarksIndex := do
  assert (committedEpoch.all fun c => decide (c < firstEpoch)) "first_epoch > committed_epoch"
  .ok {
    watermarkDirection := direction
    stagingWatermarks := [(firstEpoch, firstVnodeWatermark)]
    committedWatermarks := none
    latestEpoch := firstEpoch
    committedEpoch }

def newCommitted (committedWatermarks : TableWatermarks) (committedEpoch : HummockEpoch) :
    TableWatermarksIndex where
  watermarkDirection := committedWatermarks.direction
  stagingWatermarks := []
  committedEpoch := some committedEpoch
  latestEpoch := committedEpoch
  committedWatermarks := some committedWatermarks

def readVnode (vnode : VirtualNode) : List VnodeWatermark → Res (Option Bytes)
  | [] => .ok none
  | w :: ws => do
    if ← w.vnodeBitmap.isSet vnode.toIndex then .ok (some w.watermark) else readVnode vnode ws

/-- The first watermark of the vnode in the entries that are not after `epoch`. -/
def readEntries (vnode : VirtualNode) (epoch : HummockEpoch) :
    List EpochWatermarks → Res (Option Bytes)
  | [] => .ok none
  | e :: es =>
    if epoch < e.1 then readEntries vnode epoch es
    else do
      match ← readVnode vnode e.2 with
      | some w => .ok (some w)
      | none => readEntries vnode epoch es

variable (self : TableWatermarksIndex) (watermark : Bytes)

/-- The watermarks of the committed version. -/
def committedEntries : List EpochWatermarks := self.committedWatermarks.elim [] (·.watermarks)

/-- Reads from new to old. -/
def readWatermark (vnode : VirtualNode) (epoch : HummockEpoch) : Res (Option Bytes) :=
  readEntries vnode epoch (self.stagingWatermarks.reverse ++ self.committedEntries.reverse)

def latestWatermark (vnode : VirtualNode) : Res (Option Bytes) := self.readWatermark vnode U64.max

def overwriteStartKey : Bound TableKey → Res Bool
  | .included startKey | .excluded startKey => do
    .ok (decide ((← TableKey.keyPart dbg startKey) < watermark))
  | .unbounded => .ok true

def overwriteEndKey : Bound TableKey → Res Bool
  | .included endKey | .excluded endKey => do
    .ok (decide (watermark < (← TableKey.keyPart dbg endKey)))
  | .unbounded => .ok true

/-- `fully_filtered`, ascending: the range ends before the watermark. -/
def endsBefore (watermarkKey : TableKey) : Bound TableKey → Bool
  | .included endKey => endKey < watermarkKey
  | .excluded endKey => endKey ≤ watermarkKey
  | .unbounded => false

/-- `fully_filtered`, descending: the range starts after the watermark. -/
def startsAfter (watermarkKey : TableKey) : Bound TableKey → Bool
  | .included startKey => watermarkKey < startKey
  | .excluded startKey => watermarkKey ≤ startKey
  | .unbounded => false

def rewriteRangeWithTableWatermark (epoch : HummockEpoch) (keyRange : TableKeyRange) :
    Res TableKeyRange := do
  let vnode ← vnode dbg keyRange
  match ← self.readWatermark vnode epoch with
  | none => .ok keyRange
  | some watermark =>
    let watermarkKey : TableKey := prefixSliceWithVnode vnode watermark
    match self.watermarkDirection with
    | .ascending => do
      if ← overwriteStartKey dbg watermark keyRange.1 then
        let stop := if endsBefore watermarkKey keyRange.2 then .excluded watermarkKey
          else keyRange.2
        .ok (.included watermarkKey, stop)
      else .ok keyRange
    | .descending => do
      if ← overwriteEndKey dbg watermark keyRange.2 then
        if startsAfter watermarkKey keyRange.1 then
          .ok (.included watermarkKey, .excluded watermarkKey)
        else .ok (keyRange.1, .included watermarkKey)
      else .ok keyRange

/-- A new watermark behind the latest one. -/
def isRegress (direction : WatermarkDirection) (prevWatermark watermark : Bytes) : Bool :=
  match direction with
  | .ascending => watermark < prevWatermark
  | .descending => prevWatermark < watermark

/-- The vnode's latest watermark is ahead of the new one. -/
def regresses (vnode : VirtualNode) : Res Bool := do
  let prev ← self.latestWatermark vnode
  .ok (prev.any fun prev => isRegress self.watermarkDirection prev watermark)

/-- One watermark of `filter_regress_watermarks`, without the vnodes where it would regress. -/
def filterRegress (watermark : VnodeWatermark) : Res (List VnodeWatermark) := do
  let vnodes ← watermark.vnodeBitmap.iterVnodes dbg
  let regressVnodes ← Slice.retain (self.regresses watermark.watermark) vnodes
  if regressVnodes.isEmpty then .ok [watermark]
  else
    let kept := vnodes.filter fun v => !regressVnodes.contains v
    if kept.isEmpty then .ok []
    else do
      let bitmap ← Bitmap.ofOnes watermark.vnodeCount (kept.map (·.toIndex))
      .ok [⟨bitmap, watermark.watermark⟩]

def filterRegressWatermarks (watermarks : List VnodeWatermark) : Res (List VnodeWatermark) := do
  let kept ← watermarks.mapM (self.filterRegress dbg)
  .ok kept.flatten

/-- One vnode of the debug assertions of `add_epoch_watermark`: it occurs once in the list and its
watermark does not regress. -/
def debugCheckVnode (vnodeIsSet : Bitmap) (vnode : Nat) : Res Bitmap := do
  assert (!(← vnodeIsSet.isSet vnode)) "!vnode_is_set.is_set(vnode)"
  let vnodeIsSet ← vnodeIsSet.set vnode true
  let vnode ← VirtualNode.fromIndex true vnode
  let prev ← self.latestWatermark vnode
  assert (prev.all fun prev => !isRegress self.watermarkDirection prev watermark)
    "vnode_watermark.watermark regresses"
  .ok vnodeIsSet

/-- The debug assertions of `add_epoch_watermark`. -/
def debugCheckWatermarks (watermarks : List VnodeWatermark) : Res Unit :=
  match watermarks with
  | [] => .ok ()
  | first :: _ => do
    let _ ← watermarks.foldlM (fun vnodeIsSet w =>
      w.vnodeBitmap.iterOnes.foldlM (self.debugCheckVnode w.watermark) vnodeIsSet)
      (Bitmap.zeroed first.vnodeCount)
    .ok ()

/-- The block under `#[cfg(debug_assertions)]`. -/
def debugAssertions (watermarks : List VnodeWatermark) : Res Unit :=
  if dbg then self.debugCheckWatermarks watermarks else .ok ()

def addEpochWatermark (epoch : HummockEpoch) (watermarks : List VnodeWatermark)
    (direction : WatermarkDirection) : Res TableWatermarksIndex := do
  assert (decide (self.latestEpoch < epoch)) "epoch > self.latest_epoch"
  assert (decide (self.watermarkDirection = direction)) "self.watermark_direction == direction"
  self.debugAssertions dbg watermarks
  .ok { self with
    latestEpoch := epoch
    stagingWatermarks := self.stagingWatermarks ++ [(epoch, watermarks)] }

/-- Keeps only the staging watermarks of later epochs. -/
def commitWatermarks (committedWatermark : TableWatermarks)
    (committedEpoch : HummockEpoch) : TableWatermarksIndex :=
  { self with
    latestEpoch := max self.latestEpoch committedEpoch
    committedEpoch := some committedEpoch
    committedWatermarks := some committedWatermark
    stagingWatermarks := self.stagingWatermarks.dropWhile fun e => e.1 ≤ committedEpoch }

def applyCommittedWatermarks (committedWatermark : TableWatermarks)
    (committedEpoch : HummockEpoch) : Res TableWatermarksIndex := do
  assert (decide (self.watermarkDirection = committedWatermark.direction))
    "self.watermark_direction == committed_watermark.direction"
  assert (self.committedEpoch.all fun prev => decide (prev ≤ committedEpoch))
    "prev_committed_epoch <= committed_epoch"
  if self.committedEpoch = some committedEpoch then .ok self
  else .ok (self.commitWatermarks committedWatermark committedEpoch)

end TableWatermarksIndex

end Hummock
