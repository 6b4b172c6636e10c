import RisingLake.Hummock.SstableBuilder
import RisingLake.Hummock.Watermark

/-!
# Skipping keys under the watermarks (`storage/src/hummock/iterator/skip_watermark.rs`)

A compaction reads the merged entries of its input through a `SkipWatermarkIterator`, which leaves
out the keys that the read watermarks of their tables filter. The watermarks are kept in the order
of the keys; those that the iterator has passed are dropped from the front of `remainWatermarks`.

The inner iterator is the list of the entries that are left, in ascending order, with the object and
the block that each one comes from.
-/

namespace Hummock

open Res

variable (dbg : Bool)

structure ReadTableWatermark where
  direction : WatermarkDirection
  vnodeWatermarks : BTreeMap VirtualNode Bytes

/-- A watermark with the table and the vnode it is for. -/
structure RemainWatermark where
  tableId : TableId
  vnode : VirtualNode
  direction : WatermarkDirection
  watermark : Bytes
  deriving DecidableEq, Repr

structure SkipWatermarkState where
  watermarks : BTreeMap TableId ReadTableWatermark
  remainWatermarks : List RemainWatermark

/-- `Ord` of `(TableId, VirtualNode)`. -/
def cmpVnode (tableId : TableId) (vnode : VirtualNode) (tableId' : TableId) (vnode' : VirtualNode) :
    Ordering := (cmp tableId tableId').then (cmp vnode vnode')

namespace SkipWatermarkState

def new (watermarks : BTreeMap TableId ReadTableWatermark) : SkipWatermarkState := ⟨watermarks, []⟩

def hasWatermark (self : SkipWatermarkState) : Bool := !self.remainWatermarks.isEmpty

/-- The loop of `advance_watermark`: whether the key is filtered, and the watermarks that remain. -/
def advanceLoop (keyTableId : TableId) (keyVnode : VirtualNode) (innerKey : Bytes) :
    List RemainWatermark → Res (Bool × List RemainWatermark)
  | [] => .ok (false, [])
  | w :: remain =>
    match cmpVnode w.tableId w.vnode keyTableId keyVnode with
    | .lt => advanceLoop keyTableId keyVnode innerKey remain
    | .eq =>
      match w.direction with
      | .ascending =>
        if innerKey < w.watermark then .ok (true, w :: remain)
        else do
          -- the key has passed the watermark, and a vnode has only one
          debugAssert dbg (remain.head?.all fun next =>
            cmpVnode next.tableId next.vnode keyTableId keyVnode == .gt)
            "(next_table_id, next_vnode) > (key_table_id, key_vnode)"
          .ok (false, remain)
      | .descending => .ok (decide (w.watermark < innerKey), w :: remain)
    | .gt => .ok (false, w :: remain)

def advanceWatermark (self : SkipWatermarkState) (key : FullKey) :
    Res (Bool × SkipWatermarkState) := do
  let (keyVnode, innerKey) ← TableKey.splitVnode dbg key.userKey.tableKey
  let (filtered, remainWatermarks) ←
    advanceLoop dbg key.userKey.tableId keyVnode innerKey self.remainWatermarks
  .ok (filtered, { self with remainWatermarks })

def shouldDelete (self : SkipWatermarkState) (key : FullKey) :
    Res (Bool × SkipWatermarkState) :=
  match self.remainWatermarks with
  | [] => .ok (false, self)
  | w :: _ => do
    let (keyVnode, innerKey) ← TableKey.splitVnode dbg key.userKey.tableKey
    match cmpVnode key.userKey.tableId keyVnode w.tableId w.vnode with
    | .lt => .ok (false, self)
    | .eq => .ok (w.direction.filterByWatermark innerKey w.watermark, self)
    | .gt => self.advanceWatermark dbg key

def resetWatermark (self : SkipWatermarkState) : SkipWatermarkState :=
  { self with
    remainWatermarks := self.watermarks.toList.flatMap fun (tableId, readWatermarks) =>
      readWatermarks.vnodeWatermarks.toList.map fun (vnode, watermark) =>
        ⟨tableId, vnode, readWatermarks.direction, watermark⟩ }

end SkipWatermarkState

/-- An entry of the input, with the object and the block it is read from (`ValueMeta`). -/
structure InputEntry where
  key : FullKey
  value : HummockValue
  objectId : Option Nat
  blockId : Option Nat
  deriving DecidableEq, Repr

/-- The merged input: all entries, and those from the current one on. -/
structure InputIterator where
  entries : List InputEntry
  rest : List InputEntry

structure SkipWatermarkIterator where
  inner : InputIterator
  state : SkipWatermarkState
  skippedEntryTableStats : HashMap TableId TableStats
  lastTableId : Option TableId
  lastTableStats : TableStats

namespace SkipWatermarkIterator

/-- `SkipWatermarkIterator::new`, over an iterator that stands nowhere. -/
def new (entries : List InputEntry) (watermarks : BTreeMap TableId ReadTableWatermark) :
    SkipWatermarkIterator := ⟨⟨entries, []⟩, .new watermarks, ∅, none, .default⟩

variable (self : SkipWatermarkIterator)

def addLastTableStats : SkipWatermarkIterator :=
  match self.lastTableId with
  | none => self
  | some lastTableId =>
    let delta := self.lastTableStats
    let e := self.skippedEntryTableStats[lastTableId]?.getD .default
    { self with
      lastTableId := none
      lastTableStats := .default
      skippedEntryTableStats := self.skippedEntryTableStats.insert lastTableId { e with
        totalKeyCount := e.totalKeyCount + delta.totalKeyCount
        totalKeySize := e.totalKeySize + delta.totalKeySize
        totalValueSize := e.totalValueSize + delta.totalValueSize } }

/-- The statistics of the current table, after a change of the table. -/
def enterTable (tableId : TableId) : SkipWatermarkIterator :=
  if self.lastTableId ≠ some tableId then
    { self.addLastTableStats with lastTableId := some tableId }
  else self

def countSkipped (e : InputEntry) : SkipWatermarkIterator :=
  let self := self.enterTable e.key.userKey.tableId
  { self with
    lastTableStats := { self.lastTableStats with
      totalKeyCount := self.lastTableStats.totalKeyCount - 1
      totalKeySize := self.lastTableStats.totalKeySize - e.key.encode.length
      totalValueSize := self.lastTableStats.totalValueSize - e.value.encodedLen } }

/-- The loop of `advance_key_and_watermark`, over the entries that are left. -/
def advanceLoop : SkipWatermarkIterator → List InputEntry → Res SkipWatermarkIterator
  | self, [] => .ok { self with inner := { self.inner with rest := [] } }
  | self, e :: rest => do
    let (delete, state) ← self.state.shouldDelete dbg e.key
    let self := { self with state }
    if delete then (self.countSkipped e).advanceLoop rest
    else .ok { self with inner := { self.inner with rest := e :: rest } }

def advanceKeyAndWatermark : Res SkipWatermarkIterator := do
  .ok (← self.advanceLoop dbg self.inner.rest).addLastTableStats

def next : Res SkipWatermarkIterator :=
  let self := { self with inner := { self.inner with rest := self.inner.rest.tail } }
  if self.state.hasWatermark then self.advanceKeyAndWatermark dbg else .ok self

/-- `reset_watermark` and `reset_skipped_entry_table_stats`, and the inner iterator moved. -/
def restart (rest : List InputEntry) : SkipWatermarkIterator where
  inner := { self.inner with rest }
  state := self.state.resetWatermark
  skippedEntryTableStats := ∅
  lastTableId := none
  lastTableStats := .default

def rewind : Res SkipWatermarkIterator :=
  (self.restart self.inner.entries).advanceKeyAndWatermark dbg

def seek (key : FullKey) : Res SkipWatermarkIterator :=
  (self.restart (self.inner.entries.dropWhile fun e => e.key < key)).advanceKeyAndWatermark dbg

end SkipWatermarkIterator

end Hummock
