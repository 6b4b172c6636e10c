import RisingLake.Hummock.Block
import RisingLake.Lib.Slice

/-!
# Block iterators (`storage/src/hummock/sstable/block_iterator.rs`)

An iterator stands on an entry, or is invalid: then its offset is at the end of the entries or
beyond. It moves forward by decoding the next entry against its key, backward by starting again from
a restart point. The local hit map is left out.
-/

namespace Hummock

open Res Bytes

structure BlockIterator where
  block : Block
  restartPointIndex : Nat
  offset : Nat
  /-- The field `key`: the current key without the table id. -/
  keyBuf : Bytes
  valueRange : Nat × Nat
  entryLen : Nat
  lastKeyLenType : LenType
  lastValueLenType : LenType
  deriving DecidableEq, Repr

namespace BlockIterator

def new (block : Block) : BlockIterator := ⟨block, 2 ^ 64 - 1, 2 ^ 64 - 1, [], (0, 0), 0, .u8, .u8⟩

variable (self : BlockIterator)

def isValid : Res Bool := do
  .ok (decide (self.offset < (← self.block.len)))

def assertValid : Res Unit := do
  assert (← self.isValid) "self.is_valid()"

def key : Res FullKey := do
  self.assertValid
  FullKey.fromSliceWithoutTableId self.block.tableId self.keyBuf

def value : Res Bytes := do
  self.assertValid
  slice self.block.entries self.valueRange.1 self.valueRange.2

def invalidate : Res BlockIterator := do
  .ok { self with
    offset := ← self.block.len
    restartPointIndex := self.block.restartPoints.length
    keyBuf := []
    valueRange := (0, 0)
    entryLen := 0 }

def updateRestartPoint (index : Nat) : Res BlockIterator := do
  let restartPoint ← self.block.restartPoint index
  .ok { self with
    restartPointIndex := index
    lastKeyLenType := restartPoint.keyLenType
    lastValueLenType := restartPoint.valueLenType }

def decodePrefixAt (block : Block) (offset : Nat) (keyLenType valueLenType : LenType) :
    Res KeyPrefix := do
  KeyPrefix.decode (← slice block.entries offset block.entries.length) offset keyLenType valueLenType

def seekRestartPointByIndex (index : Nat) : Res BlockIterator := do
  let restartPoint ← self.block.restartPoint index
  let offset := restartPoint.offset.val
  let keyPrefix ←
    decodePrefixAt self.block offset restartPoint.keyLenType restartPoint.valueLenType
  let (start, stop) := keyPrefix.diffKeyRange
  let key ← slice self.block.entries start stop
  updateRestartPoint { self with
    keyBuf := key
    valueRange := keyPrefix.valueRange
    offset := offset
    entryLen := keyPrefix.entryLen } index

/-- The restart point of the entry at `offset`, the one after the current entry. -/
def enterRestartPoint (offset : Nat) : Res BlockIterator :=
  if self.restartPointIndex + 1 < self.block.restartPoints.length then do
    let next ← self.block.restartPoint (self.restartPointIndex + 1)
    if next.offset.val ≤ offset then self.updateRestartPoint (self.restartPointIndex + 1)
    else .ok self
  else .ok self

def tryNextInner : Res (Bool × BlockIterator) := do
  let offset := self.offset + self.entryLen
  if (← self.block.len) ≤ offset then .ok (false, self)
  else
    let self ← self.enterRestartPoint offset
    let keyPrefix ← decodePrefixAt self.block offset self.lastKeyLenType self.lastValueLenType
    let (start, stop) := keyPrefix.diffKeyRange
    let diffKey ← slice self.block.entries start stop
    .ok (true, { self with
      keyBuf := self.keyBuf.take keyPrefix.overlap ++ diffKey
      valueRange := keyPrefix.valueRange
      offset := offset
      entryLen := keyPrefix.entryLen })

def nextInner : Res BlockIterator := do
  let (advanced, self) ← self.tryNextInner
  if advanced then .ok self else self.invalidate

/-- Rounds a loop over the entries can take: an entry has at least one byte. -/
def rounds : Nat := self.block.dataLen + 1

/-- Whether the iterator is on an entry whose key compares to `key` as given. -/
def comparesTo (key : FullKey) (ordering : Ordering) (self : BlockIterator) : Res Bool := do
  if ← self.isValid then .ok (cmp (← self.key) key == ordering) else .ok false

def nextUntilKey (key : FullKey) : Res BlockIterator :=
  whileM (comparesTo key .lt) nextInner self.rounds self

def endsBefore (offset : Nat) (self : BlockIterator) : Res Bool := do
  .ok (decide (self.offset + self.entryLen < min (← self.block.len) offset))

def nextUntilPrevOffset (offset : Nat) : Res BlockIterator :=
  whileM (endsBefore offset) nextInner self.rounds self

/-- The restart point before the current entry. -/
def prevRestartPointIndex : Res Nat := do
  let restartPoint ← self.block.restartPoint self.restartPointIndex
  if restartPoint.offset.val = self.offset then checkedSub self.restartPointIndex 1
  else .ok self.restartPointIndex

def tryPrevInner : Res (Bool × BlockIterator) :=
  if self.offset = 0 then .ok (false, self)
  else do
    let restartPointIndex ← self.prevRestartPointIndex
    let originOffset := self.offset
    let self ← seekRestartPointByIndex { self with restartPointIndex } restartPointIndex
    .ok (true, ← self.nextUntilPrevOffset originOffset)

def prevInner : Res BlockIterator := do
  let (advanced, self) ← self.tryPrevInner
  if advanced then .ok self else self.invalidate

def prevUntilKey (key : FullKey) : Res BlockIterator :=
  whileM (comparesTo key .gt) prevInner self.rounds self

/-- Whether the key at a restart point is at most the given key. -/
def probe (block : Block) (key : FullKey) (point : RestartPoint) : Res Bool := do
  let keyPrefix ← decodePrefixAt block point.offset.val point.keyLenType point.valueLenType
  let (start, stop) := keyPrefix.diffKeyRange
  let probeKey ← slice block.entries start stop
  let fullProbeKey ← FullKey.fromSliceWithoutTableId block.tableId probeKey
  .ok (cmp fullProbeKey key != .gt)

def searchRestartPointIndexByKey (key : FullKey) : Res Nat := do
  -- `saturating_sub(1)`
  .ok ((← Slice.partitionPoint (probe self.block key) self.block.restartPoints) - 1)

def seekRestartPointByKey (key : FullKey) : Res BlockIterator := do
  self.seekRestartPointByIndex (← self.searchRestartPointIndexByKey key)

def next : Res BlockIterator := do
  self.assertValid
  self.nextInner

def prev : Res BlockIterator := do
  self.assertValid
  self.prevInner

def seekToFirst : Res BlockIterator := self.seekRestartPointByIndex 0

def seekToLast : Res BlockIterator := do
  let last ← checkedSub self.block.restartPoints.length 1
  let self ← self.seekRestartPointByIndex last
  self.nextUntilPrevOffset (← self.block.len)

def seek (key : FullKey) : Res BlockIterator := do
  let self ← self.seekRestartPointByKey key
  self.nextUntilKey key

def seekLe (key : FullKey) : Res BlockIterator := do
  let self ← self.seekRestartPointByKey key
  let self ← self.nextUntilKey key
  let self ← if ← self.isValid then .ok self else self.seekToLast
  self.prevUntilKey key

end BlockIterator

end Hummock
