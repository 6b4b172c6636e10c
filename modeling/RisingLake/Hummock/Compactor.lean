import RisingLake.Hummock.ColumnAware
import RisingLake.Hummock.MultiBuilder
import RisingLake.Hummock.SkipWatermark

/-!
# Compaction (`storage/src/hummock/compactor/compactor_runner.rs`, `compaction_filter.rs`)

`compactAndBuildSst` reads the merged input within a key range and hands on what is kept: of the
versions of a user key only the newest unless all are retained, no deletes if they are collected,
and nothing that the compaction filter drops. A value loses the columns that its table has no more;
as the values of a block are taken to have the same columns, a block is not looked at again after a
value of it lost none.

Metrics of the iterators are left out.
-/

namespace Hummock

open Res ValueEncoding

/-! ## Filters -/

/-- The filters of a compaction; each keeps what it has found out about the last table. -/
inductive CompactionFilter where
  | stateCleanUp (existingTableIds : BTreeSet TableId) (lastTable : Option (TableId × Bool))
  | ttl (tableIdToTtl : HashMap TableId U32) (expireEpoch : HummockEpoch)
      (lastTableAndTtl : Option (TableId × Nat))

namespace CompactionFilter

/-- `StateCleanUpCompactionFilter::new`. -/
def newStateCleanUp (tableIdSet : BTreeSet TableId) : CompactionFilter :=
  .stateCleanUp tableIdSet none

variable (tableIdToTtl : HashMap TableId U32)

/-- `TtlCompactionFilter::new`. -/
def newTtl (expire : HummockEpoch) : CompactionFilter := .ttl tableIdToTtl expire none

/-- `StateCleanUpCompactionFilter::should_delete`. -/
def stateCleanUpShouldDelete (existingTableIds : BTreeSet TableId)
    (lastTable : Option (TableId × Bool)) (tableId : TableId) : Bool × CompactionFilter :=
  match lastTable with
  | some (lastTableId, removed) =>
    if lastTableId = tableId then (removed, .stateCleanUp existingTableIds lastTable)
    else
      let removed := !existingTableIds.contains tableId
      (removed, .stateCleanUp existingTableIds (some (tableId, removed)))
  | none =>
    let removed := !existingTableIds.contains tableId
    (removed, .stateCleanUp existingTableIds (some (tableId, removed)))

/-- Whether the epoch lies before the time to live. -/
def isExpired (expireEpoch : HummockEpoch) (ttlMill : Nat) (epoch : HummockEpoch) : Bool :=
  epoch < subtractMs expireEpoch ttlMill

/-- `TtlCompactionFilter::should_delete` of a table that is not the last. -/
def ttlOfTable (expireEpoch : HummockEpoch)
    (last : Option (TableId × Nat)) (tableId : TableId) (epoch : HummockEpoch) :
    Res (Bool × CompactionFilter) :=
  match tableIdToTtl[tableId]? with
  | some ttlSecond => do
    assert (decide (0 < ttlSecond.val)) "*ttl_second_u32 > 0"
    let ttlMill := ttlSecond.val * 1000
    .ok (isExpired expireEpoch ttlMill epoch, .ttl tableIdToTtl expireEpoch (some (tableId, ttlMill)))
  | none => .ok (false, .ttl tableIdToTtl expireEpoch last)

/-- `TtlCompactionFilter::should_delete`. -/
def ttlShouldDelete (expireEpoch : HummockEpoch)
    (last : Option (TableId × Nat)) (tableId : TableId) (epoch : HummockEpoch) :
    Res (Bool × CompactionFilter) :=
  match last with
  | some (lastTableId, ttlMill) =>
    if lastTableId = tableId then .ok (isExpired expireEpoch ttlMill epoch,
      .ttl tableIdToTtl expireEpoch last)
    else ttlOfTable tableIdToTtl expireEpoch last tableId epoch
  | none => ttlOfTable tableIdToTtl expireEpoch last tableId epoch

def shouldDelete (self : CompactionFilter) (key : FullKey) : Res (Bool × CompactionFilter) :=
  match self with
  | .stateCleanUp existingTableIds lastTable =>
    .ok (stateCleanUpShouldDelete existingTableIds lastTable key.userKey.tableId)
  | .ttl tableIdToTtl expireEpoch last =>
    ttlShouldDelete tableIdToTtl expireEpoch last key.userKey.tableId key.epochWithGap.pureEpoch

end CompactionFilter

abbrev MultiCompactionFilter := List CompactionFilter

/-- The filters behind the first that drops the key are not asked. -/
def MultiCompactionFilter.shouldDelete (key : FullKey) :
    MultiCompactionFilter → Res (Bool × MultiCompactionFilter)
  | [] => .ok (false, [])
  | filter :: filters => do
    let (delete, filter) ← filter.shouldDelete key
    if delete then .ok (true, filter :: filters)
    else do
      let (delete, filters) ← MultiCompactionFilter.shouldDelete key filters
      .ok (delete, filter :: filters)

/-! ## The loop -/

/-- `TaskConfig`, as far as `compact_and_build_sst` reads it. -/
structure TaskConfig where
  keyRange : KeyRange
  gcDeleteKeys : Bool
  retainMultipleVersion : Bool
  statsTargetTableIds : Option (BTreeSet TableId)
  tableSchemas : HashMap TableId (BTreeSet ColumnId)
  disableDropColumnOptimization : Bool

structure CompactionStatistics where
  deltaDropStat : HashMap TableId TableStats
  iterTotalKeyCounts : Nat
  iterDropKeyCounts : Nat

def TableStats.add (self other : TableStats) : TableStats :=
  ⟨self.totalKeySize + other.totalKeySize, self.totalValueSize + other.totalValueSize,
    self.totalKeyCount + other.totalKeyCount, self.totalCompressedSize + other.totalCompressedSize⟩

def addTableStatsMap (this other : HashMap TableId TableStats) : HashMap TableId TableStats :=
  other.toList.foldl
    (fun this (tableId, stats) => this.insert tableId ((this[tableId]?.getD .default).add stats)) this

/-- The locals of `compact_and_build_sst`. -/
structure CompactState (F : Type) where
  iter : SkipWatermarkIterator
  sstBuilder : CapacitySplitTableBuilder F
  compactionFilter : MultiCompactionFilter
  fullKeyTracker : FullKeyTracker
  tableStatsDrop : HashMap TableId TableStats
  lastTableStats : TableStats
  lastTableId : Option TableId
  iterTotalKeyCounts : Nat
  iterDropKeyCounts : Nat
  /-- The block of each object of which a value lost no columns. -/
  skipSchemaCheck : HashMap Nat Nat

namespace CompactState

variable {F : Type}

/-- The statistics of the table of the current key. -/
def enterTable (self : CompactState F) (tableId : TableId) : CompactState F :=
  if self.lastTableId ≠ some tableId then
    match self.lastTableId with
    | some lastTableId => { self with
        tableStatsDrop := self.tableStatsDrop.insert lastTableId self.lastTableStats
        lastTableStats := .default
        lastTableId := some tableId }
    | none => { self with lastTableId := some tableId }
  else self

variable (config : TaskConfig) (env : CapacitySplitEnv F) (skipSchemaCheck : HashMap Nat Nat)

/-- Whether the entry is dropped for what it is: a delete, or an older version. -/
def isObsolete (isNewUserKey : Bool) (value : HummockValue) : Bool :=
  (!config.retainMultipleVersion && config.gcDeleteKeys && value.isDelete) ||
    (!config.retainMultipleVersion && !isNewUserKey)

/-- Whether the entry is dropped; the filter is only asked if it is not obsolete. -/
def shouldDrop (self : CompactState F) (isNewUserKey : Bool) (e : InputEntry) :
    Res (Bool × CompactState F) :=
  if isObsolete config isNewUserKey e.value then .ok (true, self)
  else do
    let (drop, compactionFilter) ← MultiCompactionFilter.shouldDelete e.key self.compactionFilter
    .ok (drop, { self with compactionFilter })

def countDropped (self : CompactState F) (e : InputEntry) : CompactState F :=
  let shouldCount := config.statsTargetTableIds.all fun ids => ids.contains e.key.userKey.tableId
  { self with
    iterDropKeyCounts := self.iterDropKeyCounts + 1
    lastTableStats := if shouldCount then { self.lastTableStats with
        totalKeyCount := self.lastTableStats.totalKeyCount - 1
        totalKeySize := self.lastTableStats.totalKeySize - e.key.encode.length
        totalValueSize := self.lastTableStats.totalValueSize - e.value.encodedLen }
      else self.lastTableStats }

/-- Whether a value of the block has been found to lose no columns. -/
def isSchemaChecked (objectId blockId : Nat) : Res Bool :=
  match skipSchemaCheck[objectId]? with
  | none => .ok false
  | some prevBlockId => do
    assert (decide (prevBlockId ≤ blockId)) "*prev_block_id <= block_id"
    .ok (prevBlockId == blockId)

/-- Drops the columns of a value that are not in the schema. -/
def rewriteUnder (objectId blockId : Nat)
    (v : Bytes) (schema : BTreeSet ColumnId) : Res (Option Bytes × HashMap Nat Nat) := do
  match ← tryDropInvalidColumns v schema with
  | none =>
    .ok (none, if config.disableDropColumnOptimization then skipSchemaCheck
      else skipSchemaCheck.insert objectId blockId)
  | some newValue => .ok (some newValue, skipSchemaCheck)

/-- The value without the columns that its table has no more, if it has such columns. -/
def rewriteValue (e : InputEntry) : Res (Option Bytes × HashMap Nat Nat) :=
  match e.value, e.objectId, e.blockId with
  | .put v, some objectId, some blockId => do
    if ← isSchemaChecked skipSchemaCheck objectId blockId then .ok (none, skipSchemaCheck)
    else match config.tableSchemas[e.key.userKey.tableId]? with
      | none => .ok (none, skipSchemaCheck)
      | some schema => rewriteUnder config skipSchemaCheck objectId blockId v schema
  | _, _, _ => .ok (none, skipSchemaCheck)

def valueLen : HummockValue → Nat
  | .put v => v.length
  | .delete => 0

/-- Hands the entry on to the builder. -/
def keep (config : TaskConfig) (self : CompactState F) (isNewUserKey : Bool)
    (e : InputEntry) : Res (CompactState F) := do
  let (rewritten, skipSchemaCheck) ← rewriteValue config self.skipSchemaCheck e
  match rewritten with
  | some newValue =>
    let sstBuilder ← self.sstBuilder.addFullKey env e.key (.put newValue) isNewUserKey
    let valueSizeChange : Int := valueLen e.value - newValue.length
    assert (decide (0 ≤ valueSizeChange)) "value_size_change >= 0"
    .ok { self with
      sstBuilder
      skipSchemaCheck
      lastTableStats := { self.lastTableStats with
        totalValueSize := self.lastTableStats.totalValueSize - valueSizeChange } }
  | none =>
    .ok { self with
      sstBuilder := ← self.sstBuilder.addFullKey env e.key e.value isNewUserKey
      skipSchemaCheck }

def dropOrKeep (config : TaskConfig) (self : CompactState F)
    (drop isNewUserKey : Bool) (e : InputEntry) : Res (CompactState F) :=
  if drop then .ok (self.countDropped config e) else self.keep env config isNewUserKey e

/-- The rest of a round of the loop, for an entry within the key range. -/
def processEntry (config : TaskConfig) (self : CompactState F)
    (isNewUserKey : Bool) (e : InputEntry) : Res (CompactState F) := do
  let self := self.enterTable e.key.userKey.tableId
  let (drop, self) ← self.shouldDrop config isNewUserKey e
  let self ← self.dropOrKeep env config drop isNewUserKey e
  .ok { self with iter := ← self.iter.next env.sst.dbg }

/-- A round of the loop; `false` if it breaks. -/
def round (config : TaskConfig) (maxKey : FullKey) (self : CompactState F)
    (e : InputEntry) : Res (Bool × CompactState F) := do
  let (isNewUserKey, fullKeyTracker) ← self.fullKeyTracker.observe false e.key
  let self := { self with fullKeyTracker, iterTotalKeyCounts := self.iterTotalKeyCounts + 1 }
  if isNewUserKey && !maxKey.userKey.tableKey.isEmpty && decide (maxKey ≤ e.key) then .ok (false, self)
  else do .ok (true, ← self.processEntry env config isNewUserKey e)

def loop (env : CapacitySplitEnv F) (config : TaskConfig) (maxKey : FullKey) :
    Nat → CompactState F → Res (CompactState F)
  | 0, _ => .error (.explicit "out of fuel")
  | fuel + 1, self =>
    match self.iter.inner.rest with
    | [] => .ok self
    | e :: _ => do
      let (goOn, self) ← self.round env config maxKey e
      if goOn then loop env config maxKey fuel self else .ok self

end CompactState

/-- The iterator at the left end of the key range. -/
def seekKeyRange (dbg : Bool) (iter : SkipWatermarkIterator) (keyRange : KeyRange) :
    Res SkipWatermarkIterator :=
  if keyRange.left.isEmpty then iter.rewind dbg
  else do iter.seek dbg (← FullKey.decode keyRange.left)

/-- The key before which the compaction ends; an empty one if there is no bound. -/
def endKeyOf (keyRange : KeyRange) : Res FullKey :=
  if keyRange.right.isEmpty then .ok .default else FullKey.decode keyRange.right

def compactAndBuildSst {F : Type} (env : CapacitySplitEnv F)
    (sstBuilder : CapacitySplitTableBuilder F) (config : TaskConfig) (iter : SkipWatermarkIterator)
    (compactionFilter : MultiCompactionFilter) :
    Res (CompactionStatistics × CapacitySplitTableBuilder F) := do
  let iter ← seekKeyRange env.sst.dbg iter config.keyRange
  let endKey ← endKeyOf config.keyRange
  let s ← CompactState.loop env config endKey (iter.inner.rest.length + 1)
    ⟨iter, sstBuilder, compactionFilter, .new .default, ∅, .default, none, 0, 0, ∅⟩
  let tableStatsDrop := match s.lastTableId with
    | some lastTableId => s.tableStatsDrop.insert lastTableId s.lastTableStats
    | none => s.tableStatsDrop
  .ok (⟨addTableStatsMap tableStatsDrop s.iter.skippedEntryTableStats, s.iterTotalKeyCounts,
    s.iterDropKeyCounts⟩, s.sstBuilder)

/-- `Compactor::compact_key_range`: the SSTs of the entries within the key range of the task. -/
def compactKeyRange {F : Type} (env : CapacitySplitEnv F) (nextSstId : Nat)
    (tableVnodePartition : HashMap TableId Nat) (config : TaskConfig) (iter : SkipWatermarkIterator)
    (compactionFilter : MultiCompactionFilter) :
    Res (List SstableBuilderOutput × CompactionStatistics) := do
  let (statistics, sstBuilder) ←
    compactAndBuildSst env (.new nextSstId tableVnodePartition) config iter compactionFilter
  .ok (← sstBuilder.finish env, statistics)

end Hummock
