import RisingLake.Hummock.Sstable
import RisingLake.Lib.Slice

/-!
# The levels of a compaction group (`level.rs`, `compaction_group/hummock_version_ext.rs`)

A compaction group has L0, a list of sub-levels from old to new, and the levels 1, 2, ... below. The
functions here edit one group: they insert and delete the SSTs of a delta and keep the size
counters.

The counters are `u64`s of the source and natural numbers here. A step adds to them and subtracts
from them and never reads them, so that in a release build the source has them modulo `2 ^ 64`; a
debug build panics on a sum beyond `u64::MAX`. Subtracting below zero is the panic `underflow`.
-/

namespace Hummock

open Res

abbrev CompactionGroupId := Nat

/-- `PbLevelType`. -/
inductive LevelType where
  | unspecified | nonoverlapping | overlapping
  deriving DecidableEq, Repr

structure Level where
  levelIdx : Nat
  levelType : LevelType
  tableInfos : List SstableInfo
  totalFileSize : Nat
  subLevelId : U64
  uncompressedFileSize : Nat
  vnodePartitionCount : Nat
  deriving DecidableEq, Repr

structure OverlappingLevel where
  subLevels : List Level
  totalFileSize : Nat
  uncompressedFileSize : Nat
  deriving DecidableEq, Repr

structure Levels where
  levels : List Level
  l0 : OverlappingLevel
  groupId : CompactionGroupId
  parentGroupId : CompactionGroupId
  memberTableIds : List TableId
  deriving DecidableEq, Repr

/-- `StaticCompactionGroupId`. -/
def newCompactionGroup : CompactionGroupId := 0
def stateDefault : CompactionGroupId := 2
def materializedView : CompactionGroupId := 3

/-- Only the number of levels is read when a group is built. -/
structure CompactionConfig where
  maxLevel : Nat
  deriving DecidableEq, Repr

def buildInitialCompactionGroupLevels (groupId : CompactionGroupId) (config : CompactionConfig) :
    Levels where
  levels := (List.range config.maxLevel).map fun l =>
    { levelIdx := l + 1, levelType := .nonoverlapping, tableInfos := [], totalFileSize := 0,
      subLevelId := 0, uncompressedFileSize := 0, vnodePartitionCount := 0 }
  l0 := { subLevels := [], totalFileSize := 0, uncompressedFileSize := 0 }
  groupId
  parentGroupId := newCompactionGroup
  memberTableIds := []

section
variable (dbg : Bool)

/-- `debug_assert!(can_concat(..))` of a non-overlapping sub-level. -/
def debugConcat (levelType : LevelType) (tableInfos : List SstableInfo) : Res Bool :=
  if levelType = .nonoverlapping ∧ dbg = true then canConcat tableInfos else .ok true

def newSubLevel (subLevelId : U64) (levelType : LevelType) (tableInfos : List SstableInfo) :
    Res Level := do
  let concat ← debugConcat dbg levelType tableInfos
  assert concat "sst of non-overlapping level is not concat-able"
  .ok {
    levelIdx := 0
    levelType
    tableInfos
    totalFileSize := sumSstSize tableInfos
    subLevelId
    uncompressedFileSize := sumUncompressed tableInfos
    vnodePartitionCount := 0 }

/-- `insert_pos`: no hint means append. -/
def insertPosition (l0 : OverlappingLevel) (insertSubLevelId : U64) : Option Nat → Res Nat
  | some insertPos => .ok insertPos
  | none => do
    assert (l0.subLevels.getLast?.all fun newest => newest.subLevelId < insertSubLevelId)
      "inserted new level is not the newest"
    .ok l0.subLevels.length

/-- A sub-level with id `u64::MAX` is dropped. -/
def insertNewSubLevel (l0 : OverlappingLevel) (insertSubLevelId : U64) (levelType : LevelType)
    (insertTableInfos : List SstableInfo) (subLevelInsertHint : Option Nat) :
    Res OverlappingLevel :=
  if insertSubLevelId = U64.max then .ok l0
  else do
    let insertPos ← insertPosition l0 insertSubLevelId subLevelInsertHint
    debugAssert dbg (insertPos == 0 ||
        l0.subLevels[insertPos - 1]?.all fun smaller => smaller.subLevelId < insertSubLevelId)
      "smaller_level.sub_level_id < insert_sub_level_id"
    debugAssert dbg (l0.subLevels[insertPos]?.all fun larger => insertSubLevelId < larger.subLevelId)
      "larger_level.sub_level_id > insert_sub_level_id"
    let level ← newSubLevel dbg insertSubLevelId levelType insertTableInfos
    -- `Vec::insert` panics on a position beyond the end
    if l0.subLevels.length < insertPos then .error .index
    else .ok {
      subLevels := l0.subLevels.insertIdx insertPos level
      totalFileSize := l0.totalFileSize + level.totalFileSize
      uncompressedFileSize := l0.uncompressedFileSize + level.uncompressedFileSize }

end

/-- Where a sub-level does not overlap, its SSTs are sorted and checked. -/
def arrangeSubLevel (levelType : LevelType) (tableInfos : List SstableInfo) :
    Res (List SstableInfo) :=
  if levelType = .nonoverlapping then do
    let sorted ← Slice.sortBy cmpKeyRange tableInfos
    assert (← canConcat sorted) "can_concat(&l0.sub_levels[sub_level_idx].table_infos)"
    .ok sorted
  else .ok tableInfos

/-- The SSTs join the sub-level. -/
def addSstsToSubLevel (l0 : OverlappingLevel) (subLevelIdx : Nat)
    (insertTableInfos : List SstableInfo) : Res OverlappingLevel := do
  let subLevel ← index l0.subLevels subLevelIdx
  let tableInfos ← arrangeSubLevel subLevel.levelType (subLevel.tableInfos ++ insertTableInfos)
  let subLevel := { subLevel with
    tableInfos
    totalFileSize := subLevel.totalFileSize + sumSstSize insertTableInfos
    uncompressedFileSize := subLevel.uncompressedFileSize + sumUncompressed insertTableInfos }
  .ok {
    subLevels := l0.subLevels.set subLevelIdx subLevel
    totalFileSize := l0.totalFileSize + sumSstSize insertTableInfos
    uncompressedFileSize := l0.uncompressedFileSize + sumUncompressed insertTableInfos }

/-- The counters are recomputed. -/
def levelDeleteSsts (operand : Level) (deleteSstIdsSuperset : List Nat) : Level :=
  let tableInfos := operand.tableInfos.filter fun table => !deleteSstIdsSuperset.contains table.sstId
  { operand with
    tableInfos
    totalFileSize := sumSstSize tableInfos
    uncompressedFileSize := sumUncompressed tableInfos }

/-- An overlapping sub-level becomes non-overlapping once a compaction writes into it. -/
def levelInsertSsts (operand : Level) (insertTableInfos : List SstableInfo) : Res Level := do
  let tableInfos ← Slice.sortBy cmpKeyRange (operand.tableInfos ++ insertTableInfos)
  assert (← canConcat tableInfos) "can_concat(&operand.table_infos)"
  .ok { operand with
    tableInfos
    levelType := if operand.levelType = .overlapping then .nonoverlapping else operand.levelType
    totalFileSize := operand.totalFileSize + sumSstSize insertTableInfos
    uncompressedFileSize := operand.uncompressedFileSize + sumUncompressed insertTableInfos }

/-- The same SSTs added to a level below L0, by a split or a merge of groups. -/
def levelExtendSorted (level : Level) (insertTableInfos : List SstableInfo) (msg : String) :
    Res Level := do
  let tableInfos ← Slice.sortBy cmpKeyRange (level.tableInfos ++ insertTableInfos)
  assert (← canConcat tableInfos) msg
  .ok { level with
    tableInfos
    totalFileSize := level.totalFileSize + sumSstSize insertTableInfos
    uncompressedFileSize := level.uncompressedFileSize + sumUncompressed insertTableInfos }

structure IntraLevelDelta where
  levelIdx : Nat
  l0SubLevelId : U64
  removedTableIds : List Nat
  insertedTableInfos : List SstableInfo
  vnodePartitionCount : Nat
  deriving DecidableEq, Repr

namespace Levels

variable (lv : Levels)

/-- The SSTs of a level; `level_idx` 0 is L0. -/
def levelSsts (levelIdx : Nat) : Res (List SstableInfo) :=
  if levelIdx = 0 then .ok (lv.l0.subLevels.flatMap (·.tableInfos))
  else do .ok (← index lv.levels (levelIdx - 1)).tableInfos

def checkSstIdsExist (levelIdx : Nat) (sstIds : List Nat) : Res Bool := do
  let ssts ← lv.levelSsts levelIdx
  .ok (sstIds.all fun id => ssts.any fun sst => sst.sstId == id)

/-- The first half of `apply_compact_ssts`. -/
def deleteCompacted (levelIdx : Nat) (deleteSstIds : List Nat) : Res Levels :=
  if deleteSstIds.isEmpty then .ok lv
  else if levelIdx = 0 then
    .ok { lv with l0 := { lv.l0 with
      subLevels := lv.l0.subLevels.map fun level => levelDeleteSsts level deleteSstIds } }
  else do
    let level ← index lv.levels (levelIdx - 1)
    .ok { lv with levels := lv.levels.set (levelIdx - 1) (levelDeleteSsts level deleteSstIds) }

variable (delta : IntraLevelDelta) (memberTableIds : List TableId)

/-- The second half of `apply_compact_ssts`, for an insert into L0. -/
def insertCompactedL0 : Res Levels := do
  let idx ← Slice.partitionPoint (fun level => .ok (decide (level.subLevelId < delta.l0SubLevelId)))
    lv.l0.subLevels
  match lv.l0.subLevels[idx]? with
  | none => .error (.assert "should find the level to insert into")
  | some level => do
    assert (level.subLevelId == delta.l0SubLevelId) "should find the level to insert into"
    -- only a group of one state table that rewrites the whole sub-level changes the partition count
    let changed := level.tableInfos.isEmpty && memberTableIds.length == 1 &&
      delta.insertedTableInfos.all fun sst =>
        sst.tableIds.length == 1 && sst.tableIds.head? == memberTableIds.head?
    let level := if changed then { level with vnodePartitionCount := delta.vnodePartitionCount }
      else level
    let level ← levelInsertSsts level delta.insertedTableInfos
    .ok { lv with l0 := { lv.l0 with subLevels := lv.l0.subLevels.set idx level } }

/-- The second half of `apply_compact_ssts`, for an insert into a level below L0. -/
def insertCompactedLevel : Res Levels := do
  let level ← index lv.levels (delta.levelIdx - 1)
  let level :=
    if level.tableInfos.isEmpty && delta.insertedTableInfos.all fun sst => sst.tableIds.length == 1
    then { level with vnodePartitionCount := delta.vnodePartitionCount }
    else if level.vnodePartitionCount ≠ 0 ∧ delta.vnodePartitionCount = 0 ∧
        1 < memberTableIds.length
    then { level with vnodePartitionCount := 0 }
    else level
  let level ← levelInsertSsts level delta.insertedTableInfos
  .ok { lv with levels := lv.levels.set (delta.levelIdx - 1) level }

/-- A delta whose deleted SSTs are not all there comes from an expired task and is ignored. -/
def applyCompactSsts : Res Levels := do
  let exist ← lv.checkSstIdsExist delta.levelIdx delta.removedTableIds
  if !exist then .ok lv
  else do
    let lv ← lv.deleteCompacted delta.levelIdx delta.removedTableIds
    if delta.insertedTableInfos.isEmpty then .ok lv
    else if delta.levelIdx = 0 then lv.insertCompactedL0 delta memberTableIds
    else lv.insertCompactedLevel delta memberTableIds

/-- Drops the sub-levels a compaction emptied and recomputes the counters of L0. -/
def postApplyL0Compact : Levels :=
  let subLevels := lv.l0.subLevels.filter fun level => !level.tableInfos.isEmpty
  { lv with l0 := {
    subLevels
    totalFileSize := (subLevels.map (·.totalFileSize)).sum
    uncompressedFileSize := (subLevels.map (·.uncompressedFileSize)).sum } }

end Levels

end Hummock
