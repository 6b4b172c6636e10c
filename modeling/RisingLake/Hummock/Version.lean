import RisingLake.Hummock.ChangeLog
import RisingLake.Hummock.GroupSplit
import RisingLake.Hummock.Watermark

/-!
# Versions and version deltas (`version.rs`, `compaction_group/hummock_version_ext.rs`)

A version is the state of the store: the levels of every compaction group, the state table info, the
table watermarks and the table change logs. `applyVersionDelta` is the only way it changes. A delta
holds, for each compaction group, a list of changes of its levels: new SSTs, the result of a
compaction, or the construction (by a split of a parent group), the destruction or the merge of
groups.

`initWithParentGroupV2` splits a parent group at a split key; `initWithParentGroup` is the older
split by the ids of the member tables.
-/

namespace Hummock

open Res

abbrev GroupLevels := HashMap CompactionGroupId Levels

/-! ## Constructing a group from its parent -/

/-- `-= sst.sst_size` and `-= sst.uncompressed_file_size` for each SST. -/
def subtractSizes (sizes : Nat × Nat) (ssts : List SstableInfo) : Res (Nat × Nat) :=
  ssts.foldlM (fun sizes sst => do
    .ok (← checkedSub sizes.1 sst.sstSize, ← checkedSub sizes.2 sst.uncompressedFileSize)) sizes

/-- `table_infos.extract_if(|sst_info| sst_info.table_ids.is_empty())`: the SSTs left without a
table are taken out, and off the counters of the level. Returns them too. -/
def extractEmptySsts (level : Level) : Res (Level × List SstableInfo) := do
  let extracted := level.tableInfos.filter fun sst => sst.tableIds.isEmpty
  let sizes ← subtractSizes (level.totalFileSize, level.uncompressedFileSize) extracted
  .ok ({ level with
    tableInfos := level.tableInfos.filter fun sst => !sst.tableIds.isEmpty
    totalFileSize := sizes.1
    uncompressedFileSize := sizes.2 }, extracted)

/-- What the loop over the parent's sub-levels changes besides them: the counters of the parent's
L0, the L0 of the new group and the next SST id. -/
structure SubLevelState where
  l0Sizes : Nat × Nat
  targetL0 : OverlappingLevel
  newSstId : U64
  deriving DecidableEq, Repr

/-- `extract_if` on a sub-level: the counters of L0 go down too. -/
def extractFromSubLevel (s : SubLevelState) (subLevel : Level) : Res (Level × SubLevelState) := do
  let (subLevel, extracted) ← extractEmptySsts subLevel
  .ok (subLevel, { s with l0Sizes := ← subtractSizes s.l0Sizes extracted })

/-- Inserts into the target's sub-level with the id of `subLevel`, or as a new sub-level. -/
def insertIntoTargetL0 (dbg : Bool) (targetL0 : OverlappingLevel) (subLevel : Level)
    (insertTableInfos : List SstableInfo) : Res OverlappingLevel :=
  match GroupSplit.getSubLevelInsertHint targetL0.subLevels subLevel with
  | .ok idx => addSstsToSubLevel targetL0 idx insertTableInfos
  | .error idx =>
    insertNewSubLevel dbg targetL0 subLevel.subLevelId subLevel.levelType insertTableInfos (some idx)

/-- What the loop over the parent's levels changes besides them: the levels of the new group and the
next SST id. -/
structure LevelState where
  curLevels : List Level
  newSstId : U64
  deriving DecidableEq, Repr

/-- The SSTs split off go to the level of the new group with the same index. -/
def moveToLevel (s : LevelState) (idx : Nat) (level : Level) (insertTableInfos : List SstableInfo) :
    Res (Level × LevelState) := do
  let cur ← index s.curLevels idx
  let cur ← levelExtendSorted cur insertTableInfos "can_concat(&cur_levels.levels[idx].table_infos)"
  let (level, _) ← extractEmptySsts level
  .ok (level, { s with curLevels := s.curLevels.set idx cur })

/-- The two loops of a split, over the sub-levels and the levels of the parent. -/
def splitGroup (splitSubLevel : SubLevelState → Level → Res (Level × SubLevelState))
    (splitLevel : LevelState → Level × Nat → Res (Level × LevelState)) (newSstId : U64)
    (parent cur : Levels) : Res (Levels × Levels) := do
  let (subLevels, s) ← mapAccumM splitSubLevel
    ⟨(parent.l0.totalFileSize, parent.l0.uncompressedFileSize), cur.l0, newSstId⟩ parent.l0.subLevels
  let subLevels := subLevels.filter fun level => !level.tableInfos.isEmpty
  let (levels, t) ← mapAccumM splitLevel ⟨cur.levels, s.newSstId⟩ parent.levels.zipIdx
  assert (subLevels.all fun level => !level.tableInfos.isEmpty) "parent_levels.l0 has no empty level"
  assert (s.targetL0.subLevels.all fun level => !level.tableInfos.isEmpty)
    "cur_levels.l0 has no empty level"
  .ok ({ parent with l0 := ⟨subLevels, s.l0Sizes.1, s.l0Sizes.2⟩, levels },
    { cur with l0 := s.targetL0, levels := t.curLevels })

/-- The parent group of a new group: none for `NewCompactionGroup`, otherwise it must exist. -/
def initFromParent (dbg : Bool) (levels : GroupLevels) (parentGroupId groupId : CompactionGroupId)
    (newSstStartId : U64) (missing : String) (split : Levels → Levels → Res (Levels × Levels)) :
    Res GroupLevels :=
  if parentGroupId = newCompactionGroup then
    if newSstStartId ≠ 0 ∧ dbg = true then
      .error (.explicit "non-zero sst start id for NewCompactionGroup")
    else .ok levels
  else
    match levels[parentGroupId]?, levels[groupId]? with
    | none, _ => .error (.explicit missing)
    | some _, none => .error (.unwrap "res.unwrap()")
    | some parent, some cur =>
      -- `get_many_mut` refuses to borrow one entry twice
      if parentGroupId = groupId then .error (.explicit "duplicate keys found")
      else do
        let (parent, cur) ← split parent cur
        .ok ((levels.insert parentGroupId parent).insert groupId cur)

section
variable (dbg : Bool) (memberTableIds : List TableId)

/-- One sub-level of the older split. -/
def splitSubLevel (s : SubLevelState) (subLevel : Level) : Res (Level × SubLevelState) := do
  let (subLevel, insertTableInfos, newSstId) ←
    GroupSplit.splitSstInfoForLevel dbg memberTableIds subLevel s.newSstId
  let (subLevel, s) ← extractFromSubLevel { s with newSstId } subLevel
  if insertTableInfos.isEmpty then .ok (subLevel, s)
  else do
    let targetL0 ← insertIntoTargetL0 dbg s.targetL0 subLevel insertTableInfos
    .ok (subLevel, { s with targetL0 })

/-- One level of the older split. -/
def splitLevel (s : LevelState) (e : Level × Nat) : Res (Level × LevelState) := do
  let (level, insertTableInfos, newSstId) ←
    GroupSplit.splitSstInfoForLevel dbg memberTableIds e.1 s.newSstId
  moveToLevel { s with newSstId } e.2 level insertTableInfos

def initWithParentGroup (levels : GroupLevels) (parentGroupId groupId : CompactionGroupId)
    (newSstStartId : U64) : Res GroupLevels :=
  initFromParent dbg levels parentGroupId groupId newSstStartId
    "non-existing parent group id to init from"
    (splitGroup (splitSubLevel dbg memberTableIds) (splitLevel dbg memberTableIds) newSstStartId)

end

section
variable (dbg : Bool) (splitKey : Option Bytes)

/-- Without a split key nothing is split off. -/
def splitOff (level : Level) (newSstId : U64) : Res (Level × List SstableInfo × U64) :=
  match splitKey with
  | some splitKey => GroupSplit.splitSstInfoForLevelV2 dbg level newSstId splitKey
  | none => .ok (level, [], newSstId)

/-- One sub-level of a split by key. -/
def splitSubLevelV2 (s : SubLevelState) (subLevel : Level) : Res (Level × SubLevelState) := do
  let (subLevel, insertTableInfos, newSstId) ← splitOff dbg splitKey subLevel s.newSstId
  let s := { s with newSstId }
  if insertTableInfos.isEmpty then .ok (subLevel, s)
  else do
    let (subLevel, s) ← extractFromSubLevel s subLevel
    let targetL0 ← insertIntoTargetL0 dbg s.targetL0 subLevel insertTableInfos
    .ok (subLevel, { s with targetL0 })

/-- One level of a split by key. -/
def splitLevelV2 (s : LevelState) (e : Level × Nat) : Res (Level × LevelState) := do
  let (level, insertTableInfos, newSstId) ← splitOff dbg splitKey e.1 s.newSstId
  let s := { s with newSstId }
  if insertTableInfos.isEmpty then .ok (level, s)
  else moveToLevel s e.2 level insertTableInfos

def initWithParentGroupV2 (levels : GroupLevels) (parentGroupId groupId : CompactionGroupId)
    (newSstStartId : U64) : Res GroupLevels :=
  initFromParent dbg levels parentGroupId groupId newSstStartId
    "non-existing parent group id to init from (V2)"
    (splitGroup (splitSubLevelV2 dbg splitKey) (splitLevelV2 dbg splitKey) newSstStartId)

end

/-! ## Group deltas -/

/-- `PbGroupConstruct`. -/
structure GroupConstruct where
  groupConfig : Option CompactionConfig
  parentGroupId : CompactionGroupId
  tableIds : List TableId
  newSstStartId : U64
  version : Int
  splitKey : Option Bytes
  deriving DecidableEq, Repr

/-- `CompatibilityVersion`. -/
def noMemberTableIds : Int := 2
def splitGroupByTableId : Int := 3

namespace GroupConstruct

/-- `member_table_ids`: the ones given are for deltas of older versions. -/
def memberTables (c : GroupConstruct) (info : HummockVersionStateTableInfo)
    (groupId : CompactionGroupId) : List TableId :=
  if noMemberTableIds ≤ c.version then (info.compactionGroupMemberTableIds groupId).toList
  else c.tableIds

def newLevels (c : GroupConstruct) (groupId : CompactionGroupId) (config : CompactionConfig) :
    Levels :=
  { buildInitialCompactionGroupLevels groupId config with
    parentGroupId := c.parentGroupId
    memberTableIds := c.tableIds }

end GroupConstruct

inductive GroupDelta where
  | newL0SubLevel (insertedTableInfos : List SstableInfo)
  | intraLevel (delta : IntraLevelDelta)
  | groupConstruct (construct : GroupConstruct)
  | groupDestroy
  | groupMerge (leftGroupId rightGroupId : CompactionGroupId)
  deriving DecidableEq, Repr

section
variable (dbg : Bool) (info : HummockVersionStateTableInfo)

def constructGroup (levels : GroupLevels) (groupId : CompactionGroupId) (c : GroupConstruct) :
    Res GroupLevels := do
  let config ← unwrap c.groupConfig "group_config"
  let levels := levels.insert groupId (c.newLevels groupId config)
  if splitGroupByTableId ≤ c.version then
    initWithParentGroupV2 dbg c.splitKey levels c.parentGroupId groupId c.newSstStartId
  else
    let memberTableIds := c.memberTables info groupId
    initWithParentGroup dbg memberTableIds levels c.parentGroupId groupId c.newSstStartId

/-- The right group is merged into the left one and dropped. -/
def mergeCompactionGroup (levels : GroupLevels) (leftGroupId rightGroupId : CompactionGroupId) :
    Res GroupLevels := do
  assert (decide (((info.compactionGroupMemberTableIds leftGroupId).toList ++
    (info.compactionGroupMemberTableIds rightGroupId).toList).Pairwise (· ≤ ·)))
    "member tables of the left and the right group are sorted"
  match levels[rightGroupId]? with
  | none => .error (.explicit "compaction group should exist right")
  | some rightLevels => do
    let levels := levels.erase rightGroupId
    match levels[leftGroupId]? with
    | none => .error (.explicit "compaction group should exist left")
    | some leftLevels => do
      .ok (levels.insert leftGroupId (← GroupSplit.mergeLevels dbg leftLevels rightLevels))

/-- The levels, and whether a compaction changed the L0 of the group whose deltas are applied. -/
structure GroupState where
  levels : GroupLevels
  isAppliedL0Compact : Bool

/-- `IntraLevel`: new SSTs of an epoch, or the result of a compaction. -/
def applyIntraLevel (isCommitEpoch : Bool) (groupId : CompactionGroupId) (lv : Levels)
    (delta : IntraLevelDelta) : Res Levels :=
  if isCommitEpoch then do
    assert delta.removedTableIds.isEmpty "no sst should be deleted when committing an epoch"
    assert (delta.levelIdx == 0) "we should only add to L0 when we commit an epoch."
    if delta.insertedTableInfos.isEmpty then .ok lv
    else do
      let l0 ← insertNewSubLevel dbg lv.l0 delta.l0SubLevelId .overlapping
        delta.insertedTableInfos none
      .ok { lv with l0 }
  else lv.applyCompactSsts delta (info.compactionGroupMemberTableIds groupId).toList

def nextL0SubLevelId (l0 : OverlappingLevel) : Res U64 :=
  match l0.subLevels.getLast? with
  | some level => succ dbg level.subLevelId
  | none => .ok 1

/-- `NewL0SubLevel`: the SSTs become the newest sub-level. -/
def applyNewL0SubLevel (lv : Levels) (insertedTableInfos : List SstableInfo) : Res Levels :=
  if insertedTableInfos.isEmpty then .ok lv
  else do
    let subLevelId ← nextL0SubLevelId dbg lv.l0
    let l0 ← insertNewSubLevel dbg lv.l0 subLevelId .overlapping insertedTableInfos none
    .ok { lv with l0 }

def applyGroupDelta (isCommitEpoch : Bool) (groupId : CompactionGroupId) (s : GroupState) :
    GroupDelta → Res GroupState
  | .groupConstruct c => do
    .ok { s with levels := ← constructGroup dbg info s.levels groupId c }
  | .groupMerge leftGroupId rightGroupId => do
    .ok { s with levels := ← mergeCompactionGroup dbg info s.levels leftGroupId rightGroupId }
  | .intraLevel delta =>
    match s.levels[groupId]? with
    | none => .error (.explicit "compaction group does not exist")
    | some lv => do
      let lv ← applyIntraLevel dbg info isCommitEpoch groupId lv delta
      .ok ⟨s.levels.insert groupId lv,
        s.isAppliedL0Compact || (!isCommitEpoch && delta.levelIdx == 0)⟩
  | .newL0SubLevel insertedTableInfos =>
    match s.levels[groupId]? with
    | none => .error (.explicit "compaction group does not exist")
    | some lv => do
      assert isCommitEpoch "is_commit_epoch"
      .ok { s with levels := s.levels.insert groupId (← applyNewL0SubLevel dbg lv insertedTableInfos) }
  | .groupDestroy => .ok { s with levels := s.levels.erase groupId }

/-- After a compaction of L0 its empty sub-levels go. -/
def postApplyGroup (groupId : CompactionGroupId) (s : GroupState) : GroupLevels :=
  if s.isAppliedL0Compact then
    match s.levels[groupId]? with
    | some lv => s.levels.insert groupId lv.postApplyL0Compact
    | none => s.levels
  else s.levels

def applyGroupDeltas (isCommitEpoch : Bool) (levels : GroupLevels)
    (e : CompactionGroupId × List GroupDelta) : Res GroupLevels := do
  let s ← e.2.foldlM (applyGroupDelta dbg info isCommitEpoch e.1) ⟨levels, false⟩
  .ok (postApplyGroup e.1 s)

end

/-! ## Versions -/

abbrev HummockVersionId := Nat

structure HummockVersion where
  id : HummockVersionId
  levels : GroupLevels
  maxCommittedEpoch : HummockEpoch
  tableWatermarks : HashMap TableId TableWatermarks
  tableChangeLog : HashMap TableId (TableChangeLog SstableInfo)
  stateTableInfo : HummockVersionStateTableInfo
  deriving DecidableEq

structure HummockVersionDelta where
  id : HummockVersionId
  prevId : HummockVersionId
  groupDeltas : IterMap CompactionGroupId (List GroupDelta)
  maxCommittedEpoch : HummockEpoch
  newTableWatermarks : IterMap TableId TableWatermarks
  removedTableIds : List TableId
  changeLogDelta : IterMap TableId (ChangeLogDelta SstableInfo)
  stateTableInfoDelta : IterMap TableId StateTableInfoDelta

def firstVersionId : HummockVersionId := 1
def invalidVersionId : HummockVersionId := 0
def invalidEpoch : HummockEpoch := 0

/-- The watermarks to store for a table, `none` to remove them. -/
abbrev ModifiedWatermarks := HashMap TableId (Option TableWatermarks)

variable (dbg : Bool) (current : HashMap TableId TableWatermarks)

/-- The body of the loop over `new_table_watermarks`. -/
def modifyNewWatermarks (removedTableIds : List TableId)
    (modified : ModifiedWatermarks) (e : TableId × TableWatermarks) : Res ModifiedWatermarks :=
  match current[e.1]? with
  | some cur =>
    if removedTableIds.contains e.1 then .ok (modified.insert e.1 none)
    else do .ok (modified.insert e.1 (some (← cur.applyNewTableWatermarks e.2)))
  | none => .ok (modified.insert e.1 (some e.2))

/-- The epoch below which the watermarks of a table are stale, if it progressed. -/
def staleSafeEpoch (info : HummockVersionStateTableInfo) (tableId : TableId)
    (watermarks : TableWatermarks) : Option HummockEpoch :=
  match info.stateTableInfo[tableId]?, watermarks.watermarks.head? with
  | some tableInfo, some (oldestEpoch, _) =>
    if oldestEpoch < tableInfo.committedEpoch then some tableInfo.committedEpoch else none
  | _, _ => none

/-- The body of the loop over the watermarks of the version. -/
def clearStaleWatermarks (info : HummockVersionStateTableInfo) (modified : ModifiedWatermarks)
    (e : TableId × TableWatermarks) : Res ModifiedWatermarks :=
  match staleSafeEpoch info e.1 e.2 with
  | none => .ok modified
  | some safeEpoch =>
    match modified[e.1]?.getD (some e.2) with
    | some watermarks => do
      .ok (modified.insert e.1 (some (← watermarks.clearStaleEpochWatermark dbg safeEpoch)))
    | none => .ok (modified.insert e.1 none)

/-- The body of the loop over the modified watermarks. -/
def storeWatermarks (e : TableId × Option TableWatermarks) : HashMap TableId TableWatermarks :=
  match e.2 with
  | some watermarks => current.insert e.1 watermarks
  | none => current.erase e.1

/-- The table watermark part of `apply_version_delta`. -/
def applyTableWatermarks (newTableWatermarks : IterMap TableId TableWatermarks)
    (removedTableIds : List TableId) (info : HummockVersionStateTableInfo) :
    Res (HashMap TableId TableWatermarks) := do
  let modified ← newTableWatermarks.entries.foldlM (modifyNewWatermarks current removedTableIds) ∅
  let modified ← current.toList.foldlM (clearStaleWatermarks dbg info) modified
  .ok (modified.toList.foldl storeWatermarks current)

namespace HummockVersion

def createInitVersion (defaultCompactionConfig : CompactionConfig) : HummockVersion where
  id := firstVersionId
  levels := [stateDefault, materializedView].foldl (fun levels groupId =>
    levels.insert groupId (buildInitialCompactionGroupLevels groupId defaultCompactionConfig)) ∅
  maxCommittedEpoch := invalidEpoch
  tableWatermarks := ∅
  tableChangeLog := ∅
  stateTableInfo := .empty

/-- The delta to the next version that changes nothing. -/
def versionDeltaAfter (self : HummockVersion) : HummockVersionDelta where
  id := self.id + 1
  prevId := self.id
  groupDeltas := .empty
  maxCommittedEpoch := self.maxCommittedEpoch
  newTableWatermarks := .empty
  removedTableIds := []
  changeLogDelta := .empty
  stateTableInfoDelta := .empty

def applyVersionDelta (dbg : Bool) (self : HummockVersion) (delta : HummockVersionDelta) :
    Res HummockVersion := do
  assert (self.id == delta.prevId) "self.id == version_delta.prev_id"
  let (stateTableInfo, changedTableInfo, hasBumped) ← self.stateTableInfo.applyDelta dbg
    delta.stateTableInfoDelta delta.removedTableIds
  let isCommitEpoch := hasBumped || decide (self.maxCommittedEpoch < delta.maxCommittedEpoch)
  let levels ← delta.groupDeltas.entries.foldlM (applyGroupDeltas dbg stateTableInfo isCommitEpoch)
    self.levels
  let tableWatermarks ← applyTableWatermarks dbg self.tableWatermarks delta.newTableWatermarks
    delta.removedTableIds stateTableInfo
  let tableChangeLog ← applyChangeLogDelta self.tableChangeLog delta.changeLogDelta
    delta.removedTableIds delta.stateTableInfoDelta changedTableInfo
  .ok {
    id := delta.id
    levels
    maxCommittedEpoch := delta.maxCommittedEpoch
    tableWatermarks
    tableChangeLog
    stateTableInfo }

def applyVersionDeltas (dbg : Bool) (self : HummockVersion) (deltas : List HummockVersionDelta) :
    Res HummockVersion :=
  deltas.foldlM (applyVersionDelta dbg) self

end HummockVersion

end Hummock
