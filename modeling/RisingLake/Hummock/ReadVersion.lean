import RisingLake.Hummock.Version

/-!
# Read versions (`store/version.rs`, `local_version/pinned_version.rs`)

A reader of a table sees three containers, from new to old: the batches in memory (imms), the SSTs
that were uploaded and not yet committed (staging), and the levels of the committed version. A write
moves from one to the next by the updates of `HummockReadVersion.update`.

Of a batch only the epochs and the id are modelled, which are what an update looks at. The
statistics, the vnode bitmap and the SSTs of old values are left out.
-/

namespace Hummock

open Res

/-- `SharedBufferBatchId`, `ImmId`. -/
abbrev ImmId := Nat

/-- `SharedBufferBatch`, `ImmutableMemtable`. `epochs` goes from old to new. -/
structure SharedBufferBatch where
  epochs : List HummockEpoch
  batchId : ImmId
  deriving DecidableEq, Repr

def SharedBufferBatch.minEpoch (self : SharedBufferBatch) : Res HummockEpoch :=
  unwrap self.epochs.head? "epochs"

abbrev LocalInstanceId := Nat

/-- Uploaded SSTs of some imms; newer data, newer epochs and newer imms come first. -/
structure StagingSstableInfo where
  sstableInfos : List SstableInfo
  epochs : List HummockEpoch
  immIds : HashMap LocalInstanceId (List ImmId)
  deriving DecidableEq

inductive VersionUpdate where
  | stagingImm (imm : SharedBufferBatch)
  | stagingSst (sst : StagingSstableInfo)
  | committedSnapshot (version : HummockVersion)
  | newTableWatermark (direction : WatermarkDirection) (epoch : HummockEpoch)
      (vnodeWatermarks : List VnodeWatermark)

/-- Newer data comes first. -/
structure StagingVersion where
  imm : List SharedBufferBatch
  sst : List StagingSstableInfo
  deriving DecidableEq

structure HummockReadVersion where
  tableId : TableId
  instanceId : LocalInstanceId
  staging : StagingVersion
  committed : HummockVersion
  isReplicated : Bool
  tableWatermarks : Option TableWatermarksIndex
  deriving DecidableEq

variable (tableId : TableId) (self : HummockVersion)

def HummockVersion.isValid : Bool := self.id != invalidVersionId

def HummockVersion.tableCommittedEpoch (tableId : TableId) : Option HummockEpoch :=
  self.stateTableInfo.stateTableInfo[tableId]?.map (·.committedEpoch)

namespace HummockReadVersion

/-! ## Updates -/

def newWithReplicationOption (tableId : TableId) (instanceId : LocalInstanceId)
    (committedVersion : HummockVersion) (isReplicated : Bool) : Res HummockReadVersion := do
  assert committedVersion.isValid "committed_version.is_valid()"
  let tableWatermarks ← match committedVersion.tableWatermarks[tableId]? with
    | none => .ok none
    | some watermarks => do
      let committedEpoch ← unwrap (committedVersion.tableCommittedEpoch tableId) "should exist"
      .ok (some (TableWatermarksIndex.newCommitted watermarks committedEpoch))
  .ok {
    tableId
    instanceId
    staging := ⟨[], []⟩
    committed := committedVersion
    isReplicated
    tableWatermarks }

/-- `Staging(ImmMem)`. -/
def addImm (dbg : Bool) (self : HummockReadVersion) (imm : SharedBufferBatch) :
    Res HummockReadVersion := do
  debugAssert dbg (self.staging.imm.head?.all fun item => decide (item.batchId < imm.batchId))
    "item.batch_id() < imm.batch_id()"
  .ok { self with staging := { self.staging with imm := imm :: self.staging.imm } }

/-- The oldest imm is taken off; it must be the given one. -/
def popImm (imms : List SharedBufferBatch) (immId : ImmId) : Res (List SharedBufferBatch) :=
  match imms.getLast? with
  | none => .error (.assert "should be valid: empty")
  | some imm => do
    assert (imm.batchId == immId) "should be valid: miss match id"
    .ok imms.dropLast

variable (self : HummockReadVersion) (committedEpoch : HummockEpoch) (sst : StagingSstableInfo)

/-- `Staging(Sst)`: the SSTs take the place of their imms, which are the oldest ones. -/
def addSst : Res HummockReadVersion :=
  match sst.immIds[self.instanceId]? with
  | none => .ok self
  | some imms => do
    let imm ← imms.reverse.foldlM popImm self.staging.imm
    .ok { self with staging := ⟨imm, sst :: self.staging.sst⟩ }

/-- What a commit leaves of the imms: all of them, and none may be committed, or the later ones of a
replicated table. -/
def keepsImm (isReplicated : Bool) (committedEpoch : HummockEpoch) (imm : SharedBufferBatch) :
    Res Bool := do
  let minEpoch ← imm.minEpoch
  if isReplicated then .ok (decide (committedEpoch < minEpoch))
  else do
    assert (decide (committedEpoch < minEpoch)) "imm.min_epoch() > committed_epoch"
    .ok true

/-- The newest epoch of a staging SST is not committed. -/
def keepsSst : Res Bool := do
  let epoch ← unwrap sst.epochs.head? "epochs not empty"
  .ok (decide (committedEpoch < epoch))

/-- The oldest epoch of a staging SST is not committed. -/
def isUncommitted : Res Bool := do
  let epoch ← unwrap sst.epochs.getLast? "epochs not empty"
  .ok (decide (committedEpoch < epoch))

/-- The staging part of `CommittedSnapshot`. -/
def commitStaging (isReplicated : Bool) (staging : StagingVersion) (committedEpoch : HummockEpoch) :
    Res StagingVersion := do
  let imm ← Slice.retain (keepsImm isReplicated committedEpoch) staging.imm
  let sst ← Slice.retain (keepsSst committedEpoch) staging.sst
  assert (← sst.allM (isUncommitted committedEpoch)) "sst.epochs.last() > committed_epoch"
  .ok ⟨imm, sst⟩

/-- The watermark part of `CommittedSnapshot`. The watermarks are those of the version held so far,
not of the new one. -/
def commitTableWatermarks : Res (Option TableWatermarksIndex) :=
  match self.committed.tableWatermarks[self.tableId]? with
  | none => .ok self.tableWatermarks
  | some committedWatermarks =>
    match self.tableWatermarks with
    | some watermarkIndex => do
      .ok (some (← watermarkIndex.applyCommittedWatermarks committedWatermarks committedEpoch))
    | none => .ok (some (.newCommitted committedWatermarks committedEpoch))

def commitSnapshot (committedVersion : HummockVersion) : Res HummockReadVersion :=
  match committedVersion.tableCommittedEpoch self.tableId with
  | none => .ok { self with committed := committedVersion }
  | some committedEpoch => do
    let staging ← commitStaging self.isReplicated self.staging committedEpoch
    let tableWatermarks ← self.commitTableWatermarks committedEpoch
    .ok { self with staging, tableWatermarks, committed := committedVersion }

def addTableWatermark (dbg : Bool) (self : HummockReadVersion) (direction : WatermarkDirection)
    (epoch : HummockEpoch) (vnodeWatermarks : List VnodeWatermark) : Res HummockReadVersion := do
  let watermarkIndex ← match self.tableWatermarks with
    | some watermarkIndex => watermarkIndex.addEpochWatermark dbg epoch vnodeWatermarks direction
    | none =>
      TableWatermarksIndex.new direction epoch vnodeWatermarks
        (self.committed.tableCommittedEpoch self.tableId)
  .ok { self with tableWatermarks := some watermarkIndex }

def update (dbg : Bool) (self : HummockReadVersion) : VersionUpdate → Res HummockReadVersion
  | .stagingImm imm => self.addImm dbg imm
  | .stagingSst sst => self.addSst sst
  | .committedSnapshot version => self.commitSnapshot version
  | .newTableWatermark direction epoch vnodeWatermarks =>
    self.addTableWatermark dbg direction epoch vnodeWatermarks

def filterRegressWatermarks (dbg : Bool) (self : HummockReadVersion)
    (watermarks : List VnodeWatermark) : Res (List VnodeWatermark) :=
  match self.tableWatermarks with
  | some watermarkIndex => watermarkIndex.filterRegressWatermarks dbg watermarks
  | none => .ok watermarks

def latestWatermark (self : HummockReadVersion) (vnode : VirtualNode) : Res (Option Bytes) :=
  match self.tableWatermarks with
  | some watermarkIndex => watermarkIndex.latestWatermark vnode
  | none => .ok none

end HummockReadVersion

end Hummock
