import RisingLake.Hummock.Version

/-!
# The version of the frontend (`frontend_version.rs`)

The frontend follows the version of the meta node without its SSTs: it starts from a snapshot and
applies stripped deltas. In its change logs the SSTs are units, so that only their number is left. A
snapshot goes through `fromVersion`, `toProtobuf` and `fromProtobuf`, a delta through `fromDelta`.
-/

namespace Hummock

open Res

structure FrontendHummockVersion where
  id : HummockVersionId
  stateTableInfo : HummockVersionStateTableInfo
  tableChangeLog : HashMap TableId (TableChangeLog Unit)
  deriving DecidableEq

/-- `PbHummockVersion`: the levels, the watermarks and the epoch are left at their defaults. -/
structure PbFrontendVersion where
  id : HummockVersionId
  tableChangeLogs : HashMap TableId (TableChangeLog SstableInfo)
  stateTableInfo : HashMap TableId StateTableInfo
  deriving DecidableEq

structure FrontendHummockVersionDelta where
  prevId : HummockVersionId
  id : HummockVersionId
  removedTableId : List TableId
  stateTableInfoDelta : IterMap TableId StateTableInfoDelta
  changeLogDelta : IterMap TableId (ChangeLogDelta Unit)

/-- A log with its epochs only. -/
def EpochNewChangeLog.emptied {T T' : Type} (log : EpochNewChangeLog T) : EpochNewChangeLog T' :=
  ⟨[], [], log.epochs⟩

/-- A log with units for its SSTs. -/
def EpochNewChangeLog.counted {T : Type} (log : EpochNewChangeLog T) : EpochNewChangeLog Unit :=
  ⟨List.replicate log.newValue.length (), List.replicate log.oldValue.length (), log.epochs⟩

namespace FrontendHummockVersion

def fromVersion (version : HummockVersion) : FrontendHummockVersion where
  id := version.id
  stateTableInfo := version.stateTableInfo
  tableChangeLog := version.tableChangeLog.map fun _ log => log.map (·.emptied)

def toProtobuf (self : FrontendHummockVersion) : PbFrontendVersion where
  id := self.id
  tableChangeLogs := self.tableChangeLog.map fun _ log => log.map (·.emptied)
  stateTableInfo := self.stateTableInfo.toProtobuf

def fromProtobuf (value : PbFrontendVersion) : Res FrontendHummockVersion := do
  .ok {
    id := value.id
    stateTableInfo := ← HummockVersionStateTableInfo.fromProtobuf value.stateTableInfo
    tableChangeLog := value.tableChangeLogs.map fun _ log => log.map (·.emptied) }

def applyDelta (dbg : Bool) (self : FrontendHummockVersion) (delta : FrontendHummockVersionDelta) :
    Res FrontendHummockVersion := do
  if self.id ≠ invalidVersionId then assert (self.id == delta.prevId) "self.id == delta.prev_id"
  else .ok ()
  let (stateTableInfo, changedTableInfo, _) ← self.stateTableInfo.applyDelta dbg
    delta.stateTableInfoDelta delta.removedTableId
  let tableChangeLog ← applyChangeLogDelta self.tableChangeLog delta.changeLogDelta
    delta.removedTableId delta.stateTableInfoDelta changedTableInfo
  .ok { id := delta.id, stateTableInfo, tableChangeLog }

def applyDeltas (dbg : Bool) (self : FrontendHummockVersion)
    (deltas : List FrontendHummockVersionDelta) : Res FrontendHummockVersion :=
  deltas.foldlM (applyDelta dbg) self

end FrontendHummockVersion

namespace FrontendHummockVersionDelta

def fromDelta (delta : HummockVersionDelta) : FrontendHummockVersionDelta where
  prevId := delta.prevId
  id := delta.id
  removedTableId := delta.removedTableIds
  stateTableInfoDelta := delta.stateTableInfoDelta
  changeLogDelta := delta.changeLogDelta.map fun d => ⟨d.truncateEpoch, d.newLog.map (·.counted)⟩

end FrontendHummockVersionDelta

end Hummock
