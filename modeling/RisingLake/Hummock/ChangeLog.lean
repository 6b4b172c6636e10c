import RisingLake.Hummock.StateTableInfo

/-!
# Table change logs (`change_log.rs`, `apply_change_log_delta` of `hummock_version_ext.rs`)

The change log of a table is a list of logs, each with the epochs it covers and the SSTs with the
new and the old values of these epochs. The type of the SST entries is a parameter: the frontend
keeps only units.
-/

namespace Hummock

open Res

structure EpochNewChangeLog (T : Type) where
  newValue : List T
  oldValue : List T
  epochs : List HummockEpoch
  deriving DecidableEq, Repr

abbrev TableChangeLog (T : Type) := List (EpochNewChangeLog T)

structure ChangeLogDelta (T : Type) where
  truncateEpoch : HummockEpoch
  newLog : Option (EpochNewChangeLog T)
  deriving DecidableEq, Repr

namespace EpochNewChangeLog

variable {T : Type}

def lastEpoch (log : EpochNewChangeLog T) : Res HummockEpoch :=
  unwrap log.epochs.getLast? "non-empty"

def firstEpoch (log : EpochNewChangeLog T) : Res HummockEpoch := unwrap log.epochs.head? "non-empty"

end EpochNewChangeLog

namespace TableChangeLog

variable {T : Type} (log : TableChangeLog T)

def filterEpoch (minEpoch maxEpoch : HummockEpoch) : Res (List (EpochNewChangeLog T)) := do
  let start ← Slice.partitionPoint (fun l => do .ok (decide ((← l.lastEpoch) < minEpoch))) log
  let stop ← Slice.partitionPoint (fun l => do .ok (decide ((← l.firstEpoch) ≤ maxEpoch))) log
  if start ≤ stop then .ok ((log.take stop).drop start) else .error .index

def getNonEmptyEpochs (minEpoch : HummockEpoch) (maxCount : Nat) : Res (List HummockEpoch) := do
  let logs ← log.filterEpoch minEpoch U64.max
  let logs := logs.filter fun l => !l.newValue.isEmpty || !l.oldValue.isEmpty
  .ok (((logs.flatMap (·.epochs)).filter (minEpoch ≤ ·)).take maxCount)

/-- Only the first log left can still have epochs up to `truncateEpoch`. -/
def truncate (truncateEpoch : HummockEpoch) : Res (TableChangeLog T) := do
  let kept ← Slice.retain (fun l => do .ok (decide (truncateEpoch < (← l.lastEpoch)))) log
  match kept with
  | [] => .ok []
  | first :: rest =>
    .ok ({ first with epochs := first.epochs.filter (truncateEpoch < ·) } :: rest)

end TableChangeLog

section
variable {T : Type} (logs : HashMap TableId (TableChangeLog T))

/-- The body of the first loop of `apply_change_log_delta`. -/
def pushChangeLog (e : TableId × ChangeLogDelta T) : Res (HashMap TableId (TableChangeLog T)) := do
  let newLog ← unwrap e.2.newLog "change_log_delta.new_log"
  match logs[e.1]? with
  | some log => do
    match log.getLast? with
    | some prevLog => do
      assert (decide ((← prevLog.lastEpoch) < (← newLog.firstEpoch))) "prev_log < new_change_log"
      .ok (logs.insert e.1 (log ++ [newLog]))
    | none => .ok (logs.insert e.1 (log ++ [newLog]))
  | none => .ok (logs.insert e.1 [newLog])

/-- Whether the log of a table stays: not if the table is removed, nor if its committed epoch
progressed without a new log. -/
def keepChangeLog (delta : IterMap TableId (ChangeLogDelta T)) (removedTableIds : List TableId)
    (infoDelta : IterMap TableId StateTableInfoDelta)
    (changedTableInfo : HashMap TableId (Option StateTableInfo)) (tableId : TableId) : Bool :=
  if removedTableIds.contains tableId then false
  else
    match infoDelta.get? tableId, changedTableInfo[tableId]? with
    | some tableInfoDelta, some (some prevTableInfo) =>
      if prevTableInfo.committedEpoch < tableInfoDelta.committedEpoch then delta.contains tableId
      else true
    | _, _ => true

/-- The body of the last loop of `apply_change_log_delta`. -/
def truncateChangeLog (e : TableId × ChangeLogDelta T) : Res (HashMap TableId (TableChangeLog T)) :=
  match logs[e.1]? with
  | some log => do .ok (logs.insert e.1 (← log.truncate e.2.truncateEpoch))
  | none => .ok logs

def applyChangeLogDelta (delta : IterMap TableId (ChangeLogDelta T))
    (removedTableIds : List TableId) (infoDelta : IterMap TableId StateTableInfoDelta)
    (changedTableInfo : HashMap TableId (Option StateTableInfo)) :
    Res (HashMap TableId (TableChangeLog T)) := do
  let logs ← delta.entries.foldlM pushChangeLog logs
  let logs := logs.filter fun tableId _ =>
    keepChangeLog delta removedTableIds infoDelta changedTableInfo tableId
  delta.entries.foldlM truncateChangeLog logs

end

end Hummock
