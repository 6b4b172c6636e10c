import RisingLake.Hummock.Level
import RisingLake.Lib.Maps

/-!
# State table info (`HummockVersionStateTableInfo` of `version.rs`)

The committed epoch and the compaction group of every table, and an index from a group to its member
tables. `applyDelta` removes tables, then creates, commits and moves the tables of the delta, in the
order in which the delta map is visited.
-/

namespace Hummock

open Res

structure StateTableInfo where
  committedEpoch : HummockEpoch
  compactionGroupId : CompactionGroupId
  deriving DecidableEq, Repr

structure StateTableInfoDelta where
  committedEpoch : HummockEpoch
  compactionGroupId : CompactionGroupId
  deriving DecidableEq, Repr

abbrev MemberTables := HashMap CompactionGroupId (BTreeSet TableId)

structure HummockVersionStateTableInfo where
  stateTableInfo : HashMap TableId StateTableInfo
  compactionGroupMemberTables : MemberTables
  deriving DecidableEq

namespace MemberTables

/-- `assert!(members.entry(group_id).or_default().insert(table_id))`. -/
def insertTable (members : MemberTables) (groupId : CompactionGroupId) (tableId : TableId) :
    Res MemberTables := do
  let tables := members[groupId]?.getD ∅
  assert (!tables.contains tableId) "member_tables.insert(*table_id)"
  .ok (members.insert groupId (tables.insert tableId))

/-- A group that loses its last table loses its entry. -/
def removeTableFromCompactionGroup (members : MemberTables) (groupId : CompactionGroupId)
    (tableId : TableId) : Res MemberTables := do
  let tables ← unwrap members[groupId]? "should exist"
  assert (tables.contains tableId) "member_tables.remove(&table_id)"
  let tables := tables.erase tableId
  .ok (if tables.isEmpty then members.erase groupId else members.insert groupId tables)

end MemberTables

namespace HummockVersionStateTableInfo

def empty : HummockVersionStateTableInfo := ⟨∅, ∅⟩

def buildCompactionGroupMemberTables (info : HashMap TableId StateTableInfo) : Res MemberTables :=
  info.toList.foldlM (fun ret e => ret.insertTable e.2.compactionGroupId e.1) ∅

/-- The protobuf message is the map itself; the index is rebuilt. -/
def fromProtobuf (info : HashMap TableId StateTableInfo) : Res HummockVersionStateTableInfo := do
  .ok ⟨info, ← buildCompactionGroupMemberTables info⟩

def toProtobuf (self : HummockVersionStateTableInfo) : HashMap TableId StateTableInfo :=
  self.stateTableInfo

/-- The locals of `apply_delta`. -/
structure ApplyState where
  self : HummockVersionStateTableInfo
  changedTable : HashMap TableId (Option StateTableInfo)
  hasBumpedCommittedEpoch : Bool

/-- The body of the loop over the removed tables. -/
def removeTable (s : ApplyState) (tableId : TableId) : Res ApplyState :=
  match s.self.stateTableInfo[tableId]? with
  | some prevInfo => do
    let members ← s.self.compactionGroupMemberTables.removeTableFromCompactionGroup
      prevInfo.compactionGroupId tableId
    assert s.changedTable[tableId]?.isNone "changed_table.insert(..).is_none()"
    .ok { s with
      self := ⟨s.self.stateTableInfo.erase tableId, members⟩
      changedTable := s.changedTable.insert tableId (some prevInfo) }
  -- "table to remove does not exist"
  | none => .ok s

/-- The body of the loop over the delta. -/
def applyTableDelta (removedTableIds : List TableId) (s : ApplyState)
    (e : TableId × StateTableInfoDelta) : Res ApplyState :=
  if removedTableIds.contains e.1 then .ok s
  else
    let newInfo : StateTableInfo := ⟨e.2.committedEpoch, e.2.compactionGroupId⟩
    let members := s.self.compactionGroupMemberTables
    match s.self.stateTableInfo[e.1]? with
    | some prevInfo => do
      assert (prevInfo.committedEpoch ≤ newInfo.committedEpoch) "state table info regress"
      -- the table moves to another compaction group
      let members ←
        if prevInfo.compactionGroupId ≠ newInfo.compactionGroupId then do
          let members ← members.removeTableFromCompactionGroup prevInfo.compactionGroupId e.1
          members.insertTable newInfo.compactionGroupId e.1
        else .ok members
      .ok {
        self := ⟨s.self.stateTableInfo.insert e.1 newInfo, members⟩
        changedTable := s.changedTable.insert e.1 (some prevInfo)
        hasBumpedCommittedEpoch := s.hasBumpedCommittedEpoch ||
          decide (prevInfo.committedEpoch < newInfo.committedEpoch) }
    | none => do
      let members ← members.insertTable newInfo.compactionGroupId e.1
      .ok {
        self := ⟨s.self.stateTableInfo.insert e.1 newInfo, members⟩
        changedTable := s.changedTable.insert e.1 none
        hasBumpedCommittedEpoch := true }

/-- Returns, with the new state, the previous info of the changed tables and whether a committed
epoch progressed. -/
def applyDelta (dbg : Bool) (self : HummockVersionStateTableInfo)
    (delta : IterMap TableId StateTableInfoDelta) (removedTableIds : List TableId) :
    Res (HummockVersionStateTableInfo × HashMap TableId (Option StateTableInfo) × Bool) := do
  let s ← removedTableIds.foldlM removeTable ⟨self, ∅, false⟩
  let s ← delta.entries.foldlM (applyTableDelta removedTableIds) s
  let rebuilt ← if dbg then buildCompactionGroupMemberTables s.self.stateTableInfo
    else .ok s.self.compactionGroupMemberTables
  assert (decide (s.self.compactionGroupMemberTables = rebuilt)) "member tables == rebuilt index"
  .ok (s.self, s.changedTable, s.hasBumpedCommittedEpoch)

def compactionGroupMemberTableIds (self : HummockVersionStateTableInfo)
    (groupId : CompactionGroupId) : BTreeSet TableId :=
  self.compactionGroupMemberTables[groupId]?.getD ∅

end HummockVersionStateTableInfo

end Hummock
