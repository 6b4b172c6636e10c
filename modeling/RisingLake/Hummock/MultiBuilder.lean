import RisingLake.Hummock.SstableBuilder

/-!
# Builders of several SSTs (`storage/src/hummock/sstable/multi_builder.rs`)

A `CapacitySplitTableBuilder` hands the entries on to a builder, which it finishes when it has
reached its capacity, or when the table or the partition of vnodes changes; the next entry opens a
new one. An SST is only finished in front of a new user key.

The factory opens builders with consecutive ids. The upload of the files and the progress are left
out.
-/

namespace Hummock

open Res

/-- What the builders are opened with, and the number of vnodes of the tables. -/
structure CapacitySplitEnv (F : Type) where
  sst : SstableEnv F
  options : SstableBuilderOptions
  filterBuilder : F
  tableIdToVnode : HashMap TableId Nat

structure CapacitySplitTableBuilder (F : Type) where
  sstOutputs : List SstableBuilderOutput
  currentBuilder : Option (SstableBuilder F)
  nextSstId : Nat
  lastTableId : TableId
  vnodeCount : Nat
  tableVnodePartition : HashMap TableId Nat
  splitWeightByVnode : Nat
  largestVnodeInCurrentPartition : Nat

namespace CapacitySplitTableBuilder

variable {F : Type}

def countForCompat : Nat := 2 ^ 8

def new (nextSstId : Nat) (tableVnodePartition : HashMap TableId Nat) :
    CapacitySplitTableBuilder F :=
  ⟨[], none, nextSstId, 0, countForCompat, tableVnodePartition, 0, countForCompat - 1⟩

/-- The largest vnode of the first partition of a table. -/
def firstPartitionEnd (vnodeCount splitWeightByVnode : Nat) : Res Nat :=
  if 1 < splitWeightByVnode then do
    checkedSub (← checkedDiv vnodeCount splitWeightByVnode) 1
  else checkedSub vnodeCount 1

variable (env : CapacitySplitEnv F) (self : CapacitySplitTableBuilder F)

/-- `check_switch_builder` on the table of the key. -/
def switchTable (tableId : TableId) : Res (Bool × CapacitySplitTableBuilder F) :=
  if tableId ≠ self.lastTableId then do
    let newVnodePartitionCount := self.tableVnodePartition[tableId]?
    let vnodeCount ← unwrap env.tableIdToVnode[tableId]? "table_id not found"
    let lastVnode ← checkedSub vnodeCount 1
    if newVnodePartitionCount.isSome || self.tableVnodePartition[self.lastTableId]?.isSome then
      let splitWeightByVnode := newVnodePartitionCount.getD 0
      .ok (true, { self with
        vnodeCount
        splitWeightByVnode
        lastTableId := tableId
        largestVnodeInCurrentPartition := ← firstPartitionEnd vnodeCount splitWeightByVnode })
    else .ok (false, { self with vnodeCount, largestVnodeInCurrentPartition := lastVnode })
  else .ok (false, self)

/-- The largest vnode of the partition that the vnode is in. -/
def partitionEnd (dbg : Bool) (vnodeCount splitWeightByVnode keyVnode : Nat) : Res Nat := do
  let basic ← checkedDiv vnodeCount splitWeightByVnode
  let remainder ← checkedRem vnodeCount splitWeightByVnode
  let smallSegmentsArea := basic * (← checkedSub splitWeightByVnode remainder)
  let partitionStop ←
    if keyVnode < smallSegmentsArea then do .ok (((← checkedDiv keyVnode basic) + 1) * basic)
    else .ok (((keyVnode - smallSegmentsArea) / (basic + 1) + 1) * (basic + 1) + smallSegmentsArea)
  let largest ← checkedSub partitionStop 1
  debugAssert dbg (decide (keyVnode ≤ largest)) "key_vnode <= self.largest_vnode_in_current_partition"
  .ok largest

/-- `check_switch_builder` on the vnode of the key. -/
def switchPartition (userKey : UserKey) (switchBuilder : Bool) :
    Res (Bool × CapacitySplitTableBuilder F) := do
  let lastVnode ← checkedSub self.vnodeCount 1
  if self.largestVnodeInCurrentPartition ≠ lastVnode then
    let keyVnode ← userKey.getVnodeId env.sst.dbg
    if self.largestVnodeInCurrentPartition < keyVnode then
      .ok (true, { self with
        largestVnodeInCurrentPartition :=
          ← partitionEnd env.sst.dbg self.vnodeCount self.splitWeightByVnode keyVnode })
    else .ok (switchBuilder, self)
  else .ok (switchBuilder, self)

def checkSwitchBuilder (userKey : UserKey) : Res (Bool × CapacitySplitTableBuilder F) := do
  let (switchBuilder, self) ← self.switchTable env userKey.tableId
  self.switchPartition env userKey switchBuilder

def needFlush : Bool := self.currentBuilder.any (·.reachCapacity env.sst)

def sealCurrent : Res (CapacitySplitTableBuilder F) :=
  match self.currentBuilder with
  | none => .ok self
  | some builder => do
    .ok { self with
      currentBuilder := none
      sstOutputs := self.sstOutputs ++ [← builder.finish env.sst] }

/-- The current builder, opened if there is none. -/
def openBuilder : Res (SstableBuilder F × CapacitySplitTableBuilder F) :=
  match self.currentBuilder with
  | some builder => .ok (builder, self)
  | none => do
    .ok (← SstableBuilder.new self.nextSstId env.filterBuilder env.options,
      { self with nextSstId := self.nextSstId + 1 })

/-- Finishes the current builder in front of a new user key, if it should be switched or is full. -/
def sealForKey (switchBuilder isNewUserKey : Bool) : Res (CapacitySplitTableBuilder F) :=
  if isNewUserKey && (switchBuilder || self.needFlush env) then self.sealCurrent env else .ok self

def addFullKey (fullKey : FullKey)
    (value : HummockValue) (isNewUserKey : Bool) : Res (CapacitySplitTableBuilder F) := do
  let (switchBuilder, self) ← self.checkSwitchBuilder env fullKey.userKey
  let self ← self.sealForKey env switchBuilder isNewUserKey
  let (builder, self) ← self.openBuilder env
  .ok { self with currentBuilder := some (← builder.add env.sst fullKey value) }

def finish : Res (List SstableBuilderOutput) := do
  .ok (← self.sealCurrent env).sstOutputs

end CapacitySplitTableBuilder

end Hummock
