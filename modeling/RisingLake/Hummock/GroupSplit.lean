import RisingLake.Hummock.Level

/-!
# Splitting and merging compaction groups (`compaction_group/mod.rs`, `group_split`)

A group is split at a key: SSTs below it stay, SSTs at or above it move to the new group, and an SST
across it is replaced by two that share the object, `[left, split_key)` and `[split_key, right]`.
The split key is the first key of a table, so that a table's data is never divided.

`splitSstWithTableIds` is the older split by table ids, which leaves the key ranges alone.
-/

namespace Hummock.GroupSplit

open Res

variable (dbg : Bool)

/-- The greatest vnode stands for the first key of the next table. -/
def splitTableVnode (tableId : TableId) (vnode : VirtualNode) : Res (TableId × VirtualNode) :=
  if vnode = VirtualNode.maxRepresentable then
    if h : tableId.val + 1 < 2 ^ 32 then .ok (⟨tableId.val + 1, h⟩, VirtualNode.zero)
    else .error .overflow
  else .ok (tableId, vnode)

def buildSplitFullKey (tableId : TableId) (vnode : VirtualNode) : Res FullKey := do
  let (tableId, vnode) ← splitTableVnode tableId vnode
  FullKey.new dbg tableId vnode.toBeBytes U64.max

def buildSplitKey (tableId : TableId) (vnode : VirtualNode) : Res Bytes := do
  .ok (← buildSplitFullKey dbg tableId vnode).encode

inductive SstSplitType where
  | left | right | both
  deriving DecidableEq, Repr

/-- The split key compared with the right bound: it is above every key of the range. -/
def aboveRange (keyRange : KeyRange) (cmpRight : Ordering) : Bool :=
  if keyRange.rightExclusive then cmpRight.isGE else cmpRight.isGT

def needToSplit (sst : SstableInfo) (splitKey : Bytes) : Res SstSplitType := do
  let cmpLeft ← compareEncodedFullKey splitKey sst.keyRange.left
  if cmpLeft.isLE then .ok .right
  else do
    let cmpRight ← compareEncodedFullKey splitKey sst.keyRange.right
    if aboveRange sst.keyRange cmpRight then .ok .left else .ok .both

def splitTableIdsWithTableIdAndVnode (tableIds : List TableId) (tableId : TableId) (vnode : Nat) :
    Res (List TableId × List TableId) := do
  assert (decide (tableIds.Pairwise (· ≤ ·))) "table_ids.is_sorted()"
  assert ((← VirtualNode.fromIndex dbg vnode) == VirtualNode.zero) "VirtualNode::ZERO == vnode"
  let pos ← Slice.partitionPoint (fun id => .ok (decide (id < tableId))) tableIds
  .ok (tableIds.take pos, tableIds.drop pos)

def splitTableIdsWithSplitKey (tableIds : List TableId) (splitKey : Bytes) :
    Res (List TableId × List TableId) := do
  assert (decide (tableIds.Pairwise (· ≤ ·))) "table_ids.is_sorted()"
  let splitFullKey ← FullKey.decode splitKey
  let vnode ← splitFullKey.userKey.getVnodeId dbg
  splitTableIdsWithTableIdAndVnode dbg tableIds splitFullKey.userKey.tableId vnode

/-- The branch SST takes the id `newSstId`, the origin SST the next one. -/
def splitSst (origin : SstableInfo) (newSstId : U64) (splitKey : Bytes)
    (leftSize rightSize : Nat) : Res ((Option SstableInfo × Option SstableInfo) × U64) := do
  let originSstId ← succ dbg newSstId
  let nextSstId ← succ dbg originSstId
  let keyRange := origin.keyRange
  let (tableIdsL, tableIdsR) ← splitTableIdsWithSplitKey dbg origin.tableIds splitKey
  let branch := { origin with
    sstId := newSstId.val
    keyRange :=
      { left := splitKey, right := keyRange.right, rightExclusive := keyRange.rightExclusive }
    sstSize := rightSize
    tableIds := tableIdsR }
  let origin := { origin with
    sstId := originSstId.val
    keyRange := { left := keyRange.left, right := splitKey, rightExclusive := true }
    sstSize := leftSize
    tableIds := tableIdsL }
  if tableIdsL.isEmpty then .ok ((none, some branch), nextSstId)
  else if tableIdsR.isEmpty then .ok ((some origin, none), nextSstId)
  else do
    -- avoid an empty key range of the origin SST
    let c ← compareEncodedFullKey origin.keyRange.left origin.keyRange.right
    if c == .eq then .ok ((none, some branch), nextSstId)
    else .ok ((some origin, some branch), nextSstId)

/-- The branch SST keeps the table ids in `newTableIds`, the modified one the others. -/
def splitSstWithTableIds (origin : SstableInfo) (newSstId : U64)
    (oldSstSize newSstSize : Nat) (newTableIds : List TableId) :
    Res ((SstableInfo × SstableInfo) × U64) := do
  let modifiedSstId ← succ dbg newSstId
  let nextSstId ← succ dbg modifiedSstId
  let intersection :=
    (Std.ExtTreeSet.ofList origin.tableIds compare).toList.filter (newTableIds.contains ·)
  let branch := { origin with
    sstId := newSstId.val
    sstSize := newSstSize
    tableIds := intersection }
  let modified := { origin with
    sstId := modifiedSstId.val
    sstSize := oldSstSize
    tableIds := origin.tableIds.filter (!intersection.contains ·) }
  .ok ((modified, branch), nextSstId)

/-- The last SST that starts below the split key (or the first). -/
def getSplitPos (sstables : List SstableInfo) (splitKey : Bytes) : Res Nat := do
  let pos ← Slice.partitionPoint (fun sst => do
    .ok ((← compareEncodedFullKey sst.keyRange.left splitKey).isLT)) sstables
  .ok (pos - 1)

/-- The overlapping case: every SST is split by itself. Returns the SSTs kept, those for the right
group and the next id. -/
def retainSplit (splitKey : Bytes) : U64 → List SstableInfo →
    Res (List SstableInfo × List SstableInfo × U64)
  | newSstId, [] => .ok ([], [], newSstId)
  | newSstId, sst :: ssts => do
    match ← needToSplit sst splitKey with
    | .left => do
      let (kept, inserted, newSstId) ← retainSplit splitKey newSstId ssts
      .ok (sst :: kept, inserted, newSstId)
    | .right => do
      let (kept, inserted, newSstId) ← retainSplit splitKey newSstId ssts
      .ok (kept, sst :: inserted, newSstId)
    | .both => do
      let ((left, right), newSstId) ←
        splitSst dbg sst newSstId splitKey (sst.sstSize / 2) (sst.sstSize / 2)
      let (kept, inserted, newSstId) ← retainSplit splitKey newSstId ssts
      .ok (left.toList ++ kept, right.toList ++ inserted, newSstId)

/-- The non-overlapping case: only the SST at the split position can be across the split key. -/
def splitSorted (splitKey : Bytes) (newSstId : U64) (ssts : List SstableInfo) :
    Res (List SstableInfo × List SstableInfo × U64) := do
  let pos ← getSplitPos ssts splitKey
  match ssts[pos]? with
  | none => .ok (ssts, [], newSstId)
  | some sst => do
    match ← needToSplit sst splitKey with
    | .left => .ok (ssts.take (pos + 1), ssts.drop (pos + 1), newSstId)
    | .right => do
      assert (pos == 0) "0 == pos"
      .ok ([], ssts.drop pos, newSstId)
    | .both => do
      let ((left, right), newSstId) ←
        splitSst dbg sst newSstId splitKey (sst.sstSize / 2) (sst.sstSize / 2)
      .ok (ssts.take pos ++ left.toList, right.toList ++ ssts.drop (pos + 1), newSstId)

def splitSsts (level : Level) (newSstId : U64) (splitKey : Bytes) :
    Res (List SstableInfo × List SstableInfo × U64) :=
  if level.levelType = .overlapping then retainSplit dbg splitKey newSstId level.tableInfos
  else splitSorted dbg splitKey newSstId level.tableInfos

/-- The level without the SSTs for the right group, these SSTs and the next id. The counters of the
level are not touched. -/
def splitSstInfoForLevelV2 (level : Level) (newSstId : U64) (splitKey : Bytes) :
    Res (Level × List SstableInfo × U64) :=
  if level.tableInfos.isEmpty then .ok (level, [], newSstId)
  else do
    let (kept, inserted, newSstId) ← splitSsts dbg level newSstId splitKey
    .ok ({ level with tableInfos := kept }, inserted, newSstId)

/-- The older split: every SST with a member table is replaced by its modified part, also where no
table is left in it. -/
def splitSstInfos (memberTableIds : List TableId) : U64 → List SstableInfo →
    Res (List SstableInfo × List SstableInfo × U64)
  | newSstId, [] => .ok ([], [], newSstId)
  | newSstId, sst :: ssts =>
    if sst.tableIds.any (memberTableIds.contains ·) then do
      let ((modified, branch), newSstId) ←
        splitSstWithTableIds dbg sst newSstId (sst.sstSize / 2) (sst.sstSize / 2) memberTableIds
      let (kept, inserted, newSstId) ← splitSstInfos memberTableIds newSstId ssts
      .ok (modified :: kept, branch :: inserted, newSstId)
    else do
      let (kept, inserted, newSstId) ← splitSstInfos memberTableIds newSstId ssts
      .ok (sst :: kept, inserted, newSstId)

def splitSstInfoForLevel (memberTableIds : List TableId) (level : Level)
    (newSstId : U64) : Res (Level × List SstableInfo × U64) := do
  let (kept, inserted, newSstId) ← splitSstInfos dbg memberTableIds newSstId level.tableInfos
  .ok ({ level with tableInfos := kept }, inserted, newSstId)

/-- `.ok idx`: the sub-level `idx` of the target has the same id; `.error idx`: a new sub-level goes
to position `idx`. -/
def subLevelInsertHintFrom (subLevelId : U64) : Nat → List Level → Except Nat Nat
  | idx, [] => .error idx
  | idx, other :: levels =>
    if other.subLevelId < subLevelId then subLevelInsertHintFrom subLevelId (idx + 1) levels
    else if other.subLevelId = subLevelId then .ok idx
    else .error idx

def getSubLevelInsertHint (targetLevels : List Level) (subLevel : Level) : Except Nat Nat :=
  subLevelInsertHintFrom subLevel.subLevelId 0 targetLevels

/-! ## Merging -/

/-- `max` of `sub_level_id + 1` over the sub-levels, 0 if there are none. -/
def maxSubLevelId (subLevels : List Level) : Res U64 :=
  subLevels.foldlM (fun acc subLevel => do .ok (max acc (← succ dbg subLevel.subLevelId))) 0

/-- The id for a sub-level of the right group and `max_left_sub_level_id` after it. -/
def rewriteSubLevelId (dbg needRewrite : Bool) (nextId subLevelId : U64) : Res (U64 × U64) :=
  if needRewrite then do .ok (nextId, ← succ dbg nextId) else .ok (subLevelId, nextId)

/-- The loop over the right group's sub-levels; `nextId` is `max_left_sub_level_id`. -/
def mergeSubLevels (dbg needRewrite : Bool) : OverlappingLevel → U64 → List Level →
    Res OverlappingLevel
  | l0, _, [] => .ok l0
  | l0, nextId, right :: rights => do
    let (subLevelId, nextId) ← rewriteSubLevelId dbg needRewrite nextId right.subLevelId
    let l0 ← insertNewSubLevel dbg l0 subLevelId right.levelType right.tableInfos none
    mergeSubLevels dbg needRewrite l0 nextId rights

/-- The loop over the right group's levels below L0, from index `idx` on. -/
def mergeLowerLevels : List Level → Nat → List Level → Res (List Level)
  | levels, _, [] => .ok levels
  | levels, idx, right :: rights =>
    if right.tableInfos.isEmpty then mergeLowerLevels levels (idx + 1) rights
    else do
      let level ← index levels idx
      let level ← levelExtendSorted level right.tableInfos
        "can_concat(&left_levels.levels[idx].table_infos)"
      mergeLowerLevels (levels.set idx level) (idx + 1) rights

def mergeLevels (left right : Levels) : Res Levels := do
  let maxLeft ← maxSubLevelId dbg left.l0.subLevels
  let l0 ← mergeSubLevels dbg (maxLeft != 0) left.l0 maxLeft right.l0.subLevels
  assert (decide (l0.subLevels.Pairwise fun a b => a.subLevelId ≤ b.subLevelId))
    "left_levels.l0.sub_levels.is_sorted_by_key"
  -- reset, to avoid misaligned hierarchies of different groups
  let subLevels := l0.subLevels.map fun subLevel => { subLevel with vnodePartitionCount := 0 }
  let levels ← mergeLowerLevels left.levels 0 right.levels
  .ok { left with l0 := { l0 with subLevels }, levels }

end Hummock.GroupSplit
