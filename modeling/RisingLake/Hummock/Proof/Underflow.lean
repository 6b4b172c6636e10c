import RisingLake.Hummock.Version
import RisingLake.Lib.Returns

/-!
# Operations without a subtraction

Only taking SSTs off a size counter subtracts. Every other operation of a step can panic, but not
because of an underflow.
-/

namespace Hummock

open Res TableWatermarks HummockVersionStateTableInfo

@[simp] theorem noUnderflow_compareEncodedFullKey (lhs rhs : Bytes) :
    NoUnderflow (compareEncodedFullKey lhs rhs) := by
  simp [compareEncodedFullKey, splitKeyEpoch]

@[simp] theorem noUnderflow_decode (slice : Bytes) : NoUnderflow (FullKey.decode slice) := by
  simp [FullKey.decode, UserKey.decode]

@[simp] theorem noUnderflow_fromIndex (i : Nat) : NoUnderflow (VirtualNode.fromIndex dbg i) := by
  simp [VirtualNode.fromIndex]

@[simp] theorem noUnderflow_cmpKeyRange (a b : SstableInfo) : NoUnderflow (cmpKeyRange a b) := by
  simp [cmpKeyRange, KeyRange.compare, KeyRange.compareLeft]

@[simp] theorem noUnderflow_canConcat : ∀ ssts : List SstableInfo, NoUnderflow (canConcat ssts)
  | a :: b :: ssts => by
    simp [canConcat, KeyRange.compareRightWith, KeyRange.compareRightWithUserKey,
      noUnderflow_canConcat (b :: ssts)]
  | [_] => trivial
  | [] => trivial

/-! ## Levels -/

section
variable (dbg : Bool) (l0 : OverlappingLevel)

@[simp] theorem noUnderflow_insertNewSubLevel (subLevelId : U64)
    (levelType : LevelType) (ssts : List SstableInfo) (hint : Option Nat) :
    NoUnderflow (insertNewSubLevel dbg l0 subLevelId levelType ssts hint) := by
  cases hint <;> simp [insertNewSubLevel, insertPosition, newSubLevel, debugConcat]

@[simp] theorem noUnderflow_addSstsToSubLevel (idx : Nat)
    (ssts : List SstableInfo) : NoUnderflow (addSstsToSubLevel l0 idx ssts) := by
  simp [addSstsToSubLevel, arrangeSubLevel]

variable (level : Level) (ssts : List SstableInfo)

@[simp] theorem noUnderflow_levelInsertSsts : NoUnderflow (levelInsertSsts level ssts) := by
  simp [levelInsertSsts]

@[simp] theorem noUnderflow_levelExtendSorted (msg : String) :
    NoUnderflow (levelExtendSorted level ssts msg) := by
  simp [levelExtendSorted]

variable (lv : Levels) (d : IntraLevelDelta) (memberTableIds : List TableId)

@[simp] theorem noUnderflow_insertCompactedL0 :
    NoUnderflow (lv.insertCompactedL0 d memberTableIds) := by
  simp only [Levels.insertCompactedL0, noUnderflow_bind]
  refine ⟨by simp, fun idx _ => ?_⟩
  split <;> simp

@[simp] theorem noUnderflow_applyCompactSsts :
    NoUnderflow (lv.applyCompactSsts d memberTableIds) := by
  simp [Levels.applyCompactSsts, Levels.checkSstIdsExist, Levels.levelSsts, Levels.deleteCompacted,
    Levels.insertCompactedLevel]

variable (info : HummockVersionStateTableInfo)

@[simp] theorem noUnderflow_applyIntraLevel
    (isCommitEpoch : Bool) (groupId : CompactionGroupId) (lv : Levels) (d : IntraLevelDelta) :
    NoUnderflow (applyIntraLevel dbg info isCommitEpoch groupId lv d) := by
  simp [applyIntraLevel]

@[simp] theorem noUnderflow_applyNewL0SubLevel (ssts : List SstableInfo) :
    NoUnderflow (applyNewL0SubLevel dbg lv ssts) := by
  have hnext : NoUnderflow (nextL0SubLevelId dbg lv.l0) := by
    unfold nextL0SubLevelId
    split <;> simp
  simp [applyNewL0SubLevel, hnext]

/-! ## Splits and merges -/

namespace GroupSplit

@[simp] theorem noUnderflow_splitTableIds (tableIds : List TableId) (splitKey : Bytes) :
    NoUnderflow (splitTableIdsWithSplitKey dbg tableIds splitKey) := by
  simp [splitTableIdsWithSplitKey, splitTableIdsWithTableIdAndVnode, UserKey.getVnodeId,
    TableKey.vnodePart, TableKey.splitVnode, VirtualNode.fromBeBytes]

@[simp] theorem noUnderflow_needToSplit (sst : SstableInfo) (splitKey : Bytes) :
    NoUnderflow (needToSplit sst splitKey) := by
  simp [needToSplit]

@[simp] theorem noUnderflow_splitSst (sst : SstableInfo) (newSstId : U64) (splitKey : Bytes)
    (leftSize rightSize : Nat) :
    NoUnderflow (splitSst dbg sst newSstId splitKey leftSize rightSize) := by
  simp [splitSst]

@[simp] theorem noUnderflow_splitSstInfos (memberTableIds : List TableId) : ∀ (newSstId : U64)
    (ssts : List SstableInfo), NoUnderflow (splitSstInfos dbg memberTableIds newSstId ssts)
  | _, [] => trivial
  | newSstId, sst :: ssts => by
    simp [splitSstInfos, splitSstWithTableIds, noUnderflow_splitSstInfos memberTableIds _ ssts]

@[simp] theorem noUnderflow_retainSplit (splitKey : Bytes) : ∀ (newSstId : U64)
    (ssts : List SstableInfo), NoUnderflow (retainSplit dbg splitKey newSstId ssts)
  | _, [] => trivial
  | newSstId, sst :: ssts => by
    rw [retainSplit, noUnderflow_bind]
    refine ⟨by simp, fun t _ => ?_⟩
    cases t with
    | left | right | both => simp [noUnderflow_retainSplit splitKey _ ssts]

@[simp] theorem noUnderflow_splitSorted (splitKey : Bytes) (newSstId : U64)
    (ssts : List SstableInfo) : NoUnderflow (splitSorted dbg splitKey newSstId ssts) := by
  rw [splitSorted, noUnderflow_bind]
  refine ⟨by simp [getSplitPos], fun pos _ => ?_⟩
  split
  · simp
  · rw [noUnderflow_bind]
    refine ⟨by simp, fun t _ => ?_⟩
    cases t <;> simp

@[simp] theorem noUnderflow_splitOff (key : Option Bytes) (level : Level) (newSstId : U64) :
    NoUnderflow (splitOff dbg key level newSstId) := by
  unfold splitOff
  split <;> simp [splitSstInfoForLevelV2, splitSsts]

theorem noUnderflow_mergeSubLevels (needRewrite : Bool) : ∀ (l0 : OverlappingLevel) (nextId : U64)
    (rights : List Level), NoUnderflow (mergeSubLevels dbg needRewrite l0 nextId rights)
  | _, _, [] => trivial
  | l0, nextId, right :: rights => by
    simp [mergeSubLevels, rewriteSubLevelId, noUnderflow_mergeSubLevels needRewrite _ _ rights]

theorem noUnderflow_mergeLowerLevels : ∀ (levels : List Level) (idx : Nat) (rights : List Level),
    NoUnderflow (mergeLowerLevels levels idx rights)
  | _, _, [] => trivial
  | levels, idx, right :: rights => by
    simp [mergeLowerLevels, noUnderflow_mergeLowerLevels _ _ rights]

@[simp] theorem noUnderflow_mergeLevels (left right : Levels) :
    NoUnderflow (mergeLevels dbg left right) := by
  simp [mergeLevels, maxSubLevelId, noUnderflow_mergeSubLevels, noUnderflow_mergeLowerLevels]

end GroupSplit

@[simp] theorem noUnderflow_insertIntoTargetL0 :
    NoUnderflow (insertIntoTargetL0 dbg l0 level ssts) := by
  unfold insertIntoTargetL0
  split <;> simp

@[simp] theorem noUnderflow_mergeCompactionGroup (levels : GroupLevels)
    (left right : CompactionGroupId) :
    NoUnderflow (mergeCompactionGroup dbg info levels left right) := by
  rw [mergeCompactionGroup, noUnderflow_bind]
  refine ⟨by simp, fun _ _ => ?_⟩
  split
  · simp
  · dsimp only
    split <;> simp

/-! ## The other parts of a version -/

@[simp] theorem noUnderflow_applyDelta (delta : IterMap TableId StateTableInfoDelta)
    (removed : List TableId) : NoUnderflow (info.applyDelta dbg delta removed) := by
  have hinsert : ∀ (m : MemberTables) g t, NoUnderflow (m.insertTable g t) := by
    simp [MemberTables.insertTable]
  have herase : ∀ (m : MemberTables) g t, NoUnderflow (m.removeTableFromCompactionGroup g t) := by
    simp [MemberTables.removeTableFromCompactionGroup]
  have hremove : ∀ s t, NoUnderflow (removeTable s t) := by
    intro s t
    unfold removeTable
    split <;> simp [herase]
  have htable : ∀ s e, NoUnderflow (applyTableDelta removed s e) := by
    intro s e
    simp only [applyTableDelta, noUnderflow_ite]
    refine ⟨by simp, fun _ => ?_⟩
    split <;> simp [hinsert, herase]
  simp [applyDelta, hremove, htable, buildCompactionGroupMemberTables, hinsert]

@[simp] theorem noUnderflow_applyNewTableWatermarks (current new : TableWatermarks) :
    NoUnderflow (current.applyNewTableWatermarks new) := by
  simp only [applyNewTableWatermarks, noUnderflow_bind, noUnderflow_assert, true_and]
  intro _ _ _ _ _ _
  split <;> simp

theorem noUnderflow_clearStaleLoop (safeEpoch : HummockEpoch) :
    ∀ (s : TableWatermarks.ClearState) (es : List EpochWatermarks),
      NoUnderflow (clearStaleLoop dbg safeEpoch s es)
  | _, [] => trivial
  | s, e :: es => by
    simp [clearStaleLoop, staleWatermark, Bitmap.iterVnodes,
      Bitmap.ofOnes, Bitmap.set, noUnderflow_clearStaleLoop safeEpoch _ es]

@[simp] theorem noUnderflow_clearStaleEpochWatermark (current : TableWatermarks)
    (safeEpoch : HummockEpoch) : NoUnderflow (current.clearStaleEpochWatermark dbg safeEpoch) := by
  have hkeep : ∀ s e, NoUnderflow (keepEpoch dbg s e) := by
    simp [keepEpoch, Bitmap.iterVnodes]
  unfold clearStaleEpochWatermark
  split <;> simp [hkeep, noUnderflow_clearStaleLoop]

@[simp] theorem noUnderflow_applyTableWatermarks (current : HashMap TableId TableWatermarks)
    (new : IterMap TableId TableWatermarks) (removed : List TableId)
    (info : HummockVersionStateTableInfo) :
    NoUnderflow (applyTableWatermarks dbg current new removed info) := by
  have hmodify : ∀ s e, NoUnderflow (modifyNewWatermarks current removed s e) := by
    intro s e
    unfold modifyNewWatermarks
    split <;> simp
  have hclear : ∀ s e, NoUnderflow (clearStaleWatermarks dbg info s e) := by
    intro s e
    unfold clearStaleWatermarks
    split
    · simp
    · split <;> simp
  simp [applyTableWatermarks, hmodify, hclear]

@[simp] theorem noUnderflow_applyChangeLogDelta {T : Type}
    (logs : HashMap TableId (TableChangeLog T)) (delta : IterMap TableId (ChangeLogDelta T))
    (removed : List TableId) (infoDelta : IterMap TableId StateTableInfoDelta)
    (changed : HashMap TableId (Option StateTableInfo)) :
    NoUnderflow (applyChangeLogDelta logs delta removed infoDelta changed) := by
  have hpush : ∀ (s : HashMap TableId (TableChangeLog T)) e, NoUnderflow (pushChangeLog s e) := by
    intro s e
    rw [pushChangeLog, noUnderflow_bind]
    refine ⟨by simp, fun log _ => ?_⟩
    split
    · split <;> simp [EpochNewChangeLog.lastEpoch, EpochNewChangeLog.firstEpoch]
    · simp
  have htruncate : ∀ (log : TableChangeLog T) epoch, NoUnderflow (log.truncate epoch) := by
    intro log epoch
    rw [TableChangeLog.truncate, noUnderflow_bind]
    refine ⟨by simp [EpochNewChangeLog.lastEpoch], fun kept _ => ?_⟩
    split <;> simp
  have hlog : ∀ (s : HashMap TableId (TableChangeLog T)) e,
      NoUnderflow (truncateChangeLog s e) := by
    intro s e
    unfold truncateChangeLog
    split <;> simp [htruncate]
  simp [applyChangeLogDelta, hpush, hlog]

end

end Hummock
