import RisingLake.Hummock.Version

/-!
# What the operations on levels do

Inversion lemmas: from a successful run of an operation, the new levels in terms of the old ones. A
compaction's delta edits levels (`Edited`); a merge and a split insert sub-levels and extend levels,
so that what these two keep, they keep (`mergeSubLevels_inv`, `mergeLowerLevels_inv`).
-/

namespace Hummock

open Res

section
variable {dbg : Bool}

/-! ## Inserting SSTs -/

variable {ssts : List SstableInfo} {lv lv' : Levels} {levelType : LevelType} {subLevelId : U64}

theorem newSubLevel_ok {level : Level} (h : newSubLevel dbg subLevelId levelType ssts = .ok level) :
    level = ⟨0, levelType, ssts, sumSstSize ssts, subLevelId, sumUncompressed ssts, 0⟩ := by
  obtain ⟨_, -, h⟩ := bind_eq_ok.1 h
  obtain ⟨_, -, h⟩ := bind_eq_ok.1 h
  cases h
  rfl

theorem insertNewSubLevel_ok {l0 l0' : OverlappingLevel}
    {hint : Option Nat} (h : insertNewSubLevel dbg l0 subLevelId levelType ssts hint = .ok l0') :
    subLevelId = U64.max ∧ l0' = l0 ∨ subLevelId ≠ U64.max ∧ ∃ pos level,
      insertPosition l0 subLevelId hint = .ok pos ∧ pos ≤ l0.subLevels.length ∧
      newSubLevel dbg subLevelId levelType ssts = .ok level ∧
      l0' = ⟨l0.subLevels.insertIdx pos level, l0.totalFileSize + level.totalFileSize,
        l0.uncompressedFileSize + level.uncompressedFileSize⟩ := by
  unfold insertNewSubLevel at h
  split at h
  · rename_i hmax
    cases h
    exact .inl ⟨hmax, rfl⟩
  rename_i hmax
  obtain ⟨pos, hpos, h⟩ := bind_eq_ok.1 h
  obtain ⟨_, -, h⟩ := bind_eq_ok.1 h
  obtain ⟨_, -, h⟩ := bind_eq_ok.1 h
  obtain ⟨level, hlevel, h⟩ := bind_eq_ok.1 h
  split at h
  · cases h
  · rename_i hlen
    cases h
    exact .inr ⟨hmax, pos, level, hpos, not_lt.1 hlen, hlevel, rfl⟩

def Arranged (ssts ssts' : List SstableInfo) : Prop :=
  Slice.sortBy cmpKeyRange ssts = .ok ssts' ∧ canConcat ssts' = .ok true

theorem sortConcat_ok {α : Type} {level' : α} {msg : String} {f : List SstableInfo → α} (h : (do
      let tableInfos ← Slice.sortBy cmpKeyRange ssts
      let concat ← canConcat tableInfos
      assert concat msg
      .ok (f tableInfos)) = .ok level') :
    ∃ tableInfos, tableInfos.Perm ssts ∧ Arranged ssts tableInfos ∧ level' = f tableInfos := by
  obtain ⟨tableInfos, hsort, h⟩ := bind_eq_ok.1 h
  obtain ⟨concat, hconcat, h⟩ := bind_eq_ok.1 h
  obtain ⟨_, hassert, h⟩ := bind_eq_ok.1 h
  cases h
  rw [assert_eq_ok] at hassert
  subst hassert
  exact ⟨tableInfos, Slice.sortBy_perm hsort, ⟨hsort, hconcat⟩, rfl⟩

theorem arrangeSubLevel_ok {ssts' : List SstableInfo}
    (h : arrangeSubLevel levelType ssts = .ok ssts') :
    ssts'.Perm ssts ∧ (levelType = .nonoverlapping → Arranged ssts ssts') := by
  unfold arrangeSubLevel at h
  split at h
  · obtain ⟨_, hperm, harranged, rfl⟩ := sortConcat_ok h
    exact ⟨hperm, fun _ => harranged⟩
  · rename_i hne
    cases h
    exact ⟨.refl _, fun heq => absurd heq hne⟩

theorem levelInsertSsts_ok {level level' : Level} (h : levelInsertSsts level ssts = .ok level') :
    ∃ tableInfos, tableInfos.Perm (level.tableInfos ++ ssts) ∧
      Arranged (level.tableInfos ++ ssts) tableInfos ∧
      level' = { level with
        tableInfos
        levelType := if level.levelType = .overlapping then .nonoverlapping else level.levelType
        totalFileSize := level.totalFileSize + sumSstSize ssts
        uncompressedFileSize := level.uncompressedFileSize + sumUncompressed ssts } :=
  sortConcat_ok h

theorem levelExtendSorted_ok {level level' : Level} {msg : String}
    (h : levelExtendSorted level ssts msg = .ok level') :
    ∃ tableInfos, tableInfos.Perm (level.tableInfos ++ ssts) ∧
      Arranged (level.tableInfos ++ ssts) tableInfos ∧
      level' = { level with
        tableInfos
        totalFileSize := level.totalFileSize + sumSstSize ssts
        uncompressedFileSize := level.uncompressedFileSize + sumUncompressed ssts } :=
  sortConcat_ok h

/-! ## Compactions -/

/-- A level after some of the edits of a compaction. -/
inductive Edited (d : IntraLevelDelta) : Level → Level → Prop where
  | refl {level} : Edited d level level
  | delete {level level'} : Edited d level level' →
    Edited d level (levelDeleteSsts level' d.removedTableIds)
  | insert {level level' n level''} : Edited d level level' →
      levelInsertSsts { level' with vnodePartitionCount := n } d.insertedTableInfos = .ok level'' →
      Edited d level level''

def EditedList (d : IntraLevelDelta) (levels levels' : List Level) : Prop :=
  ∀ i : Nat, levels[i]? = none ∧ levels'[i]? = none ∨
    ∃ level level', levels[i]? = some level ∧ levels'[i]? = some level' ∧ Edited d level level'

namespace EditedList

variable {d : IntraLevelDelta} {levels levels' : List Level}

theorem refl (d : IntraLevelDelta) (levels : List Level) : EditedList d levels levels := fun i => by
  cases h : levels[i]? with
  | none => exact .inl ⟨rfl, rfl⟩
  | some level => exact .inr ⟨level, level, rfl, rfl, .refl⟩

theorem of_mem (h : EditedList d levels levels') {level' : Level} (hmem : level' ∈ levels') :
    ∃ level ∈ levels, Edited d level level' := by
  obtain ⟨i, hi⟩ := List.mem_iff_getElem?.1 hmem
  rcases h i with ⟨-, hnone⟩ | ⟨level, level1, hlevel, hlevel1, hedit⟩
  · rw [hnone] at hi
    cases hi
  · rw [hlevel1] at hi
    cases hi
    exact ⟨level, List.mem_of_getElem? hlevel, hedit⟩

theorem deleteAll (d : IntraLevelDelta) (levels : List Level) :
    EditedList d levels (levels.map fun level => levelDeleteSsts level d.removedTableIds) :=
  fun i => by
    rw [List.getElem?_map]
    cases h : levels[i]? with
    | none => exact .inl ⟨rfl, rfl⟩
    | some level => exact .inr ⟨level, _, rfl, rfl, .delete .refl⟩

theorem set (h : EditedList d levels levels') {idx : Nat} {level' level'' : Level}
    (hidx : levels'[idx]? = some level')
    (hstep : ∀ level, Edited d level level' → Edited d level level'') :
    EditedList d levels (levels'.set idx level'') := fun i => by
  have hlt : idx < levels'.length := (List.getElem?_eq_some_iff.1 hidx).1
  rw [List.getElem?_set]
  by_cases hi : idx = i
  · subst hi
    rcases h idx with ⟨-, hnone⟩ | ⟨level, level1, hlevel, hlevel1, hedit⟩
    · rw [hnone] at hidx
      cases hidx
    · rw [hlevel1] at hidx
      cases hidx
      exact .inr ⟨level, level'', hlevel, by simp [hlt], hstep level hedit⟩
  · rw [if_neg hi]
    exact h i

end EditedList

variable {d : IntraLevelDelta}

theorem deleteCompacted_ok (h : lv.deleteCompacted d.levelIdx d.removedTableIds = .ok lv') :
    d.levelIdx = 0 ∧ lv'.levels = lv.levels ∧ EditedList d lv.l0.subLevels lv'.l0.subLevels ∨
      d.levelIdx ≠ 0 ∧ lv'.l0 = lv.l0 ∧ EditedList d lv.levels lv'.levels := by
  unfold Levels.deleteCompacted at h
  split at h
  · cases h
    by_cases hidx : d.levelIdx = 0
    · exact .inl ⟨hidx, rfl, .refl _ _⟩
    · exact .inr ⟨hidx, rfl, .refl _ _⟩
  split at h
  · rename_i hidx
    cases h
    exact .inl ⟨hidx, rfl, .deleteAll _ _⟩
  · rename_i hidx
    obtain ⟨level, hlevel, h⟩ := bind_eq_ok.1 h
    cases h
    exact .inr ⟨hidx, rfl, (EditedList.refl d lv.levels).set (index_eq_ok.1 hlevel)
      fun _ hedit => .delete hedit⟩

/-- **A compaction edits L0 or one of the levels below.** -/
theorem applyCompactSsts_ok {memberTableIds : List TableId}
    (h : lv.applyCompactSsts d memberTableIds = .ok lv') :
    d.levelIdx = 0 ∧ lv'.levels = lv.levels ∧ EditedList d lv.l0.subLevels lv'.l0.subLevels ∨
      d.levelIdx ≠ 0 ∧ lv'.l0 = lv.l0 ∧ EditedList d lv.levels lv'.levels := by
  obtain ⟨exist, -, h⟩ := bind_eq_ok.1 h
  split at h
  · cases h
    by_cases hidx : d.levelIdx = 0
    · exact .inl ⟨hidx, rfl, .refl _ _⟩
    · exact .inr ⟨hidx, rfl, .refl _ _⟩
  obtain ⟨mid, hdel, h⟩ := bind_eq_ok.1 h
  have hmid := deleteCompacted_ok hdel
  split at h
  · cases h
    exact hmid
  split at h
  · rename_i hidx
    obtain ⟨-, hlevels, hsub⟩ := hmid.resolve_right fun h => h.1 hidx
    obtain ⟨idx, -, h⟩ := bind_eq_ok.1 h
    split at h
    · cases h
    rename_i level hlevel
    obtain ⟨_, -, h⟩ := bind_eq_ok.1 h
    obtain ⟨level', hins, h⟩ := bind_eq_ok.1 h
    cases h
    refine .inl ⟨hidx, hlevels, hsub.set hlevel fun old hedit => ?_⟩
    split at hins
    · exact .insert hedit hins
    · exact .insert hedit hins
  · rename_i hidx
    obtain ⟨-, hl0, hlevels⟩ := hmid.resolve_left fun h => hidx h.1
    obtain ⟨level, hlevel, h⟩ := bind_eq_ok.1 h
    obtain ⟨level', hins, h⟩ := bind_eq_ok.1 h
    cases h
    refine .inr ⟨hidx, hl0, hlevels.set (index_eq_ok.1 hlevel) fun old hedit => ?_⟩
    split at hins
    · exact .insert hedit hins
    · split at hins
      · exact .insert hedit hins
      · exact .insert hedit hins

theorem applyIntraLevel_ok {info : HummockVersionStateTableInfo} {isCommitEpoch : Bool}
    {groupId : CompactionGroupId}
    (h : applyIntraLevel dbg info isCommitEpoch groupId lv d = .ok lv') :
    isCommitEpoch = true ∧ (lv' = lv ∨ ∃ l0, d.insertedTableInfos ≠ [] ∧
        insertNewSubLevel dbg lv.l0 d.l0SubLevelId .overlapping d.insertedTableInfos none = .ok l0 ∧
        lv' = { lv with l0 }) ∨
      isCommitEpoch = false ∧
        lv.applyCompactSsts d (info.compactionGroupMemberTableIds groupId).toList = .ok lv' := by
  cases isCommitEpoch with
  | false => exact .inr ⟨rfl, h⟩
  | true =>
    obtain ⟨_, -, h⟩ := bind_eq_ok.1 h
    obtain ⟨_, -, h⟩ := bind_eq_ok.1 h
    refine .inl ⟨rfl, ?_⟩
    split at h
    · cases h
      exact .inl rfl
    · rename_i hempty
      obtain ⟨l0, hl0, h⟩ := bind_eq_ok.1 h
      cases h
      exact .inr ⟨l0, by simpa using hempty, hl0, rfl⟩

theorem applyNewL0SubLevel_ok (h : applyNewL0SubLevel dbg lv ssts = .ok lv') :
    lv' = lv ∨ ∃ subLevelId l0, ssts ≠ [] ∧
      insertNewSubLevel dbg lv.l0 subLevelId .overlapping ssts none = .ok l0 ∧
      lv' = { lv with l0 } := by
  unfold applyNewL0SubLevel at h
  split at h
  · cases h
    exact .inl rfl
  · rename_i hempty
    obtain ⟨subLevelId, -, h⟩ := bind_eq_ok.1 h
    obtain ⟨l0, hl0, h⟩ := bind_eq_ok.1 h
    cases h
    exact .inr ⟨subLevelId, l0, by simpa using hempty, hl0, rfl⟩

/-! ## Merges -/

open GroupSplit

theorem mergeLevels_ok {left right merged : Levels} (h : mergeLevels dbg left right = .ok merged) :
    ∃ needRewrite nextId l0 levels,
      mergeSubLevels dbg needRewrite left.l0 nextId right.l0.subLevels = .ok l0 ∧
      mergeLowerLevels left.levels 0 right.levels = .ok levels ∧
      merged = { left with
        l0 := { l0 with
          subLevels := l0.subLevels.map fun subLevel => { subLevel with vnodePartitionCount := 0 } }
        levels } := by
  obtain ⟨maxLeft, -, h⟩ := bind_eq_ok.1 h
  obtain ⟨l0, hl0, h⟩ := bind_eq_ok.1 h
  obtain ⟨_, -, h⟩ := bind_eq_ok.1 h
  obtain ⟨levels, hlevels, h⟩ := bind_eq_ok.1 h
  cases h
  exact ⟨_, _, l0, levels, hl0, hlevels, rfl⟩

theorem mergeSubLevels_inv {needRewrite : Bool} (P : OverlappingLevel → Prop) :
    ∀ {rights : List Level} {nextId : U64} {l0 l0' : OverlappingLevel},
      (∀ l0 l0' subLevelId, ∀ right ∈ rights, P l0 →
        insertNewSubLevel dbg l0 subLevelId right.levelType right.tableInfos none = .ok l0' → P l0') →
      P l0 → mergeSubLevels dbg needRewrite l0 nextId rights = .ok l0' → P l0'
  | [], _, _, _, _, h, hrun => by
    cases hrun
    exact h
  | right :: rights, nextId, l0, l0', hins, h, hrun => by
    obtain ⟨⟨subLevelId, nextId'⟩, -, hrun⟩ := bind_eq_ok.1 hrun
    obtain ⟨l1, hl1, hrun⟩ := bind_eq_ok.1 hrun
    exact mergeSubLevels_inv P (fun a b i r hr => hins a b i r (.tail _ hr))
      (hins l0 l1 subLevelId right (.head _) h hl1) hrun

theorem mergeLowerLevels_inv (p : Level → Prop) :
      ∀ {rights levels levels' : List Level} {idx : Nat},
        (∀ level level' msg, ∀ right ∈ rights, p level →
        levelExtendSorted level right.tableInfos msg = .ok level' → p level') →
      (∀ level ∈ levels, p level) → mergeLowerLevels levels idx rights = .ok levels' →
      ∀ level ∈ levels', p level
  | [], _, _, _, _, h, hrun => by
    cases hrun
    exact h
  | right :: rights, levels, levels', idx, hext, h, hrun => by
    have hext' := fun level level' msg r hr => hext level level' msg r (.tail right hr)
    unfold mergeLowerLevels at hrun
    split at hrun
    · exact mergeLowerLevels_inv p hext' h hrun
    obtain ⟨level, hlevel, hrun⟩ := bind_eq_ok.1 hrun
    obtain ⟨level', hlevel', hrun⟩ := bind_eq_ok.1 hrun
    have hp := hext level level' _ right (.head _)
      (h level (List.mem_of_getElem? (index_eq_ok.1 hlevel))) hlevel'
    refine mergeLowerLevels_inv p hext' (fun l hl => ?_) hrun
    rcases List.mem_or_eq_of_mem_set hl with hl | rfl
    · exact h l hl
    · exact hp

end

end Hummock
