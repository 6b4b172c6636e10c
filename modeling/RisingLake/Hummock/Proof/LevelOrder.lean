import RisingLake.Hummock.Proof.GroupDelta
import RisingLake.Hummock.Proof.Level
import RisingLake.Hummock.Proof.Split

/-!
# The order of levels

In every version of a run, L0 has its sub-levels in the order of their ids and none of them empty,
and the SSTs of a non-overlapping level are sorted and do not overlap (`run_ordered`). A compaction
of L0 may leave empty sub-levels behind until the end of the group's deltas, which is the weak form
of the invariant; a merge in between would carry them into another group.
-/

namespace Hummock

open Res KeyRange GroupSplit List

/-! ## Sorted SSTs -/

section
variable {ssts ssts' : List SstableInfo}

theorem SstsSorted.sublist (h : SstsSorted ssts) (hsub : ssts'.Sublist ssts) : SstsSorted ssts' :=
  List.Pairwise.sublist hsub h

theorem SstsSorted.lo (h : SstsSorted ssts) :
    ssts.Pairwise fun a b => a.keyRange.lo ≤ b.keyRange.lo := h.imp fun hab => hab.lo

theorem sstsSorted_of_arranged (hv : SstsValid ssts) (h : Arranged ssts ssts') :
    SstsSorted ssts' := by
  have hv' : SstsValid ssts' := fun sst hsst => hv sst ((Slice.sortBy_perm h.1).mem_iff.1 hsst)
  exact (sortBy_lo hv h.1).and ((canConcat_pairwise hv').1 h.2) |>.imp fun hab => ⟨hab.1, hab.2⟩

theorem SstsSorted.canConcat (h : SstsSorted ssts) (hv : SstsValid ssts) :
    Hummock.canConcat ssts = .ok true :=
  (canConcat_pairwise hv).2 (h.imp fun hab => hab.below)

end

/-- The SSTs have valid key ranges, and in a non-overlapping level they are sorted. -/
structure LevelOrdered (levelType : LevelType) (ssts : List SstableInfo) : Prop where
  valid : ∀ sst ∈ ssts, sst.keyRange.Valid
  sorted : levelType = .nonoverlapping → SstsSorted ssts

namespace LevelOrdered

variable {levelType : LevelType} {ssts ssts' : List SstableInfo}

theorem sublist (h : LevelOrdered levelType ssts) (hsub : ssts'.Sublist ssts) :
    LevelOrdered levelType ssts' :=
  ⟨fun sst hsst => h.valid sst (hsub.subset hsst), fun ht => (h.sorted ht).sublist hsub⟩

theorem of_keyRange (h : LevelOrdered levelType ssts)
    (hsub : (ssts'.map (·.keyRange)).Sublist (ssts.map (·.keyRange))) :
    LevelOrdered levelType ssts' := by
  refine ⟨fun sst hsst => ?_, fun ht => ?_⟩
  · obtain ⟨x, hx, heq⟩ := mem_map.1 (hsub.subset (mem_map_of_mem hsst))
    exact heq ▸ h.valid x hx
  · exact pairwise_map.1 (List.Pairwise.sublist hsub (pairwise_map.2 (h.sorted ht)))

theorem nil (levelType : LevelType) : LevelOrdered levelType [] := ⟨by simp, fun _ => .nil⟩

theorem of_arranged (hv : SstsValid ssts) (h : Arranged ssts ssts') :
    LevelOrdered levelType ssts' :=
  ⟨fun sst hsst => hv sst ((Slice.sortBy_perm h.1).mem_iff.1 hsst),
    fun _ => sstsSorted_of_arranged hv h⟩

end LevelOrdered

def Level.Ordered (level : Level) : Prop := LevelOrdered level.levelType level.tableInfos

structure OverlappingLevel.Ordered (weak : Bool) (l0 : OverlappingLevel) : Prop where
  levels : ∀ level ∈ l0.subLevels, level.Ordered
  ids : (l0.subLevels.map (·.subLevelId)).Pairwise (· < ·)
  nonempty : weak = false → ∀ level ∈ l0.subLevels, level.tableInfos ≠ []

/-- A level below L0. -/
structure Level.OrderedBelow (level : Level) : Prop where
  levelType : level.levelType = .nonoverlapping
  ordered : level.Ordered

structure Levels.Ordered (weak : Bool) (lv : Levels) : Prop where
  l0 : lv.l0.Ordered weak
  levels : ∀ level ∈ lv.levels, level.OrderedBelow

section
variable {weak dbg : Bool}

/-! ## Inserting -/

/-- The new sub-level fits between the others. -/
def FitsAt (l0 : OverlappingLevel) (subLevelId : U64) (pos : Nat) : Prop :=
  (∀ level ∈ l0.subLevels.take pos, level.subLevelId < subLevelId) ∧
    ∀ level ∈ l0.subLevels.drop pos, subLevelId < level.subLevelId

variable {l0 l0' : OverlappingLevel} {ssts : List SstableInfo} {level level' : Level}
  {levelType : LevelType} {subLevelId : U64}

theorem OverlappingLevel.Ordered.insertNewSubLevel
    {hint : Option Nat} (h : l0.Ordered weak) (hssts : LevelOrdered levelType ssts)
    (hne : weak = false → ssts ≠ [])
    (hpos : ∀ pos, insertPosition l0 subLevelId hint = .ok pos → FitsAt l0 subLevelId pos)
    (hrun : Hummock.insertNewSubLevel dbg l0 subLevelId levelType ssts hint = .ok l0') :
    l0'.Ordered weak := by
  rcases insertNewSubLevel_ok hrun with ⟨-, rfl⟩ | ⟨-, pos, level, hat, hlen, hlevel, rfl⟩
  · exact h
  cases newSubLevel_ok hlevel
  obtain ⟨hbelow, habove⟩ := hpos pos hat
  refine ⟨fun level hmem => ?_, ?_, fun hweak level hmem => ?_⟩
  · rcases eq_or_mem_of_mem_insertIdx hmem with rfl | hmem
    · exact hssts
    · exact h.levels level hmem
  · have hids := h.ids
    rw [← take_append_drop pos l0.subLevels, map_append, pairwise_append] at hids
    rw [Slice.insertIdx_eq_take_drop _ hlen, map_append, map_cons, pairwise_append, pairwise_cons]
    refine ⟨hids.1, ⟨?_, hids.2.1⟩, fun a ha b hb => ?_⟩
    · exact forall_mem_map.2 habove
    · rcases mem_cons.1 hb with rfl | hb
      · obtain ⟨level, hlevel, rfl⟩ := mem_map.1 ha
        exact hbelow level hlevel
      · exact hids.2.2 a ha b hb
  · rcases eq_or_mem_of_mem_insertIdx hmem with rfl | hmem
    · exact hne hweak
    · exact h.nonempty hweak level hmem

variable {pos : Nat}

theorem fitsAt_append (h : l0.Ordered weak)
    (hpos : insertPosition l0 subLevelId none = .ok pos) : FitsAt l0 subLevelId pos := by
  obtain ⟨_, hlast, hpos⟩ := bind_eq_ok.1 hpos
  cases hpos
  rw [assert_eq_ok] at hlast
  refine ⟨fun level hmem => ?_, by simp⟩
  rw [take_length] at hmem
  have hne : l0.subLevels ≠ [] := ne_nil_of_mem hmem
  rw [getLast?_eq_some_getLast hne, Option.all_some, decide_eq_true_eq] at hlast
  have hids : l0.subLevels.Pairwise fun a b => a.subLevelId < b.subLevelId := pairwise_map.1 h.ids
  rw [← dropLast_append_getLast hne] at hmem hids
  rcases mem_append.1 hmem with hmem | hmem
  · exact ((pairwise_append.1 hids).2.2 level hmem _ (.head _)).trans hlast
  · rw [mem_singleton] at hmem
    exact hmem ▸ hlast

theorem subLevelInsertHintFrom_error : ∀ {levels : List Level} {idx pos : Nat},
      subLevelInsertHintFrom subLevelId idx levels = .error pos →
      (levels.map (·.subLevelId)).Pairwise (· < ·) →
      idx ≤ pos ∧ (∀ level ∈ levels.take (pos - idx), level.subLevelId < subLevelId) ∧
        ∀ level ∈ levels.drop (pos - idx), subLevelId < level.subLevelId
  | [], idx, pos, h, _ => by
    cases h
    simp
  | other :: levels, idx, pos, h, hids => by
    rw [map_cons, pairwise_cons] at hids
    unfold subLevelInsertHintFrom at h
    split at h
    · rename_i hlt
      obtain ⟨hle, hbelow, habove⟩ := subLevelInsertHintFrom_error h hids.2
      obtain ⟨n, rfl⟩ : ∃ n, pos = idx + 1 + n := ⟨pos - (idx + 1), by omega⟩
      rw [show idx + 1 + n - (idx + 1) = n by omega] at hbelow habove
      rw [show idx + 1 + n - idx = n + 1 by omega]
      exact ⟨by omega, forall_mem_cons.2 ⟨hlt, hbelow⟩,
        fun level hmem => habove level (by simpa using hmem)⟩
    · rename_i hnlt
      split at h
      · cases h
      rename_i hne
      cases h
      have hgt : subLevelId < other.subLevelId := lt_of_le_of_ne (not_lt.1 hnlt) (Ne.symm hne)
      refine ⟨le_rfl, by simp, fun level hmem => ?_⟩
      rw [Nat.sub_self] at hmem
      rcases mem_cons.1 hmem with rfl | hmem
      · exact hgt
      · exact hgt.trans (hids.1 _ (mem_map_of_mem hmem))

variable {idx : Nat}

theorem fitsAt_hint (h : l0.Ordered weak)
    (hhint : getSubLevelInsertHint l0.subLevels level = .error idx)
    (hpos : insertPosition l0 level.subLevelId (some idx) = .ok pos) :
    FitsAt l0 level.subLevelId pos := by
  cases hpos
  exact (subLevelInsertHintFrom_error hhint h.ids).2

variable {levels : List Level} {old new : Level}

theorem map_subLevelId_set (h : levels[idx]? = some old) (hid : new.subLevelId = old.subLevelId) :
    (levels.set idx new).map (·.subLevelId) = levels.map (·.subLevelId) := by
  rw [map_set, hid]
  refine ext_getElem? fun i => ?_
  rw [getElem?_set]
  split
  · rename_i hi
    subst hi
    obtain ⟨hlt, rfl⟩ := List.getElem?_eq_some_iff.1 h
    simp [hlt]
  · rfl

theorem OverlappingLevel.Ordered.set {total uncompressed : Nat}
    (h : l0.Ordered weak) (hold : l0.subLevels[idx]? = some old)
    (hid : new.subLevelId = old.subLevelId) (hnew : new.Ordered)
    (hne : old.tableInfos ≠ [] → new.tableInfos ≠ []) :
    OverlappingLevel.Ordered weak ⟨l0.subLevels.set idx new, total, uncompressed⟩ := by
  refine ⟨fun level hmem => ?_, ?_, fun hweak level hmem => ?_⟩
  · rcases mem_or_eq_of_mem_set hmem with hmem | rfl
    · exact h.levels level hmem
    · exact hnew
  · rw [map_subLevelId_set hold hid]
    exact h.ids
  · rcases mem_or_eq_of_mem_set hmem with hmem | rfl
    · exact h.nonempty hweak level hmem
    · exact hne (h.nonempty hweak old (mem_of_getElem? hold))

theorem OverlappingLevel.Ordered.addSstsToSubLevel (h : l0.Ordered weak)
    (hv : SstsValid ssts) (hrun : Hummock.addSstsToSubLevel l0 idx ssts = .ok l0') :
    l0'.Ordered weak := by
  obtain ⟨subLevel, hsub, hrun⟩ := bind_eq_ok.1 hrun
  obtain ⟨tableInfos, harr, hrun⟩ := bind_eq_ok.1 hrun
  cases hrun
  obtain ⟨hperm, hsort⟩ := arrangeSubLevel_ok harr
  rw [index_eq_ok] at hsub
  have hv' : ∀ sst ∈ subLevel.tableInfos ++ ssts, sst.keyRange.Valid :=
    forall_mem_append.2 ⟨(h.levels _ (mem_of_getElem? hsub)).valid, hv⟩
  refine h.set hsub rfl ⟨fun sst hsst => hv' sst (hperm.mem_iff.1 hsst), fun ht => ?_⟩ fun hne => ?_
  · exact sstsSorted_of_arranged hv' (hsort ht)
  · intro hnil
    subst hnil
    exact hne (append_eq_nil_iff.1 hperm.symm.eq_nil).1

theorem Level.Ordered.levelInsertSsts (h : level.Ordered) (hv : SstsValid ssts)
    (hrun : Hummock.levelInsertSsts level ssts = .ok level') :
    level'.Ordered ∧ level'.subLevelId = level.subLevelId ∧
      (level.levelType = .nonoverlapping → level'.levelType = .nonoverlapping) := by
  obtain ⟨tableInfos, -, harr, rfl⟩ := levelInsertSsts_ok hrun
  exact ⟨.of_arranged (forall_mem_append.2 ⟨h.valid, hv⟩) harr, rfl, fun ht => by simp [ht]⟩

theorem Level.OrderedBelow.levelExtendSorted {msg : String} (h : level.OrderedBelow)
    (hv : SstsValid ssts) (hrun : Hummock.levelExtendSorted level ssts msg = .ok level') :
    level'.OrderedBelow := by
  obtain ⟨tableInfos, -, harr, rfl⟩ := levelExtendSorted_ok hrun
  exact ⟨h.levelType, .of_arranged (forall_mem_append.2 ⟨h.ordered.valid, hv⟩) harr⟩

/-! ## Compactions -/

variable {d : IntraLevelDelta}

theorem Level.Ordered.edited (hv : ∀ sst ∈ d.insertedTableInfos, sst.keyRange.Valid)
    (h : Edited d level level') (hlevel : level.Ordered) :
    level'.Ordered ∧ level'.subLevelId = level.subLevelId ∧
      (level.levelType = .nonoverlapping → level'.levelType = .nonoverlapping) := by
  induction h with
  | refl => exact ⟨hlevel, rfl, id⟩
  | delete _ ih => exact ⟨ih.1.sublist filter_sublist, ih.2⟩
  | @insert level' n _ _ hrun ih =>
    have hold : Level.Ordered { level' with vnodePartitionCount := n } := ih.1
    obtain ⟨hordered, hid, ht⟩ := hold.levelInsertSsts hv hrun
    exact ⟨hordered, hid.trans ih.2.1, fun h => ht (ih.2.2 h)⟩

theorem EditedList.map_subLevelId {levels' : List Level}
    (h : EditedList d levels levels') (hv : ∀ sst ∈ d.insertedTableInfos, sst.keyRange.Valid)
    (hlevels : ∀ level ∈ levels, level.Ordered) :
    levels'.map (·.subLevelId) = levels.map (·.subLevelId) := by
  refine ext_getElem? fun i => ?_
  rw [getElem?_map, getElem?_map]
  rcases h i with ⟨hnone, hnone'⟩ | ⟨level, level', hlevel, hlevel', hedit⟩
  · rw [hnone, hnone']
  · have hid := (Level.Ordered.edited hv hedit (hlevels level (mem_of_getElem? hlevel))).2.1
    rw [hlevel, hlevel', Option.map_some, Option.map_some, hid]

variable {lv : Levels} {info : HummockVersionStateTableInfo} {groupId : CompactionGroupId}
  {lv' : Levels}

theorem Levels.Ordered.applyIntraLevel {isCommitEpoch : Bool} (h : lv.Ordered weak)
    (hv : ∀ sst ∈ d.insertedTableInfos, sst.keyRange.Valid)
    (hrun : Hummock.applyIntraLevel dbg info isCommitEpoch groupId lv d = .ok lv') :
    lv'.Ordered (weak || (!isCommitEpoch && d.levelIdx == 0)) := by
  rcases applyIntraLevel_ok hrun with ⟨rfl, rfl | ⟨l0, hne, hl0, rfl⟩⟩ | ⟨rfl, hcompact⟩
  · simpa using h
  · have hordered := h.l0.insertNewSubLevel ⟨hv, fun ht => by cases ht⟩ (fun _ => hne)
      (fun _ => fitsAt_append h.l0) hl0
    exact ⟨by simpa using hordered, h.levels⟩
  · rcases applyCompactSsts_ok hcompact with ⟨hidx, hlevels, hsub⟩ | ⟨hidx, hl0, hlevels⟩
    · refine ⟨⟨fun level hmem => ?_, ?_, fun hweak => ?_⟩, fun level hmem => ?_⟩
      · obtain ⟨old, hold, hedit⟩ := hsub.of_mem hmem
        exact (Level.Ordered.edited hv hedit (h.l0.levels old hold)).1
      · rw [hsub.map_subLevelId hv h.l0.levels]
        exact h.l0.ids
      · simp [hidx] at hweak
      · exact h.levels level (hlevels ▸ hmem)
    · refine ⟨?_, fun level hmem => ?_⟩
      · have hidx : (d.levelIdx == 0) = false := by simpa using hidx
        simpa [hl0, hidx] using h.l0
      · obtain ⟨old, hold, hedit⟩ := hlevels.of_mem hmem
        obtain ⟨hordered, -, ht⟩ := Level.Ordered.edited hv hedit (h.levels old hold).ordered
        exact ⟨ht (h.levels old hold).levelType, hordered⟩

theorem Levels.Ordered.applyNewL0SubLevel (h : lv.Ordered weak)
    (hv : SstsValid ssts) (hrun : Hummock.applyNewL0SubLevel dbg lv ssts = .ok lv') :
    lv'.Ordered weak := by
  rcases applyNewL0SubLevel_ok hrun with rfl | ⟨subLevelId, l0, hne, hl0, rfl⟩
  · exact h
  · exact ⟨h.l0.insertNewSubLevel ⟨hv, fun ht => by cases ht⟩ (fun _ => hne)
      (fun _ => fitsAt_append h.l0) hl0, h.levels⟩

theorem Levels.Ordered.postApplyL0Compact (h : lv.Ordered true) :
    lv.postApplyL0Compact.Ordered false := by
  have hsub : (lv.l0.subLevels.filter fun level => !level.tableInfos.isEmpty).Sublist
      lv.l0.subLevels := filter_sublist
  refine ⟨⟨fun level hmem => h.l0.levels level (hsub.subset hmem), h.l0.ids.sublist (hsub.map _),
    fun _ level hmem => ?_⟩, h.levels⟩
  simpa using (mem_filter.1 hmem).2

/-! ## Merges -/

theorem Levels.Ordered.mergeLevels {left right merged : Levels} (h : left.Ordered weak)
    (hright : right.Ordered true) (hne : ∀ level ∈ right.l0.subLevels, level.tableInfos ≠ [])
    (hrun : GroupSplit.mergeLevels dbg left right = .ok merged) : merged.Ordered weak := by
  obtain ⟨needRewrite, nextId, l0, levels, hl0, hlevels, rfl⟩ := mergeLevels_ok hrun
  have hl0 : l0.Ordered weak := mergeSubLevels_inv (OverlappingLevel.Ordered weak)
    (fun _ _ _ right hmem h hins => h.insertNewSubLevel (hright.l0.levels right hmem)
      (fun _ => hne right hmem) (fun _ => fitsAt_append h) hins) h.l0 hl0
  refine ⟨⟨fun level hmem => ?_, ?_, fun hweak level hmem => ?_⟩, ?_⟩
  · obtain ⟨old, hold, rfl⟩ := mem_map.1 hmem
    exact hl0.levels old hold
  · simpa [Function.comp_def] using hl0.ids
  · obtain ⟨old, hold, rfl⟩ := mem_map.1 hmem
    exact hl0.nonempty hweak old hold
  · exact mergeLowerLevels_inv Level.OrderedBelow (fun _ _ _ right hmem h hext =>
      h.levelExtendSorted (hright.levels right hmem).ordered.valid hext) h.levels hlevels

/-! ## Splits -/

section
variable {splitKey : Bytes} {newSstId newSstId' : U64} {kept inserted : List SstableInfo}

theorem retainSplit_valid : ∀ {ssts kept inserted : List SstableInfo} {newSstId newSstId' : U64},
    retainSplit dbg splitKey newSstId ssts = .ok (kept, inserted, newSstId') → SstsValid ssts →
      SstsValid kept ∧ SstsValid inserted
  | [], _, _, _, _, h, hv => by
    cases h
    exact ⟨hv, hv⟩
  | sst :: ssts, kept, inserted, newSstId, newSstId', h, hv => by
    have hhead := hv sst (.head _)
    have htail := fun x hx => hv x (.tail sst hx)
    obtain ⟨t, ht, h⟩ := bind_eq_ok.1 h
    cases t with
    | left =>
      obtain ⟨⟨kept, inserted, _⟩, hrest, h⟩ := bind_eq_ok.1 h
      cases h
      obtain ⟨hkept, hinserted⟩ := retainSplit_valid hrest htail
      exact ⟨forall_mem_cons.2 ⟨hhead, hkept⟩, hinserted⟩
    | right =>
      obtain ⟨⟨kept, inserted, _⟩, hrest, h⟩ := bind_eq_ok.1 h
      cases h
      obtain ⟨hkept, hinserted⟩ := retainSplit_valid hrest htail
      exact ⟨hkept, forall_mem_cons.2 ⟨hhead, hinserted⟩⟩
    | both =>
      obtain ⟨⟨⟨left, right⟩, newSstId1⟩, hsplit, h⟩ := bind_eq_ok.1 h
      obtain ⟨⟨kept, inserted, _⟩, hrest, h⟩ := bind_eq_ok.1 h
      cases h
      obtain ⟨hkept, hinserted⟩ := retainSplit_valid hrest htail
      obtain ⟨key, _, _, tablesL, tablesR, rfl, hlo, hhi, hleft, hright⟩ :=
        splitSst_parts hhead ht hsplit
      refine ⟨forall_mem_append.2 ⟨fun x hx => ?_, hkept⟩,
        forall_mem_append.2 ⟨fun x hx => ?_, hinserted⟩⟩
      · rw [mem_singleton.1 (hleft.subset hx)]
        exact leftPart_valid hhead hlo _ _ _
      · rw [mem_singleton.1 (hright.subset hx)]
        exact rightPart_valid hhead hhi _ _ _

theorem getSplitPos_drop (hv : SstsValid ssts) (hs : SstsSorted ssts)
    {key : FullKey} (hpos : getSplitPos ssts key.encode = .ok pos) :
    ∀ sst ∈ ssts.drop (pos + 1), key ≤ sst.keyRange.lo := by
  rw [getSplitPos_eq hv hs.lo, Except.ok.injEq] at hpos
  have hdrop := Slice.drop_countP_eq_filter (q := fun sst => decide (sst.keyRange.lo < key))
    (hs.lo.imp fun hle hlt => by rw [decide_eq_true_eq] at hlt ⊢; exact hle.trans_lt hlt)
  intro sst hsst
  have hmem : sst ∈ ssts.drop (ssts.countP fun sst => decide (sst.keyRange.lo < key)) :=
    (drop_sublist_drop_left ssts (by omega)).subset hsst
  rw [hdrop, mem_filter] at hmem
  simpa using hmem.2

theorem LevelOrdered.splitSorted (h : LevelOrdered levelType ssts)
    (hrun : GroupSplit.splitSorted dbg splitKey newSstId ssts = .ok (kept, inserted, newSstId')) :
    LevelOrdered levelType kept ∧ LevelOrdered levelType inserted := by
  obtain ⟨pos, hpos, ⟨-, rfl, rfl, -⟩ | ⟨sst, hsst, hcases⟩⟩ := splitSorted_ok hrun
  · exact ⟨h, .nil _⟩
  rcases hcases with ⟨-, rfl, rfl, -⟩ | ⟨-, -, rfl, rfl, -⟩ | ⟨hneed, left, right, hsplit, rfl, rfl⟩
  · exact ⟨h.sublist (take_sublist _ _), h.sublist (drop_sublist _ _)⟩
  · exact ⟨.nil _, h⟩
  · have hv := h.valid sst (mem_of_getElem? hsst)
    obtain ⟨key, _, _, tablesL, tablesR, rfl, hlo, hhi, hleft, hright⟩ :=
      splitSst_parts hv hneed hsplit
    have htake := h.sublist (take_sublist pos ssts)
    have hdrop := h.sublist (drop_sublist (pos + 1) ssts)
    refine ⟨.sublist ⟨?_, fun ht => ?_⟩ (hleft.append_left _),
      .sublist ⟨?_, fun ht => ?_⟩ (hright.append_right _)⟩
    · exact forall_mem_append.2 ⟨htake.valid, forall_mem_singleton.2 (leftPart_valid hv hlo _ _ _)⟩
    · -- the left part starts where the SST started
      have hs := h.sorted ht
      rw [Slice.eq_take_cons_drop hsst, SstsSorted, pairwise_append] at hs
      refine pairwise_append.2 ⟨hs.1, pairwise_singleton _ _, fun a ha b hb => ?_⟩
      rw [mem_singleton] at hb
      subst hb
      have hbefore := hs.2.2 a ha sst (.head _)
      exact ⟨hbefore.lo, hbefore.below⟩
    · exact forall_mem_cons.2 ⟨rightPart_valid hv hhi _ _ _, hdrop.valid⟩
    · -- the right part ends where the SST ended, and starts no later than the SSTs after it
      have hs := h.sorted ht
      have hafter := getSplitPos_drop h.valid hs hpos
      rw [Slice.eq_take_cons_drop hsst, SstsSorted, pairwise_append, pairwise_cons] at hs
      refine pairwise_cons.2 ⟨fun b hb => ?_, hs.2.1.2⟩
      refine ⟨?_, (hs.2.1.1 b hb).below⟩
      rw [rightPart_lo]
      exact hafter b hb

theorem Level.Ordered.splitOff {key : Option Bytes} (h : level.Ordered)
    (hrun : Hummock.splitOff dbg key level newSstId = .ok (level', inserted, newSstId')) :
    (∃ kept, level' = { level with tableInfos := kept }) ∧ level'.Ordered ∧
      LevelOrdered level.levelType inserted := by
  have hsame : level = level' → inserted = [] →
      (∃ kept, level' = { level with tableInfos := kept }) ∧
      level'.Ordered ∧ LevelOrdered level.levelType inserted := by
    rintro rfl rfl
    exact ⟨⟨level.tableInfos, rfl⟩, h, .nil _⟩
  cases key with
  | none =>
    cases hrun
    exact hsame rfl rfl
  | some splitKey =>
    simp only [Hummock.splitOff, splitSstInfoForLevelV2] at hrun
    split at hrun
    · cases hrun
      exact hsame rfl rfl
    obtain ⟨⟨kept, inserted, _⟩, hsplit, hrun⟩ := bind_eq_ok.1 hrun
    cases hrun
    refine ⟨⟨kept, rfl⟩, ?_⟩
    unfold splitSsts at hsplit
    split at hsplit
    · rename_i hover
      obtain ⟨hkept, hinserted⟩ := retainSplit_valid hsplit h.valid
      have hno : level.levelType ≠ .nonoverlapping := by rw [hover]; decide
      exact ⟨⟨hkept, fun ht => absurd ht hno⟩, hinserted, fun ht => absurd ht hno⟩
    · exact LevelOrdered.splitSorted h hsplit

end

theorem OverlappingLevel.Ordered.insertIntoTargetL0 (h : l0.Ordered true)
    (hssts : LevelOrdered level.levelType ssts)
    (hrun : Hummock.insertIntoTargetL0 dbg l0 level ssts = .ok l0') : l0'.Ordered true := by
  unfold Hummock.insertIntoTargetL0 at hrun
  split at hrun
  · exact h.addSstsToSubLevel hssts.valid hrun
  · rename_i idx hhint
    exact h.insertNewSubLevel hssts nofun (fun _ => fitsAt_hint h hhint) hrun

/-- The body of the loop over the sub-levels keeps the order. -/
def OrdersSubLevel (f : SubLevelState → Level → Res (Level × SubLevelState)) : Prop :=
  ∀ s level level' s', level.Ordered → s.targetL0.Ordered true → f s level = .ok (level', s') →
    s'.targetL0.Ordered true ∧ level'.Ordered ∧ level'.subLevelId = level.subLevelId

/-- The body of the loop over the levels keeps the order. -/
def OrdersLevel (g : LevelState → Level × Nat → Res (Level × LevelState)) : Prop :=
  ∀ s e level' s', e.1.OrderedBelow → (∀ cur ∈ s.curLevels, cur.OrderedBelow) →
    g s e = .ok (level', s') → (∀ cur ∈ s'.curLevels, cur.OrderedBelow) ∧ level'.OrderedBelow

theorem splitSubLevelV2_orders (key : Option Bytes) : OrdersSubLevel (splitSubLevelV2 dbg key) := by
  intro s level level' s' hlevel htarget hrun
  obtain ⟨⟨level1, inserted, newSstId⟩, hsplit, hrun⟩ := bind_eq_ok.1 hrun
  obtain ⟨⟨kept, rfl⟩, hkept, hinserted⟩ := hlevel.splitOff hsplit
  dsimp only at hrun
  split at hrun
  · cases hrun
    exact ⟨htarget, hkept, rfl⟩
  obtain ⟨⟨level2, s2⟩, hextract, hrun⟩ := bind_eq_ok.1 hrun
  obtain ⟨targetL0, hinsert, hrun⟩ := bind_eq_ok.1 hrun
  cases hrun
  obtain ⟨hs2, -, total, uncompressed, rfl⟩ := extractFromSubLevel_ok hextract
  rw [hs2] at hinsert
  exact ⟨htarget.insertIntoTargetL0 hinserted hinsert, LevelOrdered.sublist hkept filter_sublist, rfl⟩

variable {memberTableIds : List TableId}

theorem Level.Ordered.splitSstInfoForLevel {newSstId newSstId' : U64} {inserted : List SstableInfo}
    (h : level.Ordered) (hrun : GroupSplit.splitSstInfoForLevel dbg memberTableIds level newSstId =
      .ok (level', inserted, newSstId')) :
    (∃ kept, level' = { level with tableInfos := kept }) ∧ level'.Ordered ∧
      LevelOrdered level.levelType inserted := by
  obtain ⟨⟨kept, inserted, _⟩, hsplit, hrun⟩ := bind_eq_ok.1 hrun
  cases hrun
  obtain ⟨hkept, hinserted⟩ := splitSstInfos_keyRange hsplit
  refine ⟨⟨kept, rfl⟩, LevelOrdered.of_keyRange h ?_, LevelOrdered.of_keyRange h hinserted⟩
  rw [hkept]

variable (memberTableIds : List TableId)

theorem splitSubLevel_orders : OrdersSubLevel (splitSubLevel dbg memberTableIds) := by
  intro s level level' s' hlevel htarget hrun
  obtain ⟨⟨level1, inserted, newSstId⟩, hsplit, hrun⟩ := bind_eq_ok.1 hrun
  obtain ⟨⟨kept, rfl⟩, hkept, hinserted⟩ := hlevel.splitSstInfoForLevel hsplit
  obtain ⟨⟨level2, s2⟩, hextract, hrun⟩ := bind_eq_ok.1 hrun
  obtain ⟨hs2, -, total, uncompressed, rfl⟩ := extractFromSubLevel_ok hextract
  have hkept := LevelOrdered.sublist hkept
    (filter_sublist (p := fun sst => !sst.tableIds.isEmpty))
  dsimp only at hrun hs2
  split at hrun
  · cases hrun
    rw [hs2]
    exact ⟨htarget, hkept, rfl⟩
  · obtain ⟨targetL0, hinsert, hrun⟩ := bind_eq_ok.1 hrun
    cases hrun
    rw [hs2] at hinsert
    exact ⟨htarget.insertIntoTargetL0 hinserted hinsert, hkept, rfl⟩

theorem moveToLevel_orders {s s' : LevelState}
    (hrun : moveToLevel s idx level ssts = .ok (level', s')) (hlevel : level.OrderedBelow)
    (hcur : ∀ cur ∈ s.curLevels, cur.OrderedBelow) (hv : SstsValid ssts) :
    (∀ cur ∈ s'.curLevels, cur.OrderedBelow) ∧ level'.OrderedBelow := by
  obtain ⟨cur, hidx, hrun⟩ := bind_eq_ok.1 hrun
  obtain ⟨cur', hext, hrun⟩ := bind_eq_ok.1 hrun
  obtain ⟨⟨level1, extracted⟩, hextract, hrun⟩ := bind_eq_ok.1 hrun
  cases hrun
  obtain ⟨total, uncompressed, rfl⟩ := extractEmptySsts_ok hextract
  refine ⟨fun x hx => ?_, hlevel.levelType, LevelOrdered.sublist hlevel.ordered filter_sublist⟩
  rcases mem_or_eq_of_mem_set hx with hx | rfl
  · exact hcur x hx
  · exact (hcur cur (mem_of_getElem? (index_eq_ok.1 hidx))).levelExtendSorted hv hext

theorem splitLevelV2_orders (key : Option Bytes) : OrdersLevel (splitLevelV2 dbg key) := by
  intro s e level' s' hlevel hcur hrun
  obtain ⟨⟨level1, inserted, newSstId⟩, hsplit, hrun⟩ := bind_eq_ok.1 hrun
  obtain ⟨⟨kept, rfl⟩, hkept, hinserted⟩ := hlevel.ordered.splitOff hsplit
  dsimp only at hrun
  split at hrun
  · cases hrun
    exact ⟨hcur, hlevel.levelType, hkept⟩
  · exact moveToLevel_orders hrun ⟨hlevel.levelType, hkept⟩ hcur hinserted.valid

theorem splitLevel_orders : OrdersLevel (splitLevel dbg memberTableIds) := by
  intro s e level' s' hlevel hcur hrun
  obtain ⟨⟨level1, inserted, newSstId⟩, hsplit, hrun⟩ := bind_eq_ok.1 hrun
  obtain ⟨⟨kept, rfl⟩, hkept, hinserted⟩ := hlevel.ordered.splitSstInfoForLevel hsplit
  exact moveToLevel_orders hrun ⟨hlevel.levelType, hkept⟩ hcur hinserted.valid

variable {parent cur parent' cur' : Levels}

theorem splitGroup_ordered {f : SubLevelState → Level → Res (Level × SubLevelState)}
    {g : LevelState → Level × Nat → Res (Level × LevelState)} {newSstId : U64}
    (hf : OrdersSubLevel f) (hg : OrdersLevel g) (hparent : parent.Ordered true)
    (hcur : cur.Ordered true) (hrun : splitGroup f g newSstId parent cur = .ok (parent', cur')) :
    parent'.Ordered false ∧ cur'.Ordered false := by
  obtain ⟨subLevels, s, levels, t, hsub, hlevels, hne, rfl, rfl⟩ := splitGroup_ok hrun
  obtain ⟨htarget, hsub⟩ := mapAccumM_inv (fun s : SubLevelState => s.targetL0.Ordered true)
    (fun level level' => level'.Ordered ∧ level'.subLevelId = level.subLevelId)
    (fun level hmem s level' s' hs hstep =>
      hf s level level' s' (hparent.l0.levels level hmem) hs hstep)
    hcur.l0 hsub
  obtain ⟨hcurs, hlevels⟩ :=
    mapAccumM_inv (fun t : LevelState => ∀ cur ∈ t.curLevels, cur.OrderedBelow)
      (fun _ level' => level'.OrderedBelow)
    (fun e hmem t level' t' ht hstep =>
      hg t e level' t' (hparent.levels e.1 (fst_mem_of_mem_zipIdx hmem)) ht hstep)
    hcur.levels hlevels
  have hids : subLevels.map (·.subLevelId) = parent.l0.subLevels.map (·.subLevelId) :=
    (forall₂_eq_eq_eq ▸ forall₂_map_left_iff.2 (forall₂_map_right_iff.2
      (hsub.imp fun _ _ h => h.2.symm)) : _ = _).symm
  have hfilter : (subLevels.filter fun level => !level.tableInfos.isEmpty).Sublist subLevels :=
    filter_sublist
  refine ⟨⟨⟨fun level hmem => ?_, ?_, fun _ level hmem => ?_⟩, fun level hmem => ?_⟩,
    ⟨htarget.levels, htarget.ids, fun _ => hne⟩, hcurs⟩
  · obtain ⟨_, -, h⟩ := exists_of_forall₂_mem hsub (hfilter.subset hmem)
    exact h.1
  · exact (hids ▸ hparent.l0.ids).sublist (hfilter.map _)
  · simpa using (mem_filter.1 hmem).2
  · obtain ⟨_, -, h⟩ := exists_of_forall₂_mem hlevels hmem
    exact h

theorem GroupConstruct.split_ordered {c : GroupConstruct} (hparent : parent.Ordered true)
    (hcur : cur.Ordered true) (hrun : c.split dbg info groupId parent cur = .ok (parent', cur')) :
    parent'.Ordered false ∧ cur'.Ordered false := by
  unfold GroupConstruct.split at hrun
  split at hrun
  · exact splitGroup_ordered (splitSubLevelV2_orders _) (splitLevelV2_orders _) hparent hcur hrun
  · exact splitGroup_ordered (splitSubLevel_orders _) (splitLevel_orders _) hparent hcur hrun

/-! ## Runs -/

theorem initial_ordered (groupId : CompactionGroupId) (config : CompactionConfig) :
    (buildInitialCompactionGroupLevels groupId config).Ordered weak := by
  refine ⟨⟨by simp [buildInitialCompactionGroupLevels],
    .nil, by simp [buildInitialCompactionGroupLevels]⟩, fun level hmem => ?_⟩
  obtain ⟨_, -, rfl⟩ := mem_map.1 hmem
  exact ⟨rfl, .nil _⟩

theorem newLevels_ordered (c : GroupConstruct) (groupId : CompactionGroupId)
    (config : CompactionConfig) : (c.newLevels groupId config).Ordered weak :=
  have h := initial_ordered groupId config
  ⟨h.l0, h.levels⟩

def GroupDelta.insertedSsts : GroupDelta → List SstableInfo
  | .newL0SubLevel insertedTableInfos => insertedTableInfos
  | .intraLevel delta => delta.insertedTableInfos
  | _ => []

/-- Every SST inserted has bounds that are full keys, the left one not above the right one. -/
def HummockVersionDelta.InsertsValid (delta : HummockVersionDelta) : Prop :=
  ∀ e ∈ delta.groupDeltas.entries, ∀ d ∈ e.2, ∀ sst ∈ d.insertedSsts, sst.keyRange.Valid

/-- A group that is merged into another has no empty sub-level. Only a compaction of its L0 before,
in the same list of deltas, can leave one. -/
def HummockVersion.MergesNonempty (dbg : Bool) (v : HummockVersion) (delta : HummockVersionDelta) :
    Prop :=
  ∀ s groupId l r right, (s, groupId, .groupMerge l r) ∈ v.executed dbg delta →
    s.levels[r]? = some right → ∀ level ∈ right.l0.subLevels, level.tableInfos ≠ []

/-- What is known of a group delta. -/
structure DeltaOrdered (info : HummockVersionStateTableInfo) (s : GroupState)
    (groupId : CompactionGroupId) (d : GroupDelta) : Prop where
  valid : ∀ sst ∈ d.insertedSsts, sst.keyRange.Valid
  merge : ∀ l r right, d = .groupMerge l r → s.levels[r]? = some right →
    ∀ level ∈ right.l0.subLevels, level.tableInfos ≠ []

theorem Levels.Ordered.weaken (h : lv.Ordered weak) : lv.Ordered true :=
  ⟨⟨h.l0.levels, h.l0.ids, nofun⟩, h.levels⟩

/-- **The order is an invariant of the groups.** -/
theorem ordered_inv : LevelsInv dbg DeltaOrdered Levels.Ordered where
  weaken _ h := h.weaken
  initial := initial_ordered
  fresh := newLevels_ordered
  split _ _ _ c config _ _ _ _ _ _ h hrun :=
    c.split_ordered h.weaken (newLevels_ordered c _ config) hrun
  merge _ _ _ l r _ _ right _ hq hright hleft hr hrun :=
    hleft.mergeLevels hr.weaken (hq.merge l r right rfl hright) hrun
  intra _ _ _ _ _ _ _ _ hq h hrun := h.applyIntraLevel hq.valid hrun
  newSubLevel _ _ _ _ _ _ _ hq h hrun := h.applyNewL0SubLevel hq.valid hrun
  post _ h := h.postApplyL0Compact

/-- The sub-levels of L0 are in order and not empty; the SSTs of a level below L0 or of a
non-overlapping sub-level are sorted by their left bounds and can be concatenated, each ending
before all later ones. -/
structure Levels.WellOrdered (lv : Levels) : Prop where
  subLevelIds : lv.l0.subLevels.Pairwise fun a b => a.subLevelId < b.subLevelId
  nonempty : ∀ level ∈ lv.l0.subLevels, level.tableInfos ≠ []
  sorted : ∀ level, level ∈ lv.levels ∨ level ∈ lv.l0.subLevels ∧
    level.levelType = .nonoverlapping →
    canConcat level.tableInfos = .ok true ∧ level.tableInfos.Pairwise fun a b =>
      (∃ o, a.keyRange.compareLeft b.keyRange = .ok o ∧ o ≠ .gt) ∧ Below a.keyRange b.keyRange

theorem Levels.Ordered.wellOrdered (h : lv.Ordered false) : lv.WellOrdered := by
  refine ⟨pairwise_map.1 h.l0.ids, h.l0.nonempty rfl, fun level hmem => ?_⟩
  have hlevel : level.Ordered ∧ level.levelType = .nonoverlapping := by
    rcases hmem with hmem | ⟨hmem, ht⟩
    · exact ⟨(h.levels level hmem).ordered, (h.levels level hmem).levelType⟩
    · exact ⟨h.l0.levels level hmem, ht⟩
  have hs := hlevel.1.sorted hlevel.2
  refine ⟨hs.canConcat hlevel.1.valid, List.Pairwise.imp_of_mem (fun {a b} ha hb hab => ?_) hs⟩
  refine ⟨⟨_, compareLeft_eq (hlevel.1.valid a ha) (hlevel.1.valid b hb), fun hgt => ?_⟩, hab.below⟩
  exact absurd hab.lo (not_le.2 ((cmp_eq_gt_iff _ _).1 hgt))

/-- **In every run that inserts SSTs with valid key ranges, the levels of every group are in
order.** -/
theorem run_ordered {config : CompactionConfig} {steps : List Step} {v : HummockVersion}
    (hrun : Run dbg config steps v) (hvalid : ∀ st ∈ steps, st.delta.InsertsValid)
    (hmerge : ∀ st ∈ steps, st.before.MergesNonempty dbg st.delta) :
    ∀ (groupId : CompactionGroupId) lv, v.levels[groupId]? = some lv → lv.WellOrdered := by
  intro groupId lv hlv
  refine (ordered_inv.run hrun (fun st hst x hx => ?_) groupId lv hlv).wellOrdered
  obtain ⟨s, g, d⟩ := x
  obtain ⟨ds, hds, hd⟩ := HummockVersion.mem_of_executed hx
  refine ⟨hvalid st hst _ hds d hd, fun l r right heq hright => ?_⟩
  subst heq
  exact hmerge st hst s g l r right hx hright

end

/-- Group 2 gets two sub-levels of L0 and two SSTs in level 1. Table 5 is split off to group 7,
which cuts an SST of each, and group 7 is merged back. -/
theorem run_ordered_two : let key (t : TableId) (epoch : U64) : FullKey := ⟨⟨t, [0, 0]⟩, epoch⟩
    let sst (id : Nat) (t u : TableId) : SstableInfo :=
      ⟨id, id, ⟨(key t 1).encode, (key u 0).encode, false⟩, [t, u].dedup, 100, 100⟩
    let delta (id : Nat) (epoch : U64) (groupId : CompactionGroupId) (ds : List GroupDelta) :
      HummockVersionDelta :=
        ⟨id + 1, id, ⟨[(groupId, ds)], by simp⟩, epoch, .empty, [], .empty, .empty⟩
    let next (v : HummockVersion) (d : HummockVersionDelta) :=
      (v.applyVersionDelta true d).toOption.getD v
    let d1 := delta 1 1 2 [.newL0SubLevel [sst 1 4 5, sst 2 4 4]]
    let d2 := delta 2 2 2 [.newL0SubLevel [sst 3 5 5]]
    let d3 := delta 3 2 2 [.intraLevel ⟨1, 0, [], [sst 4 3 3, sst 5 4 5], 0⟩]
    let d4 := delta 4 2 7 [.groupConstruct ⟨some ⟨1⟩, 2, [5], 10, 3, some (key 5 U64.max).encode⟩]
    let d5 := delta 5 2 2 [.groupMerge 2 7]
    let v0 := HummockVersion.createInitVersion ⟨1⟩
    let v1 := next v0 d1
    let v2 := next v1 d2
    let v3 := next v2 d3
    let v4 := next v3 d4
    let v5 := next v4 d5
    let steps : List Step := [⟨v4, d5, v5⟩, ⟨v3, d4, v4⟩, ⟨v2, d3, v3⟩, ⟨v1, d2, v2⟩, ⟨v0, d1, v1⟩]
    Run true ⟨1⟩ steps v5 ∧
      (v5.levels[(2 : CompactionGroupId)]?.map
        fun lv => (lv.l0.subLevels ++ lv.levels).map fun level =>
        level.tableInfos.map (·.sstId)) = some [[11, 2], [10], [3], [4, 13, 12]] ∧
      ∀ (groupId : CompactionGroupId) lv, v5.levels[groupId]? = some lv → lv.WellOrdered := by
  intro key sst delta next d1 d2 d3 d4 d5 v0 v1 v2 v3 v4 v5 steps
  have hrun : Run true ⟨1⟩ steps v5 := by
    refine ((((Run.init.step ?_).step ?_).step ?_).step ?_).step ?_
    all_goals decide +kernel
  have hvalid : ∀ id, (sst id 4 5).keyRange.Valid ∧ (sst id 4 4).keyRange.Valid ∧
      (sst id 5 5).keyRange.Valid ∧ (sst id 3 3).keyRange.Valid := fun id =>
    ⟨valid_mk (by decide +kernel), valid_mk (by decide +kernel), valid_mk (by decide +kernel),
      valid_mk (by decide +kernel)⟩
  have hexecuted : (v4.executed true d5).map (fun x => x.1.levels[(7 : CompactionGroupId)]?.map
      fun lv => lv.l0.subLevels.all fun level => level.tableInfos ≠ []) = [some true] := by
    decide +kernel
  refine ⟨hrun, by decide +kernel, run_ordered hrun ?_ ?_⟩
  · simp [HummockVersionDelta.InsertsValid, steps, d1, d2, d3, d4, d5, delta,
      GroupDelta.insertedSsts, hvalid]
  · have hother : ∀ v : HummockVersion, ∀ d ∈ [d1, d2, d3, d4], v.MergesNonempty true d := by
      intro v d hd s groupId l r right hmem
      obtain ⟨ds, hds, hmerge⟩ := HummockVersion.mem_of_executed hmem
      simp only [mem_cons, not_mem_nil, or_false] at hd
      rcases hd with rfl | rfl | rfl | rfl <;> cases mem_singleton.1 hds <;>
        cases mem_singleton.1 hmerge
    have hlast : v4.MergesNonempty true d5 := by
      intro s groupId l r right hmem hright level hlevel
      obtain ⟨ds, hds, hmerge⟩ := HummockVersion.mem_of_executed hmem
      cases mem_singleton.1 hds
      cases mem_singleton.1 hmerge
      have hall := mem_map_of_mem (f := fun x => x.1.levels[(7 : CompactionGroupId)]?.map
        fun lv => lv.l0.subLevels.all fun level => level.tableInfos ≠ []) hmem
      rw [hexecuted, mem_singleton, hright] at hall
      simpa using all_eq_true.1 (Option.some.inj hall) level hlevel
    simp [steps, hother, hlast]

/-- Three runs. A split and a merge leave an SST whose right user key is the left one of the next
SST. A group whose L0 is compacted and that is then merged, by one list of deltas, leaves an empty
sub-level. A split of a sub-level leaves two SSTs that start at the split key, the longer one first.
-/
theorem order_is_not_strict : let key (t : TableId) (epoch : U64) : FullKey := ⟨⟨t, [0, 0]⟩, epoch⟩
    let range (l u : FullKey) (excl : Bool) : KeyRange := ⟨l.encode, u.encode, excl⟩
    let delta (id : Nat) (epoch : U64) (groupId : CompactionGroupId) (ds : List GroupDelta) :
      HummockVersionDelta :=
        ⟨id + 1, id, ⟨[(groupId, ds)], by simp⟩, epoch, .empty, [], .empty, .empty⟩
    let after (deltas : List HummockVersionDelta) (groupId : CompactionGroupId) : Option Levels :=
      ((HummockVersion.createInitVersion ⟨1⟩).applyVersionDeltas true deltas).toOption.bind
        (·.levels[groupId]?)
    let split : GroupDelta := .groupConstruct ⟨some ⟨1⟩, 2, [5], 10, 3, some (key 5 U64.max).encode⟩
    let a : SstableInfo := ⟨1, 1, range (key 4 0) (key 5 0) false, [4, 5], 100, 100⟩
    let a1 : SstableInfo := ⟨1, 11, range (key 4 0) (key 5 U64.max) true, [4], 100, 50⟩
    let a2 : SstableInfo := ⟨1, 10, range (key 5 U64.max) (key 5 0) false, [5], 100, 50⟩
    let b : SstableInfo := ⟨3, 3, range (key 4 0) (key 5 0) true, [4, 5], 100, 100⟩
    let c : SstableInfo := ⟨2, 2, range (key 5 U64.max) (key 5 U64.max) false, [5], 100, 100⟩
    let b2 : SstableInfo := ⟨3, 10, range (key 5 U64.max) (key 5 0) true, [5], 100, 50⟩
    (a.keyRange.Valid ∧ b.keyRange.Valid ∧ c.keyRange.Valid) ∧
      ((after [delta 1 0 2 [.intraLevel ⟨1, 0, [], [a], 0⟩], delta 2 0 7 [split],
          delta 3 0 2 [.groupMerge 2 7]] 2).map (fun lv => lv.levels.map (·.tableInfos)) =
          some [[a1, a2]] ∧
        a1.keyRange.hi.userKey = a2.keyRange.lo.userKey) ∧
      (after [delta 1 1 3 [.newL0SubLevel [a]],
          delta 2 1 3 [.intraLevel ⟨0, 0, [1], [], 0⟩, .groupMerge 2 3]] 2).map
        (fun lv => lv.l0.subLevels.map (·.tableInfos)) = some [[]] ∧
      (after [delta 1 1 2 [.newL0SubLevel [a]],
          delta 2 1 2 [.intraLevel ⟨0, 1, [1], [b, c], 0⟩], delta 3 1 7 [split]] 7).map
        (fun lv => lv.l0.subLevels.map fun level => (level.levelType, level.tableInfos)) =
          some [(.nonoverlapping, [b2, c])] ∧
      b2.keyRange.compare c.keyRange = .ok .gt := by
  intro key range delta after split a a1 a2 b c b2
  have hle : key 4 0 ≤ key 5 0 := by decide +kernel
  refine ⟨⟨valid_mk hle, valid_mk hle, valid_mk le_rfl⟩, ⟨?_, ?_⟩, ?_, ?_, ?_⟩
  · decide +kernel
  · decide +kernel
  · decide +kernel
  · decide +kernel
  · decide +kernel

end Hummock
