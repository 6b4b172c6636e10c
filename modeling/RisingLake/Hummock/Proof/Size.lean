import RisingLake.Hummock.Proof.Level
import RisingLake.Lib.Returns

/-!
# Size counters

Every level counts the sizes of its SSTs, and L0 those of its sub-levels. `Counts slack counter
actual` says that a counter is the actual size, or, with `slack`, at least the actual size.
Inserting, deleting, compacting and merging keep both.

The two counters of a level are handled together, as a pair.
-/

namespace Hummock

open Res List

/-! ## Sizes -/

def sizes (ssts : List SstableInfo) : Nat × Nat := (sumSstSize ssts, sumUncompressed ssts)

def SstableInfo.size (sst : SstableInfo) : Nat × Nat := (sst.sstSize, sst.uncompressedFileSize)

theorem sizes_nil : sizes [] = 0 := rfl

theorem sizes_cons (sst : SstableInfo) (ssts : List SstableInfo) :
    sizes (sst :: ssts) = sst.size + sizes ssts := by
  simp [sizes, sumSstSize, sumUncompressed, SstableInfo.size]

theorem sizes_append (a b : List SstableInfo) : sizes (a ++ b) = sizes a + sizes b := by
  simp [sizes, sumSstSize, sumUncompressed]

theorem sizes_perm {a b : List SstableInfo} (h : a.Perm b) : sizes a = sizes b := by
  rw [sizes, sizes, sumSstSize, sumSstSize, sumUncompressed, sumUncompressed, (h.map _).sum_eq,
    (h.map _).sum_eq]

theorem sizes_filter (p : SstableInfo → Bool) : ∀ ssts : List SstableInfo,
    sizes (ssts.filter fun sst => !p sst) + sizes (ssts.filter p) = sizes ssts
  | [] => rfl
  | sst :: ssts => by
    rw [sizes_cons, ← sizes_filter p ssts]
    cases hp : p sst with
    | true => simp [hp, sizes_cons, add_left_comm]
    | false => simp [hp, sizes_cons, add_assoc]

def Level.counters (level : Level) : Nat × Nat := (level.totalFileSize, level.uncompressedFileSize)

def OverlappingLevel.counters (l0 : OverlappingLevel) : Nat × Nat :=
  (l0.totalFileSize, l0.uncompressedFileSize)

def sstsOf (levels : List Level) : List SstableInfo := levels.flatMap (·.tableInfos)

theorem sstsOf_cons (level : Level) (levels : List Level) :
    sstsOf (level :: levels) = level.tableInfos ++ sstsOf levels := rfl

theorem sstsOf_append (a b : List Level) : sstsOf (a ++ b) = sstsOf a ++ sstsOf b := flatMap_append

theorem sizes_sstsOf_insertIdx {i : Nat} {level : Level} {levels : List Level}
    (h : i ≤ levels.length) :
    sizes (sstsOf (levels.insertIdx i level)) = sizes (sstsOf levels) + sizes level.tableInfos := by
  have hperm : (sstsOf (levels.insertIdx i level)).Perm (sstsOf (level :: levels)) :=
    (perm_insertIdx level levels h).flatMap_right _
  rw [sizes_perm hperm, sstsOf_cons, sizes_append, add_comm]

theorem sizes_sstsOf_set {i : Nat} {old new : Level} {levels : List Level} {added : Nat × Nat}
    (h : levels[i]? = some old) (hnew : sizes new.tableInfos = sizes old.tableInfos + added) :
    sizes (sstsOf (levels.set i new)) = sizes (sstsOf levels) + added := by
  induction levels generalizing i with
  | nil => simp at h
  | cons level levels ih =>
    cases i with
    | zero =>
      cases h
      simp only [set_cons_zero, sstsOf_cons, sizes_append, hnew, add_right_comm]
    | succ i =>
      simp only [set_cons_succ, sstsOf_cons, sizes_append, ih (by simpa using h), add_assoc]

theorem sstsOf_filter_nonempty (levels : List Level) :
    sstsOf (levels.filter fun level => !level.tableInfos.isEmpty) = sstsOf levels := by
  induction levels with
  | nil => rfl
  | cons level levels ih =>
    cases hempty : level.tableInfos.isEmpty with
    | true => simp [sstsOf_cons, ih, isEmpty_iff.1 hempty]
    | false => simp [hempty, sstsOf_cons, ih]

/-! ## Counters -/

/-- The counter is the actual size, or with `slack` at least that. -/
structure Counts (slack : Bool) (counter actual : Nat × Nat) : Prop where
  le : actual.1 ≤ counter.1 ∧ actual.2 ≤ counter.2
  exact : slack = false → counter = actual

namespace Counts

variable {slack : Bool} {c c' a a' : Nat × Nat}

theorem refl (slack : Bool) (a : Nat × Nat) : Counts slack a a := ⟨⟨le_rfl, le_rfl⟩, fun _ => rfl⟩

theorem add (h : Counts slack c a) (h' : Counts slack c' a') : Counts slack (c + c') (a + a') :=
  ⟨⟨Nat.add_le_add h.le.1 h'.le.1, Nat.add_le_add h.le.2 h'.le.2⟩,
    fun hs => by rw [h.exact hs, h'.exact hs]⟩

theorem shrink (h : Counts slack c a) (hle : a'.1 ≤ a.1 ∧ a'.2 ≤ a.2)
    (heq : slack = false → a' = a) : Counts slack c a' :=
  ⟨⟨hle.1.trans h.le.1, hle.2.trans h.le.2⟩, fun hs => (h.exact hs).trans (heq hs).symm⟩

theorem add_shrink {others : Nat × Nat} (h : Counts slack c (others + a))
    (hle : a'.1 ≤ a.1 ∧ a'.2 ≤ a.2) (heq : slack = false → a' = a) : Counts slack c (others + a') :=
  h.shrink ⟨Nat.add_le_add_left hle.1 _, Nat.add_le_add_left hle.2 _⟩ fun hs => by rw [heq hs]

theorem subtractSizes : ∀ {ssts : List SstableInfo} {c : Nat × Nat},
    Counts slack c (a + sizes ssts) →
      Returns (Hummock.subtractSizes c ssts) fun c' => Counts slack c' a
  | [], c, h => by simpa [Hummock.subtractSizes, Returns, sizes_nil] using h
  | sst :: ssts, c, h => by
    rw [sizes_cons] at h
    have hle := h.le
    simp only [SstableInfo.size, Prod.fst_add, Prod.snd_add] at hle
    have h1 : checkedSub c.1 sst.sstSize = .ok (c.1 - sst.sstSize) := if_pos (by omega)
    have h2 : checkedSub c.2 sst.uncompressedFileSize = .ok (c.2 - sst.uncompressedFileSize) :=
      if_pos (by omega)
    rw [Hummock.subtractSizes, foldlM_cons, h1, h2, ok_bind]
    refine subtractSizes ⟨?_, fun hs => ?_⟩
    · simp only [Prod.fst_add, Prod.snd_add]
      omega
    · have := h.exact hs
      rw [Prod.ext_iff] at this ⊢
      simp only [SstableInfo.size, Prod.fst_add, Prod.snd_add] at this ⊢
      omega

end Counts

def LevelCounts (slack : Bool) (level : Level) : Prop :=
  Counts slack level.counters (sizes level.tableInfos)

/-- The counters of a group. Those of L0 are only kept at the end of a group's deltas. -/
structure Counted (slack weak : Bool) (lv : Levels) : Prop where
  subLevels : ∀ level ∈ lv.l0.subLevels, LevelCounts slack level
  levels : ∀ level ∈ lv.levels, LevelCounts slack level
  l0 : weak = false → Counts slack lv.l0.counters (sizes (sstsOf lv.l0.subLevels))

/-- The counters of L0 and of its sub-levels. -/
structure L0Counted (slack weak : Bool) (l0 : OverlappingLevel) : Prop where
  subLevels : ∀ level ∈ l0.subLevels, LevelCounts slack level
  total : weak = false → Counts slack l0.counters (sizes (sstsOf l0.subLevels))

variable {lv : Levels} {slack weak : Bool}

theorem Counted.l0Counted (h : Counted slack weak lv) : L0Counted slack weak lv.l0 :=
  ⟨h.subLevels, h.l0⟩

theorem Counted.setL0 {l0 : OverlappingLevel} (h : Counted slack weak lv)
    (hl0 : L0Counted slack weak l0) :
    Counted slack weak { lv with l0 } := ⟨hl0.subLevels, h.levels, hl0.total⟩

section
variable {slack weak dbg : Bool}

theorem initial_counted (groupId : CompactionGroupId) (config : CompactionConfig) :
    Counted slack false (buildInitialCompactionGroupLevels groupId config) := by
  refine ⟨by simp [buildInitialCompactionGroupLevels], fun level hmem => ?_, fun _ => Counts.refl _ _⟩
  obtain ⟨_, -, rfl⟩ := mem_map.1 hmem
  exact Counts.refl slack 0

/-! ## Inserting and deleting -/

variable {ssts : List SstableInfo} {l0 l0' : OverlappingLevel}

theorem L0Counted.insertNewSubLevel {subLevelId : U64}
    {levelType : LevelType} {hint : Option Nat} (h : L0Counted slack weak l0)
    (hrun : Hummock.insertNewSubLevel dbg l0 subLevelId levelType ssts hint = .ok l0') :
    L0Counted slack weak l0' := by
  rcases insertNewSubLevel_ok hrun with ⟨-, rfl⟩ | ⟨-, pos, level, -, hpos, hlevel, rfl⟩
  · exact h
  cases newSubLevel_ok hlevel
  refine ⟨fun level hmem => ?_, fun hweak => ?_⟩
  · rcases eq_or_mem_of_mem_insertIdx hmem with rfl | hmem
    · exact Counts.refl _ _
    · exact h.subLevels level hmem
  · rw [sizes_sstsOf_insertIdx hpos]
    exact (h.total hweak).add (Counts.refl slack (sizes ssts))

theorem L0Counted.addSstsToSubLevel {idx : Nat} (h : L0Counted slack weak l0)
    (hrun : Hummock.addSstsToSubLevel l0 idx ssts = .ok l0') : L0Counted slack weak l0' := by
  obtain ⟨subLevel, hsub, hrun⟩ := bind_eq_ok.1 hrun
  obtain ⟨tableInfos, harr, hrun⟩ := bind_eq_ok.1 hrun
  cases hrun
  have hsizes : sizes tableInfos = sizes subLevel.tableInfos + sizes ssts := by
    rw [sizes_perm (arrangeSubLevel_ok harr).1, sizes_append]
  refine ⟨fun level hmem => ?_, fun hweak => ?_⟩
  · rcases mem_or_eq_of_mem_set hmem with hmem | rfl
    · exact h.subLevels level hmem
    · have := (h.subLevels subLevel (mem_of_getElem? (index_eq_ok.1 hsub))).add
        (Counts.refl slack (sizes ssts))
      rw [← hsizes] at this
      exact this
  · rw [sizes_sstsOf_set (index_eq_ok.1 hsub) hsizes]
    exact (h.total hweak).add (Counts.refl slack (sizes ssts))

variable {level level' : Level}

theorem LevelCounts.levelInsertSsts (h : LevelCounts slack level)
    (hrun : Hummock.levelInsertSsts level ssts = .ok level') : LevelCounts slack level' := by
  obtain ⟨tableInfos, hperm, -, rfl⟩ := levelInsertSsts_ok hrun
  have := h.add (Counts.refl slack (sizes ssts))
  rw [← sizes_append, ← sizes_perm hperm] at this
  exact this

theorem LevelCounts.levelExtendSorted {msg : String} (h : LevelCounts slack level)
    (hrun : Hummock.levelExtendSorted level ssts msg = .ok level') : LevelCounts slack level' := by
  obtain ⟨tableInfos, hperm, -, rfl⟩ := levelExtendSorted_ok hrun
  have := h.add (Counts.refl slack (sizes ssts))
  rw [← sizes_append, ← sizes_perm hperm] at this
  exact this

theorem LevelCounts.edited {d : IntraLevelDelta} (h : Edited d level level')
    (hlevel : LevelCounts slack level) : LevelCounts slack level' := by
  induction h with
  | refl => exact hlevel
  | delete => exact Counts.refl _ _
  | @insert level' n _ _ hrun ih =>
    have ih : LevelCounts slack { level' with vnodePartitionCount := n } := ih
    exact ih.levelInsertSsts hrun

theorem Counted.applyIntraLevel {info : HummockVersionStateTableInfo} {isCommitEpoch : Bool}
    {groupId : CompactionGroupId} {d : IntraLevelDelta} {lv lv' : Levels}
    (h : Counted slack weak lv)
    (hrun : Hummock.applyIntraLevel dbg info isCommitEpoch groupId lv d = .ok lv') :
    Counted slack (weak || (!isCommitEpoch && d.levelIdx == 0)) lv' := by
  rcases applyIntraLevel_ok hrun with ⟨rfl, rfl | ⟨l0, -, hl0, rfl⟩⟩ | ⟨rfl, hcompact⟩
  · simpa using h
  · simpa using h.setL0 (h.l0Counted.insertNewSubLevel hl0)
  · rcases applyCompactSsts_ok hcompact with ⟨hidx, hlevels, hsub⟩ | ⟨hidx, hl0, hlevels⟩
    · refine ⟨fun level hmem => ?_, fun level hmem => ?_, fun hweak => ?_⟩
      · obtain ⟨old, hold, hedit⟩ := hsub.of_mem hmem
        exact (h.subLevels old hold).edited hedit
      · exact h.levels level (hlevels ▸ hmem)
      · simp [hidx] at hweak
    · refine ⟨fun level hmem => ?_, fun level hmem => ?_, fun hweak => ?_⟩
      · exact h.subLevels level (hl0 ▸ hmem)
      · obtain ⟨old, hold, hedit⟩ := hlevels.of_mem hmem
        exact (h.levels old hold).edited hedit
      · rw [hl0]
        exact h.l0 (by simpa [hidx] using hweak)

theorem Counted.applyNewL0SubLevel {lv lv' : Levels} (h : Counted slack weak lv)
    (hrun : Hummock.applyNewL0SubLevel dbg lv ssts = .ok lv') : Counted slack weak lv' := by
  rcases applyNewL0SubLevel_ok hrun with rfl | ⟨subLevelId, l0, -, hl0, rfl⟩
  · exact h
  · exact h.setL0 (h.l0Counted.insertNewSubLevel hl0)

theorem sum_counts : ∀ {levels : List Level}, (∀ level ∈ levels, LevelCounts slack level) →
    Counts slack ((levels.map (·.totalFileSize)).sum, (levels.map (·.uncompressedFileSize)).sum)
      (sizes (sstsOf levels))
  | [], _ => Counts.refl slack 0
  | level :: levels, h => by
    rw [sstsOf_cons, sizes_append]
    exact (h level (.head _)).add (sum_counts fun level hl => h level (.tail _ hl))

theorem Counted.postApplyL0Compact (h : Counted slack true lv) :
    Counted slack false lv.postApplyL0Compact := by
  have hsub : ∀ level ∈ lv.l0.subLevels.filter fun level => !level.tableInfos.isEmpty,
      LevelCounts slack level := fun level hmem => h.subLevels level (mem_filter.1 hmem).1
  exact ⟨hsub, h.levels, fun _ => sum_counts hsub⟩

theorem Counted.mergeLevels {left right merged : Levels} (h : Counted slack weak left)
    (hrun : GroupSplit.mergeLevels dbg left right = .ok merged) : Counted slack weak merged := by
  obtain ⟨needRewrite, nextId, l0, levels, hl0, hlevels, rfl⟩ := mergeLevels_ok hrun
  have hl0 : L0Counted slack weak l0 := mergeSubLevels_inv (L0Counted slack weak)
    (fun _ _ _ _ _ h hins => h.insertNewSubLevel hins) h.l0Counted hl0
  have hsame : sstsOf (l0.subLevels.map fun subLevel => { subLevel with vnodePartitionCount := 0 }) =
      sstsOf l0.subLevels := by
    simp [sstsOf, flatMap_map]
  refine ⟨fun level hmem => ?_, ?_, fun hweak => ?_⟩
  · obtain ⟨old, hold, rfl⟩ := mem_map.1 hmem
    exact hl0.subLevels old hold
  · exact mergeLowerLevels_inv (LevelCounts slack)
      (fun _ _ _ _ _ h hext => LevelCounts.levelExtendSorted h hext) h.levels hlevels
  · have := hl0.total hweak
    rw [← hsame] at this
    exact this

end

end Hummock
