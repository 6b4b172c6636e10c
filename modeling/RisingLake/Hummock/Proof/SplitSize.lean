import RisingLake.Hummock.Proof.GroupDelta
import RisingLake.Hummock.Proof.Size
import RisingLake.Hummock.Proof.Split
import RisingLake.Hummock.Proof.Underflow

/-!
# Size counters across splits

Splitting a group forgets the SSTs that leave the parent: its counters stay at least the actual
sizes, but are not exact. That is enough for no subtraction to underflow in a run whose counters fit
in a `u64`; they are exact if, moreover, no split loses a size (`HummockVersion.KeepsSizes`,
`run_sizes`).
-/

namespace Hummock

open Res List

section
variable {slack dbg : Bool}

/-! ## What is kept of a split level -/

open GroupSplit

/-- The SSTs kept are not larger, and without slack as large. -/
structure Shrinks (slack : Bool) (ssts kept : List SstableInfo) : Prop where
  le : (sizes kept).1 ≤ (sizes ssts).1 ∧ (sizes kept).2 ≤ (sizes ssts).2
  exact : slack = false → sizes kept = sizes ssts

variable {level : Level} {sst : SstableInfo}

namespace Shrinks

variable {ssts ssts' kept kept' : List SstableInfo}

theorem refl (slack : Bool) (ssts : List SstableInfo) : Shrinks slack ssts ssts :=
  ⟨⟨le_rfl, le_rfl⟩, fun _ => rfl⟩

theorem append (h : Shrinks slack ssts kept) (h' : Shrinks slack ssts' kept') :
    Shrinks slack (ssts ++ ssts') (kept ++ kept') := by
  refine ⟨?_, fun hs => ?_⟩
  · rw [sizes_append, sizes_append]
    exact ⟨Nat.add_le_add h.le.1 h'.le.1, Nat.add_le_add h.le.2 h'.le.2⟩
  · rw [sizes_append, sizes_append, h.exact hs, h'.exact hs]

theorem cons {sst' : SstableInfo} (h : Shrinks slack [sst] [sst'])
    (h' : Shrinks slack ssts kept) : Shrinks slack (sst :: ssts) (sst' :: kept) := h.append h'

theorem dropAll (ssts : List SstableInfo) (h : slack = false → ∀ sst ∈ ssts, sst.size = 0) :
    Shrinks slack ssts [] := by
  refine ⟨⟨Nat.zero_le _, Nat.zero_le _⟩, fun hs => ?_⟩
  induction ssts with
  | nil => rfl
  | cons sst ssts ih =>
    rw [sizes_cons, h hs sst (.head _), ← ih fun hs sst hsst => h hs sst (.tail _ hsst)]
    rfl

theorem counts (h : Shrinks slack level.tableInfos kept)
    (hlevel : LevelCounts slack level) : LevelCounts slack { level with tableInfos := kept } :=
  hlevel.shrink h.le h.exact

end Shrinks

/-- The split loses no size of the SST: none if it moves, and at most the uncompressed one, which
both parts have, if it is divided. -/
def KeepsSize (dbg : Bool) (splitKey : Bytes) (sst : SstableInfo) : Prop :=
  (needToSplit sst splitKey = .ok .right → sst.size = 0) ∧
    (needToSplit sst splitKey = .ok .both → sst.sstSize = 0 ∧
      ∀ tablesR, splitTableIdsWithSplitKey dbg sst.tableIds splitKey = .ok ([], tablesR) →
        sst.uncompressedFileSize = 0)

theorem keepsSize_of_left {splitKey : Bytes}
    (h : needToSplit sst splitKey = .ok .left) : KeepsSize dbg splitKey sst := by
  simp [KeepsSize, h]

/-- The split loses no size of the SSTs of the level; in a non-overlapping level those after the
split position move. -/
def LevelKeepsSize (dbg : Bool) (splitKey : Bytes) (level : Level) : Prop :=
  if level.levelType = .overlapping then ∀ sst ∈ level.tableInfos, KeepsSize dbg splitKey sst
  else ∀ pos, getSplitPos level.tableInfos splitKey = .ok pos →
    (∀ sst, level.tableInfos[pos]? = some sst → KeepsSize dbg splitKey sst) ∧
      ∀ sst ∈ level.tableInfos.drop (pos + 1), sst.size = 0

section
variable {splitKey : Bytes} {newSstId newSstId' : U64}

theorem splitSst_shrinks {left right : Option SstableInfo}
    (hneed : needToSplit sst splitKey = .ok .both)
    (hkeep : slack = false → KeepsSize dbg splitKey sst)
    (h : splitSst dbg sst newSstId splitKey (sst.sstSize / 2) (sst.sstSize / 2) =
      .ok ((left, right), newSstId')) : Shrinks slack [sst] left.toList := by
  obtain ⟨_, tablesL, tablesR, htables, hparts⟩ := splitSst_both hneed h
  obtain ⟨rfl, -⟩ := Prod.mk.inj hparts
  split
  · rename_i hL
    subst hL
    refine .dropAll _ fun hs x hx => ?_
    rw [mem_singleton] at hx
    subst hx
    obtain ⟨hsize, hun⟩ := (hkeep hs).2 hneed
    exact Prod.ext hsize (hun tablesR htables)
  · refine ⟨⟨?_, ?_⟩, fun hs => ?_⟩
    · simp only [Option.toList_some, sizes, sumSstSize, leftPart, map_cons, map_nil, sum_cons]
      omega
    · simp [sizes, sumUncompressed, leftPart]
    · obtain ⟨hsize, -⟩ := (hkeep hs).2 hneed
      simp [sizes, sumSstSize, sumUncompressed, leftPart, hsize]

theorem retainSplit_shrinks : ∀ {ssts kept inserted : List SstableInfo} {newSstId newSstId' : U64},
    retainSplit dbg splitKey newSstId ssts = .ok (kept, inserted, newSstId') →
      (slack = false → ∀ sst ∈ ssts, KeepsSize dbg splitKey sst) → Shrinks slack ssts kept
  | [], _, _, _, _, h, _ => by
    cases h
    exact .refl _ _
  | sst :: ssts, kept, inserted, newSstId, newSstId', h, hkeep => by
    have htail : slack = false → ∀ sst ∈ ssts, KeepsSize dbg splitKey sst :=
      fun hs x hx => hkeep hs x (.tail _ hx)
    obtain ⟨t, ht, h⟩ := bind_eq_ok.1 h
    cases t with
    | left =>
      obtain ⟨⟨kept, inserted, _⟩, hrest, h⟩ := bind_eq_ok.1 h
      cases h
      exact (Shrinks.refl slack [sst]).append (retainSplit_shrinks hrest htail)
    | right =>
      obtain ⟨⟨kept, inserted, _⟩, hrest, h⟩ := bind_eq_ok.1 h
      cases h
      refine (Shrinks.dropAll [sst] fun hs x hx => ?_).append (retainSplit_shrinks hrest htail)
      rw [mem_singleton] at hx
      subst hx
      exact (hkeep hs x (.head _)).1 ht
    | both =>
      obtain ⟨⟨⟨left, right⟩, newSstId1⟩, hsplit, h⟩ := bind_eq_ok.1 h
      obtain ⟨⟨kept, inserted, _⟩, hrest, h⟩ := bind_eq_ok.1 h
      cases h
      exact (splitSst_shrinks ht (fun hs => hkeep hs sst (.head _)) hsplit).append
        (retainSplit_shrinks hrest htail)

variable {inserted : List SstableInfo}

theorem splitSorted_shrinks {ssts kept : List SstableInfo}
    (h : splitSorted dbg splitKey newSstId ssts = .ok (kept, inserted, newSstId'))
    (hkeep : slack = false → ∀ pos, getSplitPos ssts splitKey = .ok pos →
      (∀ sst, ssts[pos]? = some sst → KeepsSize dbg splitKey sst) ∧
        ∀ sst ∈ ssts.drop (pos + 1), sst.size = 0) : Shrinks slack ssts kept := by
  obtain ⟨pos, hpos, h⟩ := splitSorted_ok h
  have hdrop : Shrinks slack (ssts.drop (pos + 1)) [] := .dropAll _ fun hs => (hkeep hs pos hpos).2
  rcases h with ⟨-, rfl, -, -⟩ | ⟨sst, hsst, h⟩
  · exact .refl _ _
  have hat : ssts = ssts.take pos ++ [sst] ++ ssts.drop (pos + 1) := by
    simpa using Slice.eq_take_cons_drop hsst
  rcases h with ⟨-, rfl, -, -⟩ | ⟨ht, rfl, rfl, -, -⟩ | ⟨ht, left, right, hsplit, rfl, -⟩
  · have := (Shrinks.refl slack (ssts.take (pos + 1))).append hdrop
    rwa [take_append_drop, append_nil] at this
  · rw [hat]
    refine (Shrinks.dropAll (take 0 ssts ++ [sst]) fun hs x hx => ?_).append hdrop
    obtain rfl : x = sst := by simpa using hx
    exact ((hkeep hs 0 hpos).1 x hsst).1 ht
  · have := ((Shrinks.refl slack (ssts.take pos)).append (splitSst_shrinks ht
      (fun hs => (hkeep hs pos hpos).1 sst hsst) hsplit)).append hdrop
    rwa [← hat, append_nil] at this

theorem splitOff_shrinks {key : Option Bytes} {level' : Level}
    (h : splitOff dbg key level newSstId = .ok (level', inserted, newSstId'))
    (hkeep : slack = false → ∀ splitKey, key = some splitKey → LevelKeepsSize dbg splitKey level) :
    ∃ kept, level' = { level with tableInfos := kept } ∧ Shrinks slack level.tableInfos kept := by
  cases key with
  | none =>
    cases h
    exact ⟨level.tableInfos, rfl, .refl _ _⟩
  | some splitKey =>
    simp only [splitOff, splitSstInfoForLevelV2] at h
    split at h
    · cases h
      exact ⟨level.tableInfos, rfl, .refl _ _⟩
    obtain ⟨⟨kept, inserted, _⟩, hsplit, h⟩ := bind_eq_ok.1 h
    cases h
    refine ⟨kept, rfl, ?_⟩
    have hkeep : slack = false → LevelKeepsSize dbg splitKey level := fun hs => hkeep hs splitKey rfl
    unfold splitSsts at hsplit
    unfold LevelKeepsSize at hkeep
    split at hsplit
    · rename_i hover
      simp only [if_pos hover] at hkeep
      exact retainSplit_shrinks hsplit hkeep
    · rename_i hover
      simp only [if_neg hover] at hkeep
      exact splitSorted_shrinks hsplit hkeep

end

theorem splitSstInfos_shrinks {memberTableIds : List TableId} :
    ∀ {ssts kept inserted : List SstableInfo} {newSstId newSstId' : U64},
      splitSstInfos dbg memberTableIds newSstId ssts = .ok (kept, inserted, newSstId') →
      (slack = false → ∀ sst ∈ ssts,
        sst.tableIds.any (memberTableIds.contains ·) = true → sst.sstSize = 0) →
      Shrinks slack ssts kept
  | [], _, _, _, _, h, _ => by
    cases h
    exact .refl _ _
  | sst :: ssts, _, _, _, _, h, hkeep => by
    have htail := fun hs x hx => hkeep hs x (.tail sst hx)
    rw [splitSstInfos] at h
    split at h
    · rename_i hmember
      obtain ⟨⟨⟨modified, branch⟩, _⟩, hsplit, h⟩ := bind_eq_ok.1 h
      obtain ⟨⟨kept, inserted, _⟩, hrest, h⟩ := bind_eq_ok.1 h
      cases h
      obtain ⟨_, -, hsplit⟩ := bind_eq_ok.1 hsplit
      obtain ⟨_, -, hsplit⟩ := bind_eq_ok.1 hsplit
      cases hsplit
      refine Shrinks.cons ⟨⟨?_, ?_⟩, fun hs => ?_⟩ (splitSstInfos_shrinks hrest htail)
      · simp only [sizes, sumSstSize, map_cons, map_nil, sum_cons]
        omega
      · simp [sizes, sumUncompressed]
      · simp [sizes, sumSstSize, sumUncompressed, hkeep hs sst (.head _) hmember]
    · obtain ⟨⟨kept, inserted, _⟩, hrest, h⟩ := bind_eq_ok.1 h
      cases h
      exact (Shrinks.refl slack [sst]).append (splitSstInfos_shrinks hrest htail)

/-! ## Splitting a group -/

theorem Counts.extractEmptySsts (h : LevelCounts slack level) :
    Returns (Hummock.extractEmptySsts level) fun r => LevelCounts slack r.1 ∧
      sizes r.1.tableInfos + sizes r.2 = sizes level.tableInfos := by
  have hsizes := sizes_filter (fun sst => sst.tableIds.isEmpty) level.tableInfos
  unfold LevelCounts at h
  rw [← hsizes] at h
  exact h.subtractSizes.bind fun c _ hc => ⟨hc, hsizes⟩

/-- The state of the loop over the sub-levels, `rest` being the sizes of the sub-levels of the
parent. -/
structure LoopCounted (slack : Bool) (s : SubLevelState) (rest : Nat × Nat) : Prop where
  l0 : Counts slack s.l0Sizes rest
  target : L0Counted slack false s.targetL0

theorem LoopCounted.extractFromSubLevel {s : SubLevelState} (others : Nat × Nat)
    (hlevel : LevelCounts slack level) (h : LoopCounted slack s (others + sizes level.tableInfos)) :
    Returns (Hummock.extractFromSubLevel s level) fun r => LevelCounts slack r.1 ∧
      LoopCounted slack r.2 (others + sizes r.1.tableInfos) := by
  refine (Counts.extractEmptySsts hlevel).bind fun r _ hr => ?_
  have hl0 := h.l0
  rw [← hr.2, ← add_assoc] at hl0
  exact hl0.subtractSizes.bind fun c _ hc => ⟨hr.1, hc, h.target⟩

variable {ssts : List SstableInfo} {info : HummockVersionStateTableInfo}
  {groupId : CompactionGroupId}

theorem L0Counted.insertIntoTargetL0 {l0 l0' : OverlappingLevel}
    (h : L0Counted slack false l0) (hrun : Hummock.insertIntoTargetL0 dbg l0 level ssts = .ok l0') :
    L0Counted slack false l0' := by
  unfold Hummock.insertIntoTargetL0 at hrun
  split at hrun
  · exact h.addSstsToSubLevel hrun
  · exact h.insertNewSubLevel hrun

/-- What the body of the loop over the sub-levels does to the counters, if `keeps` holds of the
sub-level where there is no slack. -/
def CountsSubLevel (slack : Bool) (keeps : Level → Prop)
    (f : SubLevelState → Level → Res (Level × SubLevelState)) : Prop :=
  ∀ s level others, (slack = false → keeps level) → LevelCounts slack level →
    LoopCounted slack s (others + sizes level.tableInfos) →
    Returns (f s level) fun r => LevelCounts slack r.1 ∧
      LoopCounted slack r.2 (others + sizes r.1.tableInfos)

/-- The same for the loop over the levels. -/
def CountsLevel (slack : Bool) (keeps : Level → Prop)
    (f : LevelState → Level × Nat → Res (Level × LevelState)) : Prop :=
  ∀ s e, (slack = false → keeps e.1) → LevelCounts slack e.1 →
    (∀ cur ∈ s.curLevels, LevelCounts slack cur) →
    Returns (f s e) fun r => LevelCounts slack r.1 ∧ ∀ cur ∈ r.2.curLevels, LevelCounts slack cur

theorem moveToLevel_counts {s : LevelState} {idx : Nat}
    (hlevel : LevelCounts slack level) (hcur : ∀ cur ∈ s.curLevels, LevelCounts slack cur) :
    Returns (moveToLevel s idx level ssts) fun r =>
      LevelCounts slack r.1 ∧ ∀ cur ∈ r.2.curLevels, LevelCounts slack cur := by
  refine (noUnderflow_index _ _).bind fun cur hidx _ => ?_
  refine (noUnderflow_levelExtendSorted _ _ _).bind fun cur' hext _ => ?_
  refine (Counts.extractEmptySsts hlevel).bind fun r _ hr => ⟨hr.1, fun x hx => ?_⟩
  rcases mem_or_eq_of_mem_set hx with hx | rfl
  · exact hcur x hx
  · exact (hcur cur (mem_of_getElem? (index_eq_ok.1 hidx))).levelExtendSorted hext

theorem LoopCounted.insert {s : SubLevelState} {origin : Level} {rest : Nat × Nat}
    (hlevel : LevelCounts slack level) (h : LoopCounted slack s rest) :
    Returns (insertIntoTargetL0 dbg s.targetL0 origin ssts >>= fun targetL0 =>
        .ok (level, { s with targetL0 })) fun r =>
      r.1 = level ∧ LevelCounts slack r.1 ∧ LoopCounted slack r.2 rest :=
  (noUnderflow_insertIntoTargetL0 dbg _ _ _).bind fun _ hins _ =>
    ⟨rfl, hlevel, h.l0, h.target.insertIntoTargetL0 hins⟩

theorem splitSubLevelV2_counts (key : Option Bytes) : CountsSubLevel slack
    (fun level => ∀ splitKey, key = some splitKey → LevelKeepsSize dbg splitKey level)
    (splitSubLevelV2 dbg key) := by
  intro s level others hkeep hlevel hs
  refine (noUnderflow_splitOff dbg _ _ _).bind fun r hr _ => ?_
  obtain ⟨kept, hkept, hshrinks⟩ := splitOff_shrinks hr hkeep
  have hlevel' : LevelCounts slack r.1 := hkept ▸ hshrinks.counts hlevel
  have hs' : LoopCounted slack { s with newSstId := r.2.2 } (others + sizes r.1.tableInfos) := by
    rw [hkept]
    exact ⟨hs.l0.add_shrink hshrinks.le hshrinks.exact, hs.target⟩
  dsimp only
  split
  · exact ⟨hlevel', hs'⟩
  · refine (LoopCounted.extractFromSubLevel _ hlevel' hs').bind fun r' _ hr' => ?_
    refine (LoopCounted.insert hr'.1 hr'.2).mono fun r'' _ hr'' => ⟨hr''.2.1, ?_⟩
    rw [hr''.1]
    exact hr''.2.2

theorem splitLevelV2_counts (key : Option Bytes) : CountsLevel slack
    (fun level => ∀ splitKey, key = some splitKey → LevelKeepsSize dbg splitKey level)
    (splitLevelV2 dbg key) := by
  intro s e hkeep hlevel hcur
  refine (noUnderflow_splitOff dbg _ _ _).bind fun r hr _ => ?_
  obtain ⟨kept, hkept, hshrinks⟩ := splitOff_shrinks hr hkeep
  have hlevel' : LevelCounts slack r.1 := hkept ▸ hshrinks.counts hlevel
  dsimp only
  split
  · exact ⟨hlevel', hcur⟩
  · exact moveToLevel_counts hlevel' hcur

/-- The older split halves the size of each SST with a member table. -/
def LevelKeepsHalves (memberTableIds : List TableId) (level : Level) : Prop :=
  ∀ sst ∈ level.tableInfos, sst.tableIds.any (memberTableIds.contains ·) = true → sst.sstSize = 0

variable (memberTableIds : List TableId)

theorem splitSstInfoForLevel_shrinks {newSstId : U64}
    (hkeep : slack = false → LevelKeepsHalves memberTableIds level) :
    Returns (splitSstInfoForLevel dbg memberTableIds level newSstId) fun r =>
      ∃ kept, r.1 = { level with tableInfos := kept } ∧ Shrinks slack level.tableInfos kept :=
  (noUnderflow_splitSstInfos dbg _ _ _).bind fun r hr _ =>
    ⟨r.1, rfl, splitSstInfos_shrinks hr hkeep⟩

theorem splitSubLevel_counts : CountsSubLevel slack
    (LevelKeepsHalves memberTableIds) (splitSubLevel dbg memberTableIds) := by
  intro s level others hkeep hlevel hs
  refine (splitSstInfoForLevel_shrinks memberTableIds hkeep).bind fun r _ hr => ?_
  obtain ⟨kept, hkept, hshrinks⟩ := hr
  have hlevel' : LevelCounts slack r.1 := hkept ▸ hshrinks.counts hlevel
  have hs' : LoopCounted slack { s with newSstId := r.2.2 } (others + sizes r.1.tableInfos) := by
    rw [hkept]
    exact ⟨hs.l0.add_shrink hshrinks.le hshrinks.exact, hs.target⟩
  refine (LoopCounted.extractFromSubLevel others hlevel' hs').bind fun r' _ hr' => ?_
  dsimp only
  split
  · exact hr'
  · refine (LoopCounted.insert hr'.1 hr'.2).mono fun r'' _ hr'' => ⟨hr''.2.1, ?_⟩
    rw [hr''.1]
    exact hr''.2.2

theorem splitLevel_counts :
    CountsLevel slack (LevelKeepsHalves memberTableIds) (splitLevel dbg memberTableIds) := by
  intro s e hkeep hlevel hcur
  refine (splitSstInfoForLevel_shrinks memberTableIds hkeep).bind fun r _ hr => ?_
  obtain ⟨kept, hkept, hshrinks⟩ := hr
  exact moveToLevel_counts (hkept ▸ hshrinks.counts hlevel) hcur

/-- **The counters of the two groups of a split.** -/
theorem splitGroup_counted {keeps : Level → Prop} {newSstId : U64} {parent cur : Levels}
    {f : SubLevelState → Level → Res (Level × SubLevelState)}
    {g : LevelState → Level × Nat → Res (Level × LevelState)}
    (hf : CountsSubLevel slack keeps f) (hg : CountsLevel slack keeps g)
    (hkeeps : slack = false → (∀ level ∈ parent.l0.subLevels, keeps level) ∧
      ∀ level ∈ parent.levels, keeps level)
    (hparent : Counted slack false parent) (hcur : Counted slack false cur) :
    Returns (splitGroup f g newSstId parent cur) fun r =>
      Counted slack false r.1 ∧ Counted slack false r.2 := by
  -- the sub-levels done and left make up the L0 of the parent
  refine (returns_mapAccumM (fun ys s xs => (∀ y ∈ ys, LevelCounts slack y) ∧
      (∀ x ∈ xs, LevelCounts slack x ∧ (slack = false → keeps x)) ∧
      LoopCounted slack s (sizes (sstsOf ys) + sizes (sstsOf xs)))
    (fun ys s x xs h => ?_) ?_).bind fun r _ hr => ?_
  · obtain ⟨hys, hxs, hs⟩ := h
    have hx := hxs x (.head _)
    rw [sstsOf_cons, sizes_append, ← add_assoc, add_right_comm] at hs
    refine (hf s x _ hx.2 hx.1 hs).mono fun r _ hr => ⟨?_, fun y hy => hxs y (.tail _ hy), ?_⟩
    · exact forall_mem_append.2 ⟨hys, forall_mem_singleton.2 hr.1⟩
    · rw [sstsOf_append, sizes_append, add_right_comm]
      simpa [sstsOf] using hr.2
  · refine ⟨by simp, fun x hx => ⟨hparent.subLevels x hx, fun hs => (hkeeps hs).1 x hx⟩, ?_⟩
    rw [show sstsOf [] = [] from rfl, sizes_nil, zero_add]
    exact ⟨hparent.l0 rfl, hcur.l0Counted⟩
  obtain ⟨hsub, -, hl0⟩ := hr
  refine (returns_mapAccumM (fun ys t xs => (∀ y ∈ ys, LevelCounts slack y) ∧
      (∀ x ∈ xs, LevelCounts slack x.1 ∧ (slack = false → keeps x.1)) ∧
      ∀ cur ∈ t.curLevels, LevelCounts slack cur)
    (fun ys t x xs h => ?_) ?_).bind fun r' _ hr' => ?_
  · obtain ⟨hys, hxs, ht⟩ := h
    have hx := hxs x (.head _)
    refine (hg t x hx.2 hx.1 ht).mono fun r _ hr => ⟨?_, fun y hy => hxs y (.tail _ hy), hr.2⟩
    exact forall_mem_append.2 ⟨hys, forall_mem_singleton.2 hr.1⟩
  · refine ⟨by simp, fun x hx => ?_, hcur.levels⟩
    have hmem : x.1 ∈ parent.levels := fst_mem_of_mem_zipIdx hx
    exact ⟨hparent.levels x.1 hmem, fun hs => (hkeeps hs).2 x.1 hmem⟩
  obtain ⟨hlevels, -, hcurs⟩ := hr'
  refine (noUnderflow_assert _ _).bind fun _ _ _ => ?_
  refine (noUnderflow_assert _ _).bind fun _ _ _ => ?_
  refine ⟨⟨fun level hmem => hsub level (mem_filter.1 hmem).1, hlevels, fun _ => ?_⟩,
    hl0.target.subLevels, hcurs, fun _ => hl0.target.total rfl⟩
  have := hl0.l0
  rw [show sstsOf [] = [] from rfl, sizes_nil, ← sstsOf_filter_nonempty] at this
  exact this

/-- Splitting the parent loses no size. -/
def GroupConstruct.KeepsSizes (dbg : Bool) (c : GroupConstruct)
    (info : HummockVersionStateTableInfo) (groupId : CompactionGroupId) (level : Level) : Prop :=
  if splitGroupByTableId ≤ c.version then
    ∀ splitKey, c.splitKey = some splitKey → LevelKeepsSize dbg splitKey level
  else LevelKeepsHalves (c.memberTables info groupId) level

theorem GroupConstruct.split_counted {c : GroupConstruct} {parent cur : Levels}
    (hkeeps : slack = false → (∀ level ∈ parent.l0.subLevels, c.KeepsSizes dbg info groupId level) ∧
      ∀ level ∈ parent.levels, c.KeepsSizes dbg info groupId level)
    (hparent : Counted slack false parent) (hcur : Counted slack false cur) :
    Returns (c.split dbg info groupId parent cur) fun r =>
      Counted slack false r.1 ∧ Counted slack false r.2 := by
  unfold GroupConstruct.split
  unfold GroupConstruct.KeepsSizes at hkeeps
  by_cases hv : splitGroupByTableId ≤ c.version
  · simp only [if_pos hv] at hkeeps ⊢
    exact splitGroup_counted (splitSubLevelV2_counts _) (splitLevelV2_counts _) hkeeps hparent hcur
  · simp only [if_neg hv] at hkeeps ⊢
    exact splitGroup_counted (splitSubLevel_counts _) (splitLevel_counts _) hkeeps hparent hcur

theorem newLevels_counted (c : GroupConstruct) (groupId : CompactionGroupId)
    (config : CompactionConfig) : Counted slack false (c.newLevels groupId config) :=
  have h := initial_counted groupId config
  ⟨h.subLevels, h.levels, h.l0⟩

/-! ## Runs -/

/-- The counters fit in a `u64`. -/
def Levels.countersFit (lv : Levels) : Bool :=
  (lv.l0.counters :: (lv.l0.subLevels ++ lv.levels).map Level.counters).all fun c =>
    decide (c.1 < 2 ^ 64 ∧ c.2 < 2 ^ 64)

def GroupLevels.countersFit (levels : GroupLevels) : Bool :=
  levels.toList.all fun e => e.2.countersFit

/-- Before the step and before each of its group deltas the counters fit in a `u64`, so that they
are those of the source. -/
def HummockVersion.CountersFit (dbg : Bool) (v : HummockVersion) (delta : HummockVersionDelta) :
    Prop :=
  v.levels.countersFit = true ∧ ∀ x ∈ v.executed dbg delta, x.1.levels.countersFit = true

/-- The counters fit, and the splits of the step lose no size. -/
structure HummockVersion.KeepsSizes (dbg : Bool) (v : HummockVersion)
    (delta : HummockVersionDelta) : Prop where
  fit : v.CountersFit dbg delta
  splits : ∀ info changed bumped,
    v.stateTableInfo.applyDelta dbg delta.stateTableInfoDelta delta.removedTableIds =
      .ok (info, changed, bumped) →
    ∀ s groupId c parent, (s, groupId, .groupConstruct c) ∈ v.executed dbg delta →
      c.parentGroupId ≠ newCompactionGroup → s.levels[c.parentGroupId]? = some parent →
      (∀ level ∈ parent.l0.subLevels, c.KeepsSizes dbg info groupId level) ∧
        ∀ level ∈ parent.levels, c.KeepsSizes dbg info groupId level

/-- What is known of a group delta: without slack, a split in it loses no size. -/
def DeltaKeepsSizes (dbg slack : Bool) (info : HummockVersionStateTableInfo) (s : GroupState)
    (groupId : CompactionGroupId) : GroupDelta → Prop
  | .groupConstruct c => slack = false → c.parentGroupId ≠ newCompactionGroup →
    ∀ parent, s.levels[c.parentGroupId]? = some parent →
      (∀ level ∈ parent.l0.subLevels, c.KeepsSizes dbg info groupId level) ∧
        ∀ level ∈ parent.levels, c.KeepsSizes dbg info groupId level
  | _ => True

/-- **The counters are an invariant of the groups.** -/
theorem counted_inv (slack : Bool) : LevelsInv dbg (DeltaKeepsSizes dbg slack) (Counted slack) where
  weaken _ h := ⟨h.subLevels, h.levels, nofun⟩
  initial := initial_counted
  fresh := newLevels_counted
  split _ _ _ c config _ _ _ hq hnew hparent h hrun :=
    (c.split_counted (fun hs => hq hs hnew _ hparent) h (newLevels_counted c _ config)).of_ok hrun
  merge _ _ _ _ _ _ _ _ _ _ _ hleft _ hrun := hleft.mergeLevels hrun
  intra _ _ _ _ _ _ _ _ _ h hrun := h.applyIntraLevel hrun
  newSubLevel _ _ _ _ _ _ _ _ h hrun := h.applyNewL0SubLevel hrun
  post _ h := h.postApplyL0Compact

theorem deltaKeepsSizes_of_slack (info : HummockVersionStateTableInfo) (s : GroupState)
    (groupId : CompactionGroupId) (d : GroupDelta) : DeltaKeepsSizes dbg true info s groupId d := by
  cases d with
  | groupConstruct c => exact nofun
  | _ => trivial

variable {levels : GroupLevels}

theorem noUnderflow_constructGroup {c : GroupConstruct}
    (h : ∀ parent, c.parentGroupId ≠ groupId → levels[c.parentGroupId]? = some parent →
      Counted true false parent) : NoUnderflow (constructGroup dbg info levels groupId c) := by
  obtain ⟨msg, heq⟩ := constructGroup_eq dbg info levels groupId c
  rw [heq, noUnderflow_bind]
  refine ⟨by simp, fun config _ => ?_⟩
  unfold initFromParent
  split
  · split <;> simp
  split
  · simp
  · simp
  · rename_i parent cur hparent hcur
    split
    · simp
    rename_i hne
    rw [HashMap.getElem?_insert_eq, if_neg (Ne.symm hne)] at hparent
    rw [HashMap.getElem?_insert_eq, if_pos rfl] at hcur
    cases hcur
    have hsplit : NoUnderflow (c.split dbg info groupId parent (c.newLevels groupId config)) :=
      (c.split_counted (fun h => by cases h) (h parent hne hparent)
        (newLevels_counted c groupId config)).noUnderflow
    exact noUnderflow_bind.2 ⟨hsplit, fun _ _ => trivial⟩

variable {isCommitEpoch : Bool}

theorem noUnderflow_applyGroupDelta {s : GroupState} {d : GroupDelta}
    (hs : GroupInv (Counted true) groupId s) :
    NoUnderflow (applyGroupDelta dbg info isCommitEpoch groupId s d) := by
  cases d with
  | groupConstruct c =>
    have hconstruct : NoUnderflow (constructGroup dbg info s.levels groupId c) :=
      noUnderflow_constructGroup fun parent hne hparent => by simpa [hne] using hs _ parent hparent
    simp [applyGroupDelta, hconstruct]
  | groupMerge l r => simp [applyGroupDelta]
  | intraLevel | newL0SubLevel =>
    simp only [applyGroupDelta]
    split <;> simp
  | groupDestroy => simp [applyGroupDelta]

theorem applyGroupDeltas_counted {e : CompactionGroupId × List GroupDelta}
    (h : AllGroups (Counted true) levels) :
    Returns (applyGroupDeltas dbg info isCommitEpoch levels e) (AllGroups (Counted true)) := by
  have hinv : LevelsInv dbg (DeltaKeepsSizes dbg true) (Counted true) := counted_inv true
  refine (returns_foldlM (GroupInv (Counted true) e.1) (fun d _ s hs => ?_) ?_).bind
    fun s _ hs => ?_
  · exact (noUnderflow_applyGroupDelta hs).returns fun s' hrun =>
      hinv.applyGroupDelta hs (deltaKeepsSizes_of_slack _ _ _ _) hrun
  · exact h
  · exact hinv.postApplyGroup hs

theorem noUnderflow_applyVersionDelta {v : HummockVersion} (d : HummockVersionDelta)
    (h : AllGroups (Counted true) v.levels) : NoUnderflow (v.applyVersionDelta dbg d) := by
  have hlevels : ∀ info isCommitEpoch, NoUnderflow (d.groupDeltas.entries.foldlM
      (applyGroupDeltas dbg info isCommitEpoch) v.levels) := fun info isCommitEpoch =>
    (returns_foldlM (AllGroups (Counted true)) (fun _ _ _ h => applyGroupDeltas_counted h)
      h).noUnderflow
  simp [HummockVersion.applyVersionDelta, hlevels]

/-- The `u64` that the source has for a counter. -/
def stored (counter : Nat) : Nat := counter % 2 ^ 64

/-- The size accounting of a group is exact. -/
structure Levels.SizesExact (lv : Levels) : Prop where
  levels : ∀ level ∈ lv.l0.subLevels ++ lv.levels,
    stored level.totalFileSize = sumSstSize level.tableInfos ∧
      stored level.uncompressedFileSize = sumUncompressed level.tableInfos
  l0 : stored lv.l0.totalFileSize = (lv.l0.subLevels.map fun l => stored l.totalFileSize).sum ∧
    stored lv.l0.uncompressedFileSize =
      (lv.l0.subLevels.map fun l => stored l.uncompressedFileSize).sum

theorem Counted.sizesExact {lv : Levels} (h : Counted false false lv)
    (hfit : lv.countersFit = true) : lv.SizesExact := by
  rw [Levels.countersFit, all_cons, Bool.and_eq_true, all_eq_true] at hfit
  obtain ⟨hl0, hlevels⟩ := hfit
  have hstored : ∀ level ∈ lv.l0.subLevels ++ lv.levels, stored level.totalFileSize =
      level.totalFileSize ∧ stored level.uncompressedFileSize = level.uncompressedFileSize :=
    fun level hmem => (of_decide_eq_true (hlevels _ (mem_map_of_mem hmem))).imp
      Nat.mod_eq_of_lt Nat.mod_eq_of_lt
  refine ⟨fun level hmem => ?_, ?_⟩
  · have hcounts : LevelCounts false level := forall_mem_append.2 ⟨h.subLevels, h.levels⟩ level hmem
    rw [(hstored level hmem).1, (hstored level hmem).2]
    exact Prod.mk.inj (hcounts.exact rfl)
  · have hsum := (sum_counts h.subLevels).exact rfl
    rw [← (h.l0 rfl).exact rfl] at hsum
    obtain ⟨htotal, huncompressed⟩ := Prod.mk.inj hsum.symm
    obtain ⟨hfit, hfit'⟩ := of_decide_eq_true hl0
    rw [map_congr_left fun level hmem => (hstored level (mem_append_left _ hmem)).1,
      map_congr_left fun level hmem => (hstored level (mem_append_left _ hmem)).2]
    exact ⟨(Nat.mod_eq_of_lt hfit).trans htotal, (Nat.mod_eq_of_lt hfit').trans huncompressed⟩

/-- **In a run whose size counters fit in a `u64`, no subtraction from them underflows, and if no
split loses a size, they are exact.** -/
theorem run_sizes {config : CompactionConfig} {steps : List Step} {v : HummockVersion}
    (hrun : Run dbg config steps v) :
    ((∀ st ∈ steps, st.before.CountersFit dbg st.delta) → ∀ d, v.CountersFit dbg d →
      v.applyVersionDelta dbg d ≠ .error .underflow) ∧
    ((∀ st ∈ steps, st.before.KeepsSizes dbg st.delta) → v.levels.countersFit = true →
      ∀ (groupId : CompactionGroupId) lv, v.levels[groupId]? = some lv → lv.SizesExact) := by
  refine ⟨fun _ d _ => ?_, fun hkeeps hfit groupId lv hlv => ?_⟩
  · -- the numbers do not underflow, and below `2 ^ 64` they are the counters of the source
    have hcounted := (counted_inv true).run hrun fun _ _ _ _ => deltaKeepsSizes_of_slack _ _ _ _
    exact (noUnderflow_applyVersionDelta d hcounted).ne_underflow
  · have hmem : (groupId, lv) ∈ v.levels.toList :=
      Std.ExtTreeMap.mem_toList_iff_getElem?_eq_some.2 hlv
    refine ((counted_inv false).run hrun (fun st hst x hx => ?_) groupId lv hlv).sizesExact
      (all_eq_true.1 hfit _ hmem)
    obtain ⟨s, groupId, d⟩ := x
    cases d with
    | groupConstruct c =>
      intro _ hnew parent hparent
      obtain ⟨changed, bumped, happ⟩ := HummockVersion.applyVersionDelta_ok (hrun.applied hst)
      exact (hkeeps st hst).splits _ _ _ happ.info s groupId c parent hx hnew hparent
    | _ => trivial

end

/-- An SST of table 4 is inserted, and a group is split off at table 5. -/
theorem run_sizes_two : let key (t : TableId) (epoch : U64) := FullKey.encode ⟨⟨t, [0, 0]⟩, epoch⟩
    let sst : SstableInfo := ⟨4, 4, ⟨key 4 1, key 4 0, false⟩, [4], 100, 100⟩
    let v0 := HummockVersion.createInitVersion ⟨1⟩
    let d1 := { v0.versionDeltaAfter with
      groupDeltas := ⟨[(2, [.newL0SubLevel [sst]])], by decide⟩
      maxCommittedEpoch := 1 }
    let parent := { buildInitialCompactionGroupLevels 2 ⟨1⟩ with
      l0 := ⟨[⟨0, .overlapping, [sst], 100, 1, 100, 0⟩], 100, 100⟩ }
    let v1 := { v0 with
      id := 2
      maxCommittedEpoch := 1
      levels := v0.levels.insert 2 parent }
    let construct : GroupConstruct := ⟨some ⟨1⟩, 2, [5], 6, 3, some (key 5 U64.max)⟩
    let d2 := { v1.versionDeltaAfter with
      groupDeltas := ⟨[(7, [.groupConstruct construct])], by decide⟩ }
    let v2 := { v1 with id := 3, levels := v1.levels.insert 7 (construct.newLevels 7 ⟨1⟩) }
    Run true ⟨1⟩ [⟨v1, d2, v2⟩, ⟨v0, d1, v1⟩] v2 ∧
      (∀ d, v2.CountersFit true d → v2.applyVersionDelta true d ≠ .error .underflow) ∧
      ∀ (groupId : CompactionGroupId) lv, v2.levels[groupId]? = some lv → lv.SizesExact := by
  intro key sst v0 d1 parent v1 construct d2 v2
  have hrun : Run true ⟨1⟩ [⟨v1, d2, v2⟩, ⟨v0, d1, v1⟩] v2 :=
    (Run.init.step (by decide +kernel)).step (by decide +kernel)
  have hexecuted1 : (v0.executed true d1).map (·.2) = [(2, .newL0SubLevel [sst])] := by
    decide +kernel
  have hexecuted2 : (v1.executed true d2).map (fun x => (x.1.levels, x.2)) =
      [(v1.levels, 7, .groupConstruct construct)] := by decide +kernel
  have hfit : ∀ st ∈ ([⟨v1, d2, v2⟩, ⟨v0, d1, v1⟩] : List Step),
      st.before.CountersFit true st.delta := by
    refine forall_mem_cons.2 ⟨⟨by decide +kernel, by decide +kernel⟩, forall_mem_singleton.2 ?_⟩
    exact ⟨by decide +kernel, by decide +kernel⟩
  refine ⟨hrun, (run_sizes hrun).1 hfit,
    (run_sizes hrun).2 (fun st hst => ⟨hfit st hst, ?_⟩) (by decide +kernel)⟩
  rw [mem_pair] at hst
  rcases hst with rfl | rfl
  · intro _ _ _ _ s groupId c lv hmem _ hlv
    have hmem := mem_map_of_mem (f := fun x => (x.1.levels, x.2)) hmem
    rw [hexecuted2, mem_singleton] at hmem
    obtain ⟨hlevels, hrest⟩ := Prod.mk.inj hmem
    cases hrest
    rw [hlevels] at hlv
    cases hlv
    refine ⟨fun level hlevel splitKey hkey => ?_, fun level hlevel splitKey hkey => ?_⟩
    · rw [mem_singleton] at hlevel
      cases hlevel
      cases hkey
      exact forall_mem_singleton.2 (keepsSize_of_left (by decide +kernel))
    · have hempty : level.tableInfos = [] := by
        obtain ⟨_, -, rfl⟩ := mem_map.1 hlevel
        rfl
      simp [LevelKeepsSize, hempty]
  · intro _ _ _ _ s groupId c lv hmem
    have hmem := mem_map_of_mem (f := (·.2)) hmem
    rw [hexecuted1, mem_singleton] at hmem
    cases hmem

/-- A sub-level with an SST of table 4 and one of table 5; a group is split off at table 5. The
sub-level of the parent still counts both SSTs. -/
theorem split_keeps_counters :
    let key (t : TableId) (epoch : U64) := FullKey.encode ⟨⟨t, [0, 0]⟩, epoch⟩
    let sst (t : TableId) : SstableInfo := ⟨t.val, t.val, ⟨key t 1, key t 0, false⟩, [t], 100, 100⟩
    let v0 := HummockVersion.createInitVersion ⟨1⟩
    let d1 := { v0.versionDeltaAfter with
      groupDeltas := ⟨[(2, [.newL0SubLevel [sst 4, sst 5]])], by decide⟩
      maxCommittedEpoch := 1 }
    let lv0 := buildInitialCompactionGroupLevels 2 ⟨1⟩
    let v1 := { v0 with
      id := 2
      maxCommittedEpoch := 1
      levels := v0.levels.insert 2
        { lv0 with l0 := ⟨[⟨0, .overlapping, [sst 4, sst 5], 200, 1, 200, 0⟩], 200, 200⟩ } }
    let construct : GroupConstruct := ⟨some ⟨1⟩, 2, [5], 6, 3, some (key 5 U64.max)⟩
    let d2 := { v1.versionDeltaAfter with
      groupDeltas := ⟨[(7, [.groupConstruct construct])], by decide⟩ }
    let parent := { lv0 with l0 := ⟨[⟨0, .overlapping, [sst 4], 200, 1, 200, 0⟩], 200, 200⟩ }
    let cur := { construct.newLevels 7 ⟨1⟩ with
      l0 := ⟨[⟨0, .overlapping, [sst 5], 100, 1, 100, 0⟩], 100, 100⟩ }
    let v2 := { v1 with id := 3, levels := (v1.levels.insert 2 parent).insert 7 cur }
    (v0.applyVersionDelta true d1 = .ok v1 ∧ v1.applyVersionDelta true d2 = .ok v2) ∧
      GroupSplit.buildSplitKey true 5 0 = .ok (key 5 U64.max) ∧
      v2.levels[2]? = some parent ∧ ¬parent.SizesExact := by
  intro key sst v0 d1 lv0 v1 construct d2 parent cur v2
  refine ⟨⟨by decide +kernel, by decide +kernel⟩, by decide +kernel, by decide +kernel, fun h => ?_⟩
  exact absurd (h.levels _ (.head _)).1 (by decide +kernel)

end Hummock
