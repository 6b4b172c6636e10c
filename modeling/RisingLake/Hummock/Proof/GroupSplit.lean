import RisingLake.Hummock.Proof.TableSplit

/-!
# Splitting a compaction group between tables

`initWithParentGroupV2` at the first key of a table is a lossless partition of a well-formed group
(`initWithParentGroupV2_partition`): each table's history, the objects that hold it from new to old,
is unchanged and lies in one of the two groups.

The two loops of the split are followed step by step. `L0Split` and `LowerSplit` hold of the levels
done so far; both extend `Parted` by one level.
-/

namespace Hummock

open Res KeyRange GroupSplit List

/-! ## Groups as lists of SSTs -/

variable (subLevels : List Level)

def l0Placed : List Placed :=
  subLevels.reverse.flatMap fun level => placeAt (.subLevel level.subLevelId) level.tableInfos

def lowerPlaced (idx : Nat) (levels : List Level) : List Placed :=
  (levels.zipIdx idx).flatMap fun e => placeAt (.level (e.2 + 1)) e.1.tableInfos

def Levels.placed (lv : Levels) : List Placed := l0Placed lv.l0.subLevels ++ lowerPlaced 0 lv.levels

/-- The objects that hold the table, from new to old. -/
def Levels.history (lv : Levels) (t : TableId) : List (Slot × Nat) := objects t lv.placed

theorem l0Placed_concat (level : Level) : l0Placed (subLevels ++ [level]) =
      placeAt (.subLevel level.subLevelId) level.tableInfos ++ l0Placed subLevels := by
  simp [l0Placed]

theorem lowerPlaced_append (idx : Nat) (a b : List Level) :
    lowerPlaced idx (a ++ b) = lowerPlaced idx a ++ lowerPlaced (idx + a.length) b := by
  rw [lowerPlaced, zipIdx_append, flatMap_append]
  rfl

theorem length_l0Placed_le (done : List Level) (level : Level) (left : List Level) :
    (l0Placed done).length + level.tableInfos.length ≤
      (l0Placed (done ++ level :: left)).length := by
  simp only [l0Placed, reverse_append, reverse_cons, flatMap_append, length_append, flatMap_cons,
    flatMap_nil, append_nil, placeAt, length_map]
  omega

theorem length_lowerPlaced_le (done : List Level) (level : Level) (left : List Level) :
    (lowerPlaced 0 done).length + level.tableInfos.length ≤
      (lowerPlaced 0 (done ++ level :: left)).length := by
  have hfirst : level.tableInfos.length ≤
      (lowerPlaced (0 + done.length) (level :: left)).length := by
    rw [lowerPlaced, zipIdx_cons, flatMap_cons, length_append, placeAt, length_map]
    exact Nat.le_add_right _ _
  rw [lowerPlaced_append, length_append]
  omega

theorem lowerPlaced_singleton (idx : Nat) (level : Level) :
    lowerPlaced idx [level] = placeAt (.level (idx + 1)) level.tableInfos := by
  simp [lowerPlaced]

theorem l0Placed_filter :
    l0Placed (subLevels.filter fun level => !level.tableInfos.isEmpty) = l0Placed subLevels := by
  induction subLevels using reverseRecOn with
  | nil => rfl
  | append_singleton subLevels level ih =>
    rw [l0Placed_concat, ← ih]
    cases hempty : level.tableInfos.isEmpty with
    | true => simp [isEmpty_iff.1 hempty, placeAt]
    | false => simp [hempty, l0Placed_concat]

theorem lowerPlaced_empty {levels : List Level} (h : ∀ level ∈ levels, level.tableInfos = [])
    (idx : Nat) : lowerPlaced idx levels = [] := by
  refine flatMap_eq_nil_iff.2 fun e he => ?_
  rw [h e.1 (fst_mem_of_mem_zipIdx he)]
  rfl

variable {level : Level} {sst : SstableInfo}

theorem mem_l0Placed {subLevels : List Level} (hlevel : level ∈ subLevels)
    (hsst : sst ∈ level.tableInfos) : (Slot.subLevel level.subLevelId, sst) ∈ l0Placed subLevels :=
  mem_flatMap.2 ⟨level, mem_reverse.2 hlevel, mem_map.2 ⟨sst, hsst, rfl⟩⟩

theorem mem_lowerPlaced {levels : List Level}
    (hlevel : level ∈ levels) (hsst : sst ∈ level.tableInfos) :
    ∃ slot, (slot, sst) ∈ lowerPlaced 0 levels := by
  obtain ⟨i, hi⟩ := mem_iff_getElem?.1 hlevel
  refine ⟨.level (i + 1), mem_flatMap.2 ⟨(level, i), ?_, mem_map.2 ⟨sst, hsst, rfl⟩⟩⟩
  exact mem_zipIdx_iff_getElem?.2 hi

/-- A group as in a reachable version: the sub-levels in order, the levels sorted, every SST well
formed. -/
structure Levels.WellFormed (lv : Levels) : Prop where
  ssts : ∀ p ∈ lv.placed, p.2.WellFormed
  subLevelIds : lv.l0.subLevels.Pairwise fun a b => a.subLevelId < b.subLevelId
  notMax : ∀ level ∈ lv.l0.subLevels, level.subLevelId ≠ U64.max
  subLevels : ∀ level ∈ lv.l0.subLevels, level.levelType ≠ .overlapping →
    SstsSorted level.tableInfos
  levels : ∀ level ∈ lv.levels, SstsSorted level.tableInfos

/-- A group as `build_initial_compaction_group_levels` makes it. -/
structure Levels.IsEmpty (lv : Levels) : Prop where
  subLevels : lv.l0.subLevels = []
  levels : ∀ level ∈ lv.levels, level.tableInfos = []

section
variable {dbg : Bool} {splitTable : TableId} {newSstStartId : U64}

/-! ## The parts of a step -/

theorem extractEmptySsts_eq (h : ∀ sst ∈ level.tableInfos, sst.tableIds ≠ []) :
    extractEmptySsts level = .ok (level, []) := by
  have hnone : (level.tableInfos.filter fun sst => sst.tableIds.isEmpty) = [] :=
    filter_eq_nil_iff.2 fun sst hsst => by simpa using h sst hsst
  have hall : (level.tableInfos.filter fun sst => !sst.tableIds.isEmpty) = level.tableInfos :=
    filter_eq_self.2 fun sst hsst => by simpa using h sst hsst
  rw [extractEmptySsts, hnone, hall]
  rfl

theorem extractFromSubLevel_eq {s : SubLevelState}
    (h : ∀ sst ∈ level.tableInfos, sst.tableIds ≠ []) :
    extractFromSubLevel s level = .ok (level, s) := by
  rw [extractFromSubLevel, extractEmptySsts_eq h]
  rfl

theorem subLevelInsertHintFrom_newest {subLevelId : U64} : ∀ {levels : List Level} (idx : Nat),
    (∀ level ∈ levels, level.subLevelId < subLevelId) →
      subLevelInsertHintFrom subLevelId idx levels = .error (idx + levels.length)
  | [], _, _ => rfl
  | level :: levels, idx, h => by
    rw [subLevelInsertHintFrom, if_pos (h level (.head _)),
      subLevelInsertHintFrom_newest (idx + 1) fun x hx => h x (.tail _ hx), length_cons]
    congr 1
    omega

theorem insertIntoTargetL0_newest (dbg : Bool) (l0 : OverlappingLevel) (level : Level)
    (ssts : List SstableInfo) (hids : ∀ target ∈ l0.subLevels, target.subLevelId < level.subLevelId)
    (hmax : level.subLevelId ≠ U64.max)
    (hconcat : level.levelType = .nonoverlapping → canConcat ssts = .ok true) :
    ∃ new total uncompressed, insertIntoTargetL0 dbg l0 level ssts =
        .ok ⟨l0.subLevels ++ [new], total, uncompressed⟩ ∧
      new.subLevelId = level.subLevelId ∧ new.tableInfos = ssts := by
  have hhint : getSubLevelInsertHint l0.subLevels level = .error l0.subLevels.length := by
    rw [getSubLevelInsertHint, subLevelInsertHintFrom_newest 0 hids, Nat.zero_add]
  have hnew : newSubLevel dbg level.subLevelId level.levelType ssts =
      .ok ⟨0, level.levelType, ssts, sumSstSize ssts, level.subLevelId, sumUncompressed ssts, 0⟩ := by
    have hdebug : debugConcat dbg level.levelType ssts = .ok true := by
      unfold debugConcat
      split
      · rename_i hc
        exact hconcat hc.1
      · rfl
    rw [newSubLevel, hdebug]
    rfl
  have hsmaller : (l0.subLevels.length == 0 || l0.subLevels[l0.subLevels.length - 1]?.all
      fun smaller => decide (smaller.subLevelId < level.subLevelId)) = true := by
    cases hlast : l0.subLevels[l0.subLevels.length - 1]? with
    | none => simp
    | some smaller => simp [hids smaller (mem_of_getElem? hlast)]
  have hlarger : (l0.subLevels[l0.subLevels.length]?.all
      fun larger => decide (level.subLevelId < larger.subLevelId)) = true := by simp
  refine ⟨⟨0, level.levelType, ssts, sumSstSize ssts, level.subLevelId, sumUncompressed ssts, 0⟩,
    l0.totalFileSize + sumSstSize ssts, l0.uncompressedFileSize + sumUncompressed ssts, ?_, rfl, rfl⟩
  simp only [insertIntoTargetL0, hhint, insertNewSubLevel, if_neg hmax, insertPosition,
    ok_bind, hsmaller, hlarger, debugAssert, Bool.or_true, assert_true, hnew, lt_irrefl, if_false]
  rw [Slice.insertIdx_eq_take_drop _ le_rfl, take_length, drop_length]

/-! ## The loop over the sub-levels -/

/-- The sub-levels `done`, with what is left of them in `kept` and what moved in the target. -/
structure L0Split (splitTable : TableId) (newSstStartId : U64) (done kept : List Level)
    (s : SubLevelState) : Prop where
  parted : Parted splitTable (l0Placed done) (l0Placed kept) (l0Placed s.targetL0.subLevels)
    newSstStartId.val s.newSstId.val
  ids : ∀ target ∈ s.targetL0.subLevels, ∃ level ∈ done, target.subLevelId = level.subLevelId
  nonempty : ∀ target ∈ s.targetL0.subLevels, target.tableInfos ≠ []

theorem L0Split.step (dbg : Bool) {done kept : List Level} {s : SubLevelState}
    (h : L0Split splitTable newSstStartId done kept s)
    (hroom : newSstStartId.val + 2 * ((l0Placed done).length + level.tableInfos.length) < 2 ^ 64)
    (hwf : ∀ sst ∈ level.tableInfos, sst.WellFormed)
    (hsorted : level.levelType ≠ .overlapping → SstsSorted level.tableInfos)
    (hids : ∀ older ∈ done, older.subLevelId < level.subLevelId)
    (hmax : level.subLevelId ≠ U64.max) :
    ∃ r, splitSubLevelV2 dbg (some (firstKey splitTable).encode) s level = .ok r ∧
      L0Split splitTable newSstStartId (done ++ [level]) (kept ++ [r.1]) r.2 := by
  have hused := h.parted.room
  obtain ⟨keptSsts, inserted, newSstId', hsplit, hparted, hinserted⟩ :=
    splitOff_parted dbg (.subLevel level.subLevelId) (show s.newSstId.val + _ < _ by omega)
      hwf hsorted
  have hdone : ∀ target ∈ s.targetL0.subLevels, ∃ old ∈ done ++ [level],
      target.subLevelId = old.subLevelId := fun target htarget => by
    obtain ⟨old, hold, heq⟩ := h.ids target htarget
    exact ⟨old, mem_append_left _ hold, heq⟩
  rw [splitSubLevelV2, hsplit, ok_bind]
  dsimp only
  split
  · rename_i hempty
    obtain rfl : inserted = [] := isEmpty_iff.1 hempty
    refine ⟨_, rfl, ?_, hdone, h.nonempty⟩
    rw [l0Placed_concat, l0Placed_concat]
    exact h.parted.prepend hparted
  · rename_i hne
    have htables : ∀ sst ∈ keptSsts, sst.tableIds ≠ [] := fun sst hsst =>
      (hparted.below (_, sst) (mem_map_of_mem hsst)).1.nonempty
    have hv : SstsValid inserted := fun sst hsst =>
      (hparted.above (_, sst) (mem_map_of_mem hsst)).1.valid
    have hnewest : ∀ target ∈ s.targetL0.subLevels, target.subLevelId < level.subLevelId :=
      fun target htarget => by
        obtain ⟨old, hold, heq⟩ := h.ids target htarget
        exact heq ▸ hids old hold
    have hconcat : level.levelType = .nonoverlapping → canConcat inserted = .ok true := fun ht =>
      (hinserted (hsorted (by rw [ht]; decide))).canConcat hv
    obtain ⟨new, total, uncompressed, hins, hid, hssts⟩ := insertIntoTargetL0_newest dbg s.targetL0
      { level with tableInfos := keptSsts } inserted hnewest hmax hconcat
    have hextract : ∀ s' : SubLevelState,
        extractFromSubLevel s' { level with tableInfos := keptSsts } =
        .ok ({ level with tableInfos := keptSsts }, s') := fun s' => extractFromSubLevel_eq htables
    simp only [hextract, ok_bind, hins]
    refine ⟨_, rfl, ?_, fun target htarget => ?_, fun target htarget => ?_⟩
    · rw [l0Placed_concat, l0Placed_concat, l0Placed_concat, hid, hssts]
      exact h.parted.prepend hparted
    · rcases mem_append.1 htarget with htarget | htarget
      · exact hdone target htarget
      · rw [mem_singleton] at htarget
        exact ⟨level, by simp, by rw [htarget, hid]⟩
    · rcases mem_append.1 htarget with htarget | htarget
      · exact h.nonempty target htarget
      · rw [mem_singleton] at htarget
        rw [htarget, hssts]
        simpa using hne

/-! ## The loop over the levels -/

/-- The levels `done`, with what is left of them in `kept` and what moved in the levels of the new
group, `cur` before the split. -/
structure LowerSplit (splitTable : TableId) (newSstStartId : U64) (cur done kept : List Level)
    (s : LevelState) : Prop where
  parted : Parted splitTable (lowerPlaced 0 done) (lowerPlaced 0 kept)
    (lowerPlaced 0 (s.curLevels.take done.length)) newSstStartId.val s.newSstId.val
  length : kept.length = done.length
  rest : s.curLevels.drop done.length = cur.drop done.length

theorem LowerSplit.step (dbg : Bool) {cur done kept : List Level} {s : LevelState}
    (h : LowerSplit splitTable newSstStartId cur done kept s)
    (hroom : newSstStartId.val +
      2 * ((lowerPlaced 0 done).length + level.tableInfos.length) < 2 ^ 64)
    (hwf : ∀ sst ∈ level.tableInfos, sst.WellFormed) (hsorted : SstsSorted level.tableInfos)
    (hlen : done.length < cur.length) (hempty : ∀ level ∈ cur, level.tableInfos = []) :
    ∃ r, splitLevelV2 dbg (some (firstKey splitTable).encode) s (level, done.length) = .ok r ∧
      LowerSplit splitTable newSstStartId cur (done ++ [level]) (kept ++ [r.1]) r.2 := by
  have hused := h.parted.room
  obtain ⟨keptSsts, inserted, newSstId', hsplit, hparted, hinserted⟩ :=
    splitOff_parted dbg (.level (done.length + 1)) (show s.newSstId.val + _ < _ by omega)
      hwf fun _ => hsorted
  -- the level of the new group with this index is still empty
  obtain ⟨target, htarget⟩ : ∃ target, cur[done.length]? = some target :=
    ⟨cur[done.length], getElem?_eq_getElem hlen⟩
  have hat : s.curLevels[done.length]? = some target := by
    rw [← head?_drop, h.rest, head?_drop, htarget]
  have hnil : target.tableInfos = [] := hempty target (mem_of_getElem? htarget)
  have hrest : s.curLevels.drop (done.length + 1) = cur.drop (done.length + 1) := by
    rw [← tail_drop, h.rest, tail_drop]
  have htake : s.curLevels.take (done.length + 1) = s.curLevels.take done.length ++ [target] := by
    rw [take_add_one, hat]
    rfl
  have htakeLen : (s.curLevels.take done.length).length = done.length := by
    have := (List.getElem?_eq_some_iff.1 hat).1
    rw [length_take]
    omega
  rw [splitLevelV2, hsplit, ok_bind]
  dsimp only
  split
  · rename_i hno
    obtain rfl : inserted = [] := isEmpty_iff.1 hno
    refine ⟨_, rfl, ?_, by simp [h.length], by simpa using hrest⟩
    rw [length_append, length_singleton]
    rw [htake, lowerPlaced_append, lowerPlaced_append, lowerPlaced_append, lowerPlaced_singleton,
      lowerPlaced_singleton, lowerPlaced_singleton, h.length, Nat.zero_add, hnil]
    exact h.parted.append hparted
  · have htables : ∀ sst ∈ keptSsts, sst.tableIds ≠ [] := fun sst hsst =>
      (hparted.below (_, sst) (mem_map_of_mem hsst)).1.nonempty
    have hins : ∀ sst ∈ inserted, sst.WellFormed := fun sst hsst =>
      (hparted.above (_, sst) (mem_map_of_mem hsst)).1
    have hextend : levelExtendSorted target inserted
        "can_concat(&cur_levels.levels[idx].table_infos)" = .ok { target with
          tableInfos := inserted
          totalFileSize := target.totalFileSize + sumSstSize inserted
          uncompressedFileSize := target.uncompressedFileSize + sumUncompressed inserted } := by
      rw [levelExtendSorted, hnil, nil_append, sortBy_sorted_ssts hins (hinserted hsorted), ok_bind,
        (hinserted hsorted).canConcat fun sst hsst => (hins sst hsst).valid]
      rfl
    have hextract : extractEmptySsts { level with tableInfos := keptSsts } =
        .ok ({ level with tableInfos := keptSsts }, []) := extractEmptySsts_eq htables
    simp only [moveToLevel, index_eq_ok.2 hat, ok_bind, hextend, hextract]
    refine ⟨_, rfl, ?_, by simp [h.length], ?_⟩
    · rw [length_append, length_singleton]
      rw [take_set, htake, lowerPlaced_append, lowerPlaced_append, lowerPlaced_singleton,
        lowerPlaced_singleton, h.length]
      rw [set_append_right _ _ htakeLen.le, htakeLen, Nat.sub_self, set_cons_zero,
        lowerPlaced_append, lowerPlaced_singleton, htakeLen, Nat.zero_add]
      exact h.parted.append hparted
    · rw [length_append, length_singleton]
      rw [drop_set_of_lt (Nat.lt_succ_self _), hrest]

/-! ## The whole split -/

section
variable {parent cur : Levels}

section
variable (splitTable : TableId) {newSstStartId : U64} (hwf : parent.WellFormed) (hcur : cur.IsEmpty)
include hwf hcur

theorem splitSubLevels_total (dbg : Bool) (sizes : Nat × Nat)
    (hroom : newSstStartId.val + 2 * (l0Placed parent.l0.subLevels).length < 2 ^ 64) :
    ∃ subLevels s, mapAccumM (splitSubLevelV2 dbg (some (firstKey splitTable).encode))
        ⟨sizes, cur.l0, newSstStartId⟩ parent.l0.subLevels = .ok (subLevels, s) ∧
      L0Split splitTable newSstStartId parent.l0.subLevels subLevels s := by
  have hstart : L0Split splitTable newSstStartId [] [] ⟨sizes, cur.l0, newSstStartId⟩ := by
    refine ⟨?_, ?_, ?_⟩ <;> simp only [hcur.subLevels]
    · exact .nil _ _
    · simp
    · simp
  -- the loop invariant: the sub-levels done and left
  let P := fun kept s left => ∃ done, parent.l0.subLevels = done ++ left ∧
    L0Split splitTable newSstStartId done kept s
  have hstep : ∀ kept s level left, P kept s (level :: left) → ∃ r,
      splitSubLevelV2 dbg (some (firstKey splitTable).encode) s level = .ok r ∧
      P (kept ++ [r.1]) r.2 left := by
    rintro kept s level left ⟨done, hdone, h⟩
    have hmem : level ∈ parent.l0.subLevels := by
      rw [hdone]
      simp
    have hids := hwf.subLevelIds
    rw [hdone, pairwise_append] at hids
    have hle := length_l0Placed_le done level left
    rw [← hdone] at hle
    obtain ⟨r, hr, h⟩ := h.step dbg (by omega)
      (fun sst hsst => hwf.ssts (_, sst) (mem_append_left _ (mem_l0Placed hmem hsst)))
      (hwf.subLevels level hmem) (fun older hold => hids.2.2 older hold level (.head _))
      (hwf.notMax level hmem)
    exact ⟨r, hr, done ++ [level], by simp [hdone], h⟩
  obtain ⟨⟨subLevels, s⟩, hrun, done, hdone, h⟩ := mapAccumM_total P hstep ⟨[], rfl, hstart⟩
  rw [append_nil] at hdone
  exact ⟨subLevels, s, hrun, hdone ▸ h⟩

theorem splitLevels_total (dbg : Bool) (hlen : parent.levels.length ≤ cur.levels.length)
    (hroom : newSstStartId.val + 2 * (lowerPlaced 0 parent.levels).length < 2 ^ 64) :
    ∃ levels t, mapAccumM (splitLevelV2 dbg (some (firstKey splitTable).encode))
        ⟨cur.levels, newSstStartId⟩ parent.levels.zipIdx = .ok (levels, t) ∧
      LowerSplit splitTable newSstStartId cur.levels parent.levels levels t := by
  have hstart : LowerSplit splitTable newSstStartId cur.levels [] [] ⟨cur.levels, newSstStartId⟩ :=
    ⟨.nil _ _, rfl, rfl⟩
  -- the loop invariant: the levels done and left
  let P := fun kept s todo => ∃ done left, parent.levels = done ++ left ∧
    todo = left.zipIdx done.length ∧ LowerSplit splitTable newSstStartId cur.levels done kept s
  have hstep : ∀ kept s e todo, P kept s (e :: todo) → ∃ r,
      splitLevelV2 dbg (some (firstKey splitTable).encode) s e = .ok r ∧
        P (kept ++ [r.1]) r.2 todo := by
    rintro kept s e todo ⟨done, left, hdone, htodo, h⟩
    cases left with
    | nil => cases htodo
    | cons level left =>
      cases htodo
      have hmem : level ∈ parent.levels := by
        rw [hdone]
        simp
      have hlt : done.length < cur.levels.length := by
        rw [hdone, length_append, length_cons] at hlen
        omega
      have hssts : ∀ sst ∈ level.tableInfos, sst.WellFormed := fun sst hsst => by
        obtain ⟨slot, hslot⟩ := mem_lowerPlaced hmem hsst
        exact hwf.ssts _ (mem_append_right _ hslot)
      have hle := length_lowerPlaced_le done level left
      rw [← hdone] at hle
      obtain ⟨r, hr, h⟩ := h.step dbg (by omega) hssts (hwf.levels level hmem) hlt hcur.levels
      exact ⟨r, hr, done ++ [level], left, by simp [hdone], by simp, h⟩
  obtain ⟨⟨levels, t⟩, hrun, done, left, hdone, hnil, h⟩ :=
    mapAccumM_total P hstep ⟨[], parent.levels, rfl, rfl, hstart⟩
  obtain rfl : left = [] := zipIdx_eq_nil_iff.1 hnil.symm
  rw [append_nil] at hdone
  exact ⟨levels, t, hrun, hdone ▸ h⟩

/-- **The split of a well-formed group at the first key of a table.** -/
theorem splitGroup_parted (dbg : Bool) (hlen : parent.levels.length ≤ cur.levels.length)
    (hroom : newSstStartId.val + 2 * parent.placed.length < 2 ^ 64) :
    ∃ parent' cur' newSstId', splitGroup (splitSubLevelV2 dbg (some (firstKey splitTable).encode))
        (splitLevelV2 dbg (some (firstKey splitTable).encode)) newSstStartId parent cur =
        .ok (parent', cur') ∧
      Parted splitTable parent.placed parent'.placed cur'.placed newSstStartId.val newSstId' := by
  rw [Levels.placed, length_append] at hroom
  obtain ⟨subLevels, s, hsub, hl0⟩ := splitSubLevels_total splitTable hwf hcur dbg
    (parent.l0.totalFileSize, parent.l0.uncompressedFileSize)
    (show newSstStartId.val + _ < _ by omega)
  have hused := hl0.parted.room
  obtain ⟨levels, t, hlevels, hlower⟩ := splitLevels_total splitTable hwf hcur dbg hlen
    (show s.newSstId.val + _ < _ by omega)
  have hkept : ((subLevels.filter fun level => !level.tableInfos.isEmpty).all
      fun level => !level.tableInfos.isEmpty) = true :=
    all_eq_true.2 fun level hmem => (mem_filter.1 hmem).2
  have htarget : (s.targetL0.subLevels.all fun level => !level.tableInfos.isEmpty) = true :=
    all_eq_true.2 fun level hmem => by simpa using hl0.nonempty level hmem
  have hcurLevels : lowerPlaced 0 t.curLevels =
      lowerPlaced 0 (t.curLevels.take parent.levels.length) := by
    conv_lhs => rw [← take_append_drop parent.levels.length t.curLevels, lowerPlaced_append]
    rw [hlower.rest, lowerPlaced_empty (fun level hmem => hcur.levels level (drop_subset _ _ hmem)),
      append_nil]
  refine ⟨{ parent with
      l0 := ⟨subLevels.filter fun level => !level.tableInfos.isEmpty, s.l0Sizes.1, s.l0Sizes.2⟩
      levels },
    { cur with l0 := s.targetL0, levels := t.curLevels }, t.newSstId.val,
    by simp only [splitGroup, hsub, ok_bind, hlevels, hkept, htarget, assert_true], ?_⟩
  simp only [Levels.placed, l0Placed_filter, hcurLevels]
  exact hl0.parted.append hlower.parted

end

end

end

/-! ## SST ids -/

structure DistinctIds (levels : GroupLevels) : Prop where
  nodup : ∀ (g : CompactionGroupId) lv, levels[g]? = some lv → (sstIds lv.placed).Nodup
  disjoint : ∀ (g g' : CompactionGroupId) lv lv', levels[g]? = some lv → levels[g']? = some lv' →
    g ≠ g' → ∀ id ∈ sstIds lv.placed, id ∉ sstIds lv'.placed

variable {splitTable : TableId} {n n' : Nat}

/-- The ids of the two parts are old or new, and none of them is used twice. -/
theorem Parted.distinct {old kept moved : List Placed}
    (h : Parted splitTable old kept moved n n') (hnodup : (sstIds old).Nodup)
    (hfresh : ∀ id ∈ sstIds old, id < n) :
    (sstIds kept).Nodup ∧ (sstIds moved).Nodup ∧ (∀ id ∈ sstIds kept, id ∉ sstIds moved) ∧
      ∀ id, id ∈ sstIds kept ∨ id ∈ sstIds moved → id ∈ sstIds old ∨ n ≤ id := by
  have hall : (sstIds old + Multiset.Ico n n').Nodup := by
    refine Multiset.nodup_add.2 ⟨hnodup, Multiset.nodup_Ico, ?_⟩
    refine Multiset.disjoint_left.2 fun {id} hid hico => ?_
    have := hfresh id hid
    rw [Multiset.mem_Ico] at hico
    omega
  obtain ⟨hkept, hmoved, hdisj⟩ := Multiset.nodup_add.1 (Multiset.nodup_of_le h.ids hall)
  refine ⟨hkept, hmoved, fun id hid => Multiset.disjoint_left.1 hdisj hid, fun id hid => ?_⟩
  have hmem : id ∈ sstIds old + Multiset.Ico n n' :=
    Multiset.mem_of_le h.ids (Multiset.mem_add.2 hid)
  rcases Multiset.mem_add.1 hmem with hmem | hmem
  · exact .inl hmem
  · exact .inr (Multiset.mem_Ico.1 hmem).1

theorem DistinctIds.split {levels : GroupLevels} {parentGroupId groupId : CompactionGroupId}
    {parent parent' cur' : Levels} (h : DistinctIds levels)
    (hparent : levels[parentGroupId]? = some parent)
    (hfresh : ∀ (g : CompactionGroupId) lv, levels[g]? = some lv → ∀ id ∈ sstIds lv.placed, id < n)
    (hparted : Parted splitTable parent.placed parent'.placed cur'.placed n n') :
    DistinctIds ((levels.insert parentGroupId parent').insert groupId cur') := by
  obtain ⟨hkept, hmoved, hdisj, hold⟩ := hparted.distinct (h.nodup _ _ hparent) (hfresh _ _ hparent)
  -- an id of one of the parts is not in another group
  have hother : ∀ g lv, levels[g]? = some lv → g ≠ parentGroupId →
      ∀ id, id ∈ sstIds parent'.placed ∨ id ∈ sstIds cur'.placed → id ∉ sstIds lv.placed := by
    intro g lv hlv hg id hid hmem
    rcases hold id hid with hid | hid
    · exact h.disjoint parentGroupId g parent lv hparent hlv (Ne.symm hg) id hid hmem
    · have := hfresh g lv hlv id hmem
      omega
  have hlookup : ∀ g lv,
      ((levels.insert parentGroupId parent').insert groupId cur')[g]? = some lv →
      g = groupId ∧ lv = cur' ∨ g = parentGroupId ∧ lv = parent' ∨ g ≠ parentGroupId ∧
      levels[g]? = some lv := by
    intro g lv hlv
    simp only [HashMap.getElem?_insert_eq] at hlv
    split at hlv
    · rename_i hg
      cases hlv
      exact .inl ⟨hg.symm, rfl⟩
    split at hlv
    · rename_i hg
      cases hlv
      exact .inr (.inl ⟨hg.symm, rfl⟩)
    · rename_i hg
      exact .inr (.inr ⟨Ne.symm hg, hlv⟩)
  refine ⟨fun g lv hlv => ?_, fun g g' lv lv' hlv hlv' hne id hid hid' => ?_⟩
  · rcases hlookup g lv hlv with ⟨-, rfl⟩ | ⟨-, rfl⟩ | ⟨-, hlv⟩
    · exact hmoved
    · exact hkept
    · exact h.nodup g lv hlv
  · rcases hlookup g lv hlv with ⟨rfl, rfl⟩ | ⟨rfl, rfl⟩ | ⟨hg, hg1⟩ <;>
      rcases hlookup g' lv' hlv' with ⟨rfl, rfl⟩ | ⟨rfl, rfl⟩ | ⟨hg', hg2⟩
    · exact hne rfl
    · exact hdisj id hid' hid
    · exact hother g' lv' hg2 hg' id (.inr hid) hid'
    · exact hdisj id hid hid'
    · exact hne rfl
    · exact hother g' lv' hg2 hg' id (.inl hid) hid'
    · exact hother g lv hg1 hg id (.inr hid') hid
    · exact hother g lv hg1 hg id (.inl hid') hid
    · exact h.disjoint g g' lv lv' hg1 hg2 hne id hid hid'

/-- **Splitting a group at the first key of a table is a lossless partition.** -/
theorem initWithParentGroupV2_partition {dbg : Bool} {levels : GroupLevels}
    {parentGroupId groupId : CompactionGroupId} {newSstStartId : U64} {tableId : TableId}
    {vnode : VirtualNode} {splitKey : Bytes} {parent cur : Levels}
    (hkey : buildSplitKey dbg tableId vnode = .ok splitKey)
    (hvnode : vnode = VirtualNode.zero ∨ vnode = VirtualNode.maxRepresentable)
    (hnew : parentGroupId ≠ newCompactionGroup) (hne : parentGroupId ≠ groupId)
    (hparent : levels[parentGroupId]? = some parent) (hwf : parent.WellFormed)
    (hcur : levels[groupId]? = some cur) (hempty : cur.IsEmpty)
    (hlen : parent.levels.length ≤ cur.levels.length) (hids : DistinctIds levels)
    (hfresh : ∀ (g : CompactionGroupId) lv, levels[g]? = some lv →
      ∀ id ∈ sstIds lv.placed, id < newSstStartId.val)
    (hroom : newSstStartId.val + 2 * parent.placed.length < 2 ^ 64) :
    ∃ splitTable parent' cur', splitKey = (firstKey splitTable).encode ∧
      initWithParentGroupV2 dbg (some splitKey) levels parentGroupId groupId newSstStartId =
        .ok ((levels.insert parentGroupId parent').insert groupId cur') ∧
      (∀ t, t < splitTable → parent'.history t = parent.history t ∧ cur'.history t = []) ∧
      (∀ t, splitTable ≤ t → parent'.history t = [] ∧ cur'.history t = parent.history t) ∧
      (∀ p ∈ parent'.placed, ∀ k, p.2.keyRange.Covers k → k < firstKey splitTable) ∧
      (∀ p ∈ cur'.placed, ∀ k, p.2.keyRange.Covers k → firstKey splitTable ≤ k) ∧
      DistinctIds ((levels.insert parentGroupId parent').insert groupId cur') := by
  obtain ⟨splitTable, rfl⟩ := buildSplitKey_firstKey hvnode hkey
  obtain ⟨parent', cur', newSstId', hsplit, hparted⟩ :=
    splitGroup_parted splitTable hwf hempty dbg hlen hroom
  refine ⟨splitTable, parent', cur', rfl, ?_, fun t ht => ?_, fun t ht => ?_, fun p hp k hk => ?_,
    fun p hp k hk => ?_, hids.split hparent hfresh hparted⟩
  · simp only [initWithParentGroupV2, initFromParent, if_neg hnew, hparent, hcur, if_neg hne,
      hsplit, ok_bind]
  · exact ⟨(hparted.keptObjects t).trans (if_pos ht), (hparted.movedObjects t).trans (if_pos ht)⟩
  · rw [← not_lt] at ht
    exact ⟨(hparted.keptObjects t).trans (if_neg ht), (hparted.movedObjects t).trans (if_neg ht)⟩
  · exact hk.lt (hparted.below p hp).2
  · exact (hparted.above p hp).2.trans hk.1

/-- A group with one SST, of the tables 4 and 5, is split at table 5. -/
theorem initWithParentGroupV2_partition_one : let key (t : TableId) : FullKey := ⟨⟨t, [0, 0]⟩, 0⟩
    let sst : SstableInfo := ⟨1, 1, ⟨(key 4).encode, (key 5).encode, false⟩, [4, 5], 100, 100⟩
    let parent := { buildInitialCompactionGroupLevels 2 ⟨1⟩ with
      levels := [⟨1, .nonoverlapping, [sst], 100, 0, 100, 0⟩] }
    let levels :=
      ((∅ : GroupLevels).insert 2 parent).insert 7 (buildInitialCompactionGroupLevels 7 ⟨1⟩)
    ∃ parent' cur', initWithParentGroupV2 true (some (firstKey 5).encode) levels 2 7 10 =
        .ok ((levels.insert 2 parent').insert 7 cur') ∧
      (parent'.history 4 = [(.level 1, 1)] ∧ cur'.history 4 = []) ∧
      parent'.history 5 = [] ∧ cur'.history 5 = [(.level 1, 1)] := by
  intro key sst parent levels
  have hhi : sst.keyRange.hi = key 5 := fullKeyOf_encode _
  have hsst : sst.WellFormed := by
    refine ⟨valid_mk (by decide +kernel), by decide, by decide, fun t ht => ?_, nofun⟩
    have ht : t = 4 ∨ t = 5 := by simpa [sst] using ht
    refine ⟨key t, rfl, le_rfl, ?_⟩
    rw [Covers, hhi]
    rcases ht with rfl | rfl
    · decide +kernel
    · decide +kernel
  have hplaced : parent.placed = [(.level 1, sst)] := rfl
  have hwf : parent.WellFormed := by
    refine ⟨?_, .nil, by simp [parent, buildInitialCompactionGroupLevels],
      by simp [parent, buildInitialCompactionGroupLevels], ?_⟩
    · rw [hplaced]
      simpa using hsst
    · simp [parent, SstsSorted]
  have hcur : (buildInitialCompactionGroupLevels 7 ⟨1⟩).IsEmpty :=
    ⟨rfl, by simp [buildInitialCompactionGroupLevels]⟩
  have hlookup : ∀ g lv, levels[g]? = some lv → sstIds lv.placed = if g = 2 then {1} else 0 := by
    intro g lv hlv
    simp only [levels, HashMap.getElem?_insert_eq] at hlv
    split_ifs at hlv with h7 h2
    · cases h7; cases hlv; rfl
    · cases h2; cases hlv; rfl
    · simp at hlv
  have hids : DistinctIds levels := by
    refine ⟨fun g lv hlv => ?_, fun g g' lv lv' hlv hlv' hne id hid hid' => ?_⟩
    · rw [hlookup g lv hlv]
      split <;> simp
    · rw [hlookup g lv hlv] at hid
      rw [hlookup g' lv' hlv'] at hid'
      split_ifs at hid hid' <;> simp_all
  have hfresh : ∀ (g : CompactionGroupId) lv, levels[g]? = some lv → ∀ id ∈ sstIds lv.placed,
      id < 10 := by
    intro g lv hlv id hid
    rw [hlookup g lv hlv] at hid
    split at hid <;> simp at hid
    omega
  obtain ⟨splitTable, parent', cur', hkey, hrun, hlow, hhigh, -⟩ :=
    @initWithParentGroupV2_partition true levels 2 7 10 5 VirtualNode.zero (firstKey 5).encode parent
      (buildInitialCompactionGroupLevels 7 ⟨1⟩) (by decide +kernel) (.inl rfl) (by decide) (by decide)
      (by decide +kernel) hwf (by decide +kernel) hcur (by decide) hids hfresh (by decide +kernel)
  rw [FullKey.encode_inj] at hkey
  cases hkey
  refine ⟨parent', cur', hrun, ?_, ?_⟩
  · have h4 := hlow 4 (by decide)
    exact h4
  · exact hhigh 5 le_rfl

/-- What the split of a group can meet without the conditions above. Split at vnode 1 of a table it
panics; so it does where an SST ends exclusively inside a table, next to an SST of that table, and
where the new group has fewer levels, and where the new SST ids go beyond the last one. A start id
in use is given out a second time. -/
theorem initWithParentGroupV2_not_partition :
    let key (t : TableId) (e : EpochWithGap) : FullKey := ⟨⟨t, [0, 0]⟩, e⟩
    let sst (id : Nat) (l r : FullKey) (excl : Bool) (tables : List TableId) : SstableInfo :=
      ⟨id, id, ⟨l.encode, r.encode, excl⟩, tables, 100, 100⟩
    let group (ssts : List SstableInfo) := { buildInitialCompactionGroupLevels 2 ⟨1⟩ with
      levels := [⟨1, .nonoverlapping, ssts, 100 * ssts.length, 0, 100 * ssts.length, 0⟩] }
    let split (ssts : List SstableInfo) (maxLevel : Nat) (start : U64) (vnode : VirtualNode) := do
      initWithParentGroupV2 true (some (← buildSplitKey true 5 vnode))
        (((∅ : GroupLevels).insert 2 (group ssts)).insert 7
          (buildInitialCompactionGroupLevels 7 ⟨maxLevel⟩)) 2 7 start
    let across := sst 1 (key 4 0) ⟨⟨5, [0, 2]⟩, 0⟩ false [4, 5]
    let ids (lv : Levels) : List Nat := lv.placed.map fun p => p.2.sstId
    split [across] 1 10 1 = .error (.assert "VirtualNode::ZERO == vnode") ∧
    split [sst 1 (key 4 0) (key 5 0) true [4, 5], sst 2 (key 5 U64.max) (key 5 U64.max) false [5]]
      1 10 0 = .error (.assert "can_concat(&cur_levels.levels[idx].table_infos)") ∧
    split [across] 0 10 0 = .error .index ∧ split [across] 1 U64.max 0 = .error .overflow ∧
    (do let levels : GroupLevels ← split [across, sst 11 (key 6 0) (key 6 0) false [6]] 1 10 0
        .ok (levels[2]?.map ids, levels[7]?.map ids)) = .ok (some [11], some [10, 11]) := by
  decide +kernel

end Hummock
