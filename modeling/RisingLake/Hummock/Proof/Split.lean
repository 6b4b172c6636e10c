import RisingLake.Hummock.Proof.KeyRange
import RisingLake.Hummock.Version

/-!
# What a split of SSTs does

`needToSplit_ok` says how the split key lies to an SST, `splitSst_both` what becomes of an SST
across it, and `splitSorted_ok` how a non-overlapping level falls apart.
-/

namespace Hummock

open Res

theorem compareEncodedFullKey_swap {a b : Bytes} {o : Ordering}
    (h : compareEncodedFullKey a b = .ok o) : compareEncodedFullKey b a = .ok o.swap := by
  obtain ⟨⟨ap, as⟩, ha, h⟩ := bind_eq_ok.1 h
  obtain ⟨⟨bp, bs⟩, hb, h⟩ := bind_eq_ok.1 h
  cases h
  simp only [compareEncodedFullKey, hb, ha, ok_bind, Ordering.swap_then, cmp_swap]

variable {dbg : Bool} {newSstId : U64}

namespace GroupSplit

section
variable {sst : SstableInfo} {splitKey : Bytes}

theorem needToSplit_ok {t : SstSplitType} (h : needToSplit sst splitKey = .ok t) :
    ∃ cmpLeft, compareEncodedFullKey splitKey sst.keyRange.left = .ok cmpLeft ∧
      (t = .right ∧ cmpLeft ≠ .gt ∨ cmpLeft = .gt ∧
        ∃ cmpRight, compareEncodedFullKey splitKey sst.keyRange.right = .ok cmpRight ∧
          (aboveRange sst.keyRange cmpRight = true ∧ t = .left ∨
            aboveRange sst.keyRange cmpRight = false ∧ t = .both)) := by
  obtain ⟨cmpLeft, hleft, h⟩ := bind_eq_ok.1 h
  refine ⟨cmpLeft, hleft, ?_⟩
  split at h
  · rename_i hle
    cases h
    refine .inl ⟨rfl, ?_⟩
    rintro rfl
    cases hle
  · have hgt : cmpLeft = .gt := by cases cmpLeft <;> simp_all
    obtain ⟨cmpRight, hright, h⟩ := bind_eq_ok.1 h
    refine .inr ⟨hgt, cmpRight, hright, ?_⟩
    split at h
    · rename_i habove
      cases h
      exact .inl ⟨habove, rfl⟩
    · rename_i habove
      cases h
      exact .inr ⟨by simpa using habove, rfl⟩

theorem needToSplit_eq (h : sst.keyRange.Valid) (key : FullKey) :
    needToSplit sst key.encode = .ok (if key ≤ sst.keyRange.lo then .right
      else if sst.keyRange.endsBefore key then .left else .both) := by
  have hleft : compareEncodedFullKey key.encode sst.keyRange.left =
      .ok (cmp key sst.keyRange.lo) := by
    rw [h.left, compareEncodedFullKey_eq]
  have hright : compareEncodedFullKey key.encode sst.keyRange.right =
      .ok (cmp key sst.keyRange.hi) := by
    rw [h.right, compareEncodedFullKey_eq]
  have hle : (cmp key sst.keyRange.lo).isLE = true ↔ key ≤ sst.keyRange.lo := by
    rcases lt_trichotomy key sst.keyRange.lo with h | h | h
    · simp [(cmp_eq_lt_iff _ _).2 h, h.le]
    · simp [h]
    · simp [(cmp_eq_gt_iff _ _).2 h, h]
  have habove : aboveRange sst.keyRange (cmp key sst.keyRange.hi) =
      sst.keyRange.endsBefore key := by
    unfold aboveRange KeyRange.endsBefore
    rcases lt_trichotomy key sst.keyRange.hi with h | h | h
    · simp [(cmp_eq_lt_iff _ _).2 h, h, h.not_gt]
    · simp [h]
    · simp [(cmp_eq_gt_iff _ _).2 h, h, h.le]
  rw [needToSplit, hleft, ok_bind, hright, ok_bind]
  simp only [hle, habove]
  split
  · rfl
  · split <;> rfl

variable {key : FullKey}

theorem needToSplit_both (h : sst.keyRange.Valid)
    (hneed : needToSplit sst key.encode = .ok .both) :
    sst.keyRange.lo < key ∧ key ≤ sst.keyRange.hi := by
  rw [needToSplit_eq h] at hneed
  split at hneed
  · cases hneed
  · rename_i hlo
    refine ⟨not_le.1 hlo, KeyRange.le_of_not_endsBefore ?_⟩
    cases hends : sst.keyRange.endsBefore key with
    | false => rfl
    | true => simp [hends] at hneed

theorem splitTableIds_decode {tableIds tablesL tablesR : List TableId}
    (h : splitTableIdsWithSplitKey dbg tableIds splitKey = .ok (tablesL, tablesR)) :
    ∃ key : FullKey, splitKey = key.encode := by
  obtain ⟨_, -, h⟩ := bind_eq_ok.1 h
  obtain ⟨key, hkey, -⟩ := bind_eq_ok.1 h
  exact ⟨key, FullKey.decode_eq_ok.1 hkey⟩

variable {ssts : List SstableInfo}

theorem getSplitPos_eq (hv : SstsValid ssts)
    (hs : ssts.Pairwise fun a b => a.keyRange.lo ≤ b.keyRange.lo) (key : FullKey) :
    getSplitPos ssts key.encode = .ok (ssts.countP (fun sst => sst.keyRange.lo < key) - 1) := by
  have hpoint : Slice.partitionPoint (fun sst : SstableInfo => do
      .ok ((← compareEncodedFullKey sst.keyRange.left key.encode).isLT)) ssts =
      .ok (ssts.countP fun sst => sst.keyRange.lo < key) := by
    refine Slice.partitionPoint_eq (Slice.partitionedAt_of_pairwise (fun sst hsst => ?_)
      (hs.imp fun hle hlt => ?_))
    · rw [(hv sst hsst).left, compareEncodedFullKey_eq]
      rcases lt_trichotomy sst.keyRange.lo key with h | h | h
      · simp [h]
      · simp [h]
      · simp [(cmp_eq_gt_iff _ _).2 h, h.not_gt]
    · rw [decide_eq_true_eq] at hlt ⊢
      exact hle.trans_lt hlt
  rw [getSplitPos, hpoint, ok_bind]

def leftPart (origin : SstableInfo) (sstId : Nat) (splitKey : Bytes) (size : Nat)
    (tableIds : List TableId) : SstableInfo :=
  { origin with
    sstId
    keyRange := { left := origin.keyRange.left, right := splitKey, rightExclusive := true }
    sstSize := size
    tableIds }

def rightPart (origin : SstableInfo) (sstId : Nat) (splitKey : Bytes) (size : Nat)
    (tableIds : List TableId) : SstableInfo :=
  { origin with
    sstId
    keyRange := { left := splitKey, right := origin.keyRange.right
                  rightExclusive := origin.keyRange.rightExclusive }
    sstSize := size
    tableIds }

theorem leftPart_valid (h : sst.keyRange.Valid) (hlo : sst.keyRange.lo < key)
    (sstId size : Nat) (tableIds : List TableId) :
    (leftPart sst sstId key.encode size tableIds).keyRange.Valid := by
  rw [leftPart, h.left]
  exact KeyRange.valid_mk hlo.le

theorem rightPart_valid (h : sst.keyRange.Valid) (hhi : key ≤ sst.keyRange.hi)
    (sstId size : Nat) (tableIds : List TableId) :
    (rightPart sst sstId key.encode size tableIds).keyRange.Valid := by
  rw [rightPart, h.right]
  exact KeyRange.valid_mk hhi

theorem rightPart_lo (key : FullKey) (sstId size : Nat) (tableIds : List TableId) :
    (rightPart sst sstId key.encode size tableIds).keyRange.lo = key := fullKeyOf_encode key

variable {newSstId' : U64} {leftSize rightSize : Nat}

theorem splitSst_both
    {parts : Option SstableInfo × Option SstableInfo} (hneed : needToSplit sst splitKey = .ok .both)
    (h : splitSst dbg sst newSstId splitKey leftSize rightSize = .ok (parts, newSstId')) :
    ∃ (leftId : U64) (tablesL tablesR : List TableId),
      splitTableIdsWithSplitKey dbg sst.tableIds splitKey = .ok (tablesL, tablesR) ∧
      parts = (if tablesL = [] then none
          else some (leftPart sst leftId.val splitKey leftSize tablesL),
        if tablesL ≠ [] ∧ tablesR = [] then none
        else some (rightPart sst newSstId.val splitKey rightSize tablesR)) := by
  obtain ⟨leftId, -, h⟩ := bind_eq_ok.1 h
  obtain ⟨nextId, -, h⟩ := bind_eq_ok.1 h
  obtain ⟨⟨tablesL, tablesR⟩, htables, h⟩ := bind_eq_ok.1 h
  refine ⟨leftId, tablesL, tablesR, htables, ?_⟩
  obtain ⟨cmpLeft, hcmp, hcases⟩ := needToSplit_ok hneed
  have hgt : cmpLeft = .gt := by
    rcases hcases with ⟨h, -⟩ | ⟨h, -⟩
    · cases h
    · exact h
  subst hgt
  dsimp only at h
  split at h
  · rename_i hL
    cases h
    rw [List.isEmpty_iff] at hL
    subst hL
    rfl
  · rename_i hL
    have hL : tablesL ≠ [] := by simpa using hL
    split at h
    · rename_i hR
      cases h
      rw [List.isEmpty_iff] at hR
      subst hR
      rw [if_neg hL, if_pos ⟨hL, rfl⟩]
      rfl
    · rename_i hR
      have hR : tablesR ≠ [] := by simpa using hR
      obtain ⟨c, hc, h⟩ := bind_eq_ok.1 h
      -- the split key is above the left key
      rw [compareEncodedFullKey_swap hcmp] at hc
      cases hc
      cases h
      rw [if_neg hL, if_neg fun h => hR h.2]
      rfl

theorem splitSst_parts (hv : sst.keyRange.Valid)
    {left right : Option SstableInfo} (hneed : needToSplit sst splitKey = .ok .both)
    (h : splitSst dbg sst newSstId splitKey leftSize rightSize = .ok ((left, right), newSstId')) :
    ∃ key leftId rightId tablesL tablesR, splitKey = FullKey.encode key ∧
      sst.keyRange.lo < key ∧ key ≤ sst.keyRange.hi ∧
      left.toList.Sublist [leftPart sst leftId splitKey leftSize tablesL] ∧
      right.toList.Sublist [rightPart sst rightId splitKey rightSize tablesR] := by
  obtain ⟨leftId, tablesL, tablesR, htables, hparts⟩ := splitSst_both hneed h
  obtain ⟨key, rfl⟩ := splitTableIds_decode htables
  obtain ⟨hlo, hhi⟩ := needToSplit_both hv hneed
  obtain ⟨rfl, rfl⟩ := Prod.mk.inj hparts
  refine ⟨key, leftId.val, newSstId.val, tablesL, tablesR, rfl, hlo, hhi, ?_, ?_⟩
  · split <;> simp
  · split <;> simp

theorem splitSorted_ok {kept inserted : List SstableInfo}
    (h : splitSorted dbg splitKey newSstId ssts = .ok (kept, inserted, newSstId')) :
    ∃ pos, getSplitPos ssts splitKey = .ok pos ∧
      (ssts[pos]? = none ∧ kept = ssts ∧ inserted = [] ∧ newSstId' = newSstId ∨ ∃ sst,
        ssts[pos]? = some sst ∧
          (needToSplit sst splitKey = .ok .left ∧ kept = ssts.take (pos + 1) ∧
              inserted = ssts.drop (pos + 1) ∧ newSstId' = newSstId ∨
            needToSplit sst splitKey = .ok .right ∧ pos = 0 ∧ kept = [] ∧ inserted = ssts ∧
              newSstId' = newSstId ∨
            needToSplit sst splitKey = .ok .both ∧ ∃ left right,
              splitSst dbg sst newSstId splitKey (sst.sstSize / 2) (sst.sstSize / 2) =
                .ok ((left, right), newSstId') ∧
              kept = ssts.take pos ++ left.toList ∧
              inserted = right.toList ++ ssts.drop (pos + 1))) := by
  obtain ⟨pos, hpos, h⟩ := bind_eq_ok.1 h
  refine ⟨pos, hpos, ?_⟩
  split at h
  · rename_i hnone
    cases h
    exact .inl ⟨hnone, rfl, rfl, rfl⟩
  rename_i sst hsst
  refine .inr ⟨sst, hsst, ?_⟩
  obtain ⟨t, ht, h⟩ := bind_eq_ok.1 h
  cases t with
  | left =>
    cases h
    exact .inl ⟨ht, rfl, rfl, rfl⟩
  | right =>
    obtain ⟨_, hzero, h⟩ := bind_eq_ok.1 h
    rw [assert_eq_ok, beq_iff_eq] at hzero
    subst hzero
    cases h
    exact .inr (.inl ⟨ht, rfl, rfl, by simp, rfl⟩)
  | both =>
    obtain ⟨⟨⟨left, right⟩, newSstId1⟩, hsplit, h⟩ := bind_eq_ok.1 h
    cases h
    exact .inr (.inr ⟨ht, left, right, hsplit, rfl, rfl⟩)

theorem splitSstInfos_keyRange {memberTableIds : List TableId} :
    ∀ {newSstId newSstId' : U64} {ssts kept inserted : List SstableInfo},
      splitSstInfos dbg memberTableIds newSstId ssts = .ok (kept, inserted, newSstId') →
        kept.map (·.keyRange) = ssts.map (·.keyRange) ∧
          (inserted.map (·.keyRange)).Sublist (ssts.map (·.keyRange))
  | _, _, [], _, _, h => by
    cases h
    exact ⟨rfl, .slnil⟩
  | newSstId, _, sst :: ssts, _, _, h => by
    rw [splitSstInfos] at h
    split at h
    · obtain ⟨⟨⟨modified, branch⟩, _⟩, hsplit, h⟩ := bind_eq_ok.1 h
      obtain ⟨⟨kept, inserted, _⟩, hrest, h⟩ := bind_eq_ok.1 h
      cases h
      obtain ⟨_, -, hsplit⟩ := bind_eq_ok.1 hsplit
      obtain ⟨_, -, hsplit⟩ := bind_eq_ok.1 hsplit
      cases hsplit
      exact (splitSstInfos_keyRange hrest).imp (congrArg (sst.keyRange :: ·)) (.cons_cons _)
    · obtain ⟨⟨kept, inserted, _⟩, hrest, h⟩ := bind_eq_ok.1 h
      cases h
      exact (splitSstInfos_keyRange hrest).imp (congrArg (sst.keyRange :: ·)) (.cons _)

end

end GroupSplit

variable {level level' : Level}

theorem extractEmptySsts_ok {extracted : List SstableInfo}
    (h : extractEmptySsts level = .ok (level', extracted)) :
    ∃ total uncompressed, level' = { level with
      tableInfos := level.tableInfos.filter fun sst => !sst.tableIds.isEmpty
      totalFileSize := total
      uncompressedFileSize := uncompressed } := by
  obtain ⟨sizes, -, h⟩ := bind_eq_ok.1 h
  cases h
  exact ⟨_, _, rfl⟩

theorem extractFromSubLevel_ok {s s' : SubLevelState}
    (h : extractFromSubLevel s level = .ok (level', s')) :
    s'.targetL0 = s.targetL0 ∧ s'.newSstId = s.newSstId ∧ ∃ total uncompressed,
      level' = { level with
      tableInfos := level.tableInfos.filter fun sst => !sst.tableIds.isEmpty
      totalFileSize := total
      uncompressedFileSize := uncompressed } := by
  obtain ⟨⟨level1, extracted⟩, hextract, h⟩ := bind_eq_ok.1 h
  obtain ⟨sizes, -, h⟩ := bind_eq_ok.1 h
  cases h
  exact ⟨rfl, rfl, extractEmptySsts_ok hextract⟩

theorem splitGroup_ok {f : SubLevelState → Level → Res (Level × SubLevelState)}
    {g : LevelState → Level × Nat → Res (Level × LevelState)} {parent cur parent' cur' : Levels}
    (h : splitGroup f g newSstId parent cur = .ok (parent', cur')) : ∃ subLevels s levels t,
      mapAccumM f ⟨(parent.l0.totalFileSize, parent.l0.uncompressedFileSize), cur.l0, newSstId⟩
        parent.l0.subLevels = .ok (subLevels, s) ∧
      mapAccumM g ⟨cur.levels, s.newSstId⟩ parent.levels.zipIdx = .ok (levels, t) ∧
      (∀ level ∈ s.targetL0.subLevels, level.tableInfos ≠ []) ∧
      parent' = { parent with
        l0 := ⟨subLevels.filter fun level => !level.tableInfos.isEmpty, s.l0Sizes.1, s.l0Sizes.2⟩
        levels } ∧
      cur' = { cur with l0 := s.targetL0, levels := t.curLevels } := by
  obtain ⟨⟨subLevels, s⟩, hsub, h⟩ := bind_eq_ok.1 h
  obtain ⟨⟨levels, t⟩, hlevels, h⟩ := bind_eq_ok.1 h
  obtain ⟨_, -, h⟩ := bind_eq_ok.1 h
  obtain ⟨_, hne, h⟩ := bind_eq_ok.1 h
  cases h
  refine ⟨subLevels, s, levels, t, hsub, hlevels, fun level hmem => ?_, rfl, rfl⟩
  rw [assert_eq_ok, List.all_eq_true] at hne
  simpa using hne level hmem

end Hummock
