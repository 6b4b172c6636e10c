import RisingLake.Hummock.Proof.Version

/-!
# Invariants of the compaction groups

A step changes the levels of the groups by the group deltas of its version delta, one after the
other. `LevelsInv` lists what an invariant of a group's levels has to be closed under;
`LevelsInv.run` is the induction over the group deltas of a step and the steps of a run. The
invariant comes in two strengths: from a compaction of L0 to the end of the group's deltas, when
`post_apply_l0_compact` runs, the group only has the weak one.

`Q` says what is known of a group delta and of the state in which it is applied; `executed` lists
the group deltas of a step with these states.
-/

namespace Hummock

open Res HummockVersion HashMap

/-! ## Inversion -/

def GroupConstruct.split (c : GroupConstruct) (dbg : Bool) (info : HummockVersionStateTableInfo)
    (groupId : CompactionGroupId) : Levels → Levels → Res (Levels × Levels) :=
  if splitGroupByTableId ≤ c.version then
    splitGroup (splitSubLevelV2 dbg c.splitKey) (splitLevelV2 dbg c.splitKey) c.newSstStartId
  else splitGroup (splitSubLevel dbg (c.memberTables info groupId))
    (splitLevel dbg (c.memberTables info groupId)) c.newSstStartId

section
variable {dbg : Bool} {info : HummockVersionStateTableInfo} {levels levels' : GroupLevels}
  {groupId : CompactionGroupId}

theorem initFromParent_ok {parentGroupId : CompactionGroupId} {newSstStartId : U64} {msg : String}
    {split : Levels → Levels → Res (Levels × Levels)}
    (h : initFromParent dbg levels parentGroupId groupId newSstStartId msg split = .ok levels') :
    parentGroupId = newCompactionGroup ∧ levels' = levels ∨
      parentGroupId ≠ newCompactionGroup ∧ parentGroupId ≠ groupId ∧ ∃ parent cur parent' cur',
        levels[parentGroupId]? = some parent ∧ levels[groupId]? = some cur ∧
        split parent cur = .ok (parent', cur') ∧
        levels' = (levels.insert parentGroupId parent').insert groupId cur' := by
  unfold initFromParent at h
  split at h
  · rename_i hnew
    split at h
    · cases h
    · cases h
      exact .inl ⟨hnew, rfl⟩
  · rename_i hnew
    split at h
    · cases h
    · cases h
    rename_i parent cur hparent hcur
    split at h
    · cases h
    · rename_i hne
      obtain ⟨⟨parent', cur'⟩, hsplit, h⟩ := bind_eq_ok.1 h
      cases h
      exact .inr ⟨hnew, hne, parent, cur, parent', cur', hparent, hcur, hsplit, rfl⟩

theorem constructGroup_eq (dbg : Bool) (info : HummockVersionStateTableInfo) (levels : GroupLevels)
    (groupId : CompactionGroupId) (c : GroupConstruct) :
    ∃ msg, constructGroup dbg info levels groupId c =
      (unwrap c.groupConfig "group_config" >>= fun config =>
        initFromParent dbg (levels.insert groupId (c.newLevels groupId config)) c.parentGroupId groupId
          c.newSstStartId msg (c.split dbg info groupId)) := by
  unfold constructGroup GroupConstruct.split
  by_cases hv : splitGroupByTableId ≤ c.version
  · simp only [if_pos hv]
    exact ⟨_, rfl⟩
  · simp only [if_neg hv]
    exact ⟨_, rfl⟩

theorem constructGroup_ok {c : GroupConstruct}
    (h : constructGroup dbg info levels groupId c = .ok levels') :
    ∃ config, c.groupConfig = some config ∧
      (c.parentGroupId = newCompactionGroup ∧
      levels' = levels.insert groupId (c.newLevels groupId config) ∨
        c.parentGroupId ≠ newCompactionGroup ∧ c.parentGroupId ≠ groupId ∧ ∃ parent parent' cur',
          levels[c.parentGroupId]? = some parent ∧
          c.split dbg info groupId parent (c.newLevels groupId config) = .ok (parent', cur') ∧
          levels' = ((levels.insert groupId (c.newLevels groupId config)).insert c.parentGroupId
            parent').insert groupId cur') := by
  obtain ⟨msg, heq⟩ := constructGroup_eq dbg info levels groupId c
  rw [heq] at h
  obtain ⟨config, hconfig, h⟩ := bind_eq_ok.1 h
  refine ⟨config, unwrap_eq_ok.1 hconfig, ?_⟩
  rcases initFromParent_ok h with ⟨hnew, rfl⟩ | ⟨hnew, hne, parent, cur, parent', cur', hparent,
    hcur, hsplit, rfl⟩
  · exact .inl ⟨hnew, rfl⟩
  · rw [getElem?_insert_eq, if_neg (Ne.symm hne)] at hparent
    rw [getElem?_insert_eq, if_pos rfl] at hcur
    cases hcur
    exact .inr ⟨hnew, hne, parent, parent', cur', hparent, hsplit, rfl⟩

theorem mergeCompactionGroup_ok {leftGroupId rightGroupId : CompactionGroupId}
    (h : mergeCompactionGroup dbg info levels leftGroupId rightGroupId = .ok levels') :
    leftGroupId ≠ rightGroupId ∧ ∃ left right merged,
      levels[leftGroupId]? = some left ∧ levels[rightGroupId]? = some right ∧
      GroupSplit.mergeLevels dbg left right = .ok merged ∧
      levels' = (levels.erase rightGroupId).insert leftGroupId merged := by
  obtain ⟨_, -, h⟩ := bind_eq_ok.1 h
  split at h
  · cases h
  rename_i right hright
  dsimp only at h
  split at h
  · cases h
  rename_i left hleft
  obtain ⟨merged, hmerge, h⟩ := bind_eq_ok.1 h
  cases h
  rw [getElem?_erase_eq] at hleft
  split at hleft
  · cases hleft
  · rename_i hne
    exact ⟨Ne.symm hne, left, right, merged, hleft, hright, hmerge, rfl⟩

end

/-! ## The rule -/

/-- The group deltas that a step applies, each with the state before it. -/
def HummockVersion.executed (dbg : Bool) (v : HummockVersion) (delta : HummockVersionDelta) :
    List (GroupState × CompactionGroupId × GroupDelta) :=
  match v.stateTableInfo.applyDelta dbg delta.stateTableInfoDelta delta.removedTableIds with
  | .error _ => []
  | .ok (info, _, hasBumped) =>
    let isCommitEpoch := hasBumped || decide (v.maxCommittedEpoch < delta.maxCommittedEpoch)
    (visited (applyGroupDeltas dbg info isCommitEpoch) v.levels delta.groupDeltas.entries).flatMap
      fun x => (visited (applyGroupDelta dbg info isCommitEpoch x.2.1) ⟨x.1, false⟩ x.2.2).map
        fun y => (y.1, x.2.1, y.2)

variable {groupId : CompactionGroupId} {v : HummockVersion} {s : GroupState} {d : GroupDelta}

theorem HummockVersion.mem_of_executed {dbg : Bool} {delta : HummockVersionDelta}
    (h : (s, groupId, d) ∈ v.executed dbg delta) :
    ∃ ds, (groupId, ds) ∈ delta.groupDeltas.entries ∧ d ∈ ds := by
  unfold executed at h
  split at h
  · cases h
  · obtain ⟨⟨levels, e⟩, he, h⟩ := List.mem_flatMap.1 h
    obtain ⟨⟨s1, d1⟩, hd, heq⟩ := List.mem_map.1 h
    cases heq
    exact ⟨e.2, mem_of_visited he, mem_of_visited hd⟩

/-- What `P` has to be closed under, `P false` being the strong and `P true` the weak invariant. -/
structure LevelsInv (dbg : Bool) (Q : HummockVersionStateTableInfo → GroupState →
    CompactionGroupId → GroupDelta → Prop) (P : Bool → Levels → Prop) : Prop where
  weaken : ∀ lv, P false lv → P true lv
  initial : ∀ groupId config, P false (buildInitialCompactionGroupLevels groupId config)
  fresh : ∀ (c : GroupConstruct) groupId config, P false (c.newLevels groupId config)
  split : ∀ info s groupId c config parent parent' cur', Q info s groupId (.groupConstruct c) →
    c.parentGroupId ≠ newCompactionGroup → s.levels[c.parentGroupId]? = some parent →
    P false parent → c.split dbg info groupId parent (c.newLevels groupId config) =
      .ok (parent', cur') →
    P false parent' ∧ P false cur'
  merge : ∀ info s groupId l r weak left right merged, Q info s groupId (.groupMerge l r) →
    s.levels[r]? = some right → P weak left →
      P (s.isAppliedL0Compact && decide (r = groupId)) right →
    GroupSplit.mergeLevels dbg left right = .ok merged → P weak merged
  intra : ∀ info isCommitEpoch s groupId d weak lv lv', Q info s groupId (.intraLevel d) →
    P weak lv → applyIntraLevel dbg info isCommitEpoch groupId lv d = .ok lv' →
    P (weak || (!isCommitEpoch && d.levelIdx == 0)) lv'
  newSubLevel : ∀ info s groupId ssts weak lv lv', Q info s groupId (.newL0SubLevel ssts) →
    P weak lv → applyNewL0SubLevel dbg lv ssts = .ok lv' → P weak lv'
  post : ∀ lv, P true lv → P false lv.postApplyL0Compact

/-- Every group has the strong invariant, but the one of the deltas after a compaction of its L0. -/
def GroupInv (P : Bool → Levels → Prop) (groupId : CompactionGroupId) (s : GroupState) : Prop :=
  ∀ (g : CompactionGroupId) lv, s.levels[g]? = some lv →
    P (s.isAppliedL0Compact && decide (g = groupId)) lv

def AllGroups (P : Bool → Levels → Prop) (levels : GroupLevels) : Prop :=
  ∀ (g : CompactionGroupId) lv, levels[g]? = some lv → P false lv

namespace LevelsInv

variable {dbg : Bool}
  {Q : HummockVersionStateTableInfo → GroupState → CompactionGroupId → GroupDelta → Prop}
  {P : Bool → Levels → Prop}

section

variable (h : LevelsInv dbg Q P)
include h

theorem weaken_any {lv : Levels} (hp : P false lv) : ∀ weak, P weak lv
  | false => hp
  | true => h.weaken lv hp

theorem applyGroupDelta {info : HummockVersionStateTableInfo} {isCommitEpoch : Bool}
    {s' : GroupState} (hs : GroupInv P groupId s) (hq : Q info s groupId d)
    (hrun : Hummock.applyGroupDelta dbg info isCommitEpoch groupId s d = .ok s') :
    GroupInv P groupId s' := by
  cases d with
  | groupConstruct c =>
    obtain ⟨levels, hconstruct, heq⟩ := bind_eq_ok.1 hrun
    cases heq
    obtain ⟨config, -, ⟨-, rfl⟩ | ⟨hnew, hne, parent, parent', cur', hparent, hsplit, rfl⟩⟩ :=
      constructGroup_ok hconstruct
    · intro g lv hlv
      rw [getElem?_insert_eq] at hlv
      split at hlv
      · cases hlv
        exact h.weaken_any (h.fresh c groupId config) _
      · exact hs g lv hlv
    · have hp : P false parent := by simpa [hne] using hs _ _ hparent
      obtain ⟨hparent', hcur'⟩ :=
        h.split info s groupId c config parent parent' cur' hq hnew hparent hp hsplit
      intro g lv hlv
      simp only [getElem?_insert_eq] at hlv
      split at hlv
      · cases hlv
        exact h.weaken_any hcur' _
      · split at hlv
        · cases hlv
          exact h.weaken_any hparent' _
        · exact hs g lv hlv
  | groupMerge l r =>
    obtain ⟨levels, hgroups, heq⟩ := bind_eq_ok.1 hrun
    cases heq
    obtain ⟨-, left, right, merged, hleft, hright, hmerge, rfl⟩ := mergeCompactionGroup_ok hgroups
    intro g lv hlv
    rw [getElem?_insert_eq, getElem?_erase_eq] at hlv
    split at hlv
    · rename_i hg
      subst hg
      cases hlv
      exact h.merge info s groupId l r _ left right _ hq hright (hs l left hleft)
        (hs r right hright) hmerge
    · split at hlv
      · cases hlv
      · exact hs g lv hlv
  | intraLevel d =>
    simp only [Hummock.applyGroupDelta] at hrun
    split at hrun
    · cases hrun
    rename_i lv0 hlv0
    obtain ⟨lv', hintra, heq⟩ := bind_eq_ok.1 hrun
    cases heq
    have hp := h.intra info isCommitEpoch s groupId d _ lv0 lv' hq (hs groupId lv0 hlv0) hintra
    intro g lv hlv
    rw [getElem?_insert_eq] at hlv
    split at hlv
    · rename_i hg
      subst hg
      cases hlv
      simpa using hp
    · rename_i hg
      have := hs g lv hlv
      simpa [Ne.symm hg] using this
  | newL0SubLevel ssts =>
    simp only [Hummock.applyGroupDelta] at hrun
    split at hrun
    · cases hrun
    rename_i lv0 hlv0
    obtain ⟨_, -, hrun⟩ := bind_eq_ok.1 hrun
    obtain ⟨lv', hnew, heq⟩ := bind_eq_ok.1 hrun
    cases heq
    have hp := h.newSubLevel info s groupId ssts _ lv0 lv' hq (hs groupId lv0 hlv0) hnew
    intro g lv hlv
    rw [getElem?_insert_eq] at hlv
    split at hlv
    · rename_i hg
      subst hg
      cases hlv
      exact hp
    · exact hs g lv hlv
  | groupDestroy =>
    cases hrun
    intro g lv hlv
    rw [getElem?_erase_eq] at hlv
    split at hlv
    · cases hlv
    · exact hs g lv hlv

theorem postApplyGroup (hs : GroupInv P groupId s) :
    AllGroups P (Hummock.postApplyGroup groupId s) := by
  intro g lv hlv
  unfold Hummock.postApplyGroup at hlv
  split at hlv
  · rename_i hflag
    split at hlv
    · rename_i lv0 hlv0
      have hp := hs groupId lv0 hlv0
      rw [getElem?_insert_eq] at hlv
      split at hlv
      · cases hlv
        exact h.post lv0 (by simpa [hflag] using hp)
      · rename_i hg
        simpa [Ne.symm hg] using hs g lv hlv
    · rename_i hnone
      have hg : g ≠ groupId := by
        rintro rfl
        rw [hnone] at hlv
        cases hlv
      simpa [hg] using hs g lv hlv
  · rename_i hflag
    simpa [hflag] using hs g lv hlv

/-- **One step keeps the invariant**, if `Q` holds of each group delta in it. -/
theorem step {v' : HummockVersion} {d : HummockVersionDelta}
    (hv : AllGroups P v.levels) (hrun : applyVersionDelta dbg v d = .ok v')
    (hq : ∀ x ∈ executed dbg v d, Q v'.stateTableInfo x.1 x.2.1 x.2.2) : AllGroups P v'.levels := by
  obtain ⟨changed, bumped, happ⟩ := applyVersionDelta_ok hrun
  rw [executed, happ.info] at hq
  refine foldlM_visited (AllGroups P) (fun levels e levels' he hlevels hstep => ?_) hv happ.levels
  obtain ⟨s, hfold, heq⟩ := bind_eq_ok.1 hstep
  cases heq
  refine h.postApplyGroup (foldlM_visited (GroupInv P e.1) (fun s1 x s2 hx hs1 hrun => ?_) ?_ hfold)
  · exact h.applyGroupDelta hs1 (hq (s1, e.1, x) (List.mem_flatMap.2
      ⟨(levels, e), he, List.mem_map.2 ⟨(s1, x), hx, rfl⟩⟩)) hrun
  · intro g lv hlv
    exact hlevels g lv hlv

theorem init (config : CompactionConfig) : AllGroups P (createInitVersion config).levels := by
  intro g lv hlv
  simp only [createInitVersion, List.foldl_cons, List.foldl_nil, getElem?_insert_eq] at hlv
  split at hlv
  · cases hlv
    exact h.initial _ _
  · split at hlv
    · cases hlv
      exact h.initial _ _
    · simp at hlv

/-- **Every run keeps the invariant**, if `Q` holds of each group delta of each step. -/
theorem run {config : CompactionConfig} {steps : List Step}
    (hrun : Run dbg config steps v) (hq : ∀ st ∈ steps, ∀ x ∈ executed dbg st.before st.delta,
      Q st.after.stateTableInfo x.1 x.2.1 x.2.2) : AllGroups P v.levels :=
  hrun.invariant (fun v => AllGroups P v.levels)
    (fun st => ∀ x ∈ executed dbg st.before st.delta, Q st.after.stateTableInfo x.1 x.2.1 x.2.2)
    (h.init config) (fun _ _ _ hv hstep hrun => h.step hv hrun hstep) hq

end

end LevelsInv

end Hummock
