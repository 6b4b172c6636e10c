import RisingLake.Hummock.FrontendVersion
import RisingLake.Hummock.Proof.Version

/-!
# How far the frontend's version follows the full one

`Simulates f v`: the frontend has the id and the state table info of `v`, and its change logs are
those of `v` with the SSTs counted. Deltas keep it (`applyDelta_simulates`), since every change log
operation commutes with counting, and counted logs answer `getNonEmptyEpochs` like the full ones
(`getNonEmptyEpochs_counted`).

A snapshot does not establish it: `fromVersion` empties the logs instead of counting their SSTs, so
the epochs of a log with SSTs are no longer reported as non-empty. Hence `frontend_follows_iff`.
-/

namespace Hummock

open Res HummockVersion List TableChangeLog FrontendHummockVersion EpochNewChangeLog

/-! ## Counting commutes with the change log operations -/

section
variable {T : Type} (logs : HashMap TableId (TableChangeLog T))

def countedLogs : HashMap TableId (TableChangeLog Unit) := logs.map fun _ log => log.map (·.counted)

def countedDelta (d : ChangeLogDelta T) : ChangeLogDelta Unit :=
  ⟨d.truncateEpoch, d.newLog.map (·.counted)⟩

variable (log : TableChangeLog T)

theorem truncate_counted (epoch : HummockEpoch) : truncate (log.map (·.counted)) epoch =
      List.map (·.counted) <$> log.truncate epoch := by
  simp only [truncate, Slice.retain_map]
  have hlast : ∀ l : EpochNewChangeLog T, l.counted.lastEpoch = l.lastEpoch := fun _ => rfl
  simp only [hlast]
  cases Slice.retain (fun l : EpochNewChangeLog T => do
      .ok (decide (epoch < (← l.lastEpoch)))) log with
  | error e => rfl
  | ok kept => cases kept <;> rfl

variable (e : TableId × ChangeLogDelta T)

theorem pushChangeLog_counted : pushChangeLog (countedLogs logs) (e.1, countedDelta e.2) =
      countedLogs <$> pushChangeLog logs e := by
  obtain ⟨t, truncateEpoch, newLog⟩ := e
  simp only [pushChangeLog, countedDelta]
  cases newLog with
  | none => rfl
  | some newLog =>
    simp only [Option.map_some, unwrap, ok_bind]
    have hget : (countedLogs logs)[t]? = logs[t]?.map (map (·.counted)) :=
      Std.ExtTreeMap.getElem?_map
    have hinsert : ∀ log : TableChangeLog T, (countedLogs logs).insert t (log.map (·.counted)) =
        countedLogs (logs.insert t log) :=
      fun log => (HashMap.map_insert logs (map (·.counted)) t log).symm
    rw [hget]
    cases logs[t]? with
    | none => exact congrArg Except.ok (hinsert [newLog])
    | some log =>
      simp only [Option.map_some, getLast?_map]
      have hpush : (countedLogs logs).insert t (log.map (·.counted) ++ [newLog.counted]) =
          countedLogs (logs.insert t (log ++ [newLog])) := by
        rw [← hinsert, map_append]
        rfl
      cases log.getLast? with
      | none => exact congrArg Except.ok hpush
      | some prev =>
        have hprev : prev.counted.lastEpoch = prev.lastEpoch := rfl
        have hnew : newLog.counted.firstEpoch = newLog.firstEpoch := rfl
        simp only [Option.map_some, hprev, hnew, hpush]
        cases prev.lastEpoch with
        | error e => rfl
        | ok m =>
          cases newLog.firstEpoch with
          | error e => rfl
          | ok f =>
            simp only [ok_bind]
            cases decide (m < f) <;> rfl

theorem truncateChangeLog_counted : truncateChangeLog (countedLogs logs) (e.1, countedDelta e.2) =
      countedLogs <$> truncateChangeLog logs e := by
  have hget : (countedLogs logs)[e.1]? = logs[e.1]?.map (map (·.counted)) :=
    Std.ExtTreeMap.getElem?_map
  simp only [truncateChangeLog, hget]
  cases logs[e.1]? with
  | none => rfl
  | some log =>
    simp only [Option.map_some, countedDelta, truncate_counted]
    cases log.truncate e.2.truncateEpoch with
    | error e => rfl
    | ok log' => exact congrArg Except.ok (HashMap.map_insert logs (map (·.counted)) e.1 log').symm

/-- **Counting commutes with `applyChangeLogDelta`.** -/
theorem applyChangeLogDelta_counted (delta : IterMap TableId (ChangeLogDelta T))
    (removed : List TableId) (infoDelta : IterMap TableId StateTableInfoDelta)
    (changed : HashMap TableId (Option StateTableInfo)) :
    applyChangeLogDelta (countedLogs logs) (delta.map countedDelta) removed infoDelta changed =
      countedLogs <$> applyChangeLogDelta logs delta removed infoDelta changed := by
  have hkeep : keepChangeLog (delta.map countedDelta) removed infoDelta changed =
      keepChangeLog delta removed infoDelta changed := by
    funext t
    simp only [keepChangeLog, IterMap.contains_map]
  have hpush := foldlM_hom countedLogs (fun e : TableId × ChangeLogDelta T =>
    (e.1, countedDelta e.2)) pushChangeLog_counted delta.entries logs
  simp only [applyChangeLogDelta, hkeep]
  rw [show (delta.map countedDelta).entries = delta.entries.map
    fun e => (e.1, countedDelta e.2) from rfl, hpush]
  cases delta.entries.foldlM pushChangeLog logs with
  | error e => rfl
  | ok logs1 =>
    have hfilter :=
      HashMap.map_filter logs1 (map (·.counted)) (keepChangeLog delta removed infoDelta changed)
    have htrunc := foldlM_hom countedLogs (fun e : TableId × ChangeLogDelta T =>
      (e.1, countedDelta e.2)) truncateChangeLog_counted delta.entries
      (logs1.filter fun t _ => keepChangeLog delta removed infoDelta changed t)
    rw [countedLogs, hfilter] at htrunc
    exact htrunc

theorem getNonEmptyEpochs_counted (minEpoch : HummockEpoch) (maxCount : Nat) :
    getNonEmptyEpochs (log.map (·.counted)) minEpoch maxCount =
      log.getNonEmptyEpochs minEpoch maxCount := by
  have hlast : ∀ l : EpochNewChangeLog T, l.counted.lastEpoch = l.lastEpoch := fun _ => rfl
  have hfirst : ∀ l : EpochNewChangeLog T, l.counted.firstEpoch = l.firstEpoch := fun _ => rfl
  have hfilter : ∀ lo hi, filterEpoch (log.map (·.counted)) lo hi =
      map (·.counted) <$> log.filterEpoch lo hi := by
    intro lo hi
    simp only [filterEpoch, Slice.partitionPoint_map, hlast, hfirst]
    cases Slice.partitionPoint (fun l : EpochNewChangeLog T => do
        .ok (decide ((← l.lastEpoch) < lo))) log with
    | error e => rfl
    | ok start =>
      cases Slice.partitionPoint (fun l : EpochNewChangeLog T => do
          .ok (decide ((← l.firstEpoch) ≤ hi))) log with
      | error e => rfl
      | ok stop =>
        simp only [ok_bind]
        split
        · simp [map_take]
        · rfl
  simp only [getNonEmptyEpochs, hfilter]
  cases log.filterEpoch minEpoch U64.max with
  | error e => rfl
  | ok logs =>
    have hempty : ∀ l : EpochNewChangeLog T,
        (!l.counted.newValue.isEmpty || !l.counted.oldValue.isEmpty) =
          (!l.newValue.isEmpty || !l.oldValue.isEmpty) := by
      intro l
      rcases l with ⟨_ | _, _ | _, _⟩ <;> rfl
    simp only [Except.map_ok, ok_bind, filter_map, Function.comp_def, hempty, flatMap_map]
    rfl

end

/-! ## Simulation -/

/-- The frontend's version is the full one without levels and watermarks, the change logs counted.
-/
structure Simulates (f : FrontendHummockVersion) (v : HummockVersion) : Prop where
  id : f.id = v.id
  info : f.stateTableInfo = v.stateTableInfo
  changeLog : f.tableChangeLog = countedLogs v.tableChangeLog

variable {dbg : Bool}

theorem applyDelta_simulates {f : FrontendHummockVersion} {v v' : HummockVersion}
    {d : HummockVersionDelta} (h : Simulates f v) (hrun : applyVersionDelta dbg v d = .ok v') :
    ∃ f', f.applyDelta dbg (.fromDelta d) = .ok f' ∧ Simulates f' v' := by
  obtain ⟨changed, bumped, happ⟩ := applyVersionDelta_ok hrun
  refine ⟨⟨d.id, v'.stateTableInfo, countedLogs v'.tableChangeLog⟩, ?_, happ.id.symm, rfl, rfl⟩
  have hlog := applyChangeLogDelta_counted v.tableChangeLog d.changeLogDelta d.removedTableIds
    d.stateTableInfoDelta changed
  rw [happ.changeLog] at hlog
  have hid : (f.id == d.prevId) = true := by rw [h.id, happ.prevId, beq_self_eq_true]
  simp only [applyDelta, FrontendHummockVersionDelta.fromDelta, h.info,
    happ.info, h.changeLog, hid, ok_bind]
  rw [show (d.changeLogDelta.map fun d => (⟨d.truncateEpoch, d.newLog.map (·.counted)⟩ :
    ChangeLogDelta Unit)) = d.changeLogDelta.map countedDelta from rfl, hlog]
  exact ite_self _

theorem applyDeltas_simulates : ∀ {deltas : List HummockVersionDelta}
    {f : FrontendHummockVersion} {v v' : HummockVersion}, Simulates f v →
      v.applyVersionDeltas dbg deltas = .ok v' →
      ∃ f', f.applyDeltas dbg (deltas.map .fromDelta) = .ok f' ∧ Simulates f' v'
  | [], f, v, v', h, hrun => by
    cases hrun
    exact ⟨f, rfl, h⟩
  | d :: deltas, f, v, v', h, hrun => by
    rw [applyVersionDeltas, foldlM_cons, bind_eq_ok] at hrun
    obtain ⟨v1, h1, hrun⟩ := hrun
    obtain ⟨f1, hf1, hs1⟩ := applyDelta_simulates h h1
    obtain ⟨f', hf', hs'⟩ := applyDeltas_simulates hs1 hrun
    refine ⟨f', ?_, hs'⟩
    rw [applyDeltas, map_cons, foldlM_cons, hf1]
    exact hf'

/-! ## Snapshots -/

def snapshot (v : HummockVersion) : Res FrontendHummockVersion :=
  fromProtobuf (fromVersion v).toProtobuf

variable {v : HummockVersion}

theorem snapshot_ok (h : v.stateTableInfo.Indexed) : snapshot v = .ok ⟨v.id, v.stateTableInfo,
      v.tableChangeLog.map fun _ log => log.map (·.emptied)⟩ := by
  simp only [snapshot, fromVersion, toProtobuf, fromProtobuf,
    HummockVersionStateTableInfo.fromProtobuf, HummockVersionStateTableInfo.toProtobuf, h.rebuild,
    ok_bind, Except.ok.injEq,
    FrontendHummockVersion.mk.injEq, true_and]
  apply Std.ExtTreeMap.ext_getElem?
  intro t
  simp only [Std.ExtTreeMap.getElem?_map]
  cases v.tableChangeLog[t]? with
  | none => rfl
  | some log => simp [emptied]

/-- No stored change log holds an SST. -/
def ChangeLogsEmpty (v : HummockVersion) : Prop :=
  ∀ (t : TableId) log, v.tableChangeLog[t]? = some log →
    ∀ l ∈ log, l.newValue = [] ∧ l.oldValue = []

theorem emptied_eq_counted (h : ChangeLogsEmpty v) :
    (v.tableChangeLog.map fun _ log => log.map (·.emptied)) = countedLogs v.tableChangeLog := by
  apply Std.ExtTreeMap.ext_getElem?
  intro t
  simp only [countedLogs, Std.ExtTreeMap.getElem?_map]
  cases hlog : v.tableChangeLog[t]? with
  | none => rfl
  | some log =>
    refine congrArg some (map_congr_left fun l hl => ?_)
    obtain ⟨hnew, hold⟩ := h t log hlog l hl
    simp [emptied, counted, hnew, hold]

/-- Whatever deltas are applied, the frontend has the id, the state table info and the non-empty
epochs of the full version. -/
def Follows (dbg : Bool) (v : HummockVersion) : Prop :=
  ∀ deltas v', v.applyVersionDeltas dbg deltas = .ok v' →
    ∃ f f', snapshot v = .ok f ∧ f.applyDeltas dbg (deltas.map .fromDelta) = .ok f' ∧
      f'.id = v'.id ∧ f'.stateTableInfo = v'.stateTableInfo ∧
      ∀ (t : TableId) minEpoch maxCount,
        f'.tableChangeLog[t]?.map (·.getNonEmptyEpochs minEpoch maxCount) =
          v'.tableChangeLog[t]?.map (·.getNonEmptyEpochs minEpoch maxCount)

theorem follows_of_empty (hidx : v.stateTableInfo.Indexed) (h : ChangeLogsEmpty v) :
    Follows dbg v := by
  intro deltas v' hrun
  have hstart : Simulates ⟨v.id, v.stateTableInfo,
      v.tableChangeLog.map fun _ log => log.map (·.emptied)⟩ v := ⟨rfl, rfl, emptied_eq_counted h⟩
  obtain ⟨f', hf', hsim⟩ := applyDeltas_simulates hstart hrun
  refine ⟨_, f', snapshot_ok hidx, hf', hsim.id, hsim.info, fun t minEpoch maxCount => ?_⟩
  rw [hsim.changeLog, countedLogs, Std.ExtTreeMap.getElem?_map]
  cases v'.tableChangeLog[t]? with
  | none => rfl
  | some log => exact congrArg some (getNonEmptyEpochs_counted log minEpoch maxCount)

theorem getNonEmptyEpochs_all {T : Type} {log : TableChangeLog T} (h : log.Ordered) :
    log.getNonEmptyEpochs 0 log.allEpochs.length =
      .ok ((log.filter fun l => !l.newValue.isEmpty || !l.oldValue.isEmpty).flatMap (·.epochs)) := by
  have hall : log.filter (fun l => !l.lastBelow 0 && l.firstUpTo U64.max) = log := by
    refine filter_eq_self.2 fun l hl => ?_
    obtain ⟨m, hm, -⟩ := h.lastEpoch_ok hl
    obtain ⟨f, hf, -⟩ := h.firstEpoch_ok hl
    simp [lastBelow, firstUpTo, hf, U64.le_max]
  simp only [getNonEmptyEpochs, filterEpoch_ok h (U64.le_max 0), hall, ok_bind]
  rw [filter_eq_self.2 (by simp), take_of_length_le]
  exact (filter_sublist.flatMap _).length_le

theorem getNonEmptyEpochs_emptied {T : Type} {log : TableChangeLog T} (h : log.Ordered) :
    getNonEmptyEpochs (log.map fun l => (l.emptied : EpochNewChangeLog Unit)) 0
      log.allEpochs.length = .ok [] := by
  have hep : allEpochs (log.map fun l => (l.emptied : EpochNewChangeLog Unit)) = log.allEpochs := by
    rw [allEpochs, flatMap_map]
    rfl
  have hord : TableChangeLog.Ordered (log.map fun l => (l.emptied : EpochNewChangeLog Unit)) := by
    refine ⟨fun l' hl' => ?_, hep ▸ h.increasing⟩
    obtain ⟨l, hl, rfl⟩ := mem_map.1 hl'
    exact h.nonempty l hl
  have hall := getNonEmptyEpochs_all hord
  rw [hep] at hall
  rw [hall, filter_eq_nil_iff.2]
  · rfl
  · intro l' hl'
    obtain ⟨l, -, rfl⟩ := mem_map.1 hl'
    simp [emptied]

theorem empty_of_follows (hidx : v.stateTableInfo.Indexed)
    (hord : AllOrdered v.tableChangeLog) (h : Follows dbg v) : ChangeLogsEmpty v := by
  intro t log hlog l hl
  obtain ⟨f, f', hf, hf', -, -, hread⟩ := h [] v rfl
  rw [snapshot_ok hidx] at hf
  cases hf
  cases hf'
  have hread := hread t 0 log.allEpochs.length
  have hlogord := hord t log hlog
  simp only [Std.ExtTreeMap.getElem?_map, hlog, Option.map_some, Option.some.injEq,
    getNonEmptyEpochs_emptied hlogord, getNonEmptyEpochs_all hlogord, Except.ok.injEq] at hread
  -- no log of the full version with an epoch has an SST
  by_contra hne
  have hmem : l ∈ log.filter fun l => !l.newValue.isEmpty || !l.oldValue.isEmpty := by
    refine mem_filter.2 ⟨hl, ?_⟩
    rcases l with ⟨_ | _, _ | _, _⟩ <;> simp_all
  obtain ⟨m, hm, -⟩ := hlogord.lastEpoch_ok hl
  have := mem_flatMap.2 ⟨l, hmem, mem_of_getLast? hm⟩
  rw [← hread] at this
  cases this

/-- **When the frontend follows the full version**: it does if no change log of the snapshot holds
an SST, and only then if the change logs are ordered. -/
theorem frontend_follows_iff {dbg : Bool} {v : HummockVersion} (hidx : v.stateTableInfo.Indexed) :
    (ChangeLogsEmpty v → Follows dbg v) ∧
      (AllOrdered v.tableChangeLog → (Follows dbg v ↔ ChangeLogsEmpty v)) :=
  ⟨follows_of_empty hidx, fun hord => ⟨empty_of_follows hidx hord, follows_of_empty hidx⟩⟩

/-- A delta creates table 1 with a change log that holds an SST at epoch 5. The full version reports
the epoch as non-empty, a frontend that starts from its snapshot does not. -/
theorem snapshot_loses_epochs : let sst : SstableInfo := ⟨1, 1, ⟨[], [], false⟩, [1], 0, 0⟩
    let v0 := createInitVersion ⟨1⟩
    let d := { v0.versionDeltaAfter with
      stateTableInfoDelta := ⟨[(1, ⟨5, 2⟩)], by decide⟩
      changeLogDelta := ⟨[(1, ⟨0, some ⟨[sst], [], [5]⟩⟩)], by decide⟩ }
    let info : HummockVersionStateTableInfo := ⟨(∅ : HashMap _ _).insert 1 ⟨5, 2⟩,
      (∅ : MemberTables).insert 2 ((∅ : BTreeSet _).insert 1)⟩
    let v := { v0 with
      id := 2
      tableChangeLog := (∅ : HashMap _ _).insert 1 [⟨[sst], [], [5]⟩]
      stateTableInfo := info }
    let f : FrontendHummockVersion := ⟨2, info, (∅ : HashMap _ _).insert 1 [⟨[], [], [5]⟩]⟩
    applyVersionDelta true v0 d = .ok v ∧ snapshot v = .ok f ∧
      v.tableChangeLog[(1 : TableId)]?.map (·.getNonEmptyEpochs 0 1) = some (.ok [5]) ∧
      f.tableChangeLog[(1 : TableId)]?.map (·.getNonEmptyEpochs 0 1) = some (.ok []) := by
  refine ⟨by decide +kernel, by decide +kernel, by decide +kernel, by decide +kernel⟩

/-- The frontend follows a version whose change log has no SST at epoch 5, and not one whose change
log has one. -/
theorem frontend_follows_one : let sst : SstableInfo := ⟨1, 1, ⟨[], [], false⟩, [1], 0, 0⟩
    let v := fun (ssts : List SstableInfo) => { createInitVersion ⟨1⟩ with
      tableChangeLog := (∅ : HashMap _ _).insert 1 [⟨ssts, [], [5]⟩] }
    Follows true (v []) ∧ ¬Follows true (v [sst]) := by
  intro sst v
  have hidx : ∀ ssts, (v ssts).stateTableInfo.Indexed :=
    fun ssts => HummockVersionStateTableInfo.Indexed.empty
  refine ⟨(frontend_follows_iff (hidx [])).1 fun t log hlog l hl => ?_, fun h => ?_⟩
  · simp only [v, HashMap.getElem?_insert_eq] at hlog
    split at hlog
    · cases hlog
      simp_all
    · simp at hlog
  · have hord : AllOrdered (v [sst]).tableChangeLog :=
      AllOrdered.empty.insert (TableChangeLog.Ordered.nil.concat (by simp) (by simp) (by simp))
    have := ((frontend_follows_iff (hidx [sst])).2 hord).1 h 1 [⟨[sst], [], [5]⟩] rfl _ (.head _)
    simp at this

end Hummock
