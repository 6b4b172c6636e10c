import RisingLake.Hummock.Proof.ChangeLog
import RisingLake.Hummock.Proof.StateTableInfo
import RisingLake.Hummock.Version

/-!
# Runs of version deltas

`applyVersionDelta_ok` takes a successful `applyVersionDelta` apart into its four parts. A `Run` is
a sequence of successful steps from `createInitVersion`; `Run.invariant` is the induction over it.
The state table info of every version of a run is indexed (`Run.indexed`).
-/

namespace Hummock

open Res

variable {v v' : HummockVersion} {dbg : Bool} {d : HummockVersionDelta}

namespace HummockVersion

/-- The parts of a successful step. -/
structure Applied (dbg : Bool) (v : HummockVersion) (d : HummockVersionDelta) (v' : HummockVersion)
    (changed : HashMap TableId (Option StateTableInfo)) (bumped : Bool) : Prop where
  prevId : v.id = d.prevId
  info : v.stateTableInfo.applyDelta dbg d.stateTableInfoDelta d.removedTableIds =
    .ok (v'.stateTableInfo, changed, bumped)
  levels : d.groupDeltas.entries.foldlM (applyGroupDeltas dbg v'.stateTableInfo
    (bumped || decide (v.maxCommittedEpoch < d.maxCommittedEpoch))) v.levels = .ok v'.levels
  watermarks : applyTableWatermarks dbg v.tableWatermarks d.newTableWatermarks d.removedTableIds
    v'.stateTableInfo = .ok v'.tableWatermarks
  changeLog : applyChangeLogDelta v.tableChangeLog d.changeLogDelta d.removedTableIds
    d.stateTableInfoDelta changed = .ok v'.tableChangeLog
  id : v'.id = d.id

theorem applyVersionDelta_ok
    (h : applyVersionDelta dbg v d = .ok v') :
    ∃ changed bumped, Applied dbg v d v' changed bumped := by
  simp only [applyVersionDelta, bind_eq_ok, assert_eq_ok, beq_iff_eq, Prod.exists] at h
  obtain ⟨-, hid, info, changed, bumped, hinfo, levels, hlevels, watermarks, hwm, log, hlog, h⟩ := h
  cases h
  exact ⟨changed, bumped, hid, hinfo, hlevels, hwm, hlog, rfl⟩

end HummockVersion

open HummockVersion

structure Step where
  before : HummockVersion
  delta : HummockVersionDelta
  after : HummockVersion

/-- The steps, last one first, that lead from the initial version to a version. -/
inductive Run (dbg : Bool) (config : CompactionConfig) : List Step → HummockVersion → Prop where
  | init : Run dbg config [] (createInitVersion config)
  | step {steps v d v'} : Run dbg config steps v → applyVersionDelta dbg v d = .ok v' →
      Run dbg config (⟨v, d, v'⟩ :: steps) v'

variable {config : CompactionConfig} {steps : List Step}

/-- What holds initially and is kept by every step that meets `C` holds after a run of such steps.
-/
theorem Run.invariant (P : HummockVersion → Prop) (C : Step → Prop)
    (hinit : P (createInitVersion config))
    (hstep : ∀ v d v', P v → C ⟨v, d, v'⟩ → applyVersionDelta dbg v d = .ok v' → P v')
    (h : Run dbg config steps v) (hc : ∀ st ∈ steps, C st) : P v := by
  induction h with
  | init => exact hinit
  | @step steps v d v' _ hrun ih =>
    exact hstep v d v' (ih fun st hst => hc st (.tail _ hst)) (hc _ (.head _)) hrun

theorem Run.applied (h : Run dbg config steps v)
    {st : Step} (hst : st ∈ steps) : applyVersionDelta dbg st.before st.delta = .ok st.after := by
  induction h with
  | init => cases hst
  | step _ hrun ih =>
    rcases List.mem_cons.1 hst with rfl | hst
    · exact hrun
    · exact ih hst

theorem applyVersionDelta_indexed (h : v.stateTableInfo.Indexed)
    (hrun : applyVersionDelta dbg v d = .ok v') : v'.stateTableInfo.Indexed := by
  obtain ⟨changed, bumped, happ⟩ := applyVersionDelta_ok hrun
  exact (HummockVersionStateTableInfo.applyDelta_spec _ h happ.info).2.1

theorem Run.indexed (h : Run dbg config steps v) : v.stateTableInfo.Indexed :=
  h.invariant (fun v => v.stateTableInfo.Indexed) (fun _ => True)
    HummockVersionStateTableInfo.Indexed.empty (fun _ _ _ hi _ => applyVersionDelta_indexed hi)
    (fun _ _ => trivial)

end Hummock
