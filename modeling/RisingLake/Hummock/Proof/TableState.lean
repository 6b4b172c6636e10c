import RisingLake.Hummock.Proof.Version

/-!
# Which per-table state outlives its table

`TablesExist v`: every table with watermarks or a change log has a state table info. Change logs of
removed tables are always dropped (`applyChangeLogDelta_keys`). The watermarks of a removed table
are dropped only when the same delta brings new watermarks for it, and are even created when it
brings watermarks for a removed table without any (`applyTableWatermarks_keys`). So a run keeps
`TablesExist` exactly as long as each removed table has watermarks if and only if its delta brings
new ones for it (`run_tablesExist_iff`).
-/

namespace Hummock

open Res HummockVersion Std.ExtTreeMap IterMap HashMap List

/-! ## Watermarks -/

variable {t : TableId}

section
variable {current : HashMap TableId TableWatermarks} {removed : List TableId}
  {info : HummockVersionStateTableInfo}

/-- The watermarks of `t` are to be removed. -/
def Drops (m : ModifiedWatermarks) (t : TableId) : Prop := m[t]? = some none

/-- There are watermarks of `t` to be stored. -/
def Stores (m : ModifiedWatermarks) (t : TableId) : Prop := ∃ w, m[t]? = some (some w)

variable {m : ModifiedWatermarks} {o : Option TableWatermarks} {t' : TableId}

theorem drops_insert : Drops (m.insert t o) t' ↔ if t = t' then o = none else Drops m t' := by
  rw [Drops, getElem?_insert_eq]
  split
  · simp
  · rfl

theorem stores_insert : Stores (m.insert t o) t' ↔ if t = t' then o.isSome = true
    else Stores m t' := by
  rw [Stores, getElem?_insert_eq]
  split
  · simp [Option.isSome_iff_exists]
  · rfl

variable {m' : ModifiedWatermarks} {e : TableId × TableWatermarks}

theorem modifyNewWatermarks_kinds (hrun : modifyNewWatermarks current removed m e = .ok m')
    (t : TableId) : (Drops m' t ↔ if e.1 = t then t ∈ current ∧ t ∈ removed else Drops m t) ∧
    (Stores m' t ↔ if e.1 = t then ¬(t ∈ current ∧ t ∈ removed) else Stores m t) := by
  unfold modifyNewWatermarks at hrun
  split at hrun
  · rename_i cur hcur
    have hmem : e.1 ∈ current := mem_iff_isSome_getElem?.2 (by simp [hcur])
    split at hrun
    · cases hrun
      rw [drops_insert, stores_insert]
      constructor <;> split <;> simp_all
    · rw [bind_eq_ok] at hrun
      obtain ⟨w, -, hrun⟩ := hrun
      cases hrun
      rw [drops_insert, stores_insert]
      constructor <;> split <;> simp_all
  · cases hrun
    rw [drops_insert, stores_insert]
    constructor <;> split <;> simp_all

theorem foldlM_modifyNewWatermarks : ∀ {es : List (TableId × TableWatermarks)}
    {m m' : ModifiedWatermarks}, es.foldlM (modifyNewWatermarks current removed) m = .ok m' →
      ∀ t, (Drops m' t ↔ if t ∈ es.map (·.1) then t ∈ current ∧ t ∈ removed else Drops m t) ∧
        (Stores m' t ↔ if t ∈ es.map (·.1) then ¬(t ∈ current ∧ t ∈ removed) else Stores m t)
  | [], m, m', hrun, t => by
    cases hrun
    simp
  | e :: es, m, m', hrun, t => by
    rw [foldlM_cons, bind_eq_ok] at hrun
    obtain ⟨m1, h1, hrun⟩ := hrun
    obtain ⟨hd1, hs1⟩ := modifyNewWatermarks_kinds h1 t
    obtain ⟨hd, hs⟩ := foldlM_modifyNewWatermarks hrun t
    obtain ⟨t', w'⟩ := e
    rw [hd, hs, hd1, hs1]
    by_cases ht : t' = t
    · subst ht
      simp
    · have hkeys : t ∈ ((t', w') :: es).map (·.1) ↔ t ∈ es.map (·.1) := by
        rw [map_cons, mem_cons, or_iff_right (Ne.symm ht)]
      simp only [ht, if_false, hkeys, and_self]

theorem clearStaleWatermarks_kinds (hrun : clearStaleWatermarks dbg info m e = .ok m') (t : TableId) :
    (Drops m' t ↔ Drops m t) ∧ (Stores m t → Stores m' t) ∧
      (Stores m' t → Stores m t ∨ (e.1 = t ∧ ¬Drops m t)) := by
  unfold clearStaleWatermarks at hrun
  split at hrun
  · cases hrun
    exact ⟨.rfl, id, .inl⟩
  split at hrun
  · rename_i w hw
    rw [bind_eq_ok] at hrun
    obtain ⟨w', -, hrun⟩ := hrun
    cases hrun
    rw [drops_insert, stores_insert]
    by_cases ht : e.1 = t
    · subst ht
      have hnd : ¬Drops m e.1 := fun hd => by rw [hd] at hw; cases hw
      simp [hnd]
    · simp [ht]
  · rename_i hw
    cases hrun
    have hd : Drops m e.1 := by
      cases hm : m[e.1]? with
      | none => simp [hm] at hw
      | some o => simpa [Drops, hm] using hw
    have hns : ¬Stores m e.1 := by
      rintro ⟨w, hs⟩
      rw [Drops, hs] at hd
      cases hd
    rw [drops_insert, stores_insert]
    by_cases ht : e.1 = t
    · subst ht
      simp [hd, hns]
    · simp [ht]

theorem foldlM_clearStaleWatermarks : ∀ {es : List (TableId × TableWatermarks)}
    {m m' : ModifiedWatermarks}, es.foldlM (clearStaleWatermarks dbg info) m = .ok m' →
      ∀ t, (Drops m' t ↔ Drops m t) ∧ (Stores m t → Stores m' t) ∧
        (Stores m' t → Stores m t ∨ (t ∈ es.map (·.1) ∧ ¬Drops m t))
  | [], m, m', hrun, t => by
    cases hrun
    exact ⟨.rfl, id, .inl⟩
  | e :: es, m, m', hrun, t => by
    rw [foldlM_cons, bind_eq_ok] at hrun
    obtain ⟨m1, h1, hrun⟩ := hrun
    obtain ⟨hd1, hs1, hs1'⟩ := clearStaleWatermarks_kinds h1 t
    obtain ⟨hd, hs, hs'⟩ := foldlM_clearStaleWatermarks hrun t
    refine ⟨hd.trans hd1, fun h => hs (hs1 h), fun h => ?_⟩
    rcases hs' h with h | ⟨hmem, hnd⟩
    · rcases hs1' h with h | ⟨rfl, hnd⟩
      · exact .inl h
      · exact .inr ⟨.head _, hnd⟩
    · exact .inr ⟨.tail _ hmem, fun hd => hnd (hd1.2 hd)⟩

theorem foldl_storeWatermarks : ∀ (current : HashMap TableId TableWatermarks)
    {es : List (TableId × Option TableWatermarks)}, (es.map (·.1)).Nodup → ∀ t,
      (es.foldl storeWatermarks current)[t]? = (es.lookup t).getD current[t]?
  | _, [], _, t => rfl
  | current, (t', o) :: es, hnd, t => by
    rw [map_cons, nodup_cons] at hnd
    rw [foldl_cons, foldl_storeWatermarks _ hnd.2, lookup_cons_eq]
    have hstore : (storeWatermarks current (t', o))[t]? = if t' = t then o else current[t]? := by
      cases o with
      | some w => rw [storeWatermarks, getElem?_insert_eq]
      | none => rw [storeWatermarks, getElem?_erase_eq]
    by_cases ht : t = t'
    · subst ht
      have hnone : es.lookup t = none := lookup_eq_none_iff.2 fun e he => by
        simp only [bne_iff_ne]
        rintro rfl
        exact hnd.1 (mem_map.2 ⟨e, he, rfl⟩)
      simp [hnone, hstore]
    · simp [ht, hstore, Ne.symm ht]

/-- **The tables with watermarks after a delta.** -/
theorem applyTableWatermarks_keys {newTableWatermarks : IterMap TableId TableWatermarks}
    {current' : HashMap TableId TableWatermarks}
    (hrun : applyTableWatermarks dbg current newTableWatermarks removed info = .ok current')
    (t : TableId) :
    t ∈ current' ↔ if newTableWatermarks.contains t then ¬(t ∈ current ∧ t ∈ removed)
      else t ∈ current := by
  simp only [applyTableWatermarks, bind_eq_ok] at hrun
  obtain ⟨m1, h1, m2, h2, hrun⟩ := hrun
  cases hrun
  have hnew := foldlM_modifyNewWatermarks h1 t
  simp only [← contains_iff_mem_keys] at hnew
  obtain ⟨hd, hs, hs'⟩ := foldlM_clearStaleWatermarks h2 t
  -- the result holds what is stored, and what it held unless dropped
  have hkeys : t ∈ m2.toList.foldl storeWatermarks current ↔
      Stores m2 t ∨ (t ∈ current ∧ ¬Drops m2 t) := by
    have hlookup : m2.toList.lookup t = m2[t]? := get?_iter m2 t
    have hstored : (m2.toList.foldl storeWatermarks current)[t]? = _ :=
      foldl_storeWatermarks current (iter m2).nodup t
    rw [mem_iff_isSome_getElem?, mem_iff_isSome_getElem?, hstored,
      show (iter m2).entries.lookup t = _ from hlookup, Stores, Drops]
    cases hm : m2[t]? with
    | none => simp
    | some o => cases o <;> simp
  by_cases hc : newTableWatermarks.contains t = true
  · rw [if_pos hc, if_pos hc] at hnew
    grind
  rw [if_neg hc, if_neg hc] at hnew
  have hnd : ¬Drops (∅ : ModifiedWatermarks) t := by simp [Drops]
  have hns : ¬Stores (∅ : ModifiedWatermarks) t := by simp [Stores]
  rw [Std.ExtTreeMap.map_fst_toList_eq_keys, Std.ExtTreeMap.mem_keys] at hs'
  rw [if_neg hc, hkeys]
  tauto

end

/-! ## Change logs -/

section
variable {T : Type} {logs logs' : HashMap TableId (TableChangeLog T)}
  {e : TableId × ChangeLogDelta T}

theorem pushChangeLog_keys (hrun : pushChangeLog logs e = .ok logs') (ht : t ∈ logs') :
    t ∈ logs ∨ e.1 = t := by
  have hinsert : ∀ log, t ∈ logs.insert e.1 log → t ∈ logs ∨ e.1 = t := fun log ht => by
    rw [mem_insert, Std.LawfulEqCmp.compare_eq_iff_eq] at ht
    exact ht.symm
  simp only [pushChangeLog, bind_eq_ok] at hrun
  obtain ⟨l, -, hrun⟩ := hrun
  split at hrun
  · split at hrun
    · simp only [bind_eq_ok] at hrun
      obtain ⟨_, -, _, -, _, -, hrun⟩ := hrun
      cases hrun
      exact hinsert _ ht
    · cases hrun
      exact hinsert _ ht
  · cases hrun
    exact hinsert _ ht

theorem truncateChangeLog_keys (hrun : truncateChangeLog logs e = .ok logs') (ht : t ∈ logs') :
    t ∈ logs := by
  unfold truncateChangeLog at hrun
  split at hrun
  · rename_i log hlog
    rw [bind_eq_ok] at hrun
    obtain ⟨log', -, hrun⟩ := hrun
    cases hrun
    rw [mem_insert, Std.LawfulEqCmp.compare_eq_iff_eq] at ht
    rcases ht with rfl | ht
    · exact mem_iff_isSome_getElem?.2 (by simp [hlog])
    · exact ht
  · cases hrun; exact ht

theorem applyChangeLogDelta_keys {delta : IterMap TableId (ChangeLogDelta T)}
    {removed : List TableId} {infoDelta : IterMap TableId StateTableInfoDelta}
    {changed : HashMap TableId (Option StateTableInfo)}
    (hrun : applyChangeLogDelta logs delta removed infoDelta changed = .ok logs') (ht : t ∈ logs') :
    (t ∈ logs ∨ delta.contains t = true) ∧ t ∉ removed := by
  simp only [applyChangeLogDelta, bind_eq_ok] at hrun
  obtain ⟨logs1, hpush, htrunc⟩ := hrun
  have hpushed : ∀ t ∈ logs1, t ∈ logs ∨ delta.contains t = true := by
    refine foldlM_inv (fun l => ∀ t ∈ l, t ∈ logs ∨ delta.contains t = true)
      (fun e he s s' hs hstep t ht => ?_) (fun t ht => .inl ht) hpush
    rcases pushChangeLog_keys hstep ht with ht | rfl
    · exact hs t ht
    · exact .inr (contains_iff.2 ⟨e.2, he⟩)
  have hmem := foldlM_inv (fun l => ∀ t ∈ l, t ∈ logs1.filter fun tableId _ =>
      keepChangeLog delta removed infoDelta changed tableId)
    (fun e _ s s' hs hstep t ht => hs t (truncateChangeLog_keys hstep ht)) (fun t ht => ht) htrunc
    t ht
  rw [mem_iff_isSome_getElem?, getElem?_filter_eq, Option.isSome_iff_exists] at hmem
  obtain ⟨log, hlog⟩ := hmem
  rw [Option.filter_eq_some_iff] at hlog
  obtain ⟨hlog, hkeep⟩ := hlog
  refine ⟨hpushed t (mem_iff_isSome_getElem?.2 (by simp [hlog])), fun hrem => ?_⟩
  simp [keepChangeLog, hrem] at hkeep

end

/-! ## Runs -/

/-- Every table with watermarks or a change log exists. -/
def TablesExist (v : HummockVersion) : Prop :=
  (∀ t ∈ v.tableWatermarks, t ∈ v.stateTableInfo.stateTableInfo) ∧
    ∀ t ∈ v.tableChangeLog, t ∈ v.stateTableInfo.stateTableInfo

/-- The delta brings watermarks and change logs only for tables that exist after it or that it
removes. -/
def Step.MentionsExisting (st : Step) : Prop :=
  ∀ t, st.delta.newTableWatermarks.contains t = true ∨ st.delta.changeLogDelta.contains t = true →
    t ∈ st.after.stateTableInfo.stateTableInfo ∨ t ∈ st.delta.removedTableIds

/-- A removed table has watermarks exactly if the delta brings new ones for it. -/
def Step.RemovalsNamed (st : Step) : Prop :=
  ∀ t ∈ st.delta.removedTableIds,
    (t ∈ st.before.tableWatermarks ↔ st.delta.newTableWatermarks.contains t = true)

section
variable {dbg : Bool} {config : CompactionConfig} {st : Step}

section
variable (hidx : st.before.stateTableInfo.Indexed)
  (hrun : applyVersionDelta dbg st.before st.delta = .ok st.after)
include hidx hrun

theorem step_tables (t : TableId) :
    (t ∈ st.after.stateTableInfo.stateTableInfo → t ∉ st.delta.removedTableIds) ∧
      (t ∈ st.before.stateTableInfo.stateTableInfo → t ∉ st.delta.removedTableIds →
        t ∈ st.after.stateTableInfo.stateTableInfo) := by
  obtain ⟨changed, bumped, happ⟩ := applyVersionDelta_ok hrun
  obtain ⟨-, -, hinfo, -, -⟩ := HummockVersionStateTableInfo.applyDelta_spec _ hidx happ.info
  simp only [mem_iff_isSome_getElem?, hinfo, HummockVersionStateTableInfo.infoAfter]
  constructor
  · intro hafter hrem
    simp [hrem] at hafter
  · intro hbefore hrem
    simp [hrem, hbefore]

/-- **What one step needs**: each removed table has watermarks exactly if the delta brings new ones.
-/
theorem step_tablesExist_iff (hmen : st.MentionsExisting) (h : TablesExist st.before) :
    TablesExist st.after ↔ st.RemovalsNamed := by
  obtain ⟨changed, bumped, happ⟩ := applyVersionDelta_ok hrun
  have htab := step_tables hidx hrun
  have hwm := applyTableWatermarks_keys happ.watermarks
  constructor
  · intro hafter t hrem
    have hnot : t ∉ st.after.tableWatermarks := fun ht => (htab t).1 (hafter.1 t ht) hrem
    rw [hwm t] at hnot
    split at hnot
    · rename_i hc
      simp [hc, hrem] at hnot ⊢
      exact hnot
    · rename_i hc
      simp [hc, hnot]
  · intro hnamed
    refine ⟨fun t ht => ?_, fun t ht => ?_⟩
    · by_cases hrem : t ∈ st.delta.removedTableIds
      · -- a removed table loses its watermarks and gets none
        have := hnamed t hrem
        rw [hwm t] at ht
        split at ht
        · rename_i hc
          exact absurd ⟨this.2 hc, hrem⟩ ht
        · rename_i hc
          exact absurd (this.1 ht) hc
      · rw [hwm t] at ht
        split at ht
        · rename_i hc
          exact (hmen t (.inl hc)).resolve_right hrem
        · exact (htab t).2 (h.1 t ht) hrem
    · obtain ⟨ht, hrem⟩ := applyChangeLogDelta_keys happ.changeLog ht
      rcases ht with ht | hc
      · exact (htab t).2 (h.2 t ht) hrem
      · exact (hmen t (.inr hc)).resolve_right hrem

end

/-- **Per-table state never outlives its table in a run if and only if**, at each step, a removed
table has watermarks exactly if the delta brings new ones for it. -/
theorem run_tablesExist_iff {steps : List Step} {v : HummockVersion}
    (h : Run dbg config steps v) (hmen : ∀ st ∈ steps, st.MentionsExisting) :
    (∀ st ∈ steps, TablesExist st.after) ↔ ∀ st ∈ steps, st.RemovalsNamed := by
  -- along the run, while every step so far is fine, its last version is
  suffices hboth : ((∀ st ∈ steps, TablesExist st.after) ↔ ∀ st ∈ steps, st.RemovalsNamed) ∧
      ((∀ st ∈ steps, TablesExist st.after) → TablesExist v) from hboth.1
  induction h with
  | init => exact ⟨by simp, fun _ => by simp [TablesExist, createInitVersion]⟩
  | @step steps v d v' hsteps hrun ih =>
    obtain ⟨hiff, hlast⟩ := ih fun st hst => hmen st (.tail _ hst)
    simp only [forall_mem_cons]
    refine ⟨?_, fun hall => hall.1⟩
    rw [and_comm, and_comm (b := ∀ st ∈ steps, st.RemovalsNamed), ← hiff]
    refine and_congr_right fun hall => ?_
    exact step_tablesExist_iff hsteps.indexed hrun (hmen _ (.head _)) (hlast hall)

end

/-- Table 1 is created with watermarks; the next delta removes the table, and its watermarks stay.
-/
theorem removedTable_keeps_watermarks :
    let w : TableWatermarks := ⟨[(5, [⟨[true], [7]⟩])], .ascending⟩
    let v0 := createInitVersion ⟨1⟩
    let d1 := { v0.versionDeltaAfter with
      newTableWatermarks := ⟨[(1, w)], by decide⟩
      stateTableInfoDelta := ⟨[(1, ⟨5, 2⟩)], by decide⟩ }
    let v1 := { v0 with
      id := 2
      tableWatermarks := (∅ : HashMap _ _).insert 1 w
      stateTableInfo := ⟨(∅ : HashMap _ _).insert 1 ⟨5, 2⟩,
        (∅ : MemberTables).insert 2 ((∅ : BTreeSet _).insert 1)⟩ }
    let d2 := { v1.versionDeltaAfter with removedTableIds := [1] }
    let v2 := { v1 with id := 3, stateTableInfo := .empty }
    (applyVersionDelta true v0 d1 = .ok v1 ∧ applyVersionDelta true v1 d2 = .ok v2) ∧
      (Step.MentionsExisting ⟨v0, d1, v1⟩ ∧ Step.MentionsExisting ⟨v1, d2, v2⟩) ∧
      1 ∈ v2.tableWatermarks ∧ 1 ∉ v2.stateTableInfo.stateTableInfo := by
  intro w v0 d1 v1 d2 v2
  refine ⟨⟨by decide +kernel, by decide +kernel⟩, ⟨?_, ?_⟩, by decide, by decide⟩
  · intro t ht
    have ht : t = 1 := by
      rcases ht with ht | ht
      · simpa [d1, contains_iff_mem_keys] using ht
      · simp [d1, versionDeltaAfter, contains_iff_mem_keys, IterMap.empty] at ht
    exact .inl (by rw [ht]; decide)
  · intro t ht
    simp [d2, versionDeltaAfter, contains_iff_mem_keys, IterMap.empty] at ht

/-- The delta that removes table 1 brings new watermarks for it, and the old ones go. -/
theorem run_tablesExist_two : let w : TableWatermarks := ⟨[(5, [⟨[true], [7]⟩])], .ascending⟩
    let v0 := createInitVersion ⟨1⟩
    let d1 := { v0.versionDeltaAfter with
      newTableWatermarks := ⟨[(1, w)], by decide⟩
      stateTableInfoDelta := ⟨[(1, ⟨5, 2⟩)], by decide⟩ }
    let v1 := { v0 with
      id := 2
      tableWatermarks := (∅ : HashMap _ _).insert 1 w
      stateTableInfo := ⟨(∅ : HashMap _ _).insert 1 ⟨5, 2⟩,
        (∅ : MemberTables).insert 2 ((∅ : BTreeSet _).insert 1)⟩ }
    let d2 := { v1.versionDeltaAfter with
      newTableWatermarks := ⟨[(1, w)], by decide⟩
      removedTableIds := [1] }
    let v2 := { v1 with id := 3, tableWatermarks := ∅, stateTableInfo := .empty }
    Run true ⟨1⟩ [⟨v1, d2, v2⟩, ⟨v0, d1, v1⟩] v2 ∧ TablesExist v1 ∧ TablesExist v2 := by
  intro w v0 d1 v1 d2 v2
  have hrun : Run true ⟨1⟩ [⟨v1, d2, v2⟩, ⟨v0, d1, v1⟩] v2 :=
    .step (.step .init (by decide +kernel)) (by decide +kernel)
  have hkeys : ∀ t, d1.newTableWatermarks.contains t = true ↔ t = 1 := by
    simp [d1, contains_iff_mem_keys]
  have hlog : ∀ t, d1.changeLogDelta.contains t = true ↔ False := by
    simp [d1, versionDeltaAfter, contains_iff_mem_keys, IterMap.empty]
  have hall := (run_tablesExist_iff hrun fun st hst => ?_).2 fun st hst => ?_
  · exact ⟨hrun, hall _ (.tail _ (.head _)), hall _ (.head _)⟩
  · intro t ht
    rcases mem_pair.1 hst with rfl | rfl
    · exact .inr (by rw [show t = 1 from (hkeys t).1 (ht.resolve_right (hlog t).1)]; exact .head _)
    · exact .inl (by rw [show t = 1 from (hkeys t).1 (ht.resolve_right (hlog t).1)]; decide)
  · intro t ht
    rcases mem_pair.1 hst with rfl | rfl
    · rw [show t = 1 by simpa [d2] using ht]
      decide
    · simp [d1, versionDeltaAfter] at ht

end Hummock
