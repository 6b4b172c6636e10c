import RisingLake.Hummock.StateTableInfo

/-!
# The member table index stays exact

`Indexed s`: the member tables of a group are the tables whose info names the group, and no member
set is empty. There is only one such index for an info map (`IndexedBy.ext`), so it is the one that
`buildCompactionGroupMemberTables` rebuilds, in whatever order (`Indexed.rebuild`).

`applyDelta` on an indexed state is described by lookups: `applyDelta_ok` says what every table's
entry and every table's place in the returned map become, when no committed epoch of the delta
regresses, and `applyDelta_regress` that it panics otherwise. Neither depends on the order in which
the delta is visited, hence `applyDelta_same`.
-/

namespace Hummock

open Res List Std.ExtTreeSet HashMap IterMap

/-! ## Indexes -/

/-- The index holds table `t` in group `g` exactly if `P t g`, and no empty set. -/
structure MemberTables.IndexedBy (members : MemberTables) (P : TableId → CompactionGroupId → Prop) :
    Prop where
  mem_iff : ∀ (g : CompactionGroupId) (t : TableId), t ∈ members[g]?.getD ∅ ↔ P t g
  nonempty : ∀ (g : CompactionGroupId) (tables : BTreeSet TableId), members[g]? = some tables →
    ∃ t, t ∈ tables

variable {t : TableId}

namespace MemberTables.IndexedBy

variable {members members' : MemberTables} {P Q : TableId → CompactionGroupId → Prop}

theorem congr (h : members.IndexedBy P) (hpq : ∀ t g, P t g ↔ Q t g) : members.IndexedBy Q where
  mem_iff := fun g t => (h.mem_iff g t).trans (hpq t g)
  nonempty := h.nonempty

theorem empty : IndexedBy ∅ fun _ _ => False where
  mem_iff := by simp
  nonempty := by simp

theorem ext (h : members.IndexedBy P) (h' : members'.IndexedBy P) : members = members' := by
  apply Std.ExtTreeMap.ext_getElem?
  intro g
  have hmem : ∀ t, t ∈ members[g]?.getD ∅ ↔ t ∈ members'[g]?.getD ∅ :=
    fun t => (h.mem_iff g t).trans (h'.mem_iff g t).symm
  cases hg : members[g]? with
  | none =>
    cases hg' : members'[g]? with
    | none => rfl
    | some tables =>
      obtain ⟨t, ht⟩ := h'.nonempty g tables hg'
      simpa [hg] using (hmem t).2 (by simpa [hg'] using ht)
  | some tables =>
    cases hg' : members'[g]? with
    | none =>
      obtain ⟨t, ht⟩ := h.nonempty g tables hg
      simpa [hg'] using (hmem t).1 (by simpa [hg] using ht)
    | some tables' =>
      exact congrArg some (ext_mem fun t => by simpa [hg, hg'] using hmem t)

variable {g : CompactionGroupId}

theorem insertTable_ok (h : members.IndexedBy P)
    (hn : ¬P t g) : ∃ members', members.insertTable g t = .ok members' ∧
      members'.IndexedBy fun t' g' => P t' g' ∨ (t' = t ∧ g' = g) := by
  have hnot : (members[g]?.getD ∅).contains t = false := by
    rw [← Bool.not_eq_true, Std.ExtTreeSet.contains_iff_mem, h.mem_iff]
    exact hn
  refine ⟨members.insert g ((members[g]?.getD ∅).insert t), ?_, ?_, ?_⟩
  · simp only [insertTable, hnot, Bool.not_false, assert_true, ok_bind]
  · intro g' t'
    rw [getElem?_insert_eq]
    by_cases hg : g = g'
    · subst hg
      simp only [if_true, Option.getD_some, mem_insert, Std.LawfulEqCmp.compare_eq_iff_eq,
        h.mem_iff, and_true]
      rw [or_comm, eq_comm]
    · simp [hg, h.mem_iff, Ne.symm hg]
  · intro g' tables hg'
    rw [getElem?_insert_eq] at hg'
    split at hg'
    · cases hg'
      exact ⟨t, mem_insert_self⟩
    · exact h.nonempty g' tables hg'

theorem removeTable_ok (h : members.IndexedBy P)
    (hp : P t g) : ∃ members', members.removeTableFromCompactionGroup g t = .ok members' ∧
      members'.IndexedBy fun t' g' => P t' g' ∧ ¬(t' = t ∧ g' = g) := by
  have hmem := (h.mem_iff g t).2 hp
  obtain ⟨tables, hg⟩ : ∃ tables, members[g]? = some tables := by
    cases hg : members[g]? with
    | none => simp [hg] at hmem
    | some tables => exact ⟨tables, rfl⟩
  have hmem : t ∈ tables := by simpa [hg] using hmem
  have herase : ∀ t', t' ∈ tables.erase t ↔ P t' g ∧ t' ≠ t := by
    intro t'
    rw [mem_erase, ← h.mem_iff g t', hg, Option.getD_some, and_comm,
      Std.LawfulEqCmp.compare_eq_iff_eq.ne, ne_comm]
  refine ⟨if (tables.erase t).isEmpty then members.erase g
    else members.insert g (tables.erase t), ?_, ?_, ?_⟩
  · simp [removeTableFromCompactionGroup, hg, unwrap, assert, hmem]
  · intro g' t'
    by_cases hg' : g = g'
    · subst hg'
      split
      · rename_i hempty
        have := herase t'
        rw [isEmpty_iff.1 hempty] at this
        simpa using this
      · rw [getElem?_insert_eq, if_pos rfl, Option.getD_some, herase t']
        simp
    · have hsame : (if (tables.erase t).isEmpty = true then members.erase g
          else members.insert g (tables.erase t))[g']? = members[g']? := by
        split
        · rw [getElem?_erase_eq, if_neg hg']
        · rw [getElem?_insert_eq, if_neg hg']
      rw [hsame, h.mem_iff]
      simp [Ne.symm hg']
  · intro g' tables' hg'
    split at hg'
    · rw [getElem?_erase_eq] at hg'
      split at hg'
      · cases hg'
      · exact h.nonempty g' tables' hg'
    rename_i hne
    rw [getElem?_insert_eq] at hg'
    split at hg'
    · cases hg'
      by_contra hno
      refine hne (isEmpty_iff.2 (ext_mem fun t' => ?_))
      exact ⟨fun ht' => absurd ⟨t', ht'⟩ hno, fun ht' => by simp at ht'⟩
    · exact h.nonempty g' tables' hg'

end MemberTables.IndexedBy

namespace HummockVersionStateTableInfo

def groupOf (info : HashMap TableId StateTableInfo) (t : TableId) : Option CompactionGroupId :=
  info[t]?.map (·.compactionGroupId)

/-- The index is the one of the info map. -/
def Indexed (s : HummockVersionStateTableInfo) : Prop :=
  s.compactionGroupMemberTables.IndexedBy fun t g => groupOf s.stateTableInfo t = some g

theorem Indexed.empty : Indexed empty :=
  MemberTables.IndexedBy.empty.congr fun t g => by
    simp [groupOf, HummockVersionStateTableInfo.empty]

theorem foldlM_insertTable_ok : ∀ {es : List (TableId × StateTableInfo)} {members : MemberTables}
    {P : TableId → CompactionGroupId → Prop}, members.IndexedBy P →
      es.Pairwise (fun a b => a.1 ≠ b.1) → (∀ e ∈ es, ∀ g, ¬P e.1 g) →
      ∃ members', es.foldlM (fun ret e => ret.insertTable e.2.compactionGroupId e.1) members =
        .ok members' ∧ members'.IndexedBy fun t g =>
          P t g ∨ ∃ e ∈ es, e.1 = t ∧ e.2.compactionGroupId = g
  | [], members, P, h, _, _ => ⟨members, rfl, h.congr (by simp)⟩
  | e :: es, members, P, h, hnd, hnew => by
    rw [pairwise_cons] at hnd
    obtain ⟨members1, h1, hidx1⟩ := h.insertTable_ok (hnew e (.head _) e.2.compactionGroupId)
    obtain ⟨members2, h2, hidx2⟩ := foldlM_insertTable_ok hidx1 hnd.2 fun e' he' g hp => by
      rcases hp with hp | ⟨heq, -⟩
      · exact hnew e' (.tail _ he') g hp
      · exact hnd.1 e' he' heq.symm
    refine ⟨members2, by rw [foldlM_cons, h1, ok_bind, h2], hidx2.congr fun t g => ?_⟩
    constructor
    · rintro ((hp | ⟨rfl, rfl⟩) | ⟨e', he', heq⟩)
      · exact .inl hp
      · exact .inr ⟨e, .head _, rfl, rfl⟩
      · exact .inr ⟨e', .tail _ he', heq⟩
    · rintro (hp | ⟨e', he', rfl, rfl⟩)
      · exact .inl (.inl hp)
      · rcases mem_cons.1 he' with rfl | he'
        · exact .inl (.inr ⟨rfl, rfl⟩)
        · exact .inr ⟨e', he', rfl, rfl⟩

theorem build_ok (info : HashMap TableId StateTableInfo) :
    ∃ members, buildCompactionGroupMemberTables info = .ok members ∧ Indexed ⟨info, members⟩ := by
  have hnd : info.toList.Pairwise fun a b => a.1 ≠ b.1 :=
    Std.ExtTreeMap.distinct_keys_toList.imp fun {a b} hab heq => by simp [heq] at hab
  obtain ⟨members, hrun, hidx⟩ := foldlM_insertTable_ok .empty hnd (by simp)
  refine ⟨members, hrun, hidx.congr fun t g => ?_⟩
  simp only [false_or, groupOf, Option.map_eq_some_iff, Prod.exists]
  constructor
  · rintro ⟨t', i, hmem, rfl, rfl⟩
    exact ⟨i, Std.ExtTreeMap.mem_toList_iff_getElem?_eq_some.1 hmem, rfl⟩
  · rintro ⟨i, hi, rfl⟩
    exact ⟨t, i, Std.ExtTreeMap.mem_toList_iff_getElem?_eq_some.2 hi, rfl, rfl⟩

variable {s : HummockVersionStateTableInfo}

theorem Indexed.rebuild (h : s.Indexed) :
    buildCompactionGroupMemberTables s.stateTableInfo = .ok s.compactionGroupMemberTables := by
  obtain ⟨members, hrun, hidx⟩ := build_ok s.stateTableInfo
  rw [hrun, h.ext hidx]

theorem fromProtobuf_ok (info : HashMap TableId StateTableInfo) :
    ∃ s, fromProtobuf info = .ok s ∧ s.Indexed ∧ s.stateTableInfo = info := by
  obtain ⟨members, hrun, hidx⟩ := build_ok info
  exact ⟨⟨info, members⟩, by simp [fromProtobuf, hrun], hidx, rfl⟩

/-! ## Removed tables -/

theorem Indexed.of_update (info : HashMap TableId StateTableInfo)
    {info' : HashMap TableId StateTableInfo} {members' : MemberTables} (t : TableId)
    (hsame : ∀ t', t' ≠ t → info'[t']? = info[t']?) (hidx : members'.IndexedBy fun t' g =>
      if t' = t then groupOf info' t = some g else groupOf info t' = some g) :
    Indexed ⟨info', members'⟩ := by
  refine hidx.congr fun t' g => ?_
  split
  · rename_i heq
    rw [heq]
  · rename_i hne
    simp [groupOf, hsame t' hne]

theorem removeTable_ok {s : ApplyState} (h : s.self.Indexed) (t : TableId)
    (hch : s.self.stateTableInfo[t]?.isSome → s.changedTable[t]? = none) :
    ∃ s', removeTable s t = .ok s' ∧ s'.self.Indexed ∧
      (∀ t', s'.self.stateTableInfo[t']? = if t' = t then none else s.self.stateTableInfo[t']?) ∧
      (∀ t', s'.changedTable[t']? = if t' = t ∧ s.self.stateTableInfo[t']?.isSome
        then some s.self.stateTableInfo[t']? else s.changedTable[t']?) ∧
      s'.hasBumpedCommittedEpoch = s.hasBumpedCommittedEpoch := by
  unfold removeTable
  cases hprev : s.self.stateTableInfo[t]? with
  | none =>
    refine ⟨s, rfl, h, fun t' => ?_, fun t' => ?_, rfl⟩
    · split
      · rename_i heq
        rw [heq, hprev]
      · rfl
    · rw [if_neg]
      rintro ⟨rfl, hsome⟩
      simp [hprev] at hsome
  | some prev =>
    have hgroup : groupOf s.self.stateTableInfo t = some prev.compactionGroupId := by
      simp [groupOf, hprev]
    obtain ⟨members', hrun, hidx⟩ := h.removeTable_ok hgroup
    have hnone := hch (by simp [hprev])
    refine ⟨⟨⟨s.self.stateTableInfo.erase t, members'⟩, s.changedTable.insert t (some prev),
      s.hasBumpedCommittedEpoch⟩, ?_, ?_, fun t' => ?_, fun t' => ?_, rfl⟩
    · simp only [hrun, ok_bind, hnone, assert, Option.isNone_none, if_true]
    · refine Indexed.of_update s.self.stateTableInfo t (fun t' hne => ?_) (hidx.congr fun t' g => ?_)
      · rw [getElem?_erase_eq, if_neg (Ne.symm hne)]
      · by_cases heq : t' = t
        · subst heq
          simp [groupOf, hprev, eq_comm]
        · simp [heq]
    · simp only [getElem?_erase_eq, eq_comm]
    · simp only [getElem?_insert_eq]
      by_cases heq : t = t'
      · subst heq
        simp [hprev]
      · simp [heq, Ne.symm heq]

theorem removeTables_ok : ∀ (removed : List TableId) {s : ApplyState}, s.self.Indexed →
    (∀ t : TableId, s.self.stateTableInfo[t]?.isSome → s.changedTable[t]? = none) →
    ∃ s', removed.foldlM removeTable s = .ok s' ∧ s'.self.Indexed ∧
      (∀ t, s'.self.stateTableInfo[t]? =
        if t ∈ removed then none else s.self.stateTableInfo[t]?) ∧
      (∀ t, s'.changedTable[t]? = if t ∈ removed ∧ s.self.stateTableInfo[t]?.isSome
        then some s.self.stateTableInfo[t]? else s.changedTable[t]?) ∧
      s'.hasBumpedCommittedEpoch = s.hasBumpedCommittedEpoch
  | [], s, h, _ => ⟨s, rfl, h, by simp, by simp, rfl⟩
  | t :: removed, s, h, hch => by
    obtain ⟨s1, h1, hidx1, hinfo1, hch1, hb1⟩ := removeTable_ok h t (hch t)
    obtain ⟨s2, h2, hidx2, hinfo2, hch2, hb2⟩ := removeTables_ok removed hidx1 fun t' ht' => by
      rw [hinfo1] at ht'
      split at ht'
      · simp at ht'
      · rename_i hne
        rw [hch1, if_neg (by simp [hne])]
        exact hch t' ht'
    refine ⟨s2, by rw [foldlM_cons, h1, ok_bind, h2], hidx2, fun t' => ?_, fun t' => ?_, hb2.trans hb1⟩
    · rw [hinfo2, hinfo1]
      by_cases heq : t' = t <;> by_cases hmem : t' ∈ removed <;> simp [heq]
    · rw [hch2, hinfo1, hch1]
      by_cases heq : t' = t
      · simp [heq]
      · simp [heq]

/-! ## Created, committed and moved tables -/

/-- The delta lowers the committed epoch of a table. -/
def Regress (info : HashMap TableId StateTableInfo) (e : TableId × StateTableInfoDelta) : Prop :=
  ∃ prev, info[e.1]? = some prev ∧ e.2.committedEpoch < prev.committedEpoch

/-- The delta creates a table or raises its committed epoch. -/
def bumps (info : HashMap TableId StateTableInfo) (e : TableId × StateTableInfoDelta) : Bool :=
  info[e.1]?.all (·.committedEpoch < e.2.committedEpoch)

variable {removed : List TableId} {e : TableId × StateTableInfoDelta}

theorem applyTableDelta_regress {s : ApplyState} (he : e.1 ∉ removed)
    (hr : Regress s.self.stateTableInfo e) :
    applyTableDelta removed s e = .error (.assert "state table info regress") := by
  obtain ⟨prev, hprev, hlt⟩ := hr
  simp [applyTableDelta, he, hprev, show ¬prev.committedEpoch ≤ e.2.committedEpoch from not_le.2 hlt]

theorem applyTableDelta_ok {s : ApplyState} {d : StateTableInfoDelta} (h : s.self.Indexed)
    (ht : t ∉ removed) (hr : ¬Regress s.self.stateTableInfo (t, d)) :
    ∃ members, applyTableDelta removed s (t, d) = .ok {
        self := ⟨s.self.stateTableInfo.insert t ⟨d.committedEpoch, d.compactionGroupId⟩, members⟩
        changedTable := s.changedTable.insert t s.self.stateTableInfo[t]?
        hasBumpedCommittedEpoch := s.hasBumpedCommittedEpoch || bumps s.self.stateTableInfo (t, d) } ∧
      Indexed ⟨s.self.stateTableInfo.insert t ⟨d.committedEpoch, d.compactionGroupId⟩, members⟩ := by
  have hupdate : ∀ members : MemberTables, (members.IndexedBy fun t' g =>
        if t' = t then d.compactionGroupId = g else groupOf s.self.stateTableInfo t' = some g) →
      Indexed ⟨s.self.stateTableInfo.insert t ⟨d.committedEpoch, d.compactionGroupId⟩, members⟩ := by
    intro members hidx
    refine Indexed.of_update s.self.stateTableInfo t (fun t' hne => ?_) (hidx.congr fun t' g => ?_)
    · rw [getElem?_insert_eq, if_neg (Ne.symm hne)]
    · simp [groupOf]
  simp only [applyTableDelta, contains_eq_mem, ht, decide_false, Bool.false_eq_true]
  cases hprev : s.self.stateTableInfo[t]? with
  | none =>
    have hgroup : groupOf s.self.stateTableInfo t = none := by simp [groupOf, hprev]
    obtain ⟨members, hrun, hidx⟩ :=
      h.insertTable_ok (g := d.compactionGroupId) (t := t) (by simp [hgroup])
    refine ⟨members, by simp [hrun, bumps, hprev], hupdate members (hidx.congr fun t' g => ?_)⟩
    by_cases heq : t' = t
    · subst heq
      simp [hgroup, eq_comm]
    · simp [heq]
  | some prev =>
    have hle : prev.committedEpoch ≤ d.committedEpoch := not_lt.1 fun hlt => hr ⟨prev, hprev, hlt⟩
    have hgroup : groupOf s.self.stateTableInfo t = some prev.compactionGroupId := by
      simp [groupOf, hprev]
    by_cases hmove : prev.compactionGroupId = d.compactionGroupId
    · -- the table stays in its group
      refine ⟨s.self.compactionGroupMemberTables, by simp [hle, hmove, bumps, hprev],
        hupdate _ (h.congr fun t' g => ?_)⟩
      by_cases heq : t' = t
      · subst heq
        simp [hgroup, hmove]
      · simp [heq]
    · obtain ⟨members1, hrun1, hidx1⟩ := h.removeTable_ok hgroup
      obtain ⟨members2, hrun2, hidx2⟩ := hidx1.insertTable_ok (g := d.compactionGroupId) (t := t)
        (by simp [hgroup, hmove])
      refine ⟨members2, by simp [hle, hmove, hrun1, hrun2, bumps, hprev],
        hupdate _ (hidx2.congr fun t' g => ?_)⟩
      by_cases heq : t' = t
      · subst heq
        simp only [hgroup, true_and, Option.some.injEq]
        constructor
        · rintro (⟨rfl, hne⟩ | rfl)
          · exact absurd rfl hne
          · rfl
        · rintro rfl; exact .inr rfl
      · simp [heq]

variable {es : List (TableId × StateTableInfoDelta)}

theorem lookup_eq_none_of_notMem (h : t ∉ es.map (·.1)) : es.lookup t = none := by
  rw [lookup_eq_none_iff]
  intro e he
  simp only [bne_iff_ne]
  rintro rfl
  exact h (mem_map_of_mem he)

theorem applyTableDeltas_ok (removed : List TableId) :
    ∀ {es : List (TableId × StateTableInfoDelta)} {s : ApplyState}, s.self.Indexed →
      (es.map (·.1)).Nodup →
      (∀ e ∈ es, e.1 ∉ removed → ¬Regress s.self.stateTableInfo e) →
      ∃ s', es.foldlM (applyTableDelta removed) s = .ok s' ∧ s'.self.Indexed ∧
        (∀ t, s'.self.stateTableInfo[t]? = if t ∈ removed then s.self.stateTableInfo[t]?
          else ((es.lookup t).map fun d => ⟨d.committedEpoch, d.compactionGroupId⟩).or
            s.self.stateTableInfo[t]?) ∧
        (∀ t, s'.changedTable[t]? = if t ∈ removed then s.changedTable[t]?
          else ((es.lookup t).map fun _ => s.self.stateTableInfo[t]?).or s.changedTable[t]?) ∧
        s'.hasBumpedCommittedEpoch = (s.hasBumpedCommittedEpoch ||
          es.any fun e => !removed.contains e.1 && bumps s.self.stateTableInfo e)
  | [], s, h, _, _ => ⟨s, rfl, h, by simp, by simp, by simp⟩
  | e :: es, s, h, hnd, hr => by
    obtain ⟨t, d⟩ := e
    rw [map_cons, nodup_cons] at hnd
    have hlookup := lookup_eq_none_of_notMem hnd.1
    by_cases hmem : t ∈ removed
    · obtain ⟨s', hrun, hidx, hinfo, hch, hb⟩ := applyTableDeltas_ok removed h hnd.2
        fun e' he' => hr e' (.tail _ he')
      refine ⟨s', ?_, hidx, fun t' => ?_, fun t' => ?_, ?_⟩
      · simp [applyTableDelta, hmem, hrun]
      · by_cases heq : t' = t <;> simp [hinfo, lookup_cons_eq, heq, hmem]
      · by_cases heq : t' = t <;> simp [hch, lookup_cons_eq, heq, hmem]
      · simp [hb, hmem]
    · obtain ⟨members, h1, hidx1⟩ := applyTableDelta_ok h hmem (hr _ (.head _) hmem)
      -- the other tables still have the entries they had
      have hother : ∀ t', t' ≠ t → (s.self.stateTableInfo.insert t
          ⟨d.committedEpoch, d.compactionGroupId⟩)[t']? = s.self.stateTableInfo[t']? :=
        fun t' hne => by rw [getElem?_insert_eq, if_neg (Ne.symm hne)]
      have hne : ∀ e' ∈ es, e'.1 ≠ t := fun e' he' heq => hnd.1 (mem_map.2 ⟨e', he', heq⟩)
      obtain ⟨s2, h2, hidx2, hinfo2, hch2, hb2⟩ := applyTableDeltas_ok removed
        (s := ⟨_, _, _⟩) hidx1 hnd.2 fun e' he' hnot hreg => hr e' (.tail _ he') hnot (by
          simpa only [Regress, hother e'.1 (hne e' he')] using hreg)
      refine ⟨s2, by rw [foldlM_cons, h1, ok_bind, h2], hidx2, fun t' => ?_, fun t' => ?_, ?_⟩
      · rw [hinfo2, lookup_cons_eq]
        by_cases heq : t' = t
        · subst heq
          simp [hmem, hlookup]
        · simp [heq, hother t' heq]
      · rw [hch2, lookup_cons_eq, getElem?_insert_eq]
        by_cases heq : t' = t
        · subst heq
          simp [hmem, hlookup]
        · simp [heq, hother t' heq, Ne.symm heq]
      · have hany : (es.any fun e => !removed.contains e.1 && bumps (s.self.stateTableInfo.insert t
            ⟨d.committedEpoch, d.compactionGroupId⟩) e) =
            es.any fun e => !removed.contains e.1 && bumps s.self.stateTableInfo e := by
          rw [Bool.eq_iff_iff, any_eq_true, any_eq_true]
          refine exists_congr fun e' => and_congr_right fun he' => ?_
          simp [bumps, hother e'.1 (hne e' he')]
        rw [hb2, any_cons]
        rw [hany, Bool.or_assoc, contains_eq_mem, decide_eq_false hmem, Bool.not_false, Bool.true_and]

theorem applyTableDeltas_regress {s : ApplyState} (h : s.self.Indexed) (hnd : (es.map (·.1)).Nodup)
    (hr : ∃ e ∈ es, e.1 ∉ removed ∧ Regress s.self.stateTableInfo e) :
    es.foldlM (applyTableDelta removed) s = .error (.assert "state table info regress") := by
  classical
  -- the entries before the first that regresses are applied
  obtain ⟨e, he⟩ := Option.isSome_iff_exists.1 (find?_isSome (p := fun e =>
    decide (e.1 ∉ removed ∧ Regress s.self.stateTableInfo e)).2 (by simpa using hr))
  obtain ⟨hp, done, rest, rfl, hdone⟩ := find?_eq_some_iff_append.1 he
  obtain ⟨hmem, hreg⟩ := of_decide_eq_true hp
  rw [map_append, nodup_append'] at hnd
  obtain ⟨s', hrun, -, hinfo, -⟩ := applyTableDeltas_ok removed h hnd.1 fun e' he' hmem' hreg' => by
    simpa [hmem', hreg'] using hdone e' he'
  have hlookup := lookup_eq_none_of_notMem fun hin => hnd.2.2 hin (.head _)
  rw [foldlM_append, hrun, ok_bind, foldlM_cons, applyTableDelta_regress hmem, error_bind]
  simpa [Regress, hinfo, hlookup] using hreg

/-! ## The whole delta -/

section
variable (s : HummockVersionStateTableInfo) (delta : IterMap TableId StateTableInfoDelta)
  (removed : List TableId)

/-- The entry of a table after the delta. -/
def infoAfter (t : TableId) : Option StateTableInfo :=
  if t ∈ removed then none
  else ((delta.get? t).map fun d => ⟨d.committedEpoch, d.compactionGroupId⟩).or s.stateTableInfo[t]?

/-- The entry of a table in the map that `applyDelta` returns. -/
def changedAfter (t : TableId) : Option (Option StateTableInfo) :=
  if t ∈ removed then s.stateTableInfo[t]?.map some
  else (delta.get? t).map fun _ => s.stateTableInfo[t]?

/-- A committed epoch of the delta regresses. -/
def Regresses : Prop := ∃ e ∈ delta.entries, e.1 ∉ removed ∧ Regress s.stateTableInfo e

/-- A table of the delta is created or its committed epoch progresses. -/
def bumped : Bool := delta.entries.any fun e => !removed.contains e.1 && bumps s.stateTableInfo e

end

variable {changed : HashMap TableId (Option StateTableInfo)}

section
variable {s' : HummockVersionStateTableInfo} {delta delta' : IterMap TableId StateTableInfoDelta}
  {removed' : List TableId} (dbg : Bool)

theorem removeTables_start (h : s.Indexed) (removed : List TableId) :
    ∃ r : ApplyState, removed.foldlM removeTable ⟨s, ∅, false⟩ = .ok r ∧ r.self.Indexed ∧
      (∀ t, r.self.stateTableInfo[t]? = if t ∈ removed then none else s.stateTableInfo[t]?) ∧
      (∀ t, r.changedTable[t]? = if t ∈ removed then s.stateTableInfo[t]?.map some else none) ∧
      r.hasBumpedCommittedEpoch = false := by
  obtain ⟨r, hrun, hidx, hinfo, hch, hb⟩ := removeTables_ok removed (s := ⟨s, ∅, false⟩) h (by simp)
  refine ⟨r, hrun, hidx, hinfo, fun t => ?_, hb⟩
  rw [hch]
  by_cases hmem : t ∈ removed
  · cases s.stateTableInfo[t]? <;> simp
  · simp [hmem]

theorem regress_start {r : ApplyState} (hinfo : ∀ t : TableId,
      r.self.stateTableInfo[t]? = if t ∈ removed then none else s.stateTableInfo[t]?)
    (he : e.1 ∉ removed) : (Regress r.self.stateTableInfo e ↔ Regress s.stateTableInfo e) ∧
      bumps r.self.stateTableInfo e = bumps s.stateTableInfo e := by
  simp [Regress, bumps, hinfo, he]

theorem applyDelta_ok (h : s.Indexed) (hr : ¬Regresses s delta removed) :
    ∃ s' changed, applyDelta dbg s delta removed = .ok (s', changed, bumped s delta removed) ∧
      s'.Indexed ∧ (∀ t, s'.stateTableInfo[t]? = infoAfter s delta removed t) ∧
      ∀ t, changed[t]? = changedAfter s delta removed t := by
  obtain ⟨r, hrun, hidx, hinfo, hch, hb⟩ := removeTables_start h removed
  have hnot : ∀ e ∈ delta.entries, e.1 ∉ removed → ¬Regress r.self.stateTableInfo e :=
    fun e he hmem hreg => hr ⟨e, he, hmem, (regress_start hinfo hmem).1.1 hreg⟩
  obtain ⟨r', hrun', hidx', hinfo', hch', hb'⟩ := applyTableDeltas_ok removed hidx delta.nodup hnot
  refine ⟨r'.self, r'.changedTable, ?_, hidx', fun t => ?_, fun t => ?_⟩
  · have hbumped : r'.hasBumpedCommittedEpoch = bumped s delta removed := by
      rw [hb', hb, Bool.false_or, bumped, Bool.eq_iff_iff, any_eq_true, any_eq_true]
      refine exists_congr fun e => and_congr_right fun _ => ?_
      by_cases hmem : e.1 ∈ removed
      · simp [hmem]
      · simp [(regress_start hinfo hmem).2]
    simp only [applyDelta, hrun, hrun', ok_bind, hidx'.rebuild, ite_self, decide_true, assert,
      if_true, hbumped]
  · rw [hinfo', hinfo, infoAfter]
    split <;> rfl
  · rw [hch', hch, hinfo, changedAfter]
    split
    · rfl
    · simp [IterMap.get?]

theorem applyDelta_regress (h : s.Indexed) (hr : Regresses s delta removed) :
    applyDelta dbg s delta removed = .error (.assert "state table info regress") := by
  obtain ⟨r, hrun, hidx, hinfo, -, -⟩ := removeTables_start h removed
  obtain ⟨e, he, hmem, hreg⟩ := hr
  have := applyTableDeltas_regress hidx delta.nodup
    ⟨e, he, hmem, (regress_start hinfo hmem).1.2 hreg⟩
  simp [applyDelta, hrun, this]

theorem applyDelta_spec (h : s.Indexed) {b : Bool}
    (hrun : applyDelta dbg s delta removed = .ok (s', changed, b)) :
    ¬Regresses s delta removed ∧ s'.Indexed ∧
      (∀ t, s'.stateTableInfo[t]? = infoAfter s delta removed t) ∧
      (∀ t, changed[t]? = changedAfter s delta removed t) ∧ b = bumped s delta removed := by
  have hr : ¬Regresses s delta removed := fun hr => by
    rw [applyDelta_regress dbg h hr] at hrun
    cases hrun
  obtain ⟨s1, changed1, hrun1, hidx, hinfo, hch⟩ := applyDelta_ok dbg h hr
  rw [hrun1] at hrun
  cases hrun
  exact ⟨hr, hidx, hinfo, hch, rfl⟩

/-- The order of the delta map and of the removed tables does not matter. -/
theorem applyDelta_same (h : s.Indexed) (hd : delta.Same delta')
    (hrem : ∀ t, t ∈ removed ↔ t ∈ removed') :
    applyDelta dbg s delta removed = applyDelta dbg s delta' removed' := by
  have hreg : Regresses s delta removed ↔ Regresses s delta' removed' := by
    simp only [Regresses, hrem, hd.mem_iff]
  by_cases hr : Regresses s delta removed
  · rw [applyDelta_regress dbg h hr, applyDelta_regress dbg h (hreg.1 hr)]
  obtain ⟨s1, c1, hrun1, hidx1, hinfo1, hch1⟩ := applyDelta_ok dbg h hr
  obtain ⟨s2, c2, hrun2, hidx2, hinfo2, hch2⟩ := applyDelta_ok dbg h fun hr' => hr (hreg.2 hr')
  have hinfo : s1.stateTableInfo = s2.stateTableInfo := Std.ExtTreeMap.ext_getElem? fun t => by
    rw [hinfo1, hinfo2]
    simp only [infoAfter, hrem, hd.get? t]
  have hch : c1 = c2 := Std.ExtTreeMap.ext_getElem? fun t => by
    rw [hch1, hch2]
    simp only [changedAfter, hrem, hd.get? t]
  have hmembers : s1.compactionGroupMemberTables = s2.compactionGroupMemberTables := by
    refine hidx1.ext (hidx2.congr fun t g => ?_)
    rw [hinfo]
  have hb : bumped s delta removed = bumped s delta' removed' := by
    rw [Bool.eq_iff_iff, bumped, bumped, any_eq_true, any_eq_true]
    simp only [hd.mem_iff, contains_eq_mem, hrem]
  obtain ⟨i1, m1⟩ := s1
  simp only at hinfo hmembers
  rw [hrun1, hrun2, hinfo, hmembers, hch, hb]

end

/-! ## Runs -/

/-- The states that `apply_delta` calls make out of an empty or a received state. -/
inductive Reachable (dbg : Bool) : HummockVersionStateTableInfo → Prop where
  | empty : Reachable dbg .empty
  | fromProtobuf {info s} : fromProtobuf info = .ok s → Reachable dbg s
  | step {s s' delta removed changed b} : Reachable dbg s →
      applyDelta dbg s delta removed = .ok (s', changed, b) → Reachable dbg s'

theorem Reachable.indexed {dbg : Bool} (h : Reachable dbg s) : s.Indexed := by
  induction h with
  | empty => exact .empty
  | @fromProtobuf info s hrun =>
    obtain ⟨s', hrun', hidx, -⟩ := fromProtobuf_ok info
    rw [hrun] at hrun'
    cases hrun'
    exact hidx
  | step _ hrun ih => exact (applyDelta_spec _ ih hrun).2.1

theorem applyDelta_epoch_le {dbg : Bool} {s' : HummockVersionStateTableInfo}
    {delta : IterMap TableId StateTableInfoDelta}
    {b : Bool} (h : s.Indexed) (hrun : applyDelta dbg s delta removed = .ok (s', changed, b))
    {i i' : StateTableInfo} (hi : s.stateTableInfo[t]? = some i)
    (hi' : s'.stateTableInfo[t]? = some i') : i.committedEpoch ≤ i'.committedEpoch := by
  obtain ⟨hreg, -, hinfo, -, -⟩ := applyDelta_spec _ h hrun
  rw [hinfo, infoAfter] at hi'
  split at hi'
  · cases hi'
  rename_i hmem
  cases hd : delta.get? t with
  | none =>
    rw [hd, hi] at hi'
    cases hi'
    exact le_rfl
  | some d =>
    rw [hd] at hi'
    cases hi'
    refine not_lt.1 fun hlt => hreg ⟨(t, d), get?_eq_some_iff.1 hd, hmem, i, hi, hlt⟩

/-- **The index is exact in every run**: it is the one rebuilt from the info map, with no empty set
and every table in the set of its own group. A delta fails just if it lowers a committed epoch;
otherwise it removes, writes and keeps the entries that it should (`infoAfter`), and the map
returned gives the previous info of each removed table and of each table that the delta names,
`none` where it is created, whatever the order in which the delta is visited. -/
theorem reachable_stateTableInfo {dbg : Bool} {s : HummockVersionStateTableInfo}
    (h : Reachable dbg s) :
    (buildCompactionGroupMemberTables s.stateTableInfo = .ok s.compactionGroupMemberTables ∧
      (∀ (g : CompactionGroupId) tables, s.compactionGroupMemberTables[g]? = some tables →
        tables ≠ ∅) ∧
      ∀ g t, t ∈ s.compactionGroupMemberTableIds g ↔
        s.stateTableInfo[t]?.map (·.compactionGroupId) = some g) ∧
    (∀ delta removed, (∃ r, applyDelta dbg s delta removed = .ok r) ↔ ¬Regresses s delta removed) ∧
    ∀ delta removed s' changed b, applyDelta dbg s delta removed = .ok (s', changed, b) →
      (∀ t : TableId, s'.stateTableInfo[t]? = infoAfter s delta removed t) ∧
      (∀ (t : TableId) i i', s.stateTableInfo[t]? = some i → s'.stateTableInfo[t]? = some i' →
        i.committedEpoch ≤ i'.committedEpoch) ∧
      (∀ t : TableId, changed[t]? =
        if t ∈ removed then s.stateTableInfo[t]?.map some
        else if delta.contains t then some s.stateTableInfo[t]? else none) ∧
      ∀ delta' removed', delta.Same delta' → (∀ t, t ∈ removed ↔ t ∈ removed') →
        applyDelta dbg s delta' removed' = .ok (s', changed, b) := by
  have hidx := h.indexed
  refine ⟨⟨hidx.rebuild, fun g tables hg hempty => ?_, hidx.mem_iff⟩, fun delta removed => ?_,
    fun delta removed s' changed b hrun => ⟨(applyDelta_spec _ hidx hrun).2.2.1,
      fun t i i' => applyDelta_epoch_le hidx hrun, fun t => ?_, fun delta' removed' hd hrem => ?_⟩⟩
  · obtain ⟨t, ht⟩ := hidx.nonempty g tables hg
    simp [hempty] at ht
  · refine ⟨fun ⟨_, hrun⟩ => (applyDelta_spec _ hidx hrun).1, fun hr => ?_⟩
    obtain ⟨s', changed, hrun, -⟩ := applyDelta_ok dbg hidx hr
    exact ⟨_, hrun⟩
  · rw [(applyDelta_spec _ hidx hrun).2.2.2.1, changedAfter, IterMap.contains]
    cases delta.get? t <;> rfl
  · rw [← hrun, applyDelta_same _ hidx hd hrem]

/-- A table named with the info it has is in the returned map, although its entry does not change.
-/
theorem applyDelta_reports_unchanged : let s : HummockVersionStateTableInfo :=
      ⟨(∅ : HashMap _ _).insert 1 ⟨5, 2⟩, (∅ : MemberTables).insert 2 ((∅ : BTreeSet _).insert 1)⟩
    Reachable true s ∧ applyDelta true s ⟨[(1, ⟨5, 2⟩)], by decide⟩ [] =
        .ok (s, (∅ : HashMap _ _).insert 1 (some ⟨5, 2⟩), false) := by
  intro s
  have hs : applyDelta true .empty ⟨[(1, ⟨5, 2⟩)], by decide⟩ [] =
      .ok (s, (∅ : HashMap _ _).insert 1 none, true) := by decide +kernel
  exact ⟨.step .empty hs, by decide +kernel⟩

/-- A delta that removes table 1, moves table 2 and creates table 3, visited in either order. -/
theorem reachable_stateTableInfo_three : let s : HummockVersionStateTableInfo :=
      ⟨((∅ : HashMap _ _).insert 1 ⟨5, 2⟩).insert 2 ⟨5, 2⟩,
        (∅ : MemberTables).insert 2 (((∅ : BTreeSet _).insert 1).insert 2)⟩
    let s' : HummockVersionStateTableInfo :=
      ⟨((∅ : HashMap _ _).insert 2 ⟨7, 3⟩).insert 3 ⟨7, 3⟩,
        (∅ : MemberTables).insert 3 (((∅ : BTreeSet _).insert 2).insert 3)⟩
    applyDelta true s ⟨[(2, ⟨7, 3⟩), (3, ⟨7, 3⟩)], by decide⟩ [1] =
      applyDelta true s ⟨[(3, ⟨7, 3⟩), (2, ⟨7, 3⟩)], by decide⟩ [1] ∧
    buildCompactionGroupMemberTables s'.stateTableInfo = .ok s'.compactionGroupMemberTables := by
  intro s s'
  have hs : Reachable true s := by
    refine .step .empty (show applyDelta true .empty
      ⟨[(1, ⟨5, 2⟩), (2, ⟨5, 2⟩)], by decide⟩ [] = .ok (s, ((∅ : HashMap _ _).insert 1 none).insert 2
        none, true) by decide +kernel)
  have hrun : applyDelta true s ⟨[(2, ⟨7, 3⟩), (3, ⟨7, 3⟩)], by decide⟩ [1] =
      .ok (s', (((∅ : HashMap _ _).insert 1 (some ⟨5, 2⟩)).insert 2 (some ⟨5, 2⟩)).insert 3 none,
        true) := by decide +kernel
  obtain ⟨-, -, -, hsame⟩ := (reachable_stateTableInfo hs).2.2 _ _ _ _ _ hrun
  have hsame := hsame ⟨[(3, ⟨7, 3⟩), (2, ⟨7, 3⟩)], by decide⟩ [1] (by exact .swap _ _ _) (by simp)
  exact ⟨by rw [hrun, hsame], (reachable_stateTableInfo (.step hs hrun)).1.1⟩

end HummockVersionStateTableInfo

end Hummock
