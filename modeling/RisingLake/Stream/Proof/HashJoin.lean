import RisingLake.Stream.Proof.HashJoinMatch

/-!
# A row and a chunk of the hash join

`JoinInv` says that the tables and the caches of both sides hold the rows of the inputs that can
match, with the numbers of their matches. A row of a chunk keeps it, and what is sent for the row
turns the join of the inputs before it into the join after it (`handleRow_spec`,
`eqJoinOneside_spec`).
-/

namespace Stream

open Res Change Multiset JoinHashMapDesc JoinChunkBuilder

namespace JoinSides

variable {S O : Type} {u m : Nat} [DecidableEq S] {j : JoinSides S u m O} {build : Build}
  {row : Row S u} {out : JoinChunkBuilder O} {rs : List (Record O)} {canM : Row S m → Bool}
  {U : Multiset (Row S u)} {M : Multiset (Row S m)}

/-- What holds of the two sides: a row that matches another one is one that is stored, and the
degrees of the match side are kept where the join type reads them, unless the join key has the
primary key of the update side. -/
structure SidesOk (j : JoinSides S u m O) (canM : Row S m → Bool) : Prop where
  updateOk : j.update.Ok
  matchedOk : j.matched.Ok
  canUpdate : ∀ {row r}, j.matchRow row r = true → j.canMatch row = true
  canMatched : ∀ {row r}, j.matchRow row r = true → canM r = true
  need : j.matched.needDegreeTable = (needMatchedDegree j.joinType j.side && !j.update.pkContainedInJk)

variable {r : Row S m}

theorem matchRow_iff : j.matchRow row r = true ↔
    j.update.joinKey row = j.matched.joinKey r ∧
      j.matched.nullsMatch (j.update.joinKey row) = true ∧
      j.check row r = true := by
  rw [matchRow, Bool.and_eq_true, Bool.and_eq_true, decide_eq_true_iff, and_assoc]

theorem matchRow_iff_check (hcan : j.canMatch row = true)
    (hkey : j.matched.joinKey r = j.update.joinKey row) : j.matchRow row r = true ↔
      j.check row r = true := by
  have hnulls : j.matched.nullsMatch (j.update.joinKey row) = true :=
    (Bool.and_eq_true_iff.1 hcan).2
  rw [matchRow_iff, and_iff_right hkey.symm, and_iff_right hnulls]

theorem filter_matchRow (hj : SidesOk j canM) (hcan : j.canMatch row = true)
    (M : Multiset (Row S m)) :
    ((M.filter fun r => canM r).filter fun r => j.matched.joinKey r = j.update.joinKey row).filter
      (fun r => j.check row r) = M.filter fun r => j.matchRow row r := by
  rw [filter_filter, filter_filter]
  refine filter_congr fun r _ => ⟨?_, fun h => ?_⟩
  · rintro ⟨⟨hcheck, hkey⟩, -⟩
    exact (matchRow_iff_check hcan hkey).2 hcheck
  · have hkey := (matchRow_iff.1 h).1.symm
    exact ⟨⟨(matchRow_iff_check hcan hkey).1 h, hkey⟩, hj.canMatched h⟩

variable {vs : List (JoinRow (Row S m))}

def Matches (j : JoinSides S u m O) (M : Multiset (Row S m)) (row : Row S u)
    (vs : List (JoinRow (Row S m))) : Prop :=
  ((vs.map (·.row) : List (Row S m)) : Multiset (Row S m)) = M.filter fun r => j.matchRow row r

theorem map_filter_values {deg : Row S m → Nat} (hj : SidesOk j canM) (hcan : j.canMatch row = true)
    (hvs : (vs : Multiset (JoinRow (Row S m))) =
      j.matched.rowsOf (M.filter fun r => canM r) deg (j.update.joinKey row)) :
    Matches j M row (vs.filter fun v => j.check row v.row) := by
  have hfilter := filter_coe (fun v => j.check row v.row = true) vs
  simp only [Bool.decide_eq_true] at hfilter
  rw [Matches, ← filter_matchRow hj hcan, ← map_coe, ← hfilter, hvs, rowsOf, filter_map,
    map_map]
  exact map_id' _

theorem sum_map_matched (hvs : Matches j M row vs) (f : Row S m → Multiset O) :
    (vs.map fun v => f v.row).sum = ((M.filter fun r => j.matchRow row r).map f).sum := by
  rw [← hvs, map_coe, List.map_map]
  rfl

theorem degreeM_eq_zero (hjk : j.update.pkContainedInJk = true)
    (hunique : ((row ::ₘ U).map j.update.inputPk).Nodup) (hmatch : j.matchRow row r = true) :
    j.degreeM U r = 0 := by
  rw [map_cons, nodup_cons] at hunique
  refine countP_eq_zero.2 fun row' hrow' hmatch' => hunique.1 ?_
  have hkey : j.update.joinKey row' = j.update.joinKey row :=
    (matchRow_iff.1 hmatch').1.trans (matchRow_iff.1 hmatch).1.symm
  refine mem_map.2 ⟨row', hrow', project_eq_iff.2 fun i hi => project_eq_iff.1 hkey i ?_⟩
  simpa using List.all_eq_true.1 hjk i hi

/-- Both sides hold the rows of the inputs that can match, with the numbers of their matches. -/
structure JoinInv (j : JoinSides S u m O) (canM : Row S m → Bool) (U : Multiset (Row S u))
    (M : Multiset (Row S m)) (s : JoinState S u m O) : Prop where
  update : SideHolds j.update (U.filter fun row => j.canMatch row) (j.degreeU M) s.update
  matched : SideHolds j.matched (M.filter fun r => canM r) (j.degreeM U) s.matched

variable {entry : JoinEntryState (Row S m)}

theorem hashEqMatch_eq {ht ht' : JoinHashMap S m} (hcan : j.canMatch row = true)
    (h : ht.takeState build j.matched (j.update.joinKey row) = .ok (entry, ht')) :
    j.hashEqMatch build ht row = .ok (some entry, ht') := by
  rw [hashEqMatch, if_pos hcan, h]
  rfl

section

variable (hj : SidesOk j canM) (hcan : ¬j.canMatch row = true)
include hj hcan

theorem not_match (r : Row S m) : ¬j.matchRow row r = true := fun h => hcan (hj.canUpdate h)

theorem matches_nil (M : Multiset (Row S m)) : Matches j M row [] :=
  (filter_eq_nil.2 fun r _ => not_match hj hcan r).symm

theorem degreeU_eq_zero (M : Multiset (Row S m)) :
    j.degreeU M row = 0 := countP_eq_zero.2 fun r _ => not_match hj hcan r

theorem JoinInv.of_not_can {s : JoinState S u m O}
    (out : JoinChunkBuilder O) : JoinInv j canM (row ::ₘ U) M { s with out } ↔
      JoinInv j canM U M s := by
  have hdegree : j.degreeM (row ::ₘ U) = j.degreeM U :=
    funext fun r => degreeM_cons_of_not_match (not_match hj hcan r)
  have hfilter := filter_cons_of_neg (p := fun row => j.canMatch row = true) U hcan
  constructor
  · rintro ⟨hupdate, hmatched⟩
    rw [hfilter] at hupdate
    rw [hdegree] at hmatched
    exact ⟨hupdate, hmatched⟩
  · rintro ⟨hupdate, hmatched⟩
    refine ⟨?_, ?_⟩
    · rwa [hfilter]
    · rwa [hdegree]

end

variable (build)

theorem insertStored_spec {ht : JoinHashMap S u} (hj : SidesOk j canM)
    (hcan : j.canMatch row = true) (hU : Storable j.update (row ::ₘ U))
    (h : SideHolds j.update (U.filter fun row => j.canMatch row) (j.degreeU M) ht) :
    ∃ ht', ht.insert build j.update (j.update.joinKey row) ⟨row,
      j.update.cachedDegree (j.degreeU M) row⟩ = .ok ht' ∧
      SideHolds j.update ((row ::ₘ U).filter fun row => j.canMatch row) (j.degreeU M) ht' := by
  have hfilter := filter_cons_of_pos (p := fun row => j.canMatch row = true) U hcan
  have hstorable := hU.filter fun row => j.canMatch row
  rw [hfilter] at hstorable ⊢
  exact insert_spec build h hstorable hj.updateOk

theorem isZeroDegree_iff {v : JoinRow (Row S m)} {n : Nat} (hj : SidesOk j canM)
    (hU : Storable j.update (row ::ₘ U)) (hmatch : j.matchRow row v.row = true)
    (hn : j.degreeM U v.row = n) (hdegree : v.degree = if j.matched.needDegreeTable then n else 0)
    (hneed : needMatchedDegree j.joinType j.side = true) : v.isZeroDegree = true ↔ n = 0 := by
  rw [JoinRow.isZeroDegree, beq_iff_eq, hdegree]
  by_cases htable : j.matched.needDegreeTable = true
  · rw [if_pos htable]
  · have hjk : j.update.pkContainedInJk = true := by
      rw [hj.need, hneed, Bool.true_and, Bool.not_eq_true', Bool.not_eq_false] at htable
      exact htable
    rw [if_neg htable, ← hn, degreeM_eq_zero hjk hU.unique hmatch]

variable [DecidableEq O]

theorem matchRows_spec {ht : JoinHashMap S m} {deg deg' : Row S m → Nat}
    {inner : JoinKey S → Option (Option (JoinEntryState (Row S m)))} {g : Nat → Nat}
    {good : Nat → Prop} {recs : JoinRow (Row S m) → List (Record O)} {op : Op}
    {record : O → Record O}
    {f : MatchState S m O → JoinRow (Row S m) → Res (JoinRow (Row S m) × MatchState S m O)}
    (hj : SidesOk j canM) (hcan : j.canMatch row = true)
    (hM : Storable j.matched (M.filter fun r => canM r))
    (h : SideHolds j.matched (M.filter fun r => canM r) deg ht)
    (hentry : EntryOf j.matched entry
      (j.matched.rowsOf (M.filter fun r => canM r) deg (j.update.joinKey row)))
    (hinner : ∀ key ≠ j.update.joinKey row, inner key = ht.inner key)
    (hf : MatchStep j (M.filter fun r => canM r) row g good recs f)
    (hop : ∀ {out : JoinChunkBuilder O} {rs}, out.Holds rs → ∀ o, ∃ out',
      out.appendRow build op o = .ok out' ∧
      out'.Holds (rs ++ [record o]))
    (hgood : ∀ r, j.matchRow row r = true → good (deg r))
    (hmatch : ∀ r, j.matchRow row r = true → deg' r = g (deg r))
    (hother : ∀ r, ¬j.matchRow row r = true → deg' r = deg r) (hout : out.Holds rs) :
    ∃ s, ∃ vs : List (JoinRow (Row S m)),
      j.matchRows build f entry { ht with inner } out op row = .ok s ∧ s.degree = j.degreeU M row ∧
      SideHolds j.matched (M.filter fun r => canM r) deg' s.ht ∧
      s.out.Holds (rs ++ vs.flatMap recs ++ j.forwarded record row (j.degreeU M row)) ∧
      Matches j M row vs ∧ ∀ v ∈ vs, j.matchRow row v.row = true ∧
      v.degree = j.matched.cachedDegree deg v.row := by
  have hvalues := hentry.values
  have hrow : ∀ v ∈ entry.cached.values, (v.row ∈ (M.filter fun r => canM r) ∧
      j.matched.joinKey v.row = j.update.joinKey row) ∧
      v.degree = j.matched.cachedDegree deg v.row := by
    intro v hv
    rw [← mem_coe, hvalues, rowsOf, mem_map] at hv
    obtain ⟨r, hr, rfl⟩ := hv
    exact ⟨mem_filter.1 hr, rfl⟩
  have hnodup : (entry.cached.values.map (·.row)).Nodup := by
    rw [← coe_nodup, ← map_coe, hvalues, rowsOf, map_map]
    rw [show ((·.row) ∘ fun r => (⟨r, j.matched.cachedDegree deg r⟩ : JoinRow (Row S m))) =
      id from rfl, map_id]
    exact hM.nodup.filter _
  have hvs : ∀ v ∈ entry.cached.values, v.row ∈ (M.filter fun r => canM r) ∧
      v.degree = j.matched.cachedDegree deg v.row ∧ (j.check row v.row = true → good (deg v.row)) :=
        fun v hv =>
    ⟨(hrow v hv).1.1, (hrow v hv).2,
      fun hcheck => hgood _ ((matchRow_iff_check hcan (hrow v hv).1.2).2 hcheck)⟩
  obtain ⟨degreeState, out₁, hrun, hout₁, hdegrees⟩ :=
    matchLoop hf (s := ⟨0, { ht with inner }, out⟩) hvs hnodup hout h.degrees
  have hmatched := map_filter_values hj hcan hvalues
  have hcount : (entry.cached.values.countP fun v => j.check row v.row) = j.degreeU M row := by
    rw [degreeU, countP_eq_card_filter, ← hmatched, coe_card, List.length_map,
      List.countP_eq_length_filter]
  obtain ⟨out₂, hforward, hout₂⟩ := forwardRow_holds hop hout₁ row (j.degreeU M row)
  -- the degrees after the loop, of the rows of the key and of the other ones
  have hdeg : ∀ r ∈ (M.filter fun r => canM r),
      j.bumped g row deg (entry.cached.values.map (·.row)) r = deg' r := by
    intro r hr
    rw [bumped]
    by_cases hkey : j.matched.joinKey r = j.update.joinKey row
    · have hmem : r ∈ entry.cached.values.map (·.row) := by
        rw [← mem_coe, ← map_coe, hvalues, rowsOf, map_map]
        exact mem_map.2 ⟨r, mem_filter.2 ⟨hr, hkey⟩, rfl⟩
      by_cases hcheck : j.check row r = true
      · rw [if_pos ⟨hmem, hcheck⟩, hmatch r ((matchRow_iff_check hcan hkey).2 hcheck)]
      · rw [if_neg fun h => hcheck h.2, hother r fun h => hcheck ((matchRow_iff_check hcan hkey).1 h)]
    · have hnot : r ∉ entry.cached.values.map (·.row) := fun hmem => by
        obtain ⟨v, hv, rfl⟩ := List.mem_map.1 hmem
        exact hkey (hrow v hv).1.2
      rw [if_neg fun h => hnot h.1, hother r fun h => hkey (matchRow_iff.1 h).1.symm]
  have hrows : (j.matched.rowsOf (M.filter fun r => canM r) deg (j.update.joinKey row)).map
      (j.bump g row) =
      j.matched.rowsOf (M.filter fun r => canM r) deg' (j.update.joinKey row) := by
    rw [rowsOf, map_map]
    refine map_congr rfl fun r hr => ?_
    have hkey := (mem_filter.1 hr).2
    rw [Function.comp_apply, bump, cachedDegree, cachedDegree]
    by_cases hcheck : j.check row r = true
    · rw [hmatch r ((matchRow_iff_check hcan hkey).2 hcheck)]
      split <;> rfl
    · rw [if_neg hcheck, hother r fun h => hcheck ((matchRow_iff_check hcan hkey).1 h)]
  have hentry' := hentry.withValues (f := j.bump g row) fun v => by
    unfold bump
    split <;> rfl
  rw [hrows] at hentry'
  refine ⟨⟨j.degreeU M row,
    JoinHashMap.updateState ⟨inner, ht.state, degreeState⟩ (j.update.joinKey row) _, out₂⟩,
    entry.cached.values.filter fun v => j.check row v.row, ?_, rfl, updateState_holds h hinner
      (degreesHold_congr hdegrees hdeg) hentry'
        fun r _ hkey => (hother r fun h => hkey (matchRow_iff.1 h).1.symm).symm,
    hout₂, hmatched, fun v hv => ?_⟩
  · rw [matchRows, hrun, ok_bind]
    dsimp only
    rw [Nat.zero_add, hcount, hforward]
    rfl
  · obtain ⟨hv, hcheck⟩ := List.mem_filter.1 hv
    exact ⟨(matchRow_iff_check hcan (hrow v hv).1.2).2 hcheck, (hrow v hv).2⟩

/-! ## What is sent for a row -/

theorem bagAll_insert_records (hvs : Matches j M row vs)
    (hzero : ∀ v ∈ vs, needMatchedDegree j.joinType j.side = true →
      (v.isZeroDegree = true ↔ j.degreeM U v.row = 0)) :
    bagAll (j.joined U M) ((vs.flatMap (fun v => j.onInsert row v.row v.isZeroDegree) ++
      j.forwarded .insert row (j.degreeU M row)).flatMap Record.changes) =
        some (j.joined (row ::ₘ U) M) := by
  apply joined_insert
  have hsum := bagAll_sum fun v hv => (bagAll_onMatch row v.row (hzero v hv)).1
  rw [sum_map_matched hvs fun r => j.padMatched r (j.degreeM U r),
    sum_map_matched hvs fun r => j.padMatched r (j.degreeM U r + 1) + j.pair row r] at hsum
  rw [List.flatMap_append, List.flatMap_assoc, bagAll_append_eq hsum]
  have hforward := bagAll_add (bagAll_forwarded_insert (j := j) row (j.degreeU M row))
    ((M.filter fun r => j.matchRow row r).map fun r => j.padMatched r (j.degreeM U r + 1) +
      j.pair row r).sum
  rwa [add_zero] at hforward

theorem bagAll_delete_records (zero : JoinRow (Row S m) → Bool) (hvs : Matches j M row vs)
    (hzero : ∀ v ∈ vs, needMatchedDegree j.joinType j.side = true →
      (zero v = true ↔ j.degreeM U v.row = 0))
    : bagAll (j.joined (row ::ₘ U) M) ((vs.flatMap (fun v => j.onDelete row v.row (zero v)) ++
      j.forwarded .delete row (j.degreeU M row)).flatMap Record.changes) = some (j.joined U M) := by
  apply joined_delete
  have hsum := bagAll_sum fun v hv => (bagAll_onMatch row v.row (hzero v hv)).2
  rw [sum_map_matched hvs fun r => j.padMatched r (j.degreeM U r),
    sum_map_matched hvs fun r => j.padMatched r (j.degreeM U r + 1) + j.pair row r] at hsum
  have hmatched := bagAll_add hsum (j.padUpdate row (j.degreeU M row))
  rw [List.flatMap_append, List.flatMap_assoc, add_comm, bagAll_append_eq hmatched, add_comm]
  have hforward := bagAll_add (bagAll_forwarded_delete (j := j) row (j.degreeU M row))
    ((M.filter fun r => j.matchRow row r).map fun r => j.padMatched r (j.degreeM U r)).sum
  rwa [add_zero] at hforward

/-! ## A row of a chunk -/

variable {s : JoinState S u m O}

/-- The rows `U` become `U'`, and what is sent turns the join before into the join after. -/
def Sends (j : JoinSides S u m O) (canM : Row S m → Bool) (U U' : Multiset (Row S u))
    (M : Multiset (Row S m)) (rs : List (Record O)) (step : Res (JoinState S u m O)) : Prop :=
  ∃ s rs', step = .ok s ∧ JoinInv j canM U' M s ∧ s.out.Holds (rs ++ rs') ∧
    bagAll (j.joined U M) (rs'.flatMap Record.changes) = some (j.joined U' M)

theorem insertRow_spec (hj : SidesOk j canM) (hU : Storable j.update (row ::ₘ U))
    (hM : Storable j.matched M) (h : JoinInv j canM U M s) (hout : s.out.Holds rs) :
    Sends j canM U (row ::ₘ U) M rs (j.insertRow build s row) := by
  by_cases hcan : j.canMatch row = true
  · obtain ⟨entry, inner, htake, hentry, hinner⟩ :=
      takeState_spec build (hM.filter _) (j.update.joinKey row) h.matched hj.matchedOk
    obtain ⟨ms, vs, hrun, hdegree, hmatched, hout', hvs, hmatches⟩ := matchRows_spec build
      hj hcan (hM.filter _) h.matched hentry hinner
      (matchOnInsert_step build hj.matchedOk (hM.filter _) row) appendRow_insert_holds
      (fun _ _ => trivial) (fun r hr => degreeM_cons_of_match hr)
      (fun r hr => degreeM_cons_of_not_match hr) hout
    obtain ⟨ht', hinsert, hupdate⟩ := insertStored_spec build hj hcan hU h.update
    rw [List.append_assoc] at hout'
    refine ⟨⟨ht', ms.ht, ms.out⟩, _, ?_, ⟨hupdate, hmatched⟩, hout',
      bagAll_insert_records hvs fun v hv => ?_⟩
    · rw [insertRow, hashEqMatch_eq hcan htake, ok_bind]
      dsimp only
      rw [hrun, ok_bind, hdegree]
      rw [cachedDegree] at hinsert
      split at hinsert
      · rw [if_pos ‹_›, hinsert]
        rfl
      · rw [if_neg ‹_›, JoinHashMap.insertRow, hinsert]
        rfl
    · obtain ⟨hmatch, hstored⟩ := hmatches v hv
      exact isZeroDegree_iff hj hU hmatch rfl hstored
  · obtain ⟨out', hforward, hout'⟩ := forwardRow_holds appendRow_insert_holds hout row 0
    have hbag :=
      bagAll_insert_records (U := U) (matches_nil hj hcan M) fun v hv => (List.not_mem_nil hv).elim
    rw [degreeU_eq_zero hj hcan] at hbag
    refine ⟨{ s with out := out' }, _, ?_, (JoinInv.of_not_can hj hcan out').2 h, hout', hbag⟩
    rw [insertRow, hashEqMatch, if_neg hcan]
    exact congrArg (· >>= fun out => .ok { s with out }) hforward

theorem deleteRow_spec (hj : SidesOk j canM) (hU : Storable j.update (row ::ₘ U))
    (hM : Storable j.matched M) (h : JoinInv j canM (row ::ₘ U) M s) (hout : s.out.Holds rs) :
    Sends j canM (row ::ₘ U) U M rs (j.deleteRow build s row) := by
  by_cases hcan : j.canMatch row = true
  · obtain ⟨entry, inner, htake, hentry, hinner⟩ :=
      takeState_spec build (hM.filter _) (j.update.joinKey row) h.matched hj.matchedOk
    obtain ⟨ms, vs, hrun, hdegree, hmatched, hout', hvs, hmatches⟩ := matchRows_spec build
      hj hcan (hM.filter _) h.matched hentry hinner
      (matchOnDelete_step build hj.matchedOk (hM.filter _) row) appendRow_delete_holds
      (fun r hr => by rw [degreeM_cons_of_match hr]; omega)
      (fun r hr => (congrArg (· - 1) (degreeM_cons_of_match hr)).symm)
      (fun r hr => (degreeM_cons_of_not_match hr).symm) hout
    have hfilter := filter_cons_of_pos (p := fun row => j.canMatch row = true) U hcan
    have hstorable := hU.filter fun row => j.canMatch row
    have hupdate := h.update
    rw [hfilter] at hstorable hupdate
    obtain ⟨ht', hdelete, hupdate'⟩ := deleteStored_spec build hupdate hstorable hj.updateOk
    rw [List.append_assoc] at hout'
    refine ⟨⟨ht', ms.ht, ms.out⟩, _, ?_, ⟨hupdate', hmatched⟩, hout',
      bagAll_delete_records _ hvs fun v hv => ?_⟩
    · rw [deleteRow, hashEqMatch_eq hcan htake, ok_bind]
      dsimp only
      rw [hrun, ok_bind, hdegree]
      rw [deleteStored] at hdelete
      split at hdelete
      · rw [if_pos ‹_›, hdelete]
        rfl
      · rw [if_neg ‹_›, hdelete]
        rfl
    · obtain ⟨hmatch, hstored⟩ := hmatches v hv
      have hcheck := (matchRow_iff.1 hmatch).2.2
      have hbump : j.bump (· - 1) row v =
          ⟨v.row, if j.matched.needDegreeTable then v.degree - 1 else v.degree⟩ := if_pos hcheck
      have hleft : (j.bump (· - 1) row v).degree =
          if j.matched.needDegreeTable then j.degreeM U v.row else 0 := by
        rw [hbump, hstored, cachedDegree, degreeM_cons_of_match hmatch]
        split
        · exact Nat.add_sub_cancel ..
        · rfl
      have hrow : (j.bump (· - 1) row v).row = v.row := by rw [hbump]
      exact isZeroDegree_iff hj hU (hrow ▸ hmatch) (by rw [hrow]) hleft
  · obtain ⟨out', hforward, hout'⟩ := forwardRow_holds appendRow_delete_holds hout row 0
    have hbag := bagAll_delete_records (U := U) (fun _ => true) (matches_nil hj hcan M) fun v hv =>
      (List.not_mem_nil hv).elim
    rw [degreeU_eq_zero hj hcan] at hbag
    refine ⟨{ s with out := out' }, _, ?_, (JoinInv.of_not_can hj hcan s.out).1 h, hout', hbag⟩
    rw [deleteRow, hashEqMatch, if_neg hcan]
    exact congrArg (· >>= fun out => .ok { s with out }) hforward

end JoinSides

/-! ## The inputs -/

section Inputs

variable {S : Type} {w : Nat} [DecidableEq S]

/-- The rows of an input after a change. An inserted row has a new primary key and is in the vnodes
of the actor, a deleted row is there; an input that does otherwise is not accepted. -/
def JoinParams.accept (p : JoinParams S w) (rows : Multiset (Row S w)) :
    Change (Row S w) → Option (Multiset (Row S w))
  | .insert row =>
    if p.inputPk row ∉ rows.map p.inputPk ∧
      p.vnodeByPk (p.tableSerializer (row.project (p.joinKeyIndices ++ p.pkIndices))) ∈
        p.vnodes then
      some (row ::ₘ rows)
    else none
  | .delete row => if row ∈ rows then some (rows.erase row) else none

def JoinParams.acceptChunk (p : JoinParams S w) (rows : Multiset (Row S w))
    (chunk : List (JoinInput S w)) : Option (Multiset (Row S w)) :=
  (chunk.filterMap fun input => input.row.change?).foldlM p.accept rows

theorem accept_cases {d : JoinHashMapDesc S w} {rows rows' : Multiset (Row S w)}
    {c : Change (Row S w)} (h : d.accept rows c = some rows') (hrows : Storable d rows) :
    Storable d rows' ∧ (rows' = c.row ::ₘ rows ∧ c = .insert c.row ∨ rows = c.row ::ₘ rows' ∧
      c = .delete c.row) := by
  cases c with
  | insert row =>
    rw [JoinParams.accept] at h
    split at h
    · rename_i hok
      cases h
      refine ⟨⟨?_, ?_⟩, .inl ⟨rfl, rfl⟩⟩
      · rw [map_cons, nodup_cons]
        exact ⟨hok.1, hrows.unique⟩
      · intro row' hrow'
        rcases mem_cons.1 hrow' with rfl | hrow'
        · exact hok.2
        · exact hrows.vnode row' hrow'
    · cases h
  | delete row =>
    rw [JoinParams.accept] at h
    split at h
    · rename_i hmem
      cases h
      have hcons := (cons_erase hmem).symm
      exact ⟨(hcons ▸ hrows : Storable d (row ::ₘ rows.erase row)).of_cons, .inr ⟨hcons, rfl⟩⟩
    · cases h

end Inputs

namespace JoinSides

variable {S O : Type} {u m : Nat} [DecidableEq S] [DecidableEq O] {j : JoinSides S u m O}
  {rs : List (Record O)} {canM : Row S m → Bool} {U U' : Multiset (Row S u)}
  {M : Multiset (Row S m)}

omit [DecidableEq O] in
theorem JoinInv.evict {s : JoinState S u m O} (h : JoinInv j canM U M s)
    (evictedUpdate evictedMatched : JoinKey S → Bool) : JoinInv j canM U M
      { s with update := s.update.evict evictedUpdate, matched := s.matched.evict evictedMatched } :=
  ⟨h.update.evict _, h.matched.evict _⟩

theorem handleRow_spec (build : Build) (hj : SidesOk j canM) (hU : Storable j.update U)
    (hM : Storable j.matched M) {s : JoinState S u m O} {input : JoinInput S u}
    {c : Change (Row S u)} (hc : input.row.change? = some c)
    (haccept : j.update.accept U c = some U') (h : JoinInv j canM U M s) (hout : s.out.Holds rs) :
    Sends j canM U U' M rs (j.handleRow build s input) := by
  have hvis : input.row.vis = true := OpRow.vis_eq hc
  have hevict := h.evict input.evictedUpdate input.evictedMatched
  obtain ⟨hU', hcases⟩ := accept_cases haccept hU
  rw [handleRow, if_pos hvis]
  rcases OpRow.change?_eq_some hc with ⟨hop, rfl⟩ | ⟨hop, rfl⟩
  · obtain ⟨rfl, -⟩ | ⟨-, hne⟩ := hcases
    · rcases hop with hop | hop <;> rw [hop] <;> exact insertRow_spec build hj hU' hM hevict hout
    · cases hne
  · obtain ⟨-, hne⟩ | ⟨rfl, -⟩ := hcases
    · cases hne
    · rcases hop with hop | hop <;> rw [hop] <;> exact deleteRow_spec build hj hU hM hevict hout

theorem handleRows_spec (build : Build) (hj : SidesOk j canM) (hM : Storable j.matched M) :
    ∀ {chunk : List (JoinInput S u)} {U U' : Multiset (Row S u)} {s : JoinState S u m O}
      {rs : List (Record O)}, Storable j.update U → j.update.acceptChunk U chunk = some U' →
        JoinInv j canM U M s → s.out.Holds rs →
      Storable j.update U' ∧ Sends j canM U U' M rs (chunk.foldlM (j.handleRow build) s)
  | [], U, U', s, rs, hU, haccept, h, hout => by
    cases haccept
    exact ⟨hU, s, [], rfl, h, by rwa [List.append_nil], rfl⟩
  | input :: chunk, U, U', s, rs, hU, haccept, h, hout => by
    rw [JoinParams.acceptChunk] at haccept
    cases hc : input.row.change? with
    | none =>
      rw [List.filterMap_cons_none (f := fun input : JoinInput S u => input.row.change?) hc] at haccept
      have hvis : ¬input.row.vis = true := by
        rw [OpRow.vis_eq hc]
        exact Bool.false_ne_true
      rw [List.foldlM_cons, handleRow, if_neg hvis, ok_bind]
      exact handleRows_spec build hj hM hU haccept h hout
    | some c =>
      rw [List.filterMap_cons_some (f := fun input : JoinInput S u => input.row.change?) hc] at haccept
      obtain ⟨U₁, haccept₁, haccept⟩ := Option.bind_eq_some_iff.1 haccept
      obtain ⟨s₁, rs₁, hrun₁, h₁, hout₁, hbag₁⟩ := handleRow_spec build hj hU hM hc haccept₁ h hout
      obtain ⟨hU', s', rs', hrun, h', hout', hbag⟩ :=
        handleRows_spec build hj hM (accept_cases haccept₁ hU).1 haccept h₁ hout₁
      refine ⟨hU', s', rs₁ ++ rs', ?_, h', by rwa [← List.append_assoc], ?_⟩
      · rw [List.foldlM_cons, hrun₁, ok_bind, hrun]
      · rw [List.flatMap_append, bagAll_append_eq hbag₁, hbag]

theorem eqJoinOneside_spec (build : Build) {chunkSize : Nat} {chunk : List (JoinInput S u)}
    {update : JoinHashMap S u} {matched : JoinHashMap S m} (hj : SidesOk j canM)
    (hU : Storable j.update U) (hM : Storable j.matched M) (hsize : 0 < chunkSize)
    (haccept : j.update.acceptChunk U chunk = some U')
    (hupdate : SideHolds j.update (U.filter fun row => j.canMatch row) (j.degreeU M) update)
    (hmatched : SideHolds j.matched (M.filter fun r => canM r) (j.degreeM U) matched) :
    Storable j.update U' ∧ ∃ chunks update' matched',
      j.eqJoinOneside build chunkSize update matched chunk = .ok (chunks, update', matched') ∧
      SideHolds j.update (U'.filter fun row => j.canMatch row) (j.degreeU M) update' ∧
      SideHolds j.matched (M.filter fun r => canM r) (j.degreeM U') matched' ∧
      bagAll (j.joined U M) (changes chunks) = some (j.joined U' M) := by
  obtain ⟨out, hnew, hout⟩ := new_holds (O := O) hsize
  obtain ⟨hU', s', rs, hrun, h', hout', hbag⟩ :=
    handleRows_spec build hj hM (s := ⟨update, matched, out⟩) hU haccept ⟨hupdate, hmatched⟩ hout
  obtain ⟨chunks, htake, hchunks⟩ := take_holds build hout'
  refine ⟨hU', chunks, s'.update, s'.matched, ?_, h'.update, h'.matched, (hchunks _).trans hbag⟩
  rw [eqJoinOneside, hnew, ok_bind, hrun, ok_bind, htake]
  rfl

end JoinSides

end Stream
