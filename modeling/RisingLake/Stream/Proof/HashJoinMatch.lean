import RisingLake.Stream.Proof.JoinChunkBuilder
import RisingLake.Stream.Proof.JoinHashMap

/-!
# Matching a row

The row is compared with the rows of its join key on the other side. The loop counts its matches,
writes the new degrees of the rows that match, and appends the records of each of them
(`matchLoop`); an insertion and a deletion differ in one step only (`matchOnInsert_step`,
`matchOnDelete_step`).
-/

namespace Stream

open Res Change List JoinChunkBuilder

namespace JoinSides

variable {S O : Type} {u m : Nat} [DecidableEq O] {j : JoinSides S u m O} {build : Build}
  {row : Row S u} {out : JoinChunkBuilder O} {rs : List (Record O)}

/-! ## What is sent -/

theorem emit_onInsert (build : Build) (h : out.Holds rs) (row : Row S u) (v : JoinRow (Row S m)) :
    ∃ out', j.emitUnlessOnce out (out.withMatchOnInsert build j.joinType j.side j.output row v) =
      .ok out' ∧
      out'.Holds (rs ++ j.onInsert row v.row v.isZeroDegree) := by
  have hnone : out.Holds (rs ++ []) := by rwa [append_nil]
  unfold emitUnlessOnce withMatchOnInsert onInsert
  split_ifs
  · exact ⟨out, rfl, hnone⟩
  · exact appendRow_delete_holds h _
  · exact ⟨out, rfl, hnone⟩
  · exact appendRow_insert_holds h _
  · exact ⟨out, rfl, hnone⟩
  · exact appendUpdate_holds h _ _
  · exact appendRow_insert_holds h _

theorem emit_onDelete (build : Build) (h : out.Holds rs) (row : Row S u) (v : JoinRow (Row S m)) :
    ∃ out', j.emitUnlessOnce out (out.withMatchOnDelete build j.joinType j.side j.output row v) =
      .ok out' ∧
      out'.Holds (rs ++ j.onDelete row v.row v.isZeroDegree) := by
  have hnone : out.Holds (rs ++ []) := by rwa [append_nil]
  unfold emitUnlessOnce withMatchOnDelete onDelete
  split_ifs
  · exact ⟨out, rfl, hnone⟩
  · exact appendRow_insert_holds h _
  · exact ⟨out, rfl, hnone⟩
  · exact appendRow_delete_holds h _
  · exact ⟨out, rfl, hnone⟩
  · exact appendUpdate_holds h _ _
  · exact appendRow_delete_holds h _

/-- The record of the row itself, if it is sent. -/
def forwarded (j : JoinSides S u m O) (record : O → Record O) (row : Row S u) (degree : Nat) :
    List (Record O) :=
  if j.forwards degree then [record (j.output.update row)] else []

theorem forwardRow_holds {op : Op} {record : O → Record O}
    (hop : ∀ {out : JoinChunkBuilder O} {rs}, out.Holds rs → ∀ o, ∃ out',
      out.appendRow build op o = .ok out' ∧
      out'.Holds (rs ++ [record o])) (h : out.Holds rs) (row : Row S u) (degree : Nat) :
    ∃ out', j.forwardRow build out op row degree = .ok out' ∧
      out'.Holds (rs ++ j.forwarded record row degree) := by
  have hnone : out.Holds (rs ++ []) := by rwa [append_nil]
  unfold forwardRow forwarded forwards forwardIfNotMatched forwardExactlyOnceIfMatched
  split
  · split
    · exact hop h _
    · exact ⟨out, rfl, hnone⟩
  · split
    · exact hop h _
    · exact ⟨out, rfl, hnone⟩

theorem bagAll_forwarded_insert (row : Row S u) (n : Nat) :
    bagAll 0 ((j.forwarded .insert row n).flatMap Record.changes) = some (j.padUpdate row n) := by
  rw [padUpdate_eq, forwarded]
  split
  · rfl
  · rfl

theorem bagAll_forwarded_delete (row : Row S u) (n : Nat) :
    bagAll (j.padUpdate row n) ((j.forwarded .delete row n).flatMap Record.changes) = some 0 := by
  rw [padUpdate_eq, forwarded]
  split
  · exact bagAll_delete_singleton _
  · rfl

/-! ## The loop -/

variable [DecidableEq S]

/-- The row of the match side after it was compared with the row. -/
def bump (j : JoinSides S u m O) (g : Nat → Nat) (row : Row S u) (v : JoinRow (Row S m)) :
    JoinRow (Row S m) :=
  if j.check row v.row then ⟨v.row, if j.matched.needDegreeTable then g v.degree else v.degree⟩ else v

def bumped (j : JoinSides S u m O) (g : Nat → Nat) (row : Row S u) (deg : Row S m → Nat)
    (rows : List (Row S m)) (r : Row S m) :
    Nat := if r ∈ rows ∧ j.check row r then g (deg r) else deg r

/-- What one step of the loop does: it passes over a row that does not match; for a row that does it
appends the records, and writes the degree `g n` in place of `n`. -/
structure MatchStep (j : JoinSides S u m O) (stored : Multiset (Row S m)) (row : Row S u)
    (g : Nat → Nat) (good : Nat → Prop) (recs : JoinRow (Row S m) → List (Record O))
    (f : MatchState S m O → JoinRow (Row S m) → Res (JoinRow (Row S m) × MatchState S m O)) :
    Prop where
  skip : ∀ s v, ¬j.check row v.row = true → f s v = .ok (v, s)
  step : ∀ {s : MatchState S m O} {v : JoinRow (Row S m)} {rs : List (Record O)} {deg : Row S m → Nat},
    j.check row v.row = true → v.row ∈ stored → v.degree = j.matched.cachedDegree deg v.row →
      good (deg v.row) →
    s.out.Holds rs → DegreesHold j.matched stored deg s.ht.degreeState →
    ∃ degreeState out, f s v = .ok (j.bump g row v, ⟨s.degree + 1, { s.ht with degreeState }, out⟩) ∧
      out.Holds (rs ++ recs v) ∧
      DegreesHold j.matched stored (Function.update deg v.row (g (deg v.row))) degreeState

variable {stored : Multiset (Row S m)}

omit [DecidableEq O] in
theorem manipulate_spec {deg : Row S m → Nat} {ht : JoinHashMap S m} {r : Row S m}
    (hd : j.matched.Ok) (hs : Storable j.matched stored)
    (hdegrees : DegreesHold j.matched stored deg ht.degreeState) (hr : r ∈ stored)
    (hneed : j.matched.needDegreeTable = true) (n : Nat) :
    ∃ degreeState, ht.manipulateDegree j.matched ⟨r, deg r⟩ n =
      .ok (⟨r, n⟩, { ht with degreeState }) ∧
      DegreesHold j.matched stored (Function.update deg r n) degreeState := by
  cases hstate : ht.degreeState with
  | none =>
    rw [hstate] at hdegrees
    rw [DegreesHold, hneed] at hdegrees
    cases hdegrees
  | some t =>
    rw [hstate] at hdegrees
    obtain ⟨t', hrun, hdegrees'⟩ := manipulateDegree_spec hd hs hdegrees hstate hr n
    exact ⟨some t', hrun, hdegrees'⟩

theorem matchOnInsert_step (build : Build) (hd : j.matched.Ok) (hs : Storable j.matched stored)
    (row : Row S u) : MatchStep j stored row (· + 1) (fun _ => True)
      (fun v => j.onInsert row v.row v.isZeroDegree) (j.matchOnInsert build row) where
  skip s v hcheck := by rw [matchOnInsert, if_neg hcheck]
  step {s v rs deg} hcheck hv hdeg _ hout hdegrees := by
    obtain ⟨out, hemit, hholds⟩ := emit_onInsert build hout row v
    rw [matchOnInsert, if_pos hcheck, hemit, ok_bind, bump, if_pos hcheck]
    by_cases hneed : j.matched.needDegreeTable = true
    · have hvdeg : v.degree = deg v.row := hdeg.trans (if_pos hneed)
      obtain ⟨degreeState, hrun, hdegrees'⟩ :=
        manipulate_spec hd hs hdegrees hv hneed (deg v.row + 1)
      have hinc : s.ht.incDegree j.matched v =
          .ok (⟨v.row, deg v.row + 1⟩, { s.ht with degreeState }) := by
        obtain ⟨r, n⟩ := v
        dsimp only at hvdeg
        subst hvdeg
        exact hrun
      refine ⟨degreeState, out, ?_, hholds, hdegrees'⟩
      rw [if_pos hneed, if_pos hneed, hinc, hvdeg]
      rfl
    · refine ⟨s.ht.degreeState, out, ?_, hholds, degreesHold_of_not_need hdegrees hneed _⟩
      rw [if_neg hneed, if_neg hneed]

theorem matchOnDelete_step (build : Build) (hd : j.matched.Ok) (hs : Storable j.matched stored)
    (row : Row S u) : MatchStep j stored row (· - 1) (0 < ·)
      (fun v => j.onDelete row v.row (j.bump (· - 1) row v).isZeroDegree)
      (j.matchOnDelete build row) where
  skip s v hcheck := by rw [matchOnDelete, if_neg hcheck]
  step {s v rs deg} hcheck hv hdeg hpos hout hdegrees := by
    have hbump : j.bump (· - 1) row v =
        ⟨v.row, if j.matched.needDegreeTable then v.degree - 1 else v.degree⟩ := if_pos hcheck
    obtain ⟨out, hemit, hholds⟩ := emit_onDelete build hout row (j.bump (· - 1) row v)
    have hrow : (j.bump (· - 1) row v).row = v.row := by rw [hbump]
    rw [hrow] at hholds
    rw [matchOnDelete, if_pos hcheck]
    by_cases hneed : j.matched.needDegreeTable = true
    · have hvdeg : v.degree = deg v.row := hdeg.trans (if_pos hneed)
      obtain ⟨degreeState, hrun, hdegrees'⟩ :=
        manipulate_spec hd hs hdegrees hv hneed (deg v.row - 1)
      have hdec : s.ht.decDegree build j.matched v =
          .ok (j.bump (· - 1) row v, { s.ht with degreeState }) := by
        rw [hbump, if_pos hneed]
        obtain ⟨r, n⟩ := v
        dsimp only at hvdeg hpos hrun ⊢
        subst hvdeg
        rw [JoinHashMap.decDegree, if_neg hpos.ne']
        exact hrun
      refine ⟨degreeState, out, ?_, hholds, hdegrees'⟩
      rw [if_pos hneed, hdec, ok_bind]
      dsimp only
      rw [hemit]
      rfl
    · have hsame : j.bump (· - 1) row v = v := by rw [hbump, if_neg hneed]
      refine ⟨s.ht.degreeState, out, ?_, hholds, degreesHold_of_not_need hdegrees hneed _⟩
      rw [hsame] at hemit ⊢
      rw [if_neg hneed, ok_bind]
      dsimp only
      rw [hemit]
      rfl

theorem matchLoop {g : Nat → Nat} {good : Nat → Prop} {recs : JoinRow (Row S m) → List (Record O)}
    {f : MatchState S m O → JoinRow (Row S m) → Res (JoinRow (Row S m) × MatchState S m O)}
    (hf : MatchStep j stored row g good recs f) :
    ∀ {vs : List (JoinRow (Row S m))} {s : MatchState S m O} {rs : List (Record O)} {deg : Row S m →
      Nat}, (∀ v ∈ vs, v.row ∈ stored ∧ v.degree = j.matched.cachedDegree deg v.row ∧
        (j.check row v.row = true → good (deg v.row))) →
      (vs.map (·.row)).Nodup → s.out.Holds rs → DegreesHold j.matched stored deg s.ht.degreeState →
      ∃ degreeState out, mapAccumM f s vs = .ok (vs.map (j.bump g row),
          ⟨s.degree + vs.countP (fun v => j.check row v.row), { s.ht with degreeState }, out⟩) ∧
        out.Holds (rs ++ (vs.filter fun v => j.check row v.row).flatMap recs) ∧
        DegreesHold j.matched stored (j.bumped g row deg (vs.map (·.row))) degreeState
  | [], s, rs, deg, _, _, hout, hdegrees => by
    refine ⟨s.ht.degreeState, s.out, rfl, ?_, ?_⟩
    · simpa using hout
    · exact degreesHold_congr hdegrees fun r _ => (if_neg fun h => not_mem_nil h.1).symm
  | v :: vs, s, rs, deg, hvs, hnodup, hout, hdegrees => by
    obtain ⟨⟨hv, hdeg, hgood⟩, hvs⟩ := forall_mem_cons.1 hvs
    obtain ⟨hfresh, hnodup⟩ := nodup_cons.1 hnodup
    let matches? (v : JoinRow (Row S m)) : Bool := j.check row v.row
    by_cases hcheck : j.check row v.row = true
    · obtain ⟨degreeState₁, out₁, hrun, hout₁, hdegrees₁⟩ :=
        hf.step hcheck hv hdeg (hgood hcheck) hout hdegrees
      -- the degrees of the rows left are as before
      have hne {v' : JoinRow (Row S m)} hv' : v'.row ≠ v.row :=
        fun heq => hfresh (mem_map.2 ⟨v', hv', heq⟩)
      have hvs₁ : ∀ v' ∈ vs, v'.row ∈ stored ∧
          v'.degree = j.matched.cachedDegree (Function.update deg v.row (g (deg v.row))) v'.row ∧
          (j.check row v'.row = true → good (Function.update deg v.row (g (deg v.row)) v'.row)) := by
        intro v' hv'
        rw [JoinHashMapDesc.cachedDegree, Function.update_of_ne (hne hv')]
        exact hvs v' hv'
      obtain ⟨degreeState, out, hruns, hout', hdegrees'⟩ := matchLoop hf
        (s := ⟨s.degree + 1, { s.ht with degreeState := degreeState₁ }, out₁⟩) hvs₁ hnodup
          hout₁ hdegrees₁
      refine ⟨degreeState, out, ?_, ?_, degreesHold_congr hdegrees' fun r _ => ?_⟩
      · simp only [mapAccumM, hrun, ok_bind, hruns]
        rw [map_cons, countP_cons_of_pos (p := matches?) hcheck, Nat.add_right_comm, Nat.add_assoc]
      · rw [filter_cons_of_pos (p := matches?) hcheck, flatMap_cons, ← append_assoc]
        exact hout'
      · rw [bumped, bumped, map_cons]
        by_cases hr : r = v.row
        · subst hr
          rw [if_neg fun h => hfresh h.1, Function.update_self, if_pos ⟨.head _, hcheck⟩]
        · simp only [Function.update_of_ne hr, mem_cons, hr, false_or]
    · obtain ⟨degreeState, out, hruns, hout', hdegrees'⟩ := matchLoop hf hvs hnodup hout hdegrees
      refine ⟨degreeState, out, ?_, ?_, degreesHold_congr hdegrees' fun r _ => ?_⟩
      · have hbump : j.bump g row v = v := if_neg hcheck
        simp only [mapAccumM, hf.skip s v hcheck, ok_bind, hruns]
        rw [map_cons, hbump, countP_cons_of_neg (p := matches?) hcheck]
      · rwa [filter_cons_of_neg (p := matches?) hcheck]
      · rw [bumped, bumped, map_cons]
        by_cases hr : r = v.row
        · subst hr
          rw [if_neg fun h => hcheck h.2, if_neg fun h => hcheck h.2]
        · simp only [mem_cons, hr, false_or]

end JoinSides

end Stream
