import RisingLake.Stream.Proof.BatchJoin

/-!
# What the chunks of a join stand for

`post_process` removes pairs of an insertion and a deletion of the same row, and nothing else: on a
bag, the chunks do what the records do that were appended (`JoinChunkBuilder.Holds`). The records of
a pair of rows that match turn what the row of the match side contributed into what it contributes
with one match more or less (`bagAll_onMatch`).
-/

namespace Stream

open Res Change List StreamChunkBuilder

variable {R : Type} [DecidableEq R] {build : Build} {a b : OpRow R}

/-! ## `post_process` -/

theorem postProcessFrom_skip {rest : List (OpRow R)}
    (h : ∀ c ∈ rest.head?, ¬(b.op = .updateInsert ∧ c.op = .updateDelete ∧ c.row = b.row)) :
    postProcessFrom build a (b :: rest) = (postProcessFrom build b rest).map (a :: ·) := by
  match rest, h with
  | [], _ => rfl
  | [c], h => rw [postProcessFrom, if_neg (h c rfl)]; rfl
  | c :: d :: rest, h =>
    rw [postProcessFrom, if_neg (h c rfl)]
    cases postProcessFrom build b (c :: d :: rest) <;> rfl

def Means (rows : Res (StreamChunk R)) (cs : List (Change R)) : Prop :=
  ∃ chunk, rows = .ok chunk ∧ ∀ bag, bagAll bag (chunk.filterMap OpRow.change?) = bagAll bag cs

theorem Means.cons {rows : Res (StreamChunk R)} {cs : List (Change R)} (h : Means rows cs)
    (x : OpRow R) : Means (rows.map (x :: ·)) (x.change?.toList ++ cs) := by
  obtain ⟨chunk, rfl, hbag⟩ := h
  refine ⟨x :: chunk, rfl, fun bag => ?_⟩
  have hcons : (x :: chunk).filterMap OpRow.change? =
      x.change?.toList ++ chunk.filterMap OpRow.change? := by
    cases hx : x.change? <;> simp [hx]
  rw [hcons, bagAll_append, bagAll_append]
  exact congrArg _ (funext hbag)

theorem means_single (build : Build) (x : OpRow R) :
    Means (postProcessFrom build x []) x.change?.toList := by
  have h : Means (.ok ([] : StreamChunk R)) ([] : List (Change R)) := ⟨[], rfl, fun _ => rfl⟩
  have hcons := h.cons x
  rwa [append_nil] at hcons

/-- A row that does not begin an update, before whole records. -/
def MeansAfterRow (build : Build) (g : List (Record R)) : Prop :=
  ∀ x : OpRow R, x.op ≠ .updateDelete →
  Means (postProcessFrom build x (g.flatMap Record.rows))
    (x.change?.toList ++ g.flatMap Record.changes)

/-- An update before whole records. -/
def MeansAfterUpdate (build : Build) (g : List (Record R)) : Prop := ∀ old new : R,
  Means (postProcessFrom build ⟨.updateDelete, old, true⟩
      (⟨.updateInsert, new, true⟩ :: g.flatMap Record.rows))
    (.delete old :: .insert new :: g.flatMap Record.changes)

theorem MeansAfterRow.cons {r : Record R} {g : List (Record R)} (hrow : MeansAfterRow build g)
    (hupdate : MeansAfterUpdate build g) : MeansAfterRow build (r :: g) := by
  intro x _
  have hskip {y : OpRow R} {rest : List (OpRow R)} (hy : y.op ≠ .updateInsert) :
      postProcessFrom build x (y :: rest) = (postProcessFrom build y rest).map (x :: ·) :=
    postProcessFrom_skip fun c _ h => hy h.1
  cases r with
  | insert row =>
    rw [flatMap_cons, Record.rows, singleton_append, hskip (by simp)]
    exact (hrow ⟨.insert, row, true⟩ (by simp)).cons x
  | delete row =>
    rw [flatMap_cons, Record.rows, singleton_append, hskip (by simp)]
    exact (hrow ⟨.delete, row, true⟩ (by simp)).cons x
  | update old new =>
    rw [flatMap_cons, Record.rows, cons_append, hskip (by simp)]
    exact (hupdate old new).cons x

theorem MeansAfterUpdate.cons {r : Record R} {g : List (Record R)} (hrow : MeansAfterRow build g)
    (hcons : MeansAfterRow build (r :: g)) : MeansAfterUpdate build (r :: g) := by
  intro old new
  -- nothing is removed unless the next record updates the row that this one made
  have hkeep (h : ∀ new', r ≠ .update new new') :
      Means (postProcessFrom build ⟨.updateDelete, old, true⟩
        (⟨.updateInsert, new, true⟩ :: (r :: g).flatMap Record.rows))
        (.delete old :: .insert new :: (r :: g).flatMap Record.changes) := by
    rw [postProcessFrom_skip]
    · exact (hcons ⟨.updateInsert, new, true⟩ (by simp)).cons ⟨.updateDelete, old, true⟩
    · rintro c hc ⟨-, hop, hrow⟩
      cases r with
      | insert | delete => cases hc; cases hop
      | update old' new' => cases hc; cases hrow; exact h new' rfl
  by_cases h : ∃ new', r = .update new new'
  · obtain ⟨new', rfl⟩ := h
    obtain ⟨chunk, hrun, hbag⟩ := hrow ⟨.insert, new', true⟩ (by simp)
    refine ⟨⟨.delete, old, true⟩ :: ⟨.updateInsert, new, false⟩ :: ⟨.updateDelete, new, false⟩ ::
      chunk, ?_, ?_⟩
    · rw [flatMap_cons, Record.rows, cons_append, cons_append, nil_append, postProcessFrom,
        if_pos ⟨rfl, rfl, rfl⟩, hrun]
      rfl
    · intro bag
      change bagAll bag ([.delete old] ++ chunk.filterMap OpRow.change?) =
        bagAll bag ([.delete old] ++ .insert new :: .delete new :: .insert new' ::
          g.flatMap Record.changes)
      rw [bagAll_append, bagAll_append]
      exact congrArg _ (funext fun bag => (hbag bag).trans (bagAll_cancel bag new _).symm)
  · exact hkeep fun new' hr => h ⟨new', hr⟩

theorem meansAfter (build : Build) : ∀ g : List (Record R), MeansAfterRow build g ∧
    MeansAfterUpdate build g
  | [] => by
    constructor
    · intro x _
      simpa using means_single build x
    · intro old new
      exact (means_single build ⟨.updateInsert, new, true⟩).cons ⟨.updateDelete, old, true⟩
  | r :: g => by
    obtain ⟨hrow, hupdate⟩ := meansAfter build g
    have hcons := MeansAfterRow.cons (r := r) hrow hupdate
    exact ⟨hcons, .cons hrow hcons⟩

theorem postProcess_means (build : Build) (g : List (Record R)) :
    Means (postProcess build (g.flatMap Record.rows)) (g.flatMap Record.changes) := by
  cases g with
  | nil => exact ⟨[], rfl, fun _ => rfl⟩
  | cons r g =>
    obtain ⟨hrow, hupdate⟩ := meansAfter build g
    cases r with
    | insert row => exact hrow ⟨.insert, row, true⟩ (by simp)
    | delete row => exact hrow ⟨.delete, row, true⟩ (by simp)
    | update old new => exact hupdate old new

/-! ## The builder -/

namespace JoinChunkBuilder

variable {O : Type} [DecidableEq O] {b : JoinChunkBuilder O} {rs : List (Record O)}

/-- The chunks and the pending rows do to a bag what the records do. -/
def Holds (b : JoinChunkBuilder O) (rs : List (Record O)) : Prop :=
  b.builder.Room ∧ ∃ cur : List (Record O), b.builder.pending = cur.flatMap Record.rows ∧
    ∀ bag, bagAll bag (changes b.yielded ++ cur.flatMap Record.changes) =
      bagAll bag (rs.flatMap Record.changes)

theorem new_holds {chunkSize : Nat} (h : 0 < chunkSize) :
    ∃ b : JoinChunkBuilder O, new chunkSize = .ok b ∧ b.Holds [] := by
  refine ⟨⟨[], ⟨[], some chunkSize⟩⟩, ?_, ?_, [], rfl, fun bag => rfl⟩
  · rw [new, new_eq_ok h]
    rfl
  · intro max hmax
    cases hmax
    exact h

omit [DecidableEq O] in
theorem changes_snoc (chunks : List (StreamChunk O)) (chunk : StreamChunk O) :
    changes (chunks ++ [chunk]) = changes chunks ++ chunk.filterMap OpRow.change? := by
  simp [changes]

theorem yieldChunk_holds {r : Record O} {out : Option (StreamChunk O) × StreamChunkBuilder O}
    (h : b.Holds rs) (ho : b.builder.Appends r.rows out) :
    ∃ b', yieldChunk build b.yielded out = .ok b' ∧ b'.Holds (rs ++ [r]) := by
  obtain ⟨-, cur, hpending, hbag⟩ := h
  obtain ⟨hroom, -, hout⟩ := ho
  have hrecords bag : bagAll bag (changes b.yielded ++ (cur ++ [r]).flatMap Record.changes) =
      bagAll bag ((rs ++ [r]).flatMap Record.changes) := by
    rw [flatMap_append, flatMap_append, ← append_assoc, bagAll_append, hbag, ← bagAll_append]
  have hrows : b.builder.pending ++ r.rows = (cur ++ [r]).flatMap Record.rows := by
    rw [flatMap_append, hpending, flatMap_singleton]
  obtain ⟨none?, builder⟩ := out
  rcases hout with ⟨rfl, hnext⟩ | ⟨rfl, hnext⟩
  · exact ⟨⟨b.yielded, builder⟩, rfl, hroom, cur ++ [r], hnext.trans hrows, hrecords⟩
  obtain ⟨chunk, hrun, hmeans⟩ := postProcess_means build (cur ++ [r])
  refine ⟨⟨b.yielded ++ [chunk], builder⟩, ?_, hroom, [], hnext, fun bag => ?_⟩
  · rw [yieldChunk, hrows, hrun]
    rfl
  · rw [flatMap_nil, append_nil, changes_snoc, bagAll_append, ← hrecords bag, bagAll_append]
    exact congrArg _ (funext hmeans)

theorem appendRow_insert_holds (h : b.Holds rs) (row : O) :
    ∃ b', b.appendRow build .insert row = .ok b' ∧ b'.Holds (rs ++ [.insert row]) :=
  yieldChunk_holds h (append_spec h.1 (by simp))

theorem appendRow_delete_holds (h : b.Holds rs) (row : O) :
    ∃ b', b.appendRow build .delete row = .ok b' ∧ b'.Holds (rs ++ [.delete row]) :=
  yieldChunk_holds h (append_spec h.1 (by simp))

theorem appendUpdate_holds (h : b.Holds rs) (oldRow newRow : O) :
    ∃ b', b.appendUpdate build oldRow newRow = .ok b' ∧
      b'.Holds (rs ++ [.update oldRow newRow]) := by
  rw [appendUpdate, append_updateDelete h.1]
  exact yieldChunk_holds (b := b) h (append_updateInsert h.1 oldRow newRow)

theorem take_holds (build : Build) (h : b.Holds rs) : ∃ chunks, b.take build = .ok chunks ∧
    ∀ bag, bagAll bag (changes chunks) = bagAll bag (rs.flatMap Record.changes) := by
  obtain ⟨-, cur, hpending, hbag⟩ := h
  unfold take StreamChunkBuilder.take
  split
  · rename_i hsize
    have hcur : cur.flatMap Record.changes = [] := by
      have hrows : cur.flatMap Record.rows = [] := hpending ▸ length_eq_zero_iff.1 hsize
      unfold Record.changes
      rw [← filterMap_flatMap, hrows]
      rfl
    refine ⟨b.yielded, rfl, fun bag => ?_⟩
    rw [← hbag, hcur, append_nil]
  · obtain ⟨chunk, hrun, hmeans⟩ := postProcess_means build cur
    refine ⟨b.yielded ++ [chunk], ?_, fun bag => ?_⟩
    · rw [yieldChunk, hpending, hrun]
      rfl
    · rw [changes_snoc, bagAll_append, ← hbag, bagAll_append]
      exact congrArg _ (funext hmeans)

end JoinChunkBuilder

/-! ## The records of a match -/

/-- The join type reads the degrees of the match side. -/
def needMatchedDegree (T : JoinType) : SideType → Bool
  | .left => needRightDegree T
  | .right => needLeftDegree T

namespace JoinSides

variable {S O : Type} {u m : Nat} {j : JoinSides S u m O}

/-- What is sent for a row of the match side that the inserted row matches; `zero` is whether its
degree is 0. -/
def onInsert (j : JoinSides S u m O) (row : Row S u) (r : Row S m) (zero : Bool) :
    List (Record O) :=
  if forwardExactlyOnce j.joinType j.side then []
  else if isAnti j.joinType then
    if zero && onlyForwardMatchedSide j.joinType j.side then [.delete (j.output.matched r)] else []
  else if isSemi j.joinType then
    if zero && onlyForwardMatchedSide j.joinType j.side then [.insert (j.output.matched r)] else []
  else if zero &&
    outerSideNull j.joinType j.side then [.update (j.output.matched r) (j.output.both row r)]
  else [.insert (j.output.both row r)]

/-- What is sent for a row of the match side that the deleted row matched. -/
def onDelete (j : JoinSides S u m O) (row : Row S u) (r : Row S m) (zero : Bool) :
    List (Record O) :=
  if forwardExactlyOnce j.joinType j.side then []
  else if isAnti j.joinType then
    if zero && onlyForwardMatchedSide j.joinType j.side then [.insert (j.output.matched r)] else []
  else if isSemi j.joinType then
    if zero && onlyForwardMatchedSide j.joinType j.side then [.delete (j.output.matched r)] else []
  else if zero && outerSideNull j.joinType j.side then
    [.update (j.output.both row r) (j.output.matched r)]
  else [.delete (j.output.both row r)]

/-- Whether the row itself is sent. -/
def forwards (j : JoinSides S u m O) (degree : Nat) : Bool :=
  if degree = 0 then (isAnti j.joinType && forwardExactlyOnce j.joinType j.side) ||
    isOuterSide j.joinType j.side
  else isSemi j.joinType && forwardExactlyOnce j.joinType j.side

theorem padUpdate_eq (row : Row S u) (n : Nat) :
    j.padUpdate row n = if j.forwards n then {j.output.update row} else 0 := by
  rw [padUpdate, forwards]
  generalize j.joinType = T, j.side = side
  by_cases hn : n = 0 <;> cases T <;> cases side <;> simp [hn, isSemi, isAnti, isOuterSide]

variable [DecidableEq O] {n : Nat} {zero : Bool}

section
variable (row : Row S u) (r : Row S m)
  (h : needMatchedDegree j.joinType j.side = true → (zero = true ↔ n = 0))
include h

theorem bagAll_onMatch :
    bagAll (j.padMatched r n) ((j.onInsert row r zero).flatMap Record.changes) =
      some (j.padMatched r (n + 1) + j.pair row r) ∧
    bagAll (j.padMatched r (n + 1) + j.pair row r) ((j.onDelete row r zero).flatMap Record.changes) =
      some (j.padMatched r n) := by
  rw [padMatched, padMatched, onInsert, onDelete, pair]
  generalize j.joinType = T, j.side = side at h ⊢
  cases T <;> cases side <;> by_cases hn : n = 0 <;> cases zero <;>
    simp [needMatchedDegree, needLeftDegree, needRightDegree, hn] at h <;>
    simp [isSemi, isAnti, forwardExactlyOnce, onlyForwardMatchedSide, outerSideNull, hn]

end

end JoinSides

end Stream
