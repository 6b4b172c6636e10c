import RisingLake.Stream.Proof.HashJoin

/-!
# The hash join maintains the batch join

Over any run of the executor on consistent inputs, what it sends builds up the join of the rows that
the inputs hold, and the degrees that it stores are the numbers of matches
(`hash_join_maintains_batch_join`). As the rows of a last chunk may be cut off anywhere, this is so
after every row.
-/

namespace Stream

open Res Change Multiset

namespace HashJoinDesc

variable {S : Type} {wl wr wo : Nat} [DecidableEq S]

/-- What the executor is built with: serializers that keep keys apart, primary keys that the keys of
the tables cover, and a condition that is not true where a column that it compares by an inequality
is NULL. -/
structure Ok (j : HashJoinDesc S wl wr wo) : Prop where
  paramsL : j.paramsL.Ok
  paramsR : j.paramsR.Ok
  chunkSize : 0 < j.chunkSize
  strict : ∀ p ∈ j.inequalityPairs, ∀ l r, l.get p.1 = none ∨ r.get p.2 = none → j.check l r = false

variable (j : HashJoinDesc S wl wr wo)

def accept (rows : Multiset (Row S wl) × Multiset (Row S wr)) :
    JoinMessage S wl wr → Option (Multiset (Row S wl) × Multiset (Row S wr))
  | .left chunk => (j.paramsL.acceptChunk rows.1 chunk).map (·, rows.2)
  | .right chunk => (j.paramsR.acceptChunk rows.2 chunk).map (rows.1, ·)
  | .barrier => some rows

def inputs (messages : List (JoinMessage S wl wr)) :
    Option (Multiset (Row S wl) × Multiset (Row S wr)) := messages.foldlM j.accept (0, 0)

variable {j : HashJoinDesc S wl wr wo} {l : Row S wl} {r : Row S wr}

omit [DecidableEq S] in
theorem canMatch_iff {u m : Nat} {O : Type} {j : JoinSides S u m O} {row : Row S u} :
    j.canMatch row = true ↔ (∀ i ∈ j.nonNullFields, (row.get i).isSome = true) ∧
      j.matched.nullsMatch (j.update.joinKey row) = true := by
  rw [JoinSides.canMatch, Bool.and_eq_true, List.all_eq_true]

omit [DecidableEq S] in
theorem isSome_of_check (h : j.Ok) (hcheck : j.check l r = true) {p : Fin wl × Fin wr}
    (hp : p ∈ j.inequalityPairs) : (l.get p.1).isSome = true ∧ (r.get p.2).isSome = true := by
  have hstrict := h.strict p hp l r
  rw [hcheck] at hstrict
  obtain ⟨hl, hr⟩ := not_or.1 fun hnone => Bool.false_ne_true (hstrict hnone).symm
  exact ⟨Option.isSome_iff_ne_none.2 hl, Option.isSome_iff_ne_none.2 hr⟩

theorem canMatch_sidesL (h : j.Ok) (hmatch : j.sidesL.matchRow l r = true) :
    j.sidesL.canMatch l = true := by
  obtain ⟨-, hnulls, hcheck⟩ := JoinSides.matchRow_iff.1 hmatch
  refine canMatch_iff.2 ⟨fun i hi => ?_, hnulls⟩
  obtain ⟨p, hp, hi⟩ := List.any_eq_true.1 (List.mem_filter.1 hi).2
  have hsome := (isSome_of_check h hcheck hp).1
  rwa [of_decide_eq_true hi] at hsome

theorem canMatch_sidesR (h : j.Ok) (hmatch : j.sidesL.matchRow l r = true) :
    j.sidesR.canMatch r = true := by
  obtain ⟨hkey, hnulls, hcheck⟩ := JoinSides.matchRow_iff.1 hmatch
  refine canMatch_iff.2 ⟨fun i hi => ?_, ?_⟩
  · obtain ⟨p, hp, hi⟩ := List.any_eq_true.1 (List.mem_filter.1 hi).2
    have hsome := (isSome_of_check h hcheck hp).2
    rwa [of_decide_eq_true hi] at hsome
  · rw [hkey] at hnulls
    exact hnulls

theorem sidesOk_left (h : j.Ok) : JoinSides.SidesOk j.sidesL j.sidesR.canMatch where
  updateOk := h.paramsL
  matchedOk := h.paramsR
  canUpdate := canMatch_sidesL h
  canMatched := canMatch_sidesR h
  need := rfl

theorem sidesOk_right (h : j.Ok) : JoinSides.SidesOk j.sidesR j.sidesL.canMatch where
  updateOk := h.paramsR
  matchedOk := h.paramsL
  canUpdate hmatch := canMatch_sidesR h (j.sidesR_matchRow _ _ ▸ hmatch)
  canMatched hmatch := canMatch_sidesL h (j.sidesR_matchRow _ _ ▸ hmatch)
  need := rfl

/-- Both sides hold the rows of the inputs that can match, with the numbers of their matches. -/
structure Inv (j : HashJoinDesc S wl wr wo) (L : Multiset (Row S wl)) (R : Multiset (Row S wr))
    (ex : HashJoinExecutor S wl wr) : Prop where
  storableL : Storable j.descL L
  storableR : Storable j.descR R
  sideL : SideHolds j.descL (L.filter fun l => j.sidesL.canMatch l) (j.sidesL.degreeU R) ex.sideL
  sideR : SideHolds j.descR (R.filter fun r => j.sidesR.canMatch r) (j.sidesL.degreeM L) ex.sideR

theorem sideHolds_initialState {w : Nat} (d : JoinHashMapDesc S w) (deg : Row S w → Nat) :
    SideHolds d 0 deg (initialState d) where
  state k row := by
    refine ⟨fun hget => ?_, fun h => (notMem_zero _ h.1).elim⟩
    cases hget
  degrees := by
    rw [initialState]
    split
    · rename_i hneed
      refine ⟨hneed, fun k v => ⟨fun hget => ?_, fun ⟨_, h, _⟩ => (notMem_zero _ h).elim⟩⟩
      cases hget
    · rename_i hneed
      exact Bool.eq_false_iff.2 hneed
  cache key wrapper hget := by cases hget

theorem inv_new : j.Inv 0 0 j.new where
  storableL := ⟨nodup_zero, fun _ hrow => (notMem_zero _ hrow).elim⟩
  storableR := ⟨nodup_zero, fun _ hrow => (notMem_zero _ hrow).elim⟩
  sideL := sideHolds_initialState j.descL _
  sideR := sideHolds_initialState j.descR _

theorem handleMessage_spec (build : Build) (h : j.Ok) {L L' : Multiset (Row S wl)}
    {R R' : Multiset (Row S wr)} {ex : HashJoinExecutor S wl wr}
    {chunks : List (StreamChunk (Row S wo))} {message : JoinMessage S wl wr}
    (hinv : j.Inv L R ex) (hchunks : bagAll 0 (changes chunks) = some (j.batchJoin L R))
    (haccept : j.accept (L, R) message = some (L', R')) :
    ∃ ex' chunks', j.handleMessage build (ex, chunks) message = .ok (ex', chunks') ∧
      j.Inv L' R' ex' ∧
      bagAll 0 (changes chunks') = some (j.batchJoin L' R') := by
  have happend chunks' : changes (chunks ++ chunks') = changes chunks ++ changes chunks' := by
    simp [changes]
  cases message with
  | left chunk =>
    rw [accept, Option.map_eq_some_iff] at haccept
    obtain ⟨L'', haccept, heq⟩ := haccept
    cases heq
    obtain ⟨hL', chunks', sideL, sideR, hrun, hsideL, hsideR, hbag⟩ :=
      JoinSides.eqJoinOneside_spec build (sidesOk_left h) hinv.storableL hinv.storableR h.chunkSize
        haccept hinv.sideL hinv.sideR
    refine ⟨⟨sideL, sideR⟩, chunks ++ chunks', ?_, ⟨hL', hinv.storableR, hsideL, hsideR⟩, ?_⟩
    · rw [handleMessage, hrun]
      rfl
    · rw [joined_sidesL, joined_sidesL] at hbag
      rw [happend, bagAll_append_eq hchunks, hbag]
  | right chunk =>
    rw [accept, Option.map_eq_some_iff] at haccept
    obtain ⟨R'', haccept, heq⟩ := haccept
    cases heq
    have hsideR :
        SideHolds j.descR (R.filter fun r => j.sidesR.canMatch r) (j.sidesR.degreeU L) ex.sideR :=
      funext (j.degreeU_sidesR L) ▸ hinv.sideR
    have hsideL :
        SideHolds j.descL (L.filter fun l => j.sidesL.canMatch l) (j.sidesR.degreeM R) ex.sideL :=
      funext (j.degreeM_sidesR R) ▸ hinv.sideL
    obtain ⟨hR', chunks', sideR, sideL, hrun, hsideR', hsideL', hbag⟩ :=
      JoinSides.eqJoinOneside_spec build (sidesOk_right h) hinv.storableR hinv.storableL h.chunkSize
        haccept hsideR hsideL
    rw [funext (j.degreeU_sidesR L)] at hsideR'
    rw [funext (j.degreeM_sidesR R')] at hsideL'
    refine ⟨⟨sideL, sideR⟩, chunks ++ chunks', ?_, ⟨hinv.storableL, hR', hsideL', hsideR'⟩, ?_⟩
    · rw [handleMessage, hrun]
      rfl
    · rw [joined_sidesR, joined_sidesR] at hbag
      rw [happend, bagAll_append_eq hchunks, hbag]
  | barrier =>
    cases haccept
    exact ⟨ex, chunks, rfl, hinv, hchunks⟩

theorem run_spec (build : Build) (h : j.Ok) :
    ∀ {messages : List (JoinMessage S wl wr)} {L L' : Multiset (Row S wl)}
    {R R' : Multiset (Row S wr)} {ex : HashJoinExecutor S wl wr}
    {chunks : List (StreamChunk (Row S wo))},
    j.Inv L R ex → bagAll 0 (changes chunks) = some (j.batchJoin L R) →
    messages.foldlM j.accept (L, R) = some (L', R') →
    ∃ ex' chunks', messages.foldlM (j.handleMessage build) (ex, chunks) = .ok (ex', chunks') ∧
      j.Inv L' R' ex' ∧
      bagAll 0 (changes chunks') = some (j.batchJoin L' R')
  | [], L, L', R, R', ex, chunks, hinv, hchunks, haccept => by
    cases haccept
    exact ⟨ex, chunks, rfl, hinv, hchunks⟩
  | message :: messages, L, L', R, R', ex, chunks, hinv, hchunks, haccept => by
    obtain ⟨⟨L₁, R₁⟩, haccept₁, haccept⟩ := Option.bind_eq_some_iff.1 haccept
    obtain ⟨ex₁, chunks₁, hrun₁, hinv₁, hchunks₁⟩ :=
      handleMessage_spec build h hinv hchunks haccept₁
    obtain ⟨ex', chunks', hrun, hspec⟩ := run_spec build h hinv₁ hchunks₁ haccept
    refine ⟨ex', chunks', ?_, hspec⟩
    rw [List.foldlM_cons, hrun₁, ok_bind, hrun]

/-! ## The result -/

/-- The rows that are stored are rows of the input, and their degrees in the degree table and in the
cache are the numbers that `deg` gives. -/
structure DegreesExact {w : Nat} (d : JoinHashMapDesc S w) (rows : Multiset (Row S w))
    (deg : Row S w → Nat) (ht : JoinHashMap S w) : Prop where
  table : ∃ t, ht.degreeState = some t ∧
    ∀ (k : Bytes) row, ht.state[k]? = some row → row ∈ rows ∧ t[k]? = some (d.orderKey row, deg row)
  cached : ∀ key entry e, ht.inner key = some (some entry) → e ∈ entry.cached.entries →
    e.2.row ∈ rows ∧ e.2.degree = deg e.2.row

theorem degreesExact {w : Nat} {d : JoinHashMapDesc S w} {rows : Multiset (Row S w)}
    {can : Row S w → Bool} {deg : Row S w → Nat} {ht : JoinHashMap S w}
    (h : SideHolds d (rows.filter fun row => can row) deg ht) (hneed : d.needDegreeTable = true) :
    DegreesExact d rows deg ht := by
  constructor
  · have hdegrees := h.degrees
    cases hstate : ht.degreeState with
    | none =>
      rw [hstate, DegreesHold, hneed] at hdegrees
      cases hdegrees
    | some t =>
      rw [hstate] at hdegrees
      refine ⟨t, rfl, fun k row hget => ?_⟩
      obtain ⟨hrow, hpk⟩ := (h.state k row).1 hget
      exact ⟨mem_of_mem_filter hrow, (hdegrees.2 _ _).2 ⟨row, hrow, hpk, rfl⟩⟩
  · intro key entry e hget he
    obtain ⟨entry', heq, hentry⟩ := h.cache key _ hget
    cases heq
    obtain ⟨v, hv, rfl⟩ := hentry.mem_entries.1 he
    obtain ⟨row, hrow, rfl⟩ := mem_map.1 hv
    exact ⟨mem_of_mem_filter (mem_of_mem_filter hrow), if_pos hneed⟩

/-- For every type of join, condition and null-safe bitmap, and on all consistent inputs, with the
caches evicted at any time: the executor does not fail, what it sends builds up the join of the rows
of the inputs without a deletion of an absent row, and on a side that has degrees the degree of each
stored row is the number of its matches. -/
theorem hash_join_maintains_batch_join (build : Build) (j : HashJoinDesc S wl wr wo) (h : j.Ok)
    (messages : List (JoinMessage S wl wr)) (L : Multiset (Row S wl)) (R : Multiset (Row S wr))
    (hinputs : j.inputs messages = some (L, R)) :
    ∃ ex chunks, j.run build messages = .ok (ex, chunks) ∧
      bagAll 0 (changes chunks) = some (j.batchJoin L R) ∧
      (j.descL.needDegreeTable = true →
        DegreesExact j.descL L (fun l => R.countP fun r => j.matchRow l r) ex.sideL) ∧
      (j.descR.needDegreeTable = true →
        DegreesExact j.descR R (fun r => L.countP fun l => j.matchRow l r) ex.sideR) := by
  have hempty : bagAll 0 (changes ([] : List (StreamChunk (Row S wo)))) =
      some (j.batchJoin 0 0) := by
    rw [← joined_sidesL]
    rfl
  obtain ⟨ex, chunks, hrun, hinv, hbag⟩ := run_spec build h j.inv_new hempty hinputs
  exact ⟨ex, chunks, hrun, hbag, degreesExact hinv.sideL, degreesExact hinv.sideR⟩

/-- A full outer join of inputs of two columns, with the join key in the first and the primary key
in the second one. -/
def fullOuterParams : JoinParams (Fin 3) 2 where
  joinKeyIndices := [0]
  inputPkIndices := [1]
  pkIndices := [1]
  pkSerializer key := key.map fun datum => datum.elim 0 fun v => ⟨v + 1, by omega⟩
  tableSerializer key := key.map fun datum => datum.elim 0 fun v => ⟨v + 1, by omega⟩
  vnodeByPk _ := 0
  vnodes := [0]
  nodup := by decide

def fullOuterDesc : HashJoinDesc (Fin 3) 2 2 4 where
  joinType := .fullOuter
  paramsL := fullOuterParams
  paramsR := fullOuterParams
  nullSafe := [false]
  outputIndices := #v[.inl 0, .inl 1, .inr 0, .inr 1]
  cond := none
  inequalityPairs := []
  chunkSize := 2

theorem fullOuterParams_ok : fullOuterParams.Ok := by
  have hinj : ∀ a b : Option (Fin 3), (a.elim 0 fun v => ⟨v + 1, by omega⟩ : U8) =
      b.elim 0 (fun v => ⟨v + 1, by omega⟩) →
      a = b := by decide
  exact ⟨fun _ heq => List.map_injective_iff.2 hinj heq,
    fun _ heq => List.map_injective_iff.2 hinj heq, by decide⟩

/-- Two rows match, one of them is deleted, and a row with a NULL key stays unmatched. -/
def fullOuterMessages : List (JoinMessage (Fin 3) 2 2) :=
  let input (op : Op) (row : Row (Fin 3) 2) : JoinInput (Fin 3) 2 :=
    ⟨⟨op, row, true⟩, fun _ => false, fun _ => true⟩
  [.left [input .insert #v[some 1, some 0], input .insert #v[none, some 1]], .barrier,
    .right [input .insert #v[some 1, some 2], input .insert #v[none, some 1]],
    .left [input .delete #v[some 1, some 0]]]

theorem hash_join_maintains_batch_join_fullOuter : ∃ ex chunks,
    fullOuterDesc.run ⟨true, true⟩ fullOuterMessages = .ok (ex, chunks) ∧
      bagAll 0 (changes chunks) =
        some (fullOuterDesc.batchJoin {#v[none, some 1]} {#v[some 1, some 2], #v[none, some 1]}) := by
  have hok : fullOuterDesc.Ok := ⟨fullOuterParams_ok, fullOuterParams_ok, by decide, nofun⟩
  obtain ⟨ex, chunks, hrun, hbag, -⟩ :=
    hash_join_maintains_batch_join ⟨true, true⟩ fullOuterDesc hok fullOuterMessages
    {#v[none, some 1]} {#v[some 1, some 2], #v[none, some 1]} (by decide +kernel)
  exact ⟨ex, chunks, hrun, hbag⟩

end HashJoinDesc

end Stream
