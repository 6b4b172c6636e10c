import RisingLake.Stream.JoinHashMap

/-!
# The hash join executor (`stream/src/executor/hash_join.rs`, `join/builder.rs`, `join/mod.rs`)

A row of one side is matched with the rows of the other side under its join key, and the changes of
the output are appended to chunks. The functions are written for an update side and a match side,
which are the left and the right side or the other way round.

The watermarks and the optimization for append-only inputs are left out. When the cache is evicted
is not modelled: each row comes with the keys that are evicted on both sides before it.
-/

namespace Stream

open Res

inductive JoinType where
  | inner | leftOuter | rightOuter | fullOuter | leftSemi | leftAnti | rightSemi | rightAnti
  deriving DecidableEq, Repr

inductive SideType where
  | left | right
  deriving DecidableEq, Repr

variable (T : JoinType) (side : SideType)

def isOuterSide : Bool :=
  T = .fullOuter || (T = .leftOuter && side = .left) || (T = .rightOuter && side = .right)

def outerSideNull : Bool :=
  T = .fullOuter || (T = .leftOuter && side = .right) || (T = .rightOuter && side = .left)

/-- Send the update only once if the join type is semi/anti and the update is the same side as the
join. -/
def forwardExactlyOnce : Bool :=
  ((T = .leftSemi || T = .leftAnti) && side = .left) ||
    ((T = .rightSemi || T = .rightAnti) && side = .right)

def onlyForwardMatchedSide : Bool :=
  ((T = .leftSemi || T = .leftAnti) && side = .right) ||
    ((T = .rightSemi || T = .rightAnti) && side = .left)

def isSemi : Bool := T = .leftSemi || T = .rightSemi

def isAnti : Bool := T = .leftAnti || T = .rightAnti

def needLeftDegree : Bool := T = .fullOuter || T = .leftOuter || T = .leftAnti || T = .leftSemi

def needRightDegree : Bool := T = .fullOuter || T = .rightOuter || T = .rightAnti || T = .rightSemi

/-! ## The chunks -/

/-- How the rows of the output are made of a row of the update side and a row of the match side. -/
structure JoinOutputRows (U M O : Type) where
  both : U → M → O
  update : U → O
  matched : M → O

/-- `post_process` from the row `a` on: an update to a row and at once from it is made a deletion
and an insertion. -/
def postProcessFrom {R : Type} [DecidableEq R] (build : Build) (a : OpRow R) :
    List (OpRow R) → Res (StreamChunk R)
  | b :: c :: d :: rest =>
    if b.op = .updateInsert ∧ c.op = .updateDelete ∧ c.row = b.row then
      if a.op = .updateDelete ∧ d.op = .updateInsert then do
        let rest ← postProcessFrom build { d with op := .insert } rest
        .ok ({ a with op := .delete } :: { b with vis := false } :: { c with vis := false } :: rest)
      else do
        debugAssert build.debugAssertions false "unexpected Op sequences"
        .ok (a :: (← postProcessFrom build b (c :: d :: rest)))
    else do .ok (a :: (← postProcessFrom build b (c :: d :: rest)))
  | [b, c] =>
    if b.op = .updateInsert ∧ c.op = .updateDelete ∧ c.row = b.row then .error .index
    else .ok [a, b, c]
  | rest => .ok (a :: rest)

def postProcess {R : Type} [DecidableEq R] (build : Build) : StreamChunk R → Res (StreamChunk R)
  | [] => .ok []
  | a :: rest => postProcessFrom build a rest

/-- The chunks that were yielded and the rows pending for the next one. -/
structure JoinChunkBuilder (O : Type) where
  yielded : List (StreamChunk O)
  builder : StreamChunkBuilder O

namespace JoinChunkBuilder

variable {U M O : Type} [DecidableEq O]

def new (chunkSize : Nat) :
    Res (JoinChunkBuilder O) := do .ok ⟨[], ← StreamChunkBuilder.new chunkSize⟩

variable (build : Build)

/-- The chunk that the builder gave, if any, is processed and yielded. -/
def yieldChunk (yielded : List (StreamChunk O)) :
    Option (StreamChunk O) × StreamChunkBuilder O → Res (JoinChunkBuilder O)
  | (some chunk, builder) => do .ok ⟨yielded ++ [← postProcess build chunk], builder⟩
  | (none, builder) => .ok ⟨yielded, builder⟩

def appendRow (build : Build) (b : JoinChunkBuilder O) (op : Op) (row : O) :
    Res (JoinChunkBuilder O) :=
  yieldChunk build b.yielded (b.builder.appendRow op row)

def appendUpdate (b : JoinChunkBuilder O) (oldRow newRow : O) : Res (JoinChunkBuilder O) :=
  match b.builder.appendRow .updateDelete oldRow with
  | (some _, _) => .error (.explicit "`Op::UpdateDelete` should not yield chunk")
  | (none, builder) => appendRow build { b with builder } .updateInsert newRow

def withMatchOnInsert (T : JoinType) (side : SideType) (o : JoinOutputRows U M O)
    (b : JoinChunkBuilder O) (row : U) (matchedRow : JoinRow M) : Res (JoinChunkBuilder O) :=
  if isAnti T then
    if matchedRow.isZeroDegree && onlyForwardMatchedSide T side then
      b.appendRow build .delete (o.matched matchedRow.row)
    else .ok b
  else if isSemi T then
    if matchedRow.isZeroDegree && onlyForwardMatchedSide T side then
      b.appendRow build .insert (o.matched matchedRow.row)
    else .ok b
  else if matchedRow.isZeroDegree && outerSideNull T side then
    b.appendUpdate build (o.matched matchedRow.row) (o.both row matchedRow.row)
  else b.appendRow build .insert (o.both row matchedRow.row)

def withMatchOnDelete (T : JoinType) (side : SideType) (o : JoinOutputRows U M O)
    (b : JoinChunkBuilder O) (row : U) (matchedRow : JoinRow M) : Res (JoinChunkBuilder O) :=
  if isAnti T then
    if matchedRow.isZeroDegree && onlyForwardMatchedSide T side then
      b.appendRow build .insert (o.matched matchedRow.row)
    else .ok b
  else if isSemi T then
    if matchedRow.isZeroDegree && onlyForwardMatchedSide T side then
      b.appendRow build .delete (o.matched matchedRow.row)
    else .ok b
  else if matchedRow.isZeroDegree && outerSideNull T side then
    b.appendUpdate build (o.both row matchedRow.row) (o.matched matchedRow.row)
  else b.appendRow build .delete (o.both row matchedRow.row)

def forwardExactlyOnceIfMatched (T : JoinType) (side : SideType) (o : JoinOutputRows U M O)
    (b : JoinChunkBuilder O) (op : Op) (row : U) : Res (JoinChunkBuilder O) :=
  -- if it's a semi join and the side needs to be maintained.
  if isSemi T && forwardExactlyOnce T side then b.appendRow build op (o.update row) else .ok b

def forwardIfNotMatched (T : JoinType) (side : SideType) (o : JoinOutputRows U M O)
    (b : JoinChunkBuilder O) (op : Op) (row : U) : Res (JoinChunkBuilder O) :=
  -- if it's outer join or anti join and the side needs to be maintained.
  if (isAnti T && forwardExactlyOnce T side) || isOuterSide T side then
    b.appendRow build op (o.update row)
  else .ok b

/-- All the chunks, with the last one. -/
def take (build : Build) (b : JoinChunkBuilder O) : Res (List (StreamChunk O)) := do
  .ok (← yieldChunk build b.yielded b.builder.take).yielded

end JoinChunkBuilder

/-! ## `eq_join_oneside` -/

/-- The two sides as seen from the update side. -/
structure JoinSides (S : Type) (u m : Nat) (O : Type) where
  joinType : JoinType
  side : SideType
  update : JoinHashMapDesc S u
  matched : JoinHashMapDesc S m
  nonNullFields : List (Fin u)
  check : Row S u → Row S m → Bool
  output : JoinOutputRows (Row S u) (Row S m) O

/-- The state of the loop over the matched rows. -/
structure MatchState (S : Type) (m : Nat) (O : Type) where
  degree : Nat
  ht : JoinHashMap S m
  out : JoinChunkBuilder O

/-- The state of the loop over the rows of a chunk. -/
structure JoinState (S : Type) (u m : Nat) (O : Type) where
  update : JoinHashMap S u
  matched : JoinHashMap S m
  out : JoinChunkBuilder O

/-- A row of a chunk, with the keys that are evicted from the caches of the sides before it. -/
structure JoinInput (S : Type) (width : Nat) where
  row : OpRow (Row S width)
  evictedUpdate : JoinKey S → Bool
  evictedMatched : JoinKey S → Bool

namespace JoinSides

variable {S O : Type} {u m : Nat} [DecidableEq S] [DecidableEq O] (build : Build)
  (j : JoinSides S u m O)

/-- The rows that can be matched, and which alone are stored. -/
def canMatch (row : Row S u) : Bool :=
  j.nonNullFields.all (fun i => (row.get i).isSome) && j.matched.nullsMatch (j.update.joinKey row)

def hashEqMatch (ht : JoinHashMap S m) (row : Row S u) :
    Res (Option (JoinEntryState (Row S m)) × JoinHashMap S m) :=
  if j.canMatch row then do
    let (entry, ht) ← ht.takeState build j.matched (j.update.joinKey row)
    .ok (some entry, ht)
  else .ok (none, ht)

def emitUnlessOnce (out : JoinChunkBuilder O) (emitted : Res (JoinChunkBuilder O)) :
    Res (JoinChunkBuilder O) :=
  if forwardExactlyOnce j.joinType j.side then .ok out else emitted

/-- A row that the inserted row is compared with. -/
def matchOnInsert (row : Row S u) (s : MatchState S m O)
    (matchedRow : JoinRow (Row S m)) : Res (JoinRow (Row S m) × MatchState S m O) :=
  if j.check row matchedRow.row then do
    let out ← j.emitUnlessOnce s.out
      (s.out.withMatchOnInsert build j.joinType j.side j.output row matchedRow)
    if j.matched.needDegreeTable then
      let (matchedRow, ht) ← s.ht.incDegree j.matched matchedRow
      .ok (matchedRow, ⟨s.degree + 1, ht, out⟩)
    else .ok (matchedRow, ⟨s.degree + 1, s.ht, out⟩)
  else .ok (matchedRow, s)

/-- A row that the deleted row is compared with. -/
def matchOnDelete (row : Row S u) (s : MatchState S m O)
    (matchedRow : JoinRow (Row S m)) : Res (JoinRow (Row S m) × MatchState S m O) :=
  if j.check row matchedRow.row then do
    let (matchedRow, ht) ← if j.matched.needDegreeTable then s.ht.decDegree build j.matched matchedRow
      else .ok (matchedRow, s.ht)
    let out ← j.emitUnlessOnce s.out
      (s.out.withMatchOnDelete build j.joinType j.side j.output row matchedRow)
    .ok (matchedRow, ⟨s.degree + 1, ht, out⟩)
  else .ok (matchedRow, s)

def forwardRow (out : JoinChunkBuilder O) (op : Op) (row : Row S u) (degree : Nat) :
    Res (JoinChunkBuilder O) :=
  if degree = 0 then out.forwardIfNotMatched build j.joinType j.side j.output op row
  else out.forwardExactlyOnceIfMatched build j.joinType j.side j.output op row

/-- The rows under the join key are compared with the row one after the other, and the state is put
back. -/
def matchRows
    (onMatch : MatchState S m O → JoinRow (Row S m) → Res (JoinRow (Row S m) × MatchState S m O))
    (entry : JoinEntryState (Row S m)) (ht : JoinHashMap S m) (out : JoinChunkBuilder O) (op : Op)
    (row : Row S u) : Res (MatchState S m O) := do
  let (values, s) ← mapAccumM onMatch ⟨0, ht, out⟩ entry.cached.values
  let out ← j.forwardRow build s.out op row s.degree
  let entry := { entry with cached := entry.cached.withValues values }
  .ok ⟨s.degree, s.ht.updateState (j.update.joinKey row) entry, out⟩

def insertRow (build : Build) (j : JoinSides S u m O) (s : JoinState S u m O) (row : Row S u) :
    Res (JoinState S u m O) := do
  let (matchedRows, ht) ← j.hashEqMatch build s.matched row
  match matchedRows with
  | some entry => do
    let matched ← j.matchRows build (j.matchOnInsert build row) entry ht s.out .insert row
    if j.update.needDegreeTable then
      .ok ⟨← s.update.insert build j.update (j.update.joinKey row) ⟨row, matched.degree⟩,
        matched.ht, matched.out⟩
    else .ok ⟨← s.update.insertRow build j.update (j.update.joinKey row) row, matched.ht, matched.out⟩
  | none => do
    -- Row which violates null-safe bitmap will never be matched so we need not store.
    .ok ⟨s.update, ht, ← s.out.forwardIfNotMatched build j.joinType j.side j.output .insert row⟩

def deleteRow (build : Build) (j : JoinSides S u m O) (s : JoinState S u m O) (row : Row S u) :
    Res (JoinState S u m O) := do
  let (matchedRows, ht) ← j.hashEqMatch build s.matched row
  match matchedRows with
  | some entry => do
    let matched ← j.matchRows build (j.matchOnDelete build row) entry ht s.out .delete row
    if j.update.needDegreeTable then
      .ok ⟨← s.update.delete build j.update (j.update.joinKey row) ⟨row, matched.degree⟩,
        matched.ht, matched.out⟩
    else .ok ⟨← s.update.deleteRow build j.update (j.update.joinKey row) row, matched.ht, matched.out⟩
  | none => do
    -- We do not store row which violates null-safe bitmap.
    .ok ⟨s.update, ht, ← s.out.forwardIfNotMatched build j.joinType j.side j.output .delete row⟩

/-- A row of the chunk; the ones that are not visible are passed over. -/
def handleRow (s : JoinState S u m O) (input : JoinInput S u) : Res (JoinState S u m O) :=
  if input.row.vis then
    let s := { s with
      update := s.update.evict input.evictedUpdate
      matched := s.matched.evict input.evictedMatched }
    match input.row.op with
    | .insert | .updateInsert => j.insertRow build s input.row.row
    | .delete | .updateDelete => j.deleteRow build s input.row.row
  else .ok s

/-- The chunks of the output for a chunk of the update side. -/
def eqJoinOneside (chunkSize : Nat) (update : JoinHashMap S u)
    (matched : JoinHashMap S m) (chunk : List (JoinInput S u)) :
    Res (List (StreamChunk O) × JoinHashMap S u × JoinHashMap S m) := do
  let out ← JoinChunkBuilder.new chunkSize
  let s ← chunk.foldlM (j.handleRow build) ⟨update, matched, out⟩
  .ok (← s.out.take build, s.update, s.matched)

end JoinSides

/-! ## The executor -/

/-- The parameters of the executor. A column of the output is a column of the left or of the right
input. The pairs are the columns that the condition compares by an inequality. -/
structure HashJoinDesc (S : Type) (wl wr wo : Nat) where
  joinType : JoinType
  paramsL : JoinParams S wl
  paramsR : JoinParams S wr
  nullSafe : List Bool
  outputIndices : Vector (Fin wl ⊕ Fin wr) wo
  cond : Option (Row S (wl + wr) → Option Bool)
  inequalityPairs : List (Fin wl × Fin wr)
  chunkSize : Nat

/-- What the aligned inputs give, apart from watermarks; a barrier changes neither side. -/
inductive JoinMessage (S : Type) (wl wr : Nat) where
  | left (chunk : List (JoinInput S wl))
  | right (chunk : List (JoinInput S wr))
  | barrier

structure HashJoinExecutor (S : Type) (wl wr : Nat) where
  sideL : JoinHashMap S wl
  sideR : JoinHashMap S wr

namespace HashJoinDesc

variable {S : Type} {wl wr wo : Nat} (j : HashJoinDesc S wl wr wo)

/-- The output columns of a pair of rows, or of one row with NULLs for the other. -/
def outputRow (l : Option (Row S wl)) (r : Option (Row S wr)) : Row S wo :=
  j.outputIndices.map fun
    | .inl i => l.bind (·.get i)
    | .inr i => r.bind (·.get i)

/-- The condition on the concatenated row; NULL counts as false. -/
def check (l : Row S wl) (r : Row S wr) : Bool :=
  match j.cond with
  | some cond => (cond (l ++ r)).getD false
  | none => true

def descL : JoinHashMapDesc S wl :=
  { j.paramsL with
    nullMatched := j.nullSafe
    inequalityKey := none
    needDegreeTable := needLeftDegree j.joinType && !j.paramsR.pkContainedInJk }

def descR : JoinHashMapDesc S wr :=
  { j.paramsR with
    nullMatched := j.nullSafe
    inequalityKey := none
    needDegreeTable := needRightDegree j.joinType && !j.paramsL.pkContainedInJk }

def sidesL : JoinSides S wl wr (Row S wo) where
  joinType := j.joinType
  side := .left
  update := j.descL
  matched := j.descR
  nonNullFields := (List.finRange wl).filter fun i => j.inequalityPairs.any (·.1 = i)
  check := j.check
  output :=
    { both := fun l r => j.outputRow (some l) (some r)
      update := fun l => j.outputRow (some l) none
      matched := fun r => j.outputRow none (some r) }

def sidesR : JoinSides S wr wl (Row S wo) where
  joinType := j.joinType
  side := .right
  update := j.descR
  matched := j.descL
  nonNullFields := (List.finRange wr).filter fun i => j.inequalityPairs.any (·.2 = i)
  check r l := j.check l r
  output :=
    { both := fun r l => j.outputRow (some l) (some r)
      update := fun r => j.outputRow none (some r)
      matched := fun l => j.outputRow (some l) none }

/-- The degree table of a side that needs it, and none otherwise. -/
def initialState {w : Nat} (d : JoinHashMapDesc S w) : JoinHashMap S w where
  inner _ := none
  state := ∅
  degreeState := if d.needDegreeTable then some ∅ else none

def new : HashJoinExecutor S wl wr := ⟨initialState j.descL, initialState j.descR⟩

variable [DecidableEq S]

def handleMessage (build : Build) (j : HashJoinDesc S wl wr wo)
    (s : HashJoinExecutor S wl wr × List (StreamChunk (Row S wo))) :
    JoinMessage S wl wr → Res (HashJoinExecutor S wl wr × List (StreamChunk (Row S wo)))
  | .left chunk => do
    let (chunks, sideL, sideR) ← j.sidesL.eqJoinOneside build j.chunkSize s.1.sideL s.1.sideR chunk
    .ok (⟨sideL, sideR⟩, s.2 ++ chunks)
  | .right chunk => do
    let (chunks, sideR, sideL) ← j.sidesR.eqJoinOneside build j.chunkSize s.1.sideR s.1.sideL chunk
    .ok (⟨sideL, sideR⟩, s.2 ++ chunks)
  | .barrier => .ok s

def run (build : Build) (j : HashJoinDesc S wl wr wo) (messages : List (JoinMessage S wl wr)) :
    Res (HashJoinExecutor S wl wr × List (StreamChunk (Row S wo))) :=
  messages.foldlM (j.handleMessage build) (j.new, [])

end HashJoinDesc

end Stream
