import RisingLake.Stream.Chunk
import RisingLake.Stream.StateTable

/-!
# The dynamic filter (`stream/src/executor/dynamic_filter.rs`)

The rows of the left input are compared with the value of the one row of the right input. Within an
epoch they are filtered by the value of the last barrier. At a barrier the rows between the old
value and the new one are read from the left table, and inserted or deleted downstream.

The values of a row are taken up to the equality of the source. The comparator is one of four, since
any other is unreachable. Watermarks and changes of the vnodes are left out: without a watermark no
row is below it.
-/

namespace Stream

open Res

/-- The comparators of the filter, of `PbExprNodeType`. -/
inductive Comparator where
  | greaterThan
  | greaterThanOrEqual
  | lessThan
  | lessThanOrEqual
  deriving DecidableEq, Repr

def Comparator.eval {S : Type} [LinearOrder S] : Comparator → S → S → Bool
  | greaterThan, l, r => r < l
  | greaterThanOrEqual, l, r => r ≤ l
  | lessThan, l, r => l < r
  | lessThanOrEqual, l, r => l ≤ r

/-- The messages of the two inputs, aligned at the barriers. -/
inductive AlignedMessage (L R : Type) where
  | left (chunk : StreamChunk L)
  | right (chunk : StreamChunk R)
  | barrier (epoch : U64)

inductive Message (L : Type) where
  | chunk (chunk : StreamChunk L)
  | barrier (epoch : U64)
  deriving DecidableEq, Repr

namespace StreamChunk

variable {R : Type}

def compact (chunk : StreamChunk R) : StreamChunk R := chunk.filter (·.vis)

/-- `StreamChunk::with_visibility`, for the rows that the columns hold. -/
def withVisibility (ops : List Op) (rows : List R) (visibility : List Bool) :
    Res (StreamChunk R) := do
  assert (rows.length == ops.length) "assertion failed: col.len() == ops.len()"
  assert (rows.length == visibility.length) "assertion failed: capacity == column.capacity()"
  .ok (((ops.zip rows).zip visibility).map fun ((op, row), vis) => ⟨op, row, vis⟩)

end StreamChunk

/-- The parts of the executor that do not change. `selectAll` is the order in which the scans of the
vnodes arrive at the barrier of an epoch. -/
structure DynamicFilterExecutor (S K : Type) (width : Nat) where
  build : Build
  keyL : Fin width
  comparator : Comparator
  leftDesc : TableDesc (Row S width) K
  chunkSize : Nat
  selectAll : U64 → List (List (Row S width)) → List (Row S width)

/-- The tables of the executor, and the value and the row of the right side at the last barrier and
now. -/
structure DynamicFilterState (S K : Type) [LinearOrder K] (width rwidth : Nat) where
  leftTable : StateTable (Row S width) K
  rightTable : StateTable (Row S (rwidth + 1)) Unit
  committedRhsValue : Option (Option S)
  stagingRhsValue : Option (Option S)
  committedRhsRow : Option (Row S (rwidth + 1))
  stagingRhsRow : Option (Row S (rwidth + 1))
  streamChunkBuilder : StreamChunkBuilder (Row S width)

/-- What `apply_batch` has built so far. -/
structure Batch (S K : Type) [LinearOrder K] (width : Nat) where
  newOps : List Op
  newVisibility : List Bool
  lastRes : Bool
  leftTable : StateTable (Row S width) K

namespace DynamicFilterExecutor

variable {S K : Type} [LinearOrder S] [LinearOrder K] {width rwidth : Nat}
  (e : DynamicFilterExecutor S K width) (s : DynamicFilterState S K width rwidth)
  (t : StateTable (Row S (rwidth + 1)) Unit)

/-- The condition on a row. A NULL right value implies a false evaluation for all rows. -/
def satisfied (rhs : Option S) (row : Row S width) : Bool :=
  match row.get e.keyL, rhs with
  | some l, some r => e.comparator.eval l r
  | _, _ => false

/-- The operations and the visibility that a row adds. -/
def pushOps (b : Batch S K width) (op : Op) (satisfied : Bool) : Batch S K width :=
  let push (ops : List Op) (vis : List Bool) : Batch S K width :=
    { b with newOps := b.newOps ++ ops, newVisibility := b.newVisibility ++ vis }
  match op with
  | .insert | .delete => push [op] [satisfied]
  | .updateDelete => { b with lastRes := satisfied }
  | .updateInsert =>
    match b.lastRes, satisfied with
    | true, false => push [.delete, .updateInsert] [true, false]
    | false, true => push [.updateDelete, .insert] [false, true]
    | true, true => push [.updateDelete, .updateInsert] [true, true]
    | false, false => push [.updateDelete, .updateInsert] [false, false]

/-- The write of a row to the left table, which has no rows with a NULL key. -/
def writeLeft (t : StateTable (Row S width) K) (op : Op)
    (row : Row S width) : Res (StateTable (Row S width) K) :=
  if (row.get e.keyL).isSome then
    match op with
    | .insert | .updateInsert => e.leftDesc.insert t row
    | .delete | .updateDelete => e.leftDesc.delete t row
  else .ok t

def applyRow (rhs : Option S) (b : Batch S K width) (x : OpRow (Row S width)) :
    Res (Batch S K width) := do
  let b := pushOps b x.op (e.satisfied rhs x.row)
  .ok { b with leftTable := ← e.writeLeft b.leftTable x.op x.row }

def applyBatch (chunk : StreamChunk (Row S width)) (rhs : Option S)
    (t : StateTable (Row S width) K) : Res (Batch S K width) :=
  chunk.foldlM (e.applyRow rhs)
    { newOps := [], newVisibility := [], lastRes := false, leftTable := t }

/-- The range between two right values, whether the latest one is its lower bound, and whether the
range is inserted. -/
def getRange (curr prev : Option S) : Res ((Bound S × Bound S) × Bool × Bool) := do
  debugAssert e.build.debugAssertions (curr ≠ prev) "assertion failed: curr != prev"
  match curr, prev with
  | some c, none | none, some c =>
    let range := match e.comparator with
      | .greaterThan => (.excluded c, .unbounded)
      | .greaterThanOrEqual => (.included c, .unbounded)
      | .lessThan => (.unbounded, .excluded c)
      | .lessThanOrEqual => (.unbounded, .included c)
    let isLower := match e.comparator with
      | .greaterThan | .greaterThanOrEqual => true
      | .lessThan | .lessThanOrEqual => false
    .ok (range, isLower, curr.isSome)
  | some c, some p =>
    if c < p then
      let range := match e.comparator with
        | .greaterThan | .lessThanOrEqual => (.excluded c, .included p)
        | .greaterThanOrEqual | .lessThan => (.included c, .excluded p)
      let isInsert := match e.comparator with
        | .greaterThan | .greaterThanOrEqual => true
        | .lessThan | .lessThanOrEqual => false
      .ok (range, true, isInsert)
    else
      let range := match e.comparator with
        | .greaterThan | .lessThanOrEqual => (.excluded p, .included c)
        | .greaterThanOrEqual | .lessThan => (.included p, .excluded c)
      let isInsert := match e.comparator with
        | .lessThan | .lessThanOrEqual => true
        | .greaterThan | .greaterThanOrEqual => false
      .ok (range, false, isInsert)
  | none, none => .error (.explicit "internal error: entered unreachable code")

def keyInRange (range : Bound S × Bound S) (row : Row S width) : Bool :=
  match row.get e.keyL with
  | some l => Bound.contains range l
  | none => false

/-- The state after the first barrier: the right row is recovered from its table. -/
def init (leftTable : StateTable (Row S width) K)
    (rightTable : StateTable (Row S (rwidth + 1)) Unit) :
    Res (DynamicFilterState S K width rwidth) := do
  let recoveredRhs := rightTable[()]?
  .ok {
    leftTable, rightTable
    committedRhsValue := recoveredRhs.map (·.get 0)
    stagingRhsValue := recoveredRhs.map (·.get 0)
    committedRhsRow := recoveredRhs
    stagingRhsRow := recoveredRhs
    streamChunkBuilder := ← StreamChunkBuilder.new e.chunkSize }

/-- A chunk of the left input. -/
def onLeft (chunk : StreamChunk (Row S width)) :
    Res (List (Message (Row S width)) × DynamicFilterState S K width rwidth) := do
  let chunk := StreamChunk.compact chunk
  let b ← e.applyBatch chunk s.committedRhsValue.join s.leftTable
  let s := { s with leftTable := b.leftTable }
  if b.newVisibility.count true > 0 then
    let newChunk ← StreamChunk.withVisibility b.newOps (chunk.map (·.row)) b.newVisibility
    .ok ([.chunk newChunk], s)
  else .ok ([], s)

def onRightRow (x : OpRow (Row S (rwidth + 1))) : Res (DynamicFilterState S K width rwidth) :=
  match x.op with
  | .updateInsert | .insert =>
    .ok { s with stagingRhsValue := some (x.row.get 0), stagingRhsRow := some x.row }
  | .updateDelete | .delete => do
    if some (x.row.get 0) ≠ s.stagingRhsValue then e.build.consistencyPanic
    .ok { s with stagingRhsValue := none, stagingRhsRow := none }

/-- The rows of the left table in a range, as the scans of the vnodes arrive. -/
def scan (t : StateTable (Row S width) K) (epoch : U64) (range : Bound S × Bound S) :
    List (Row S width) :=
  e.selectAll epoch
    (e.leftDesc.vnodes.map fun vnode => e.leftDesc.iterWithVnode t vnode (e.keyInRange range))

def appendRows (op : Op) : List (Row S width) → StreamChunkBuilder (Row S width) →
    List (StreamChunk (Row S width)) × StreamChunkBuilder (Row S width)
  | [], b => ([], b)
  | row :: rows, b =>
    let (chunk, b) := b.appendRow op row
    let (chunks, b) := appendRows op rows b
    (chunk.toList ++ chunks, b)

def deleteOld : Option (Row S (rwidth + 1)) → Res (StateTable (Row S (rwidth + 1)) Unit)
  | some oldRow => (TableDesc.singleton _).delete t oldRow
  | none => .ok t

def insertNew : Option (Row S (rwidth + 1)) → Res (StateTable (Row S (rwidth + 1)) Unit)
  | some row => (TableDesc.singleton _).insert t row
  | none => .ok t

/-- The write of the right row, by the actor in charge of vnode 0. -/
def writeRight (committed staging : Option (Row S (rwidth + 1))) :
    Res (StateTable (Row S (rwidth + 1)) Unit) :=
  if committed ≠ staging ∧
    e.leftDesc.vnodes.contains 0 then do insertNew (← deleteOld t committed) staging
  else .ok t

/-- The rows between two right values, in chunks. -/
def emitRange (epoch : U64)
    (curr prev : Option S) :
    Res (List (Message (Row S width)) × StreamChunkBuilder (Row S width)) := do
  let (range, _, isInsert) ← e.getRange curr prev
  let (chunks, b) := appendRows (if isInsert then .insert else .delete)
    (e.scan s.leftTable epoch range) s.streamChunkBuilder
  let (last, b) := b.take
  .ok ((chunks ++ last.toList).map .chunk, b)

/-- The chunks of a barrier, and the builder that they leave. -/
def emitChange (epoch : U64)
    (curr prev : Option S) :
    Res (List (Message (Row S width)) × StreamChunkBuilder (Row S width)) :=
  if prev ≠ curr then e.emitRange s epoch curr prev else .ok ([], s.streamChunkBuilder)

def onBarrier (epoch : U64) :
    Res (List (Message (Row S width)) × DynamicFilterState S K width rwidth) := do
  let curr := s.stagingRhsValue.join
  let prev := s.committedRhsValue.join
  let (out, b) ← e.emitChange s epoch curr prev
  let rightTable ← e.writeRight s.rightTable s.committedRhsRow s.stagingRhsRow
  .ok (out ++ [.barrier epoch], { s with
    rightTable
    committedRhsRow := s.stagingRhsRow
    committedRhsValue := some curr
    streamChunkBuilder := b })

def onMessage (msg : AlignedMessage (Row S width) (Row S (rwidth + 1))) :
    Res (List (Message (Row S width)) × DynamicFilterState S K width rwidth) :=
  match msg with
  | .left chunk => e.onLeft s chunk
  | .right chunk => do .ok ([], ← (StreamChunk.compact chunk).foldlM e.onRightRow s)
  | .barrier epoch => e.onBarrier s epoch

/-- The loop over the messages: what it yields, and the state it leads to. -/
def run (e : DynamicFilterExecutor S K width) : DynamicFilterState S K width rwidth →
    List (AlignedMessage (Row S width) (Row S (rwidth + 1))) →
    Res (List (Message (Row S width)) × DynamicFilterState S K width rwidth)
  | s, [] => .ok ([], s)
  | s, msg :: msgs => do
    let (out, s) ← e.onMessage s msg
    let (more, s) ← e.run s msgs
    .ok (out ++ more, s)

end DynamicFilterExecutor

end Stream
