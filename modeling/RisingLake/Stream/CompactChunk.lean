import RisingLake.Lib.Maps
import RisingLake.Stream.Chunk

/-!
# Compaction of stream chunks

`StreamChunkCompactor` cancels the changes of a list of chunks that undo each other.
`intoCompactedChunks` hides the cancelled rows in place: the rows still in play are remembered by
reference, here their chunk and index. `reconstructedCompactedChunks` collects one change per key
and builds new chunks.

Rows and keys are compared by `==`, which is coarser than identity: as intervals, '1 mon' and '30
days' are equal. A function `eqv` gives the class of a value or a row, and two are equal if they
have one class. The order in which a hash map is visited is a parameter, `visit`. Hashes only speed
up the lookup and are left out.
-/

namespace Stream

open Res

variable {R : Type}

/-- A reference to a row of the chunks that are compacted. -/
structure OpRowMutRef where
  chunk : Nat
  index : Nat
  deriving DecidableEq, Repr

namespace OpRowMutRef

variable (r : OpRowMutRef)

/-- The row of the reference, if there is one. -/
def get? (chunks : List (StreamChunk R)) : Option (OpRow R) := chunks[r.chunk]?.bind (·[r.index]?)

def get (chunks : List (StreamChunk R)) : Res (OpRow R) := do
  Res.index (← Res.index chunks r.chunk) r.index

def modify (r : OpRowMutRef) (f : OpRow R → OpRow R) (chunks : List (StreamChunk R)) :
    List (StreamChunk R) := chunks.modify r.chunk (·.modify r.index f)

def setVis (val : Bool) : List (StreamChunk R) → List (StreamChunk R) :=
  r.modify ({ · with vis := val })

def setOp (val : Op) : List (StreamChunk R) → List (StreamChunk R) :=
  r.modify ({ · with op := val })

def sameChunk (r other : OpRowMutRef) : Bool := r.chunk = other.chunk

end OpRowMutRef

/-- The references to all rows, in the order in which the chunks are read. -/
def refs (chunks : List (StreamChunk R)) : List OpRowMutRef :=
  (List.range chunks.length).flatMap fun i =>
    (List.range (chunks[i]?.getD []).length).map fun j => ⟨i, j⟩

/-- The rows of one key that are still in play. -/
structure OpRowMutRefTuple where
  beforePrev : Option OpRowMutRef
  prev : OpRowMutRef
  deriving DecidableEq, Repr

namespace OpRowMutRefTuple

/-- Takes in the next row of the key; the flag says that no row is left. -/
def push (build : Build) (t : OpRowMutRefTuple) (curr : OpRowMutRef)
    (chunks : List (StreamChunk R)) : Res (Bool × OpRowMutRefTuple × List (StreamChunk R)) := do
  let prev ← t.prev.get chunks
  let currRow ← curr.get chunks
  debugAssert build.debugAssertions prev.vis "self.prev.vis()"
  match prev.op, currRow.op with
  | .insert, .insert => do
    build.consistencyPanic
    .ok (false, { t with prev := curr }, t.prev.setVis false chunks)
  | .delete, .delete => do
    build.consistencyPanic
    .ok (false, { t with prev := curr }, t.prev.setVis false chunks)
  | .insert, .delete =>
    -- the row just inserted is deleted: both are hidden
    let chunks := curr.setVis false (t.prev.setVis false chunks)
    match t.beforePrev with
    | some prev => .ok (false, { beforePrev := none, prev }, chunks)
    | none => .ok (true, t, chunks)
  | .delete, .insert => do
    debugAssert build.debugAssertions t.beforePrev.isNone
      "should have been taken in the above match arm"
    .ok (false, { beforePrev := some t.prev, prev := curr }, chunks)
  | _, _ => .error (.explicit "internal error: entered unreachable code")

/-- The deletion and the insertion of an update. -/
def asUpdateOp (build : Build) (t : OpRowMutRefTuple) (chunks : List (StreamChunk R)) :
    Res (Option (OpRowMutRef × OpRowMutRef)) :=
  match t.beforePrev with
  | none => .ok none
  | some prev => do
    debugAssert build.debugAssertions ((← prev.get chunks).op = .delete) "prev.op() == Op::Delete"
    debugAssert build.debugAssertions ((← t.prev.get chunks).op = .insert)
      "self.prev.op() == Op::Insert"
    .ok (some (prev, t.prev))

end OpRowMutRefTuple

/-- The net change of one key. -/
inductive RowOp (R : Type) where
  | insert (row : R)
  | delete (row : R)
  | update (oldRow newRow : R)
  deriving DecidableEq, Repr

/-- The net changes by key. -/
abbrev RowOpMap (K R : Type) := IterMap K (RowOp R)

namespace RowOpMap

variable {K : Type} [DecidableEq K]

/-- The insertion of a row; a warning about an inconsistent stream is logged only. -/
def insertRow (m : RowOpMap K R) (k : K) (v : R) : RowOpMap K R :=
  match m.get? k with
  | none => m.insert k (.insert v)
  | some (.delete oldV) => m.insert k (.update oldV v)
  | some (.insert _) => m.insert k (.insert v)
  | some (.update oldV _) => m.insert k (.update oldV v)

def deleteRow (m : RowOpMap K R) (k : K) (v : R) : RowOpMap K R :=
  match m.get? k with
  | none => m.insert k (.delete v)
  | some (.insert _) => m.erase k
  | some (.update prev _) => m.insert k (.delete prev)
  | some (.delete _) => m.insert k (.delete v)

variable {C : Type} [DecidableEq C] (eqv : R → C)

/-- The record built for a net change: none for an update to an equal row. -/
def record : RowOp R → Option (Record R)
  | .insert row => some (.insert row)
  | .delete row => some (.delete row)
  | .update old new => if eqv old = eqv new then none else some (.update old new)

/-- One round of the loop that builds the chunks. -/
def appendOp (s : List (StreamChunk R) × StreamChunkBuilder R) (e : K × RowOp R) :
    Res (List (StreamChunk R) × StreamChunkBuilder R) :=
  match record eqv e.2 with
  | none => .ok s
  | some r => do
    let (c, builder) ← s.2.appendRecord r
    .ok (s.1 ++ c.toList, builder)

def intoChunks (visit : RowOpMap K R → RowOpMap K R) (m : RowOpMap K R) (chunkSize : Nat) :
    Res (List (StreamChunk R)) := do
  let builder ← StreamChunkBuilder.new chunkSize
  let (ret, builder) ← (visit m).entries.foldlM (appendOp eqv) ([], builder)
  .ok (ret ++ builder.take.1.toList)

end RowOpMap

/-- The chunks to compact and the columns of their key. -/
structure StreamChunkCompactor (S : Type) (width : Nat) where
  chunks : List (StreamChunk (Row S width))
  key : List (Fin width)

namespace StreamChunkCompactor

section

variable {C K : Type} [DecidableEq K] (eqv : R → C) (key : C → K)

/-- The chunks as they are compacted, and the rows in play. -/
structure State (K R : Type) where
  chunks : List (StreamChunk R)
  opRowMap : IterMap K OpRowMutRefTuple

/-- Takes in one row; an invisible row is skipped. -/
def visitRow (build : Build) (s : State K R) (r : OpRowMutRef) : Res (State K R) := do
  let row ← r.get s.chunks
  if !row.vis then .ok s
  else
    let chunks := r.setOp row.op.normalizeUpdate s.chunks
    let k := key (eqv row.row)
    match s.opRowMap.get? k with
    | none => .ok { chunks, opRowMap := s.opRowMap.insert k { beforePrev := none, prev := r } }
    | some t => do
      let (empty, t, chunks) ← t.push build r chunks
      .ok { chunks, opRowMap := if empty then s.opRowMap.erase k else s.opRowMap.insert k t }

/-- Settles the rows of one key: an update to an equal row is hidden, one of two neighbouring rows
becomes an update again. -/
def finishTuple [DecidableEq C] (build : Build) (chunks : List (StreamChunk R))
    (t : OpRowMutRefTuple) : Res (List (StreamChunk R)) := do
  match ← t.asUpdateOp build chunks with
  | none => .ok chunks
  | some (prev, latest) => do
    if eqv (← prev.get chunks).row = eqv (← latest.get chunks).row then
      .ok (latest.setVis false (prev.setVis false chunks))
    else if prev.sameChunk latest && prev.index + 1 = latest.index then
      .ok (latest.setOp .updateInsert (prev.setOp .updateDelete chunks))
    else .ok chunks

def compactInPlace [DecidableEq C] (build : Build)
    (visit : IterMap K OpRowMutRefTuple → IterMap K OpRowMutRefTuple)
    (chunks : List (StreamChunk R)) : Res (List (StreamChunk R)) := do
  let s ← (refs chunks).foldlM (visitRow eqv key build) { chunks, opRowMap := .empty }
  ((visit s.opRowMap).entries.map (·.2)).foldlM (finishTuple eqv build) s.chunks

/-- Enters one row of the chunks into the net changes; an invisible row is skipped. -/
def collectRow (m : RowOpMap K R) (x : OpRow R) : RowOpMap K R :=
  if !x.vis then m
  else match x.op with
    | .insert | .updateInsert => m.insertRow (key (eqv x.row)) x.row
    | .delete | .updateDelete => m.deleteRow (key (eqv x.row)) x.row

end

/-- The class of a row, value by value. -/
def rowClass {S E : Type} {width : Nat} (eqv : S → E) (row : Row S width) : Row E width :=
  row.map (Option.map eqv)

variable {S E : Type} [DecidableEq E] (eqv : S → E) {width : Nat}

def intoCompactedChunks (build : Build)
    (visit : IterMap (List (Option E)) OpRowMutRefTuple → IterMap (List (Option E)) OpRowMutRefTuple)
    (c : StreamChunkCompactor S width) : Res (List (StreamChunk (Row S width))) :=
  compactInPlace (rowClass eqv) (·.project c.key) build visit c.chunks

def reconstructedCompactedChunks
    (visit : RowOpMap (List (Option E)) (Row S width) → RowOpMap (List (Option E)) (Row S width))
    (c : StreamChunkCompactor S width) (chunkSize : Nat) : Res (List (StreamChunk (Row S width))) :=
  let map := c.chunks.flatten.foldl (collectRow (rowClass eqv) (·.project c.key)) .empty
  map.intoChunks (rowClass eqv) visit chunkSize

end StreamChunkCompactor

end Stream
