import RisingLake.Lib.Changelog
import RisingLake.Lib.Res

/-!
# Stream chunks

A chunk is held row by row: the operation, the row and its visibility stand together, where the
source keeps three arrays of one length. `StreamChunkBuilder` cuts a sequence of rows into chunks.
-/

namespace Stream

open Res

/-- How the executors are run: with debug assertions, and with panics on an inconsistent stream. -/
structure Build where
  debugAssertions : Bool
  strictConsistency : Bool

/-- Logs the inconsistency, and panics where strict consistency is required. -/
def Build.consistencyPanic (build : Build) : Res Unit :=
  if build.strictConsistency then
    .error (.explicit "inconsistency happened, see error log for details")
  else .ok ()

/-- Logs the inconsistency, and must not be reached in strict mode. -/
def Build.consistencyError (build : Build) : Res Unit :=
  debugAssert build.debugAssertions (!build.strictConsistency)
    "assertion failed: !crate::consistency::enable_strict_consistency()"

inductive Op where
  | insert
  | delete
  | updateDelete
  | updateInsert
  deriving DecidableEq, Repr

/-- `UpdateDelete` to `Delete` and `UpdateInsert` to `Insert`. -/
def Op.normalizeUpdate : Op → Op
  | .insert => .insert
  | .delete => .delete
  | .updateDelete => .delete
  | .updateInsert => .insert

/-- A row of `width` columns; a missing value is NULL. -/
abbrev Row (S : Type) (width : Nat) := Vector (Option S) width

/-- The values of the row in the columns of the key. -/
def Row.project {S : Type} {width : Nat} (row : Row S width) (key : List (Fin width)) :
    List (Option S) := key.map row.get

structure OpRow (R : Type) where
  op : Op
  row : R
  vis : Bool
  deriving DecidableEq, Repr

abbrev StreamChunk (R : Type) := List (OpRow R)

inductive Record (R : Type) where
  | insert (newRow : R)
  | delete (oldRow : R)
  | update (oldRow newRow : R)
  deriving DecidableEq, Repr

/-! ## `StreamChunkBuilder` -/

/-- The rows pending for the next chunk and the number of rows at which it is complete. -/
structure StreamChunkBuilder (R : Type) where
  pending : List (OpRow R)
  maxChunkSize : Option Nat

namespace StreamChunkBuilder

variable {R : Type}

def new (maxChunkSize : Nat) : Res (StreamChunkBuilder R) := do
  assert (0 < maxChunkSize) "max_chunk_size > 0"
  .ok { pending := [], maxChunkSize := some maxChunkSize }

variable (b : StreamChunkBuilder R)

def size : Nat := b.pending.length

/-- All the pending rows as a chunk, if there are any. -/
def take : Option (StreamChunk R) × StreamChunkBuilder R :=
  if b.size = 0 then (none, b) else (some b.pending, { b with pending := [] })

/-- `append_iter_inner`: appends a row, and yields the chunk once it is complete. -/
def append (x : OpRow R) : Option (StreamChunk R) × StreamChunkBuilder R :=
  let b := { b with pending := b.pending ++ [x] }
  match b.maxChunkSize with
  | some max =>
    -- a chunk does not end between the two rows of an update
    if b.size = max ∧ x.op ≠ .updateDelete ∨ b.size > max then b.take else (none, b)
  | none => (none, b)

def appendRow (op : Op) (row : R) : Option (StreamChunk R) × StreamChunkBuilder R :=
  b.append ⟨op, row, true⟩

def appendRecord (record : Record R) : Res (Option (StreamChunk R) × StreamChunkBuilder R) :=
  match record with
  | .insert newRow => .ok (b.appendRow .insert newRow)
  | .delete oldRow => .ok (b.appendRow .delete oldRow)
  | .update oldRow newRow => do
    let (none?, b) := b.appendRow .updateDelete oldRow
    assert none?.isNone "none.is_none()"
    .ok (b.appendRow .updateInsert newRow)

/-- A call of `append_row` or `append_record`. -/
inductive Call (R : Type) where
  | row (op : Op) (row : R)
  | record (record : Record R)

def call : Call R → Res (Option (StreamChunk R) × StreamChunkBuilder R)
  | .row op row => .ok (b.appendRow op row)
  | .record record => b.appendRecord record

/-- The chunks of the calls, and of a `take` at the end. -/
def chunks (b : StreamChunkBuilder R) : List (Call R) → Res (List (StreamChunk R))
  | [] => .ok b.take.1.toList
  | call :: calls => do
    let out ← b.call call
    let chunks ← out.2.chunks calls
    .ok (out.1.toList ++ chunks)

end StreamChunkBuilder

/-- `StreamChunk::rows`, as calls of `append_row` -/
def StreamChunk.rows {R : Type} (self : StreamChunk R) : List (StreamChunkBuilder.Call R) :=
  (self.filter (·.vis)).map fun x => .row x.op x.row

def StreamChunk.split {R : Type} (self : StreamChunk R) (size : Nat) :
    Res (List (StreamChunk R)) := do
  let builder ← StreamChunkBuilder.new size
  builder.chunks (StreamChunk.rows self)

end Stream
