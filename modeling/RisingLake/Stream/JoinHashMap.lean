import RisingLake.Lib.Bytes
import RisingLake.Stream.Chunk
import RisingLake.Stream.JoinRowSet
import RisingLake.Stream.StateTable

/-!
# The state of a side of a join (`stream/src/executor/join/hash_join.rs`)

The rows of a side are kept in a state table under the join key and the primary key, with the number
of matches of each row (its degree) in a second table where the join needs it. The rows of the join
keys that were used last are cached; an entry of the cache has all the rows of its key.

The values of a row are taken up to the equality of the source, which is the one of the hash keys.
The metrics, the sizes of the heap and the watermarks are left out.
-/

namespace Stream

open Res

structure JoinRow (R : Type) where
  row : R
  degree : Nat
  deriving DecidableEq, Repr

def JoinRow.isZeroDegree {R : Type} (r : JoinRow R) : Bool := r.degree == 0

/-! ## `JoinEntryState` -/

/-- The rows of one join key, and for an AS OF join the primary keys of each value of the inequality
column. -/
structure JoinEntryState (R : Type) where
  cached : JoinRowSet Bytes (JoinRow R)
  inequalityIndex : JoinRowSet Bytes (JoinRowSet Bytes Unit)

namespace JoinEntryState

variable {R : Type}

def default : JoinEntryState R := ⟨.default, .default⟩

variable (build : Build) (s : JoinEntryState R)

def removePkFromInequalityIndex (pk inequalityKey : Bytes) : Res (JoinEntryState R) :=
  match s.inequalityIndex.get inequalityKey with
  | none => .ok s
  | some pkSet => do
    let (removed, pkSet) := pkSet.remove pk
    if removed.isNone then
      if build.strictConsistency then
        .error (.explicit "removing a pk that it not in the inequality index")
      else build.consistencyError
    let index := s.inequalityIndex.replace inequalityKey pkSet
    .ok { s with inequalityIndex := if pkSet.isEmpty then (index.remove inequalityKey).2 else index }

def insertPkToInequalityIndex (pk inequalityKey : Bytes) : Res (JoinEntryState R) :=
  match s.inequalityIndex.get inequalityKey with
  | some pkSet => do
    let (pkSet, vacant) := pkSet.tryInsert pk ()
    if !vacant then
      if build.strictConsistency then .error (.explicit
        "inserting a pk that it already in the inequality index")
      else build.consistencyError
    .ok { s with inequalityIndex := s.inequalityIndex.replace inequalityKey pkSet }
  | none => do
    let (pkSet, vacant) := (JoinRowSet.default : JoinRowSet Bytes Unit).tryInsert pk ()
    assert vacant "called `Result::unwrap()` on an `Err` value"
    let (index, vacant) := s.inequalityIndex.tryInsert inequalityKey pkSet
    assert vacant "called `Result::unwrap()` on an `Err` value"
    .ok { s with inequalityIndex := index }

/-- Without strict consistency an entry that exists is removed before the insertion. -/
def removeExisting (key : Bytes) (inequalityKey : Option Bytes) : Res (JoinEntryState R × Bool) :=
  if build.strictConsistency then .ok (s, false)
  else
    match s.cached.remove key, inequalityKey with
    | (none, _), _ => .ok (s, false)
    | (some _, cached), none => .ok ({ s with cached }, true)
    | (some _, cached), some inequalityKey => do
      .ok (← removePkFromInequalityIndex build { s with cached } key inequalityKey, true)

def insertToIndex (pk : Bytes) : Option Bytes → Res (JoinEntryState R)
  | some inequalityKey => s.insertPkToInequalityIndex build pk inequalityKey
  | none => .ok s

def insert (key : Bytes) (value : JoinRow R) (inequalityKey : Option Bytes) :
    Res (JoinEntryState R) := do
  let (s, removed) ← s.removeExisting build key inequalityKey
  let s ← s.insertToIndex build key inequalityKey
  let (cached, vacant) := s.cached.tryInsert key value
  if build.strictConsistency then
    if vacant then .ok { s with cached }
      else .error (.explicit "double inserting a join state entry")
  else do
    assert vacant "we have removed existing entry, if any"
    if removed then build.consistencyError
    .ok { s with cached }

def removeFromIndex (pk : Bytes) : Option Bytes → Res (JoinEntryState R)
  | some inequalityKey => s.removePkFromInequalityIndex build pk inequalityKey
  | none => .ok s

def remove (build : Build) (s : JoinEntryState R) (pk : Bytes) (inequalityKey : Option Bytes) :
    Res (JoinEntryState R) :=
  match s.cached.remove pk with
  | (some _, cached) => removeFromIndex build { s with cached } pk inequalityKey
  | (none, _) =>
    if build.strictConsistency then
      .error (.explicit "removing a join state entry but it is not in the cache")
    else do
      build.consistencyError
      .ok s

/-! The lookups by the inequality column, for an AS OF join. -/

def getByIndexedPk (pk : Bytes) : Res (Option (JoinRow R)) :=
  match s.cached.get pk with
  | some value => .ok (some value)
  | none =>
    if build.strictConsistency then
      .error (.explicit "retrieving a pk from the inequality index but it is not in the cache")
    else do
      build.consistencyError
      .ok none

/-- The row of the smallest primary key of a set. -/
def firstOf (pkSet : JoinRowSet Bytes Unit) : Res (Option (JoinRow R)) :=
  match pkSet.firstKeySorted with
  | some pk => s.getByIndexedPk build pk
  | none => .error (.explicit "pk set for a index record must has at least one element")

def upperBoundByInequality (bound : Bound Bytes) : Res (Option (JoinRow R)) :=
  match s.inequalityIndex.upperBound bound with
  | some (_, pkSet) => s.firstOf build pkSet
  | none => .ok none

def lowerBoundByInequality (bound : Bound Bytes) : Res (Option (JoinRow R)) :=
  match s.inequalityIndex.lowerBound bound with
  | some (_, pkSet) => s.firstOf build pkSet
  | none => .ok none

end JoinEntryState

/-! ## `JoinHashMap` -/

/-- The join key of a row; NULL is a value of its own. -/
abbrev JoinKey (S : Type) := List (Option S)

/-- The keys of an input of a join and how they are stored. `inputPkIndices` is the primary key of
the input, and `pkIndices` are its columns that are not in the join key. -/
structure JoinParams (S : Type) (width : Nat) where
  joinKeyIndices : List (Fin width)
  inputPkIndices : List (Fin width)
  pkIndices : List (Fin width)
  pkSerializer : List (Option S) → Bytes
  tableSerializer : List (Option S) → Bytes
  vnodeByPk : Bytes → Nat
  vnodes : List Nat
  nodup : vnodes.Nodup

/-- `is_subset(pk_indices, join_key_indices)`. -/
def JoinParams.pkContainedInJk {S : Type} {width : Nat} (p : JoinParams S width) : Bool :=
  p.inputPkIndices.all (p.joinKeyIndices.contains ·)

/-- The parts of the hash map of a side that do not change. -/
structure JoinHashMapDesc (S : Type) (width : Nat) extends JoinParams S width where
  nullMatched : List Bool
  inequalityKey : Option (Fin width × (List (Option S) → Bytes))
  needDegreeTable : Bool

/-- The cache, whose entries are taken out while they are used, and the tables. -/
structure JoinHashMap (S : Type) (width : Nat) where
  inner : JoinKey S → Option (Option (JoinEntryState (Row S width)))
  state : StateTable (Row S width) Bytes
  degreeState : Option (StateTable (List (Option S) × Nat) Bytes)

namespace JoinHashMapDesc

variable {S : Type} {width : Nat} (d : JoinHashMapDesc S width) (row : Row S width)

def joinKey : JoinKey S := row.project d.joinKeyIndices

/-- `key.null_bitmap().is_subset(null_matched)`. -/
def nullsMatch (key : JoinKey S) : Bool :=
  key.zipIdx.all fun (datum, i) => datum.isSome || d.nullMatched.getD i false

def serializePkFromRow : Bytes := d.pkSerializer (row.project d.pkIndices)

def inequalityKeyOf : Option Bytes :=
  d.inequalityKey.map fun (idx, serializer) => serializer (row.project [idx])

/-- The columns of the primary key of the state table: the join key, and the rest of the primary
key. -/
def orderKey : List (Option S) := row.project (d.joinKeyIndices ++ d.pkIndices)

def stateDesc : TableDesc (Row S width) Bytes where
  pk row := d.tableSerializer (d.orderKey row)
  vnodeByPk := d.vnodeByPk
  vnodes := d.vnodes
  nodup := d.nodup

/-- The degree of a row is kept under the key of the row. -/
def degreeDesc : TableDesc (List (Option S) × Nat) Bytes where
  pk r := d.tableSerializer r.1
  vnodeByPk := d.vnodeByPk
  vnodes := d.vnodes
  nodup := d.nodup

/-- The row of the degree table, `JoinRow::to_table_rows`. -/
def degreeRow (value : JoinRow (Row S width)) : List (Option S) × Nat :=
  (d.orderKey value.row, value.degree)

variable [DecidableEq S]

/-- `iter_keyed_row_with_prefix` of the state table. -/
def rowsWithPrefix (ht : JoinHashMap S width) (key : JoinKey S) :
    List (Bytes × Row S width) := ht.state.toList.filter fun e => d.joinKey e.2 = key

/-- `iter_keyed_row_with_prefix` of the degree table. -/
def degreesWithPrefix (t : StateTable (List (Option S) × Nat) Bytes)
    (key : JoinKey S) : List (Bytes × (List (Option S) × Nat)) :=
  t.toList.filter fun e => e.2.1.take d.joinKeyIndices.length = key

end JoinHashMapDesc

namespace JoinHashMap

variable {S : Type} {width : Nat} [DecidableEq S]

def updateState (ht : JoinHashMap S width) (key : JoinKey S)
    (state : JoinEntryState (Row S width)) : JoinHashMap S width :=
  { ht with inner := Function.update ht.inner key (some (some state)) }

variable (build : Build) (d : JoinHashMapDesc S width)

/-- The rows with their degrees, paired one to one. If the tables have different numbers of rows of
the key, the pairs that were read are of one number, and the assertion that they are not fails. -/
def pairDegrees (rows : List (Bytes × Row S width))
    (degrees : List (Bytes × (List (Option S) × Nat))) : Res (List (JoinRow (Row S width))) := do
  let pairs := rows.zip degrees
  if rows.length ≠ degrees.length then
    build.consistencyPanic
    .error (.assert "assertion `left != right` failed")
  debugAssert build.debugAssertions
    (pairs.all fun (r, d) => r.1 == d.1) "mismatched pk in degree table"
  .ok (pairs.map fun (r, d) => ⟨r.2, d.2.2⟩)

/-- The rows of a key with their degrees, or with degree 0 on a side without degrees. -/
def fetchRows (ht : JoinHashMap S width) (key : JoinKey S) : Res (List (JoinRow (Row S width))) :=
  if d.needDegreeTable then do
    let degreeState ← unwrap ht.degreeState "called `Option::unwrap()` on a `None` value"
    pairDegrees build (d.rowsWithPrefix ht key) (d.degreesWithPrefix degreeState key)
  else .ok ((d.rowsWithPrefix ht key).map fun e => ⟨e.2, 0⟩)

def insertFetched (entry : JoinEntryState (Row S width))
    (value : JoinRow (Row S width)) : Res (JoinEntryState (Row S width)) :=
  entry.insert build (d.serializePkFromRow value.row) value (d.inequalityKeyOf value.row)

def fetchCachedState (ht : JoinHashMap S width) (key : JoinKey S) :
    Res (JoinEntryState (Row S width)) := do
  let rows ← fetchRows build d ht key
  rows.foldlM (insertFetched build d) .default

/-- The state of a key is taken out of the cache, or read from the tables. -/
def takeState (ht : JoinHashMap S width) (key : JoinKey S) :
    Res (JoinEntryState (Row S width) × JoinHashMap S width) :=
  match ht.inner key with
  | some wrapper => do
    let state ← unwrap wrapper "the state should always be `Some`"
    .ok (state, { ht with inner := Function.update ht.inner key (some none) })
  | none => do .ok (← fetchCachedState build d ht key, ht)

/-- The insertion into the cache, if it has the key, or if the key has no other row. -/
def insertCached (ht : JoinHashMap S width) (key : JoinKey S)
    (value : JoinRow (Row S width)) : Res (JoinHashMap S width) :=
  match ht.inner key with
  | some wrapper => do
    let entry ← unwrap wrapper "the state should always be `Some`"
    .ok (ht.updateState key (← insertFetched build d entry value))
  | none =>
    if d.pkContainedInJk then do .ok (ht.updateState key (← insertFetched build d .default value))
    else .ok ht

def insert (build : Build) (d : JoinHashMapDesc S width) (ht : JoinHashMap S width)
    (key : JoinKey S) (value : JoinRow (Row S width)) : Res (JoinHashMap S width) := do
  let ht ← ht.insertCached build d key value
  let state ← d.stateDesc.insert ht.state value.row
  match ht.degreeState with
  | some degreeState => do
    .ok { ht with state, degreeState := some (← d.degreeDesc.insert degreeState (d.degreeRow value)) }
  | none => .ok { ht with state }

def insertRow (ht : JoinHashMap S width) (key : JoinKey S)
    (row : Row S width) : Res (JoinHashMap S width) := ht.insert build d key ⟨row, 0⟩

def removeCached (ht : JoinHashMap S width) (key : JoinKey S) (row : Row S width) :
    Res (JoinHashMap S width) :=
  match ht.inner key with
  | some wrapper => do
    let entry ← unwrap wrapper "the state should always be `Some`"
    .ok (ht.updateState key (← entry.remove build (d.serializePkFromRow row) (d.inequalityKeyOf row)))
  | none => .ok ht

def delete (build : Build) (d : JoinHashMapDesc S width) (ht : JoinHashMap S width)
    (key : JoinKey S) (value : JoinRow (Row S width)) : Res (JoinHashMap S width) := do
  let ht ← ht.removeCached build d key value.row
  let state ← d.stateDesc.delete ht.state value.row
  let degreeState ← unwrap ht.degreeState "called `Option::unwrap()` on a `None` value"
  .ok { ht with state, degreeState := some (← d.degreeDesc.delete degreeState (d.degreeRow value)) }

def deleteRow (ht : JoinHashMap S width) (key : JoinKey S) (row : Row S width) :
    Res (JoinHashMap S width) := do
  let ht ← ht.removeCached build d key row
  .ok { ht with state := ← d.stateDesc.delete ht.state row }

/-- The row with its new degree, which is written to the degree table. -/
def manipulateDegree (ht : JoinHashMap S width) (value : JoinRow (Row S width))
    (degree : Nat) : Res (JoinRow (Row S width) × JoinHashMap S width) := do
  let new := { value with degree }
  let degreeState ← unwrap ht.degreeState "called `Option::unwrap()` on a `None` value"
  .ok (new, { ht with
    degreeState := some (← d.degreeDesc.update degreeState (d.degreeRow value) (d.degreeRow new)) })

def incDegree (ht : JoinHashMap S width) (value : JoinRow (Row S width)) :
    Res (JoinRow (Row S width) × JoinHashMap S width) :=
  ht.manipulateDegree d value (value.degree + 1)

def decDegree (ht : JoinHashMap S width)
    (value : JoinRow (Row S width)) : Res (JoinRow (Row S width) × JoinHashMap S width) := do
  if value.degree = 0 then build.consistencyPanic
  ht.manipulateDegree d value (value.degree - 1)

def evict (ht : JoinHashMap S width) (evicted : JoinKey S → Bool) : JoinHashMap S width :=
  { ht with inner := fun key => if evicted key then none else ht.inner key }

end JoinHashMap

end Stream
