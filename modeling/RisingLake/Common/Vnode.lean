import RisingLake.Lib.Bytes
import RisingLake.Stream.Chunk

/-!
# Virtual nodes (`common/src/hash`)

The virtual node of a row is computed from its key: for all rows of a chunk at once, column by
column, or for one row. A single key column of row ids (`Serial`) gives the virtual node without a
hash.

The hasher and what the other types feed it are parameters (`BuildHasher`); `crc32Fast` is the one
in use. A `u16` virtual node is a natural number below `2 ^ 16`.
-/

namespace VirtualNode

open Res Bytes Stream

variable {S : Type}

/-! ## Scalars and chunks -/

/-- A scalar: `Serial` and `Int16` have a part in the computation, the other types are only hashed.
-/
inductive ScalarImpl (S : Type) where
  | serial (v : Int)
  | int16 (v : Int)
  | other (v : S)
  deriving DecidableEq, Repr

abbrev Datum (S : Type) := Option (ScalarImpl S)

/-- A column. An `Int16` column has a value under each null. -/
inductive ArrayImpl (S : Type) where
  | serial (values : List (Option Int))
  | int16 (values : List (Int × Bool))
  | other (values : List (Option S))
  deriving DecidableEq, Repr

namespace ArrayImpl

def len : ArrayImpl S → Nat
  | serial values => values.length
  | int16 values => values.length
  | other values => values.length

def valueAt (a : ArrayImpl S) (i : Nat) : Datum S :=
  match a with
  | serial values => values[i]?.join.map .serial
  | int16 values => values[i]?.bind fun (v, exist) => if exist then some (.int16 v) else none
  | other values => values[i]?.join.map .other

end ArrayImpl

/-- Columns of one length, and which rows are visible. -/
structure DataChunk (S : Type) where
  columns : List (ArrayImpl S)
  visibility : List Bool
  len_columns : ∀ c ∈ columns, c.len = visibility.length

namespace DataChunk

def capacity (chunk : DataChunk S) : Nat := chunk.visibility.length

def columnAt (chunk : DataChunk S) (idx : Nat) : Res (ArrayImpl S) := index chunk.columns idx

/-- The row at a position, whether or not it is visible. -/
def rowAt (chunk : DataChunk S) (pos : Nat) : List (Datum S) := chunk.columns.map (·.valueAt pos)

end DataChunk

def project (row : List (Datum S)) (indices : List Nat) : Res (List (Datum S)) :=
  indices.mapM (index row)

/-! ## Hashing -/

/-- A hasher, and what the scalars of the other types feed it. -/
structure BuildHasher (S : Type) where
  State : Type
  buildHasher : State
  write : Bytes → State → State
  hashOther : S → State → State
  finish : State → U64

def nullValForHash : Nat := 0xfffffff0

namespace BuildHasher

variable (h : BuildHasher S)

def hashScalar (v : ScalarImpl S) (s : h.State) : h.State :=
  match v with
  | .serial v => h.write (leBytes 8 (v % 2 ^ 64).toNat) s
  | .int16 v => h.write (leBytes 2 (v % 2 ^ 16).toNat) s
  | .other v => h.hashOther v s

def hashDatum (d : Datum S) (s : h.State) : h.State :=
  match d with
  | some v => h.hashScalar v s
  | none => h.write (leBytes 4 nullValForHash) s

def hashRow (row : List (Datum S)) : U64 :=
  h.finish (row.foldl (fun s d => h.hashDatum d s) h.buildHasher)

/-- `Array::hash_vec`: feeds the visible values to the hashers of their rows. -/
def hashVec (a : ArrayImpl S) (vis : List Bool) (hashers : List h.State) : Res (List h.State) := do
  assert (hashers.length = a.len) "hashers.len() == self.len()"
  .ok (hashers.mapIdx fun i s => if vis[i]? = some true then h.hashDatum (a.valueAt i) s else s)

/-- `DataChunk::get_hash_values`. -/
def getHashValues (chunk : DataChunk S) (columnIdxes : List Nat) : Res (List U64) := do
  let states ← columnIdxes.foldlM
    (fun states columnIdx => do h.hashVec (← chunk.columnAt columnIdx) chunk.visibility states)
    (List.replicate chunk.capacity h.buildHasher)
  .ok (states.map h.finish)

end BuildHasher

/-! ## `VirtualNode` -/

def maxCount : Nat := 2 ^ 15

variable (build : Build)

def fromIndex (index : Nat) : Res Nat := do
  debugAssert build.debugAssertions (index < maxCount) "index < Self::MAX_COUNT"
  .ok (index % 2 ^ 16)

def fromScalar (scalar : Int) : Res Nat := do
  debugAssert build.debugAssertions (0 ≤ scalar) "scalar >= 0"
  .ok (scalar % 2 ^ 16).toNat

def fromDatum (datum : Datum S) : Res Nat := do
  match ← unwrap datum "should not be none" with
  | .int16 v => fromScalar build v
  | _ => .error (.explicit "expect Int16")

/-- `HashCode::to_vnode`. -/
def toVnode (hash : U64) (vnodeCount : Nat) : Res Nat := do
  .ok ((← checkedRem hash.val vnodeCount) % 2 ^ 16)

/-- The bits of a row id that hold the virtual node. -/
def bitForVnode (vnodeCount : Nat) : Res Nat := do
  debugAssert build.debugAssertions (vnodeCount ≤ maxCount) "invalid vnode count"
  -- `vnode_count.next_power_of_two().ilog2()` is the logarithm rounded up
  .ok (if vnodeCount ≤ 2 ^ 10 then 10 else Nat.clog 2 vnodeCount)

def timestampShiftBits : Nat := 22

def computeVnodeFromRowId (id : Int) (vnodeCount : Nat) : Res Nat := do
  let vnodeBit ← bitForVnode build vnodeCount
  let sequenceBit ← checkedSub timestampShiftBits vnodeBit
  let vnodePart := (id / 2 ^ sequenceBit % 2 ^ vnodeBit).toNat
  fromIndex build (← checkedRem vnodePart vnodeCount)

section

variable (build : Build) (h : BuildHasher S)

/-- The virtual node of a row whose only key column is a row id. -/
def computeSerial (chunk : DataChunk S) (vnodeCount : Nat) (e : Option Int × Nat) : Res Nat :=
  match e.1 with
  | some serial => computeVnodeFromRowId build serial vnodeCount
  -- a missing row id: the entire row is hashed
  | none => toVnode (h.hashRow (chunk.rowAt e.2)) vnodeCount

def computeHashed (chunk : DataChunk S) (keys : List Nat) (vnodeCount : Nat) : Res (List Nat) := do
  (← h.getHashValues chunk keys).mapM (toVnode · vnodeCount)

def computeChunk (chunk : DataChunk S) (keys : List Nat) (vnodeCount : Nat) : Res (List Nat) :=
  match keys with
  | [idx] => do
    match ← chunk.columnAt idx with
    | .serial values => values.zipIdx.mapM (computeSerial build h chunk vnodeCount)
    | _ => computeHashed h chunk keys vnodeCount
  | _ => computeHashed h chunk keys vnodeCount

def computeRow (row : List (Datum S)) (indices : List Nat) (vnodeCount : Nat) : Res Nat := do
  match ← project row indices with
  | [some (.serial s)] => computeVnodeFromRowId build s vnodeCount
  | datums => toVnode (h.hashRow datums) vnodeCount

end

/-! ## `TableDistribution` -/

/-- How the virtual node of a primary key is computed. The distribution key, where it is used, is
not empty. -/
inductive TableDistribution where
  | singleton
  | distKeyIndices (vnodes : List Bool) (distKeyInPkIndices : List Nat)
    (nonempty : distKeyInPkIndices ≠ [])
  | vnodeColumnIndex (vnodes : List Bool) (vnodeColIdxInPk : Nat)

def singletonVnode : Nat := 0

def checkVnodeIsSet (vnode : Nat) (vnodes : List Bool) : Res Unit := do
  assert (vnode < vnodes.length) "idx < self.len()"
  if vnodes[vnode]? = some true then .ok ()
  else .error (.explicit "vnode should not be accessed by this table")

namespace TableDistribution

variable (build : Build) (h : BuildHasher S)

def computeVnodeByPk (t : TableDistribution) (pk : List (Datum S)) : Res Nat :=
  match t with
  | singleton => .ok singletonVnode
  | distKeyIndices vnodes indices _ => do
    assert (!indices.isEmpty) "!indices.is_empty()"
    let vnode ← computeRow build h pk indices vnodes.length
    checkVnodeIsSet vnode vnodes
    .ok vnode
  | vnodeColumnIndex vnodes idx => do
    let vnode ← fromDatum build (← index pk idx)
    checkVnodeIsSet vnode vnodes
    .ok vnode

def checkVisible (vnodes : List Bool) (e : Nat × Bool) : Res Nat := do
  if e.2 then checkVnodeIsSet e.1 vnodes
  .ok e.1

/-- The virtual node of a row read from the column that holds it. -/
def readVnode (vnodes : List Bool) (e : (Int × Bool) × Bool) : Res Nat := do
  let vnode ← fromScalar build e.1.1
  if e.2 then do
    assert e.1.2 "exist"
    checkVnodeIsSet vnode vnodes
  .ok vnode

def computeChunkVnode (t : TableDistribution) (chunk : DataChunk S) (pkIndices : List Nat) :
    Res (List Nat) :=
  match t with
  | singleton => .ok (List.replicate chunk.capacity singletonVnode)
  | distKeyIndices vnodes indices _ => do
    let distKeyIndices ← indices.mapM (index pkIndices)
    let computed ← computeChunk build h chunk distKeyIndices vnodes.length
    (computed.zip chunk.visibility).mapM (checkVisible vnodes)
  | vnodeColumnIndex vnodes idx => do
    match ← chunk.columnAt (← index pkIndices idx) with
    | .int16 values => (values.zip chunk.visibility).mapM (readVnode build vnodes)
    | _ => .error (.explicit "expect Int16")

end TableDistribution

/-! ## `crc32fast` -/

/-- One bit of a CRC-32 with the polynomial of IEEE 802.3, reflected. -/
def crc32Bit (c : Nat) : Nat := if c % 2 = 1 then (c / 2) ^^^ 0xedb88320 else c / 2

def crc32Byte (c : Nat) (b : U8) : Nat := (List.range 8).foldl (fun c _ => crc32Bit c) (c ^^^ b.val)

/-- The hasher in use, for the scalars whose hash is the bytes of the value. -/
def crc32Fast (bytes : S → Bytes) : BuildHasher S where
  State := Nat
  buildHasher := 0xffffffff
  write bs c := bs.foldl crc32Byte c
  hashOther v c := (bytes v).foldl crc32Byte c
  finish c := Fin.ofNat _ (c ^^^ 0xffffffff)

end VirtualNode
