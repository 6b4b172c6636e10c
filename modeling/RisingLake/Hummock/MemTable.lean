import RisingLake.Hummock.Key
import RisingLake.Lib.BTreeMap

/-!
# Mem tables (`storage/src/mem_table.rs`)

A mem table buffers the writes of an epoch: for each key one operation, composed from all operations
on the key. `mergeStream` lays the buffer over a stream of the store below.

A call returns its result together with the mem table it leaves. `Env` has what is fixed for a
process: whether the sanity check is enabled, and the sizes of two Rust types that `kv_size` counts
with.
-/

namespace Hummock

open Res

inductive KeyOp where
  | insert (value : Bytes)
  | delete (oldValue : Bytes)
  | update (oldValue newValue : Bytes)
  deriving DecidableEq, Repr

/-- The value of `check_old_value` says if two values count as equal. -/
inductive OpConsistencyLevel where
  | inconsistent
  | consistentOldValue (checkOldValue : Bytes → Bytes → Bool) (isLogStore : Bool)

/-- `MemTableError::InconsistentOperation`. -/
structure MemTableError where
  key : TableKey
  prev : KeyOp
  new : KeyOp
  deriving DecidableEq, Repr

structure Env where
  sanityCheckEnabled : Bool
  sizeOfBytes : Nat
  sizeOfKeyOp : Nat

/-! ## Sizes (`common/estimate_size`) -/

/-- A size that saturates. -/
abbrev KvSize := Nat

namespace KvSize

def addSize (self : KvSize) (size : Nat) : KvSize := min (self + size) U64.max.val
def subSize (self : KvSize) (size : Nat) : KvSize := self - size

end KvSize

def KeyOp.estimatedHeapSize : KeyOp → Nat
  | insert value => value.length
  | delete oldValue => oldValue.length
  | update oldValue newValue => oldValue.length + newValue.length

def KeyOp.estimatedSize (env : Env) (op : KeyOp) : Nat := op.estimatedHeapSize + env.sizeOfKeyOp

/-! ## The mem table -/

abbrev MemTableStore := BTreeMap TableKey KeyOp

/-- `rooted` says that the buffer has held an entry, and so has a root node. -/
structure MemTable where
  buffer : MemTableStore
  rooted : Bool
  opConsistencyLevel : OpConsistencyLevel
  kvSize : KvSize

namespace MemTable

def new (opConsistencyLevel : OpConsistencyLevel) : MemTable := ⟨∅, false, opConsistencyLevel, 0⟩

section
variable (env : Env) (self : MemTable) (pk : TableKey)

/-- `size_of::<Bytes>() + pk.len()`. -/
def keyLen : Nat := env.sizeOfBytes + pk.length

def insertVacant (op : KeyOp) : MemTable :=
  { self with
    buffer := self.buffer.insert pk op
    rooted := true
    kvSize := (self.kvSize.addSize (keyLen env pk)).addSize (op.estimatedSize env) }

/-- An occupied entry, whose value is already taken off the size, takes the operation. -/
def replaceOccupied (op : KeyOp) : MemTable :=
  { self with
    buffer := self.buffer.insert pk op
    kvSize := self.kvSize.addSize (op.estimatedSize env) }

/-- `buffer.insert` at level `Inconsistent`, with `sub_old_op_size`. -/
def insertInconsistent (op : KeyOp) : MemTable :=
  let inserted := self.insertVacant env pk op
  match self.buffer[pk]? with
  | some oldOp =>
    { inserted with
      kvSize := (inserted.kvSize.subSize (oldOp.estimatedSize env)).subSize (keyLen env pk) }
  | none => inserted

/-- `kv_size.sub_val(old_op)`. -/
def subVal (oldOp : KeyOp) : MemTable :=
  { self with kvSize := self.kvSize.subSize (oldOp.estimatedSize env) }

/-- An operation that does not fit the buffered one: an error, or accepted if the sanity check is
disabled. -/
def inconsistentOperation (prev newOp : KeyOp) : Except MemTableError Unit × MemTable :=
  if env.sanityCheckEnabled then (.error ⟨pk, prev, newOp⟩, self)
  else (.ok (), self.replaceOccupied env pk newOp)

def insert (self : MemTable) (pk : TableKey) (value : Bytes) :
    Except MemTableError Unit × MemTable :=
  match self.opConsistencyLevel with
  | .inconsistent => (.ok (), self.insertInconsistent env pk (.insert value))
  | .consistentOldValue _ _ =>
    match self.buffer[pk]? with
    | none => (.ok (), self.insertVacant env pk (.insert value))
    | some oldOp =>
      let self := self.subVal env oldOp
      match oldOp with
      | .delete oldOpOldValue => (.ok (), self.replaceOccupied env pk (.update oldOpOldValue value))
      | .insert _ | .update _ _ => self.inconsistentOperation env pk oldOp (.insert value)

def delete (self : MemTable) (pk : TableKey) (oldValue : Bytes) :
    Except MemTableError Unit × MemTable :=
  match self.opConsistencyLevel with
  | .inconsistent => (.ok (), self.insertInconsistent env pk (.delete oldValue))
  | .consistentOldValue valueChecker _ =>
    match self.buffer[pk]? with
    | none => (.ok (), self.insertVacant env pk (.delete oldValue))
    | some oldOp =>
      let self := self.subVal env oldOp
      match oldOp with
      | .insert oldOpNewValue =>
        if env.sanityCheckEnabled && !valueChecker oldOpNewValue oldValue then
          (.error ⟨pk, oldOp, .delete oldValue⟩, self)
        else
          (.ok (), { self with
            buffer := self.buffer.erase pk
            kvSize := self.kvSize.subSize (keyLen env pk) })
      | .delete _ => self.inconsistentOperation env pk oldOp (.delete oldValue)
      | .update oldOpOldValue oldOpNewValue =>
        if env.sanityCheckEnabled && !valueChecker oldOpNewValue oldValue then
          (.error ⟨pk, oldOp, .delete oldValue⟩, self)
        else (.ok (), self.replaceOccupied env pk (.delete oldOpOldValue))

def update (self : MemTable) (pk : TableKey) (oldValue newValue : Bytes) :
    Except MemTableError Unit × MemTable :=
  match self.opConsistencyLevel with
  | .inconsistent => (.ok (), self.insertInconsistent env pk (.update oldValue newValue))
  | .consistentOldValue valueChecker _ =>
    match self.buffer[pk]? with
    | none => (.ok (), self.insertVacant env pk (.update oldValue newValue))
    | some oldOp =>
      let self := self.subVal env oldOp
      match oldOp with
      | .insert oldOpNewValue =>
        if env.sanityCheckEnabled && !valueChecker oldOpNewValue oldValue then
          (.error ⟨pk, oldOp, .update oldValue newValue⟩, self)
        else (.ok (), self.replaceOccupied env pk (.insert newValue))
      | .update oldOpOldValue oldOpNewValue =>
        if env.sanityCheckEnabled && !valueChecker oldOpNewValue oldValue then
          (.error ⟨pk, oldOp, .update oldValue newValue⟩, self)
        else (.ok (), self.replaceOccupied env pk (.update oldOpOldValue newValue))
      | .delete _ => self.inconsistentOperation env pk oldOp (.update oldValue newValue)

end

def iter (self : MemTable) (keyRange : TableKeyRange) : Res (List (TableKey × KeyOp)) :=
  self.buffer.range self.rooted keyRange

def revIter (self : MemTable) (keyRange : TableKeyRange) : Res (List (TableKey × KeyOp)) := do
  .ok (← self.buffer.range self.rooted keyRange).reverse

end MemTable

/-! ## The merged stream -/

abbrev StateStoreKeyedRow := FullKey × Bytes

/-- What a stream yields until it ends, and the error that it ends with. -/
abbrev Stream (ε : Type) := List StateStoreKeyedRow × Option ε

/-- A row, and then what the rest of the stream yields. -/
def yieldRow {ε : Type} (row : StateStoreKeyedRow) (rest : Res (Stream ε)) : Res (Stream ε) := do
  let (rows, error) ← rest
  .ok (row :: rows, error)

def mergeStream {ε : Type} (dbg : Bool) (tableId : TableId) (epoch : HummockEpoch) (rev : Bool) :
    List (Except ε StateStoreKeyedRow) → List (TableKey × KeyOp) → Res (Stream ε)
  | [], [] => .ok ([], none)
  | .ok row :: inner, [] => yieldRow row (mergeStream dbg tableId epoch rev inner [])
  | .error e :: _, _ => .ok ([], some e)
  | [], (key, keyOp) :: memTable =>
    let rest := mergeStream dbg tableId epoch rev [] memTable
    match keyOp with
    | .insert value | .update _ value => do
      yieldRow (← FullKey.new dbg tableId key epoch, value) rest
    | .delete _ => rest
  | .ok (innerKey, oldValueInInner) :: inner, (memTableKey, keyOp) :: memTable => do
    debugAssert dbg (innerKey.userKey.tableId == tableId) "inner_key.user_key.table_id == table_id"
    match BTreeMap.cmpDir rev innerKey.userKey.tableKey memTableKey with
    | .lt =>
      yieldRow (innerKey, oldValueInInner)
        (mergeStream dbg tableId epoch rev inner ((memTableKey, keyOp) :: memTable))
    | .eq =>
      -- both have the key: the operation in memory decides
      let rest := mergeStream dbg tableId epoch rev inner memTable
      match keyOp with
      | .insert value => yieldRow (innerKey, value) rest
      | .delete _ => rest
      | .update oldValue newValue => do
        debugAssert dbg (oldValue == oldValueInInner) "old_value == &old_value_in_inner"
        yieldRow (innerKey, newValue) rest
    | .gt =>
      let rest := mergeStream dbg tableId epoch rev (.ok (innerKey, oldValueInInner) :: inner) memTable
      match keyOp with
      | .insert value => do yieldRow (← FullKey.new dbg tableId memTableKey epoch, value) rest
      | .delete _ => rest
      | .update _ _ =>
        .error (.explicit "memtable update should always be paired with a storage key")
termination_by inner memTable => inner.length + memTable.length

end Hummock
