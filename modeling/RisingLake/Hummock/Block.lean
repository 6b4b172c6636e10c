import RisingLake.Hummock.Key

/-!
# Blocks (`storage/src/hummock/sstable/block.rs`, `utils.rs`)

A block holds entries of one table. An entry is

`| overlap len | diff len | value len | diff key | value |`

where the key (without the table id) is the first `overlap` bytes of the previous key and `diff
key`. At a restart point the overlap is zero. The three lengths have the widths of the last restart
point whose widths changed; only these restart points carry their widths (the type index). Behind
the entries come

`| restart points (4B each) | their number (4B) | type index (5B each) | its length (4B) | table id
(4B) |`

and, outside what is compressed, the compression method (1B) and a checksum (8B). The hit map of a
block and the reused compression buffer are left out, and so are capacities.
-/

namespace Hummock

open Res Bytes

def maxKeyLen : Nat := 2 ^ 16 - 1

/-- `HummockError`, as far as blocks raise it. -/
inductive HummockError where
  | checksumMismatch (expected found : U64)
  | decodeError (msg : String)
  deriving DecidableEq, Repr

abbrev HummockResult (α : Type) := Except HummockError α

/-! ## Widths of length fields -/

inductive LenType where
  | u8
  | u16
  | u32
  deriving DecidableEq, Repr

namespace LenType

/-- `as u8`. -/
def toNat : LenType → Nat
  | u8 => 1
  | u16 => 2
  | u32 => 3

def fromU8 : Nat → Res LenType
  | 1 => .ok u8
  | 2 => .ok u16
  | 3 => .ok u32
  | _ => .error (.explicit "unexpected type")

def len : LenType → Nat
  | u8 => 1
  | u16 => 2
  | u32 => 4

def new (len : Nat) : Res LenType :=
  if len < 2 ^ 8 then .ok u8
  else if len < 2 ^ 16 then .ok u16
  else if len < 2 ^ 32 then .ok u32
  else .error (.explicit "unexpected LenType")

variable (self : LenType)

def put (v1 : Nat) : Bytes := beBytes self.len v1

def put2 (v1 v2 : Nat) : Bytes := self.put v1 ++ self.put v2

def get (buf : Bytes) : Res (Nat × Bytes) := getBe self.len buf

def get2 (buf : Bytes) : Res ((Nat × Nat) × Bytes) := do
  let (v1, buf) ← self.get buf
  let (v2, buf) ← self.get buf
  .ok ((v1, v2), buf)

end LenType

structure RestartPoint where
  offset : U32
  keyLenType : LenType
  valueLenType : LenType
  deriving DecidableEq, Repr

/-- An offset in four bytes, both widths in one. -/
def RestartPoint.sizeOf : Nat := 5

/-- What is stored in front of an entry's diff key. -/
structure KeyPrefix where
  overlap : Nat
  diff : Nat
  value : Nat
  offset : Nat
  len : Nat
  deriving DecidableEq, Repr

namespace KeyPrefix

def newWithoutLen (overlap diff value offset : Nat) : KeyPrefix := ⟨overlap, diff, value, offset, 0⟩

variable (self : KeyPrefix)

def encode (keyLenType valueLenType : LenType) : Bytes :=
  keyLenType.put2 self.overlap self.diff ++ valueLenType.put self.value

def decode (buf : Bytes) (offset : Nat) (keyLenType valueLenType : LenType) : Res KeyPrefix := do
  let ((overlap, diff), buf) ← keyLenType.get2 buf
  let (value, _) ← valueLenType.get buf
  .ok ⟨overlap, diff, value, offset, keyLenType.len * 2 + valueLenType.len⟩

def diffKeyRange : Nat × Nat := (self.offset + self.len, self.offset + self.len + self.diff)

def valueRange : Nat × Nat :=
  (self.offset + self.len + self.diff, self.offset + self.len + self.diff + self.value)

def entryLen : Nat := self.len + self.diff + self.value

end KeyPrefix

/-! ## Compression and checksums -/

inductive CompressionAlgorithm where
  | none
  | lz4
  | zstd
  deriving DecidableEq, Repr

namespace CompressionAlgorithm

def encode : CompressionAlgorithm → Bytes
  | none => [0]
  | lz4 => [1]
  | zstd => [2]

def decode (v : U8) : HummockResult CompressionAlgorithm :=
  if v = 0 then .ok none
  else if v = 1 then .ok lz4
  else if v = 2 then .ok zstd
  else .error (.decodeError "not valid compression algorithm")

end CompressionAlgorithm

/-- The compression libraries and the hash. What a library compresses it decompresses to the same.
-/
structure Codec where
  compress : CompressionAlgorithm → Bytes → Bytes
  decompress : CompressionAlgorithm → Bytes → Option Bytes
  xxhash64Checksum : Bytes → U64
  decompress_compress : ∀ algorithm bs, decompress algorithm (compress algorithm bs) = some bs

def Codec.xxhash64Verify (codec : Codec) (data : Bytes) (checksum : U64) : HummockResult Unit :=
  if codec.xxhash64Checksum data = checksum then .ok ()
  else .error (.checksumMismatch checksum (codec.xxhash64Checksum data))

/-- `utils::checked_into_u32`, unwrapped with a panic. -/
def checkedIntoU32 (i : Nat) (msg : String) : Res U32 :=
  if h : i < 2 ^ 32 then .ok ⟨i, h⟩ else .error (.explicit msg)

/-! ## Reading a block -/

structure Block where
  data : Bytes
  dataLen : Nat
  tableId : TableId
  restartPoints : List RestartPoint
  deriving DecidableEq, Repr

namespace Block

/-- The type index: `n` entries of an offset and the two widths. -/
def decodeTypeIndex : Nat → Bytes → Res (List RestartPoint)
  | 0, _ => .ok []
  | n + 1, buf => do
    let (offset, buf) ← getLe 4 buf
    let (value, buf) ← getLe 1 buf
    let keyLenType ← LenType.fromU8 (value / 2 ^ 4)
    let valueLenType ← LenType.fromU8 (value % 2 ^ 4)
    .ok (⟨Fin.ofNat _ offset, keyLenType, valueLenType⟩ :: (← decodeTypeIndex n buf))

/-- Moves to the next entry of the type index once its offset is reached. -/
def nextTypeIndex (indexKeyVec : List RestartPoint) (typeIndex offset : Nat) : Res Nat := do
  if typeIndex < (← checkedSub indexKeyVec.length 1) then
    let next ← index indexKeyVec (typeIndex + 1)
    .ok (if next.offset.val ≤ offset then typeIndex + 1 else typeIndex)
  else .ok typeIndex

/-- `n` restart points. `typeIndex` is the entry of the type index that gives the widths. -/
def decodeRestartPoints (indexKeyVec : List RestartPoint) :
    Nat → Nat → Bytes → Res (List RestartPoint)
  | 0, _, _ => .ok []
  | n + 1, typeIndex, buf => do
    let (offset, buf) ← getLe 4 buf
    let typeIndex ← nextTypeIndex indexKeyVec typeIndex offset
    let entry ← index indexKeyVec typeIndex
    .ok (⟨Fin.ofNat _ offset, entry.keyLenType, entry.valueLenType⟩ ::
      (← decodeRestartPoints indexKeyVec n typeIndex buf))

def decodeFromRaw (buf : Bytes) : Res Block := do
  let tableIdPos ← checkedSub buf.length 4
  let (tableId, _) ← getLe 4 (buf.drop tableIdPos)
  let nIndexPos ← checkedSub buf.length 8
  let (nIndex, _) ← getLe 4 (buf.drop nIndexPos)
  let dataLen ← checkedSub tableIdPos (4 + nIndex * RestartPoint.sizeOf)
  let indexKeyVec ← decodeTypeIndex nIndex (← slice buf dataLen nIndexPos)
  let restartsEnd ← checkedSub dataLen 4
  let (nRestarts, _) ← getLe 4 (buf.drop restartsEnd)
  let dataLen ← checkedSub dataLen (4 + nRestarts * 4)
  let restartPoints ← decodeRestartPoints indexKeyVec nRestarts 0 (← slice buf dataLen restartsEnd)
  .ok ⟨buf, dataLen, Fin.ofNat _ tableId, restartPoints⟩

def decode (codec : Codec) (buf : Bytes) (uncompressedCapacity : Nat) :
    Res (HummockResult Block) := do
  -- verify the checksum
  let checksumPos ← checkedSub buf.length 8
  let (checksum, _) ← getLe 8 (buf.drop checksumPos)
  match codec.xxhash64Verify (buf.take checksumPos) (Fin.ofNat _ checksum) with
  | .error e => .ok (.error e)
  | .ok () =>
    let algorithmPos ← checkedSub buf.length 9
    match CompressionAlgorithm.decode (← index buf algorithmPos) with
    | .error e => .ok (.error e)
    | .ok .none => do .ok (.ok (← decodeFromRaw (buf.take algorithmPos)))
    | .ok compression =>
      match codec.decompress compression (buf.take algorithmPos) with
      | .none => .ok (.error (.decodeError "decompress"))
      | some decoded => do
        assert (decoded.length == uncompressedCapacity) "read_size == uncompressed_capacity"
        .ok (.ok (← decodeFromRaw decoded))

def len (self : Block) : Res Nat := do
  assert (!self.data.isEmpty) "!self.data.is_empty()"
  .ok self.dataLen

def restartPoint (self : Block) (i : Nat) : Res RestartPoint := index self.restartPoints i

/-- `Block::data()`: the entries. -/
def entries (self : Block) : Bytes := self.data.take self.dataLen

end Block

/-! ## Building a block -/

/-- The bytes of the two strings from `i` on that are equal, in steps of `n` bytes. -/
def skipEqual (n : Nat) (base target : Bytes) (stop : Nat) : Nat → Nat → Nat
  | 0, i => i
  | fuel + 1, i =>
    if i + n ≤ stop ∧ (base.drop i).take n = (target.drop i).take n then
      skipEqual n base target stop fuel (i + n)
    else i

/-- What is left of `target` after the prefix it shares with `base`. The
source compares eight bytes at a time, then four at most once, then one by one. -/
def bytesDiffBelowMaxKeyLength (base target : Bytes) : Bytes :=
  let stop := min (min base.length target.length) maxKeyLen
  let i := skipEqual 8 base target stop stop 0
  let i := skipEqual 4 base target stop 1 i
  target.drop (skipEqual 1 base target stop stop i)

structure BlockBuilderOptions where
  capacity : Nat
  compressionAlgorithm : CompressionAlgorithm
  restartInterval : Nat
  deriving DecidableEq, Repr

structure BlockBuilder where
  buf : Bytes
  restartCount : Nat
  restartPoints : List U32
  lastKey : Bytes
  entryCount : Nat
  compressionAlgorithm : CompressionAlgorithm
  tableId : Option TableId
  restartPointsTypeIndex : List RestartPoint
  deriving DecidableEq, Repr

namespace BlockBuilder

/-- `BlockBuilder::new`; the capacity of the restart points is divided by the interval. -/
def new (options : BlockBuilderOptions) : Res BlockBuilder :=
  if options.restartInterval = 0 then .error (.explicit "attempt to divide by zero")
  else .ok ⟨[], options.restartInterval, [], [], 0, options.compressionAlgorithm, none, []⟩

def debugValid (dbg : Bool) (self : BlockBuilder) : Res Unit :=
  if self.entryCount = 0 then do
    debugAssert dbg self.buf.isEmpty "self.buf.is_empty()"
    debugAssert dbg self.restartPoints.isEmpty "self.restart_points.is_empty()"
    debugAssert dbg self.restartPointsTypeIndex.isEmpty "self.restart_points_type_index.is_empty()"
    debugAssert dbg self.lastKey.isEmpty "self.last_key.is_empty()"
  else .ok ()

/-- The assertions of a debug build that keys are added in ascending order. -/
def debugAscending (dbg : Bool) (self : BlockBuilder) (key : Bytes) : Res Unit :=
  if dbg && 0 < self.entryCount then do
    assert (!key.isEmpty) "!key.is_empty()"
    assert ((← compareEncodedFullKey self.lastKey key) == .lt) "last key < key"
  else .ok ()

variable (self : BlockBuilder)

def typeMismatch (kType vType : LenType) : Bool :=
  match self.restartPointsTypeIndex.getLast? with
  | some last => kType != last.keyLenType || vType != last.valueLenType
  | none => true

/-- Records a restart point if one is due, and gives the part of the key to be written. -/
def restartOrDiff (key : Bytes) (kType vType : LenType) : Res (BlockBuilder × Bytes) := do
  let mismatch := self.typeMismatch kType vType
  if (← checkedRem self.entryCount self.restartCount) = 0 ∨ mismatch = true then
    let offset ← checkedIntoU32 self.buf.length "overflow: buf_len"
    let restartPointsTypeIndex :=
      if mismatch then self.restartPointsTypeIndex ++ [⟨offset, kType, vType⟩]
      else self.restartPointsTypeIndex
    .ok ({ self with
      restartPoints := self.restartPoints ++ [offset]
      restartPointsTypeIndex }, key)
  else .ok (self, bytesDiffBelowMaxKeyLength self.lastKey key)

/-- A block holds the entries of one table. -/
def assertTableId (inputTableId : TableId) : Res Unit :=
  match self.tableId with
  | some currentTableId =>
    assert (currentTableId == inputTableId) "current_table_id == input_table_id"
  | none => .ok ()

def add (dbg : Bool) (self : BlockBuilder) (fullKey : FullKey) (value : Bytes) :
    Res BlockBuilder := do
  let inputTableId := fullKey.userKey.tableId
  self.assertTableId inputTableId
  let self := { self with tableId := some inputTableId }
  debugValid dbg self
  let key := fullKey.encodeWithoutTableId
  debugAscending dbg self key
  let kType ← LenType.new key.length
  let vType ← LenType.new value.length
  let (self, diffKey) ← self.restartOrDiff key kType vType
  let overlap ← checkedSub key.length diffKey.length
  let keyPrefix := KeyPrefix.newWithoutLen overlap diffKey.length value.length self.buf.length
  .ok { self with
    buf := self.buf ++ keyPrefix.encode kType vType ++ diffKey ++ value
    lastKey := key
    entryCount := self.entryCount + 1 }

def isEmpty (self : BlockBuilder) : Bool := self.buf.isEmpty

def clear : BlockBuilder :=
  { self with
    buf := [], restartPoints := [], tableId := none, restartPointsTypeIndex := [], lastKey := []
    entryCount := 0 }

def uncompressedBlockSize : Nat :=
  self.buf.length + (self.restartPoints.length + 1) * 4 +
    RestartPoint.sizeOf * self.restartPointsTypeIndex.length + 4 + 4

def approximateLen : Nat :=
  self.buf.length + 4 * self.restartPoints.length + 4 +
    RestartPoint.sizeOf * self.restartPointsTypeIndex.length + 4 + 1 + 8 + 4

/-- An entry of the type index: the offset, and both widths in one byte. -/
def encodeTypeIndex (point : RestartPoint) : Bytes :=
  leBytes 4 point.offset.val ++ leBytes 1 (point.keyLenType.toNat * 2 ^ 4 + point.valueLenType.toNat)

/-- The bytes of the block, and the builder. -/
def build (codec : Codec) (self : BlockBuilder) : Res (Bytes × BlockBuilder) := do
  assert (0 < self.entryCount) "self.entry_count > 0"
  let buf := self.buf ++ self.restartPoints.flatMap fun point => leBytes 4 point.val
  let nRestarts ← checkedIntoU32 self.restartPoints.length "overflow: restart_points_len"
  let buf := buf ++ leBytes 4 nRestarts.val ++ self.restartPointsTypeIndex.flatMap encodeTypeIndex
  let nIndex ← checkedIntoU32 self.restartPointsTypeIndex.length
    "overflow: restart_points_type_index_len"
  let tableId ← unwrap self.tableId "table_id"
  let buf := buf ++ leBytes 4 nIndex.val ++ leBytes 4 tableId.val
  let resultBuf := if self.compressionAlgorithm = .none then buf
    else codec.compress self.compressionAlgorithm buf
  let resultBuf := resultBuf ++ self.compressionAlgorithm.encode
  let resultBuf := resultBuf ++ leBytes 8 (codec.xxhash64Checksum resultBuf).val
  assert (resultBuf.length < 2 ^ 32 - 1) "result_buf.len() < u32::MAX"
  .ok (resultBuf, { self with
    buf := if self.compressionAlgorithm = .none then resultBuf else buf })

end BlockBuilder

end Hummock
