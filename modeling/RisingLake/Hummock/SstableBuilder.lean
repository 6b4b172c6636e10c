import RisingLake.Hummock.BlockIterator
import RisingLake.Hummock.Sstable
import RisingLake.Hummock.UserIterator
import RisingLake.Lib.Maps

/-!
# SST builders (`storage/src/hummock/sstable/builder.rs`, `value.rs`)

A builder writes blocks. Entries are added one by one (`add`) to a block that is closed when it is
full or the table changes, and whole blocks of another SST can be appended as they are
(`addRawBlock`); a raw block that comes after a small one is taken apart and added entry by entry.
What the builder knows of the file is spread over the metas of its blocks, the set of its tables,
the set of epochs and the last key, and `finish` puts the description of the SST together from them.

The writer is the bytes written. The filter, the extraction of the key it is given and the
compression are parameters (`SstableEnv`). Warnings, metrics and the time of creation are left out.
-/

namespace Hummock

open Res Bytes

namespace HummockValue

/-- `HummockValue::encode`, into an empty buffer. -/
def encode : HummockValue → Bytes
  | put val => 0 :: val
  | delete => [1]

def fromSlice : Bytes → HummockResult HummockValue
  | [] => .error (.decodeError "empty value")
  | flag :: buffer =>
    if flag = 0 then .ok (put buffer)
    else if flag = 1 then .ok delete
    else .error (.decodeError "non-empty but format error")

def isDelete : HummockValue → Bool
  | put _ => false
  | delete => true

def encodedLen : HummockValue → Nat
  | put val => 1 + val.length
  | delete => 1

end HummockValue

/-- `user_key`: an encoded full key without its epoch. -/
def userKeyOf (fullKey : Bytes) : Res Bytes := do
  let (key, _) ← splitKeyEpoch fullKey
  .ok key

def minBlockSize : Nat := 8 * 1024

structure BlockMeta where
  smallestKey : Bytes
  offset : Nat
  len : Nat
  uncompressedSize : Nat
  totalKeyCount : Nat
  staleKeyCount : Nat
  deriving DecidableEq, Repr

namespace BlockMeta

def encodedSize (self : BlockMeta) : Nat := 24 + self.smallestKey.length

def tableId (self : BlockMeta) : Res TableId := do
  .ok (← FullKey.decode self.smallestKey).userKey.tableId

end BlockMeta

structure SstableMeta where
  blockMetas : List BlockMeta
  bloomFilter : Bytes
  estimatedSize : Nat
  keyCount : Nat
  smallestKey : Bytes
  largestKey : Bytes
  metaOffset : Nat
  deriving DecidableEq, Repr

def SstableMeta.encodedSize (self : SstableMeta) : Nat :=
  4 + (self.blockMetas.map BlockMeta.encodedSize).sum + 4 + 4 + self.bloomFilter.length + 4 + 4 + 4 +
    self.smallestKey.length + 4 + self.largestKey.length + 8 + 8 + 4 + 4

structure TableStats where
  totalKeySize : Int
  totalValueSize : Int
  totalKeyCount : Int
  totalCompressedSize : Nat
  deriving DecidableEq, Repr

def TableStats.default : TableStats := ⟨0, 0, 0, 0⟩

inductive BloomFilterType where
  | sstable
  | blocked
  deriving DecidableEq, Repr

/-- `SstableInfoInner` as the builder fills it. -/
structure BuiltSstableInfo extends SstableInfo where
  bloomFilterKind : BloomFilterType
  fileSize : Nat
  metaOffset : Nat
  staleKeyCount : Nat
  totalKeyCount : Nat
  minEpoch : HummockEpoch
  maxEpoch : HummockEpoch
  deriving DecidableEq, Repr

structure SstableBuilderOptions where
  capacity : Nat
  blockCapacity : Nat
  restartInterval : Nat
  /-- Whether `bloom_false_positive` is positive. -/
  bloomFilter : Bool
  compressionAlgorithm : CompressionAlgorithm
  deriving DecidableEq, Repr

/-- The trait `FilterBuilder`. -/
structure FilterBuilder (F : Type) where
  addKey : F → Bytes → TableId → F
  finish : F → Bytes
  approximateLen : F → Nat
  switchBlock : F → F
  addRawData : F → Bytes → F
  supportBlockedRawData : Bool

/-- What a builder is given: debug assertions, the codec, the filter and the catalog's key
extractor. -/
structure SstableEnv (F : Type) where
  dbg : Bool
  codec : Codec
  filter : FilterBuilder F
  extract : Bytes → Bytes

structure SstableBuilder (F : Type) where
  options : SstableBuilderOptions
  writer : Bytes
  blockBuilder : BlockBuilder
  blockMetas : List BlockMeta
  tableIds : BTreeSet TableId
  lastFullKey : Bytes
  lastTableId : Option TableId
  sstableId : Nat
  tableStats : HashMap TableId TableStats
  lastTableStats : TableStats
  filterBuilder : F
  epochSet : BTreeSet HummockEpoch

/-- The arguments of `add_raw_block`. -/
structure RawBlock where
  buf : Bytes
  filterData : Bytes
  smallestKey : FullKey
  largestKey : Bytes
  blockMeta : BlockMeta
  deriving DecidableEq, Repr

/-- The description of the SST, the statistics of its tables, and the file: the
blocks written and the metas of the SST behind them. -/
structure SstableBuilderOutput where
  sstInfo : BuiltSstableInfo
  tableStats : HashMap TableId TableStats
  data : Bytes
  sstMeta : SstableMeta

namespace SstableBuilder

variable {F : Type}

/-- `SstableBuilder::new`; the capacity of the block metas is divided by the block capacity. -/
def new (sstableId : Nat) (filterBuilder : F) (options : SstableBuilderOptions) :
    Res (SstableBuilder F) := do
  let blockBuilder ←
    BlockBuilder.new ⟨options.blockCapacity, options.compressionAlgorithm, options.restartInterval⟩
  if options.blockCapacity = 0 then .error (.explicit "attempt to divide by zero")
  else .ok ⟨options, [], blockBuilder, [], ∅, [], none, sstableId, ∅, .default, filterBuilder, ∅⟩

def approximateLen (env : SstableEnv F) (self : SstableBuilder F) : Nat :=
  self.writer.length + self.blockBuilder.approximateLen +
    env.filter.approximateLen self.filterBuilder

variable (env : SstableEnv F) (self : SstableBuilder F) (fullKey : FullKey)

def reachCapacity : Bool := self.options.capacity ≤ self.approximateLen env

def finalizeLastTableStats : SstableBuilder F :=
  if self.tableIds.isEmpty then self
  else match self.lastTableId with
    | none => self
    | some tableId =>
      { self with
        tableStats := self.tableStats.insert tableId self.lastTableStats
        lastTableStats := .default }

def buildBlock : Res (SstableBuilder F) :=
  if self.blockBuilder.isEmpty then .ok self
  else do
    let blockMeta ← unwrap self.blockMetas.getLast? "block_metas.last_mut()"
    let uncompressedSize ← checkedIntoU32 self.blockBuilder.uncompressedBlockSize
      "overflow: uncompressed_block_size"
    let (block, blockBuilder) ← self.blockBuilder.build env.codec
    let writer := self.writer ++ block
    let dataLen ← checkedIntoU32 writer.length "overflow: writer_data_len"
    assert (decide (blockMeta.offset ≤ dataLen.val)) "data_len should >= meta_offset"
    .ok { self with
      writer
      blockBuilder := blockBuilder.clear
      filterBuilder := env.filter.switchBlock self.filterBuilder
      blockMetas := self.blockMetas.dropLast ++ [{ blockMeta with
        uncompressedSize := uncompressedSize.val
        len := dataLen.val - blockMeta.offset }] }

/-- The table that the next entries are of. -/
def enterTable (tableId : TableId) : SstableBuilder F :=
  { ({ self with tableIds := self.tableIds.insert tableId } :
    SstableBuilder F).finalizeLastTableStats with
    lastTableId := some tableId }

def isNewUserKey (rawKey : Bytes) : Res Bool :=
  if self.lastFullKey.isEmpty then .ok true
  else do .ok ((← userKeyOf rawKey) != (← userKeyOf self.lastFullKey))

def isBlockFull (rawKey rawValue : Bytes) : Bool :=
  let currentBlockSize := self.blockBuilder.approximateLen
  let blockCapacity := self.options.blockCapacity
  decide (blockCapacity ≤ currentBlockSize) ||
    (decide (blockCapacity / 4 * 3 < currentBlockSize) &&
      decide (blockCapacity < currentBlockSize + rawValue.length + rawKey.length))

/-- Closes the current block on a change of the table, or when it is full. -/
def switchBlock (tableId : TableId) (blockFull couldSwitchBlock : Bool) : Res (SstableBuilder F) :=
  if self.lastTableId ≠ some tableId then do
    assert couldSwitchBlock "could_switch_block"
    (self.enterTable tableId).buildBlock env
  else if blockFull && couldSwitchBlock then self.buildBlock env
  else .ok self

/-- The meta of a new block, if the previous one has been built. -/
def rotate : Res (SstableBuilder F) :=
  if self.blockBuilder.isEmpty then do
    let offset ← checkedIntoU32 self.writer.length "overflow: writer_data_len"
    .ok { self with blockMetas := self.blockMetas ++ [⟨fullKey.encode, offset.val, 0, 0, 0, 0⟩] }
  else .ok self

/-- Puts an entry into the open block. -/
def appendEntry (value : HummockValue) (isNewUserKey : Bool) : Res (SstableBuilder F) := do
  let self ← self.rotate fullKey
  let extractKey := env.extract (← userKeyOf fullKey.encode)
  let filterBuilder := if extractKey.isEmpty then self.filterBuilder
    else env.filter.addKey self.filterBuilder extractKey fullKey.userKey.tableId
  let blockBuilder ← self.blockBuilder.add env.dbg fullKey value.encode
  let blockMeta ← unwrap self.blockMetas.getLast? "block_metas.last_mut()"
  .ok { self with
    blockBuilder
    filterBuilder
    epochSet := self.epochSet.insert fullKey.epochWithGap.pureEpoch
    blockMetas := self.blockMetas.dropLast ++ [{ blockMeta with
      totalKeyCount := blockMeta.totalKeyCount + 1
      staleKeyCount := if !isNewUserKey || value.isDelete then blockMeta.staleKeyCount + 1
        else blockMeta.staleKeyCount }]
    lastTableStats := { self.lastTableStats with
      totalKeyCount := self.lastTableStats.totalKeyCount + 1
      totalKeySize := self.lastTableStats.totalKeySize + fullKey.encode.length
      totalValueSize := self.lastTableStats.totalValueSize + value.encodedLen }
    lastFullKey := fullKey.encode }

def addImpl (value : HummockValue) (couldSwitchBlock : Bool) : Res (SstableBuilder F) := do
  let isNewUserKey ← self.isNewUserKey fullKey.encode
  let blockFull := self.isBlockFull fullKey.encode value.encode
  let self ← self.switchBlock env fullKey.userKey.tableId blockFull couldSwitchBlock
  self.appendEntry env fullKey value isNewUserKey

def add (value : HummockValue) : Res (SstableBuilder F) := self.addImpl env fullKey value true

/-- One round of the loop that takes a raw block apart. -/
def mergeStep (s : BlockIterator × SstableBuilder F) : Res (BlockIterator × SstableBuilder F) := do
  match HummockValue.fromSlice (← s.1.value) with
  | .error _ => .error (.explicit "decode failed for fast compact")
  | .ok value =>
    let builder ← s.2.addImpl env (← s.1.key) value false
    .ok (← s.1.next, builder)

/-- Adds the entries of a block one by one. -/
def mergeBlock (block : Block) : Res (SstableBuilder F) := do
  let iter ← (BlockIterator.new block).seekToFirst
  let (_, self) ← whileM (fun s => s.1.isValid) (mergeStep env) iter.rounds (iter, self)
  .ok self

def copyBlock (raw : RawBlock) : Res (SstableBuilder F) := do
  assert (raw.blockMeta.len == raw.buf.length) "meta.len == buf.len()"
  .ok { self with
    lastFullKey := raw.largestKey
    blockMetas := self.blockMetas ++ [{ raw.blockMeta with offset := self.writer.length % 2 ^ 32 }]
    filterBuilder := env.filter.addRawData self.filterBuilder raw.filterData
    writer := self.writer ++ raw.buf }

/-- Closes the previous block if the table changes, and enters the table of the raw block. -/
def switchTable (tableId : TableId) : Res (SstableBuilder F) :=
  if self.lastTableId ≠ some tableId then do
    .ok ((← self.buildBlock env).enterTable tableId)
  else .ok self

/-- `SstableBuilder::add_raw_block`; `false` if the block was taken apart. -/
def addRawBlock (raw : RawBlock) : Res (HummockResult (Bool × SstableBuilder F)) := do
  let self ← self.switchTable env raw.smallestKey.userKey.tableId
  let small := self.blockBuilder.approximateLen < min minBlockSize (self.options.blockCapacity / 4)
  if !self.blockBuilder.isEmpty && decide small then
    match ← Block.decode env.codec raw.buf raw.blockMeta.uncompressedSize with
    | .error e => .ok (.error e)
    | .ok block => do .ok (.ok (false, ← self.mergeBlock env block))
  else
    let self ← self.buildBlock env
    .ok (.ok (true, ← self.copyBlock env raw))

/-- The compressed size of the blocks is added to the statistics of their tables. -/
def fillCompressedSize (tableStats : HashMap TableId TableStats) (blockMeta : BlockMeta) :
    Res (HashMap TableId TableStats) := do
  let tableId ← blockMeta.tableId
  let stats ← unwrap tableStats[tableId]? "self.table_stats.get_mut(&last_table_id)"
  .ok (tableStats.insert tableId
    { stats with totalCompressedSize := stats.totalCompressedSize + blockMeta.len })

def smallestKey (self : SstableBuilder F) : Bytes :=
  match self.blockMetas with
  | [] => []
  | blockMeta :: _ => blockMeta.smallestKey

def finish (env : SstableEnv F) (self : SstableBuilder F) : Res SstableBuilderOutput := do
  let smallestKey := self.smallestKey
  let largestKey := self.lastFullKey
  let self := self.finalizeLastTableStats
  let self ← self.buildBlock env
  let metaOffset := self.writer.length
  let bloomFilter := if self.options.bloomFilter then env.filter.finish self.filterBuilder else []
  let totalKeyCount := (self.blockMetas.map (·.totalKeyCount)).sum
  let keyCount ← checkedIntoU32 totalKeyCount "overflow: total_key_count"
  let sstMeta : SstableMeta :=
    ⟨self.blockMetas, bloomFilter, 0, keyCount.val, smallestKey, largestKey, metaOffset⟩
  let encodedSize ← checkedIntoU32 sstMeta.encodedSize "overflow: meta_encoded_size"
  let metaOffsetU32 ← checkedIntoU32 metaOffset "overflow: meta_offset"
  let estimatedSize ← checkedIntoU32 (encodedSize.val + metaOffsetU32.val) "overflow: estimated_size"
  let sstInfo : BuiltSstableInfo :=
    { objectId := self.sstableId
      sstId := self.sstableId
      keyRange := ⟨smallestKey, largestKey, false⟩
      tableIds := self.tableIds.toList
      uncompressedFileSize := (self.blockMetas.map (·.uncompressedSize)).sum + sstMeta.encodedSize
      sstSize := estimatedSize.val
      bloomFilterKind := if env.filter.supportBlockedRawData then .blocked else .sstable
      fileSize := estimatedSize.val
      metaOffset
      staleKeyCount := (self.blockMetas.map (·.staleKeyCount)).sum
      totalKeyCount
      minEpoch := (BTreeSet.first? self.epochSet).getD U64.max
      maxEpoch := (BTreeSet.last? self.epochSet).getD 0 }
  let tableStats ← self.blockMetas.foldlM fillCompressedSize self.tableStats
  .ok ⟨sstInfo, tableStats, self.writer, { sstMeta with estimatedSize := estimatedSize.val }⟩

end SstableBuilder

end Hummock
