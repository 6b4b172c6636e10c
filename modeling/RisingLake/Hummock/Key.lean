import RisingLake.Lib.Bound
import RisingLake.Lib.Bytes

/-!
# Keys (`hummock_sdk/src/key.rs`, `key_cmp.rs`, `lib.rs`)

A table key is a virtual node in two big-endian bytes and the user's key; a user key puts a table id
in front, a full key adds an epoch. Encoded, a full key is `| table_id | table_key | epoch |`, and
`compareEncodedFullKey` compares it as the pair (user key, epoch), the newer epoch first.

`dbg` says whether the build has debug assertions.
-/

namespace Hummock

open Res Bytes

variable (dbg : Bool)

def epochLen : Nat := 8
def tablePrefixLen : Nat := 4

abbrev TableId := U32
abbrev HummockEpoch := U64

/-! ## Virtual nodes -/

/-- `VirtualNode::MAX_COUNT`: the most significant bit of the `u16` is not used. -/
def vnodeMaxCount : Nat := 2 ^ 15

/-- `VirtualNode`: a release build also makes those with the most significant bit. -/
abbrev VirtualNode := U16

instance (priority := high) neZeroVirtualNode : NeZero (2 ^ 16) := inferInstance
instance (priority := high) transOrdVirtualNode : Std.TransOrd VirtualNode := inferInstance

namespace VirtualNode

def zero : VirtualNode := 0
def maxRepresentable : VirtualNode := Fin.ofNat _ (vnodeMaxCount - 1)
def size : Nat := 2

def fromIndex (index : Nat) : Res VirtualNode := do
  debugAssert dbg (decide (index < vnodeMaxCount)) "index < Self::MAX_COUNT"
  .ok (Fin.ofNat _ index)

def fromBeBytes (bytes : Bytes) : Res VirtualNode := do
  let inner : U16 := Fin.ofNat _ (beNat bytes)
  debugAssert dbg (decide (inner.val < vnodeMaxCount)) "(inner as usize) < Self::MAX_COUNT"
  .ok inner

def toIndex (vnode : VirtualNode) : Nat := vnode.val

def toBeBytes (vnode : VirtualNode) : Bytes := beBytes size vnode.val

end VirtualNode

/-! ## Table keys -/

abbrev TableKey := Bytes
abbrev TableKeyRange := Bound TableKey × Bound TableKey

def TableKey.splitVnode (key : TableKey) : Res (VirtualNode × Bytes) := do
  debugAssert dbg (decide (VirtualNode.size ≤ key.length)) "too short table key"
  if key.length < VirtualNode.size then .error (.unwrap "split_first_chunk")
  else .ok (← VirtualNode.fromBeBytes dbg (key.take VirtualNode.size), key.drop VirtualNode.size)

def TableKey.vnodePart (key : TableKey) : Res VirtualNode := do
  let (vnode, _) ← TableKey.splitVnode dbg key
  .ok vnode

def TableKey.keyPart (key : TableKey) : Res Bytes := do
  let (_, key) ← TableKey.splitVnode dbg key
  .ok key

def leftVnode : Bound TableKey → Res Nat
  | .included key | .excluded key => do .ok (← TableKey.vnodePart dbg key).toIndex
  | .unbounded => .ok 0

def rightVnodeExclusive : Bound TableKey → Res Nat
  | .included key => do .ok ((← TableKey.vnodePart dbg key).toIndex + 1)
  | .excluded key => do
    let (vnode, innerKey) ← TableKey.splitVnode dbg key
    -- an exclusive end key with only a vnode excludes the whole vnode
    if innerKey.isEmpty then .ok vnode.toIndex else .ok (vnode.toIndex + 1)
  | .unbounded => .ok (VirtualNode.maxRepresentable.toIndex + 1)

/-- Left inclusive and right exclusive vnode index of the range. -/
def vnodeRange (range : TableKeyRange) : Res (Nat × Nat) := do
  let left ← leftVnode dbg range.1
  let right ← rightVnodeExclusive dbg range.2
  .ok (left, right)

def vnode (range : TableKeyRange) : Res VirtualNode := do
  let (l, rExclusive) ← vnodeRange dbg range
  let width ← checkedSub rExclusive l
  assert (width == 1) "r_exclusive - l == 1"
  VirtualNode.fromIndex dbg l

def prefixSliceWithVnode (vnode : VirtualNode) (slice : Bytes) : Bytes := vnode.toBeBytes ++ slice

def endBoundOfVnode (vnode : VirtualNode) : Res (Bound Bytes) :=
  if vnode = VirtualNode.maxRepresentable then .ok .unbounded
  else do
    let next ← VirtualNode.fromIndex dbg (vnode.toIndex + 1)
    .ok (.excluded next.toBeBytes)

/-- The last byte that can be incremented is, and the bytes behind it are dropped. -/
def nextKeyNoAlloc (key : Bytes) : Option (Bytes × U8) :=
  match key.reverse.dropWhile (· == 0xff) with
  | [] => none
  | b :: before => some (before.reverse, b + 1)

def endBoundOfPrefix (pre : Bytes) : Bound Bytes :=
  match nextKeyNoAlloc pre with
  | some (s, e) => .excluded (s ++ [e])
  | none => .unbounded

def rangeOfPrefix (pre : Bytes) : Bound Bytes × Bound Bytes :=
  if pre.isEmpty then (.unbounded, .unbounded) else (.included pre, endBoundOfPrefix pre)

def prefixedRangeWithVnode (range : Bound Bytes × Bound Bytes) (vnode : VirtualNode) :
    Res TableKeyRange := do
  let start ← match range.1 with
    | .included b => .ok (.included (prefixSliceWithVnode vnode b))
    | .excluded b => do
      assert (!b.isEmpty) "!b.as_ref().is_empty()"
      .ok (.excluded (prefixSliceWithVnode vnode b))
    | .unbounded => .ok (.included vnode.toBeBytes)
  let stop ← match range.2 with
    | .included b => .ok (.included (prefixSliceWithVnode vnode b))
    | .excluded b => do
      assert (!b.isEmpty) "!b.as_ref().is_empty()"
      .ok (.excluded (prefixSliceWithVnode vnode b))
    | .unbounded => endBoundOfVnode dbg vnode
  .ok (start, stop)

/-! ## Epochs -/

/-- The largest epoch without a spill offset. -/
def maxEpoch : U64 := 2 ^ 64 - 2 ^ 16

def isMaxEpoch (epoch : HummockEpoch) : Bool := maxEpoch ≤ epoch

/-- An epoch in the high 48 bits, a spill offset in the low 16. -/
abbrev EpochWithGap := U64

def EpochWithGap.new (epoch : HummockEpoch) (spillOffset : U16) : Res EpochWithGap :=
  if isMaxEpoch epoch then .ok U64.max
  else do
    debugAssert dbg (epoch.val % 2 ^ 16 == 0) "(epoch & EPOCH_SPILL_TIME_MASK) == 0"
    .ok (epoch + Fin.ofNat _ spillOffset.val)

def EpochWithGap.newMinEpoch : EpochWithGap := 0

/-- The epoch with the low 16 bits cleared. -/
def EpochWithGap.pureEpoch (e : EpochWithGap) : HummockEpoch := ⟨e.val / 2 ^ 16 * 2 ^ 16, by omega⟩

def subtractMs (epoch : HummockEpoch) (relativeTimeMs : Nat) : HummockEpoch :=
  if epoch.val / 2 ^ 16 < relativeTimeMs then 0
  else Fin.ofNat _ ((epoch.val / 2 ^ 16 - relativeTimeMs) * 2 ^ 16)

/-! ## User keys and full keys -/

structure UserKey where
  tableId : TableId
  tableKey : TableKey
  deriving DecidableEq, Repr

def UserKey.default : UserKey := ⟨0, []⟩

/-- The derived order: table id first, then table key. -/
instance : LinearOrder UserKey :=
  LinearOrder.lift' (fun k : UserKey => toLex (k.tableId, k.tableKey)) fun a b h => by
    cases a; cases b; simpa using h

structure FullKey where
  userKey : UserKey
  epochWithGap : EpochWithGap
  deriving DecidableEq, Repr

def FullKey.default : FullKey := ⟨UserKey.default, 0⟩

/-- `Ord for FullKey`: the greater epoch of a user key comes first. -/
instance : LinearOrder FullKey :=
  LinearOrder.lift' (fun k : FullKey => toLex (k.userKey, OrderDual.toDual k.epochWithGap))
    fun a b h => by cases a; cases b; simpa using h

def UserKey.encode (key : UserKey) : Bytes := beBytes tablePrefixLen key.tableId.val ++ key.tableKey

def FullKey.encode (key : FullKey) : Bytes :=
  key.userKey.encode ++ beBytes epochLen key.epochWithGap.val

/-- `FullKey::encode_into_without_table_id`, into an empty buffer. -/
def FullKey.encodeWithoutTableId (key : FullKey) : Bytes :=
  key.userKey.tableKey ++ beBytes epochLen key.epochWithGap.val

def FullKey.new (tableId : TableId) (tableKey : TableKey) (epoch : HummockEpoch) :
    Res FullKey := do
  .ok ⟨⟨tableId, tableKey⟩, ← EpochWithGap.new dbg epoch 0⟩

def UserKey.decode (slice : Bytes) : Res UserKey :=
  if slice.length < tablePrefixLen then .error .index
  else .ok ⟨Fin.ofNat _ (beNat (slice.take tablePrefixLen)), slice.drop tablePrefixLen⟩

def FullKey.decode (slice : Bytes) : Res FullKey :=
  if slice.length < epochLen then .error .index
  else do
    let epochPos := slice.length - epochLen
    let userKey ← UserKey.decode (slice.take epochPos)
    .ok ⟨userKey, Fin.ofNat _ (beNat (slice.drop epochPos))⟩

def FullKey.fromSliceWithoutTableId (tableId : TableId) (slice : Bytes) : Res FullKey := do
  let epochPos ← checkedSub slice.length epochLen
  .ok ⟨⟨tableId, slice.take epochPos⟩, Fin.ofNat _ (beNat (slice.drop epochPos))⟩

def UserKey.getVnodeId (key : UserKey) : Res Nat := do
  .ok (← TableKey.vnodePart dbg key.tableKey).toIndex

def splitKeyEpoch (fullKey : Bytes) : Res (Bytes × Bytes) :=
  if fullKey.length < epochLen then .error (.explicit "bad full key format")
  else .ok (fullKey.splitAt (fullKey.length - epochLen))

def compareEncodedFullKey (lhs rhs : Bytes) : Res Ordering := do
  let (lp, ls) ← splitKeyEpoch lhs
  let (rp, rs) ← splitKeyEpoch rhs
  .ok ((cmp lp rp).then (cmp rs ls))

end Hummock
