import RisingLake.Common.Types
import RisingLake.Lib.Returns

/-!
# Value encoding (`common/src/util/value_encoding/mod.rs`)

A scalar is written in little endian, a string behind its length, and a value inside a composite one
behind a tag that says whether it is NULL. The type is not written: the reader has it from the
schema.
-/

namespace ValueEncoding

open Res Bytes Types

inductive ValueEncodingError where
  | invalidUtf8
  | invalidFlag (bits : Nat)
  | invalidBoolEncoding (value : Nat)
  | invalidDateEncoding (days : BitVec 32)
  | invalidTimestampEncoding (secs : BitVec 64) (nsecs : BitVec 32)
  | invalidTimeEncoding (secs nano : BitVec 32)
  | invalidTagEncoding (tag : Nat)
  | invalidJsonbEncoding
  deriving DecidableEq, Repr

/-- A read that fails with an error, or panics where the buffer ends. -/
abbrev Read (α : Type) := ExceptT ValueEncodingError Res α

/-! ## Writing -/

def putBits {w : Nat} (v : BitVec w) : Bytes := leBytes (w / 8) v.toNat

def serializeStr (bytes : Bytes) : Bytes := leBytes 4 bytes.length ++ bytes

section

variable (c : Checks)

def unorderedSerialize : Decimal → Bytes
  | .normalized d => c.rustDecimal.serialize d
  | .nan => 1 :: List.replicate 15 0
  | .positiveInf => 2 :: List.replicate 15 0
  | .negativeInf => 3 :: List.replicate 15 0

/-- `JsonbRef::value_serialize`: a version and the text. -/
def jsonbValueSerialize (text : Bytes) : Bytes := 1 :: text

def serializePrimitive : Primitive → Bytes
  | .int16 v => putBits v
  | .int32 v => putBits v
  | .int64 v => putBits v
  | .int256 v => putBits v
  | .serial v => putBits v
  | .float32 v => putBits v
  | .float64 v => putBits v
  | .utf8 v => serializeStr v
  | .bytea v => serializeStr v
  | .bool v => leBytes 1 v.toNat
  | .decimal v => unorderedSerialize c v
  | .interval months days usecs => putBits months ++ putBits days ++ putBits usecs
  | .date days => putBits days
  | .timestamp secs nsecs => putBits secs ++ putBits nsecs
  | .timestamptz micros => putBits micros
  | .time secs nano => putBits secs ++ putBits nano
  | .jsonb text => serializeStr (jsonbValueSerialize text)

mutual

def serializeScalar : ScalarImpl → Bytes
  | .primitive v => serializePrimitive c v
  | .struct fields => serializeDatums fields
  | .list items => leBytes 4 items.length ++ serializeDatums items
  | .map entries => leBytes 4 entries.length ++ serializeDatums entries

/-- The values of a composite one, each behind its tag (`serialize_datum_into`). -/
def serializeDatums : List Datum → Bytes
  | [] => []
  | none :: ds => 0 :: serializeDatums ds
  | some v :: ds => 1 :: serializeScalar v ++ serializeDatums ds

end

/-- `serialize_datum_into`. -/
def serializeDatum : Datum → Bytes
  | none => [0]
  | some v => 1 :: serializeScalar c v

end

/-! ## Sizes -/

/-- The size of a `jsonb` is the one of its encoding in memory. -/
def estimatePrimitiveSize (capacity : Bytes → Nat) : Primitive → Nat
  | .int16 _ => 2
  | .int32 _ => 4
  | .int64 _ => 8
  | .int256 _ => 32
  | .serial _ => 8
  | .float32 _ => 4
  | .float64 _ => 8
  | .utf8 v => 4 + v.length
  | .bytea v => 4 + v.length
  | .bool _ => 1
  | .decimal _ => 16
  | .interval _ _ _ => 4 + 4 + 8
  | .date _ => 4
  | .timestamp _ _ => 8 + 4
  | .timestamptz _ => 8
  | .time _ _ => 4 + 4
  | .jsonb text => capacity text

mutual

def estimateScalarSize (capacity : Bytes → Nat) : ScalarImpl → Nat
  | .primitive v => estimatePrimitiveSize capacity v
  | .struct fields => estimateDatumsSize capacity fields
  | .list items => 4 + estimateDatumsSize capacity items
  | .map entries => 4 + estimateDatumsSize capacity entries

def estimateDatumsSize (capacity : Bytes → Nat) : List Datum → Nat
  | [] => 0
  | none :: ds => 1 + estimateDatumsSize capacity ds
  | some v :: ds => 1 + estimateScalarSize capacity v + estimateDatumsSize capacity ds

end

def estimateDatumSize (capacity : Bytes → Nat) : Datum → Nat
  | none => 1
  | some v => 1 + estimateScalarSize capacity v

/-! ## Reading -/

def getBits (w : Nat) (data : Bytes) : Res (BitVec w × Bytes) := do
  let (x, data) ← getLe (w / 8) data
  .ok (BitVec.ofNat w x, data)

variable (data : Bytes) (c : Checks)

def deserializeBytea : Res (Bytes × Bytes) := do
  let (len, data) ← getLe 4 data
  getBytes len data

def unorderedDeserialize (bytes : Bytes) : Res Decimal :=
  match bytes with
  | ⟨0, _⟩ :: _ => .ok (.normalized (c.rustDecimal.deserialize bytes))
  | ⟨1, _⟩ :: _ => .ok .nan
  | ⟨2, _⟩ :: _ => .ok .positiveInf
  | ⟨3, _⟩ :: _ => .ok .negativeInf
  | _ => .error (.explicit "internal error: entered unreachable code")

/-- A number of `w` bits, as a value of its type. -/
def readBits (w : Nat) (f : BitVec w → Primitive) (data : Bytes) : Read (Primitive × Bytes) := do
  let (v, data) ← (getBits w data : Res _)
  pure (f v, data)

def deserializeBool : Read (Primitive × Bytes) := do
  let (v, data) ← (getLe 1 data : Res _)
  match v with
  | 1 => pure (.bool true, data)
  | 0 => pure (.bool false, data)
  | value => throw (.invalidBoolEncoding value)

def deserializeStr : Read (Primitive × Bytes) := do
  let (bytes, data) ← (deserializeBytea data : Res _)
  if validUtf8 bytes then pure (.utf8 bytes, data) else throw .invalidUtf8

def deserializeDecimal (data : Bytes) : Read (Primitive × Bytes) := do
  let (bytes, data) ← (getBytes 16 data : Res _)
  let d ← (unorderedDeserialize c bytes : Res _)
  pure (.decimal d, data)

def deserializeInterval : Read (Primitive × Bytes) := do
  let (months, data) ← (getBits 32 data : Res _)
  let (days, data) ← (getBits 32 data : Res _)
  let (usecs, data) ← (getBits 64 data : Res _)
  pure (.interval months days usecs, data)

def deserializeDate (data : Bytes) : Read (Primitive × Bytes) := do
  let (days, data) ← (getBits 32 data : Res _)
  if c.dateOk days then pure (.date days, data) else throw (.invalidDateEncoding days)

def deserializeTime (data : Bytes) : Read (Primitive × Bytes) := do
  let (secs, data) ← (getBits 32 data : Res _)
  let (nano, data) ← (getBits 32 data : Res _)
  if c.timeOk secs nano then pure (.time secs nano, data)
  else throw (.invalidTimeEncoding secs nano)

def deserializeTimestamp (data : Bytes) : Read (Primitive × Bytes) := do
  let (secs, data) ← (getBits 64 data : Res _)
  let (nsecs, data) ← (getBits 32 data : Res _)
  if c.timestampOk secs nsecs then pure (.timestamp secs nsecs, data)
  else throw (.invalidTimestampEncoding secs nsecs)

/-- `JsonbVal::value_deserialize`. -/
def deserializeJsonb (data : Bytes) : Read (Primitive × Bytes) := do
  let (bytes, data) ← (deserializeBytea data : Res _)
  match bytes with
  | ⟨1, _⟩ :: text =>
    if c.jsonOk text then pure (.jsonb text, data) else throw .invalidJsonbEncoding
  | _ => throw .invalidJsonbEncoding

def deserializePrimitive (ty : PrimitiveType) (data : Bytes) : Read (Primitive × Bytes) :=
  match ty with
  | .int16 => readBits 16 .int16 data
  | .int32 => readBits 32 .int32 data
  | .int64 => readBits 64 .int64 data
  | .int256 => readBits 256 .int256 data
  | .serial => readBits 64 .serial data
  | .float32 => readBits 32 .float32 data
  | .float64 => readBits 64 .float64 data
  | .varchar => deserializeStr data
  | .boolean => deserializeBool data
  | .decimal => deserializeDecimal c data
  | .interval => deserializeInterval data
  | .time => deserializeTime c data
  | .timestamp => deserializeTimestamp c data
  | .timestamptz => readBits 64 .timestamptz data
  | .date => deserializeDate c data
  | .jsonb => deserializeJsonb c data
  | .bytea => do
    let (bytes, data) ← (deserializeBytea data : Res _)
    pure (.bytea bytes, data)

/-- `inner_deserialize_datum`. -/
def readDatum (read : Bytes → Read (ScalarImpl × Bytes)) (data : Bytes) : Read (Datum × Bytes) := do
  let (nullTag, data) ← (getLe 1 data : Res _)
  match nullTag with
  | 0 => pure (none, data)
  | 1 => do
    let (v, data) ← read data
    pure (some v, data)
  | tag => throw (.invalidTagEncoding tag)

/-- The next `n` values of a list. -/
def readItems (read : Bytes → Read (Datum × Bytes)) : Nat → Bytes → Read (List Datum × Bytes)
  | 0, data => pure ([], data)
  | n + 1, data => do
    let (d, data) ← read data
    let (ds, data) ← readItems read n data
    pure (d :: ds, data)

mutual

def deserializeValue (c : Checks) : DataType → Bytes → Read (ScalarImpl × Bytes)
  | .primitive t, data => do
    let (v, data) ← deserializePrimitive c t data
    pure (.primitive v, data)
  | .struct tys, data => do
    let (fields, data) ← deserializeFields c tys data
    pure (.struct fields, data)
  | .list item, data => do
    let (len, data) ← (getLe 4 data : Res _)
    let (items, data) ← readItems (readDatum fun data => deserializeValue c item data) len data
    pure (.list items, data)
  | .map key value, data => do
    let (len, data) ← (getLe 4 data : Res _)
    -- an entry is a struct of the key and the value
    let entry := fun data => do
      let (k, data) ← readDatum (fun data => deserializeValue c key data) data
      let (v, data) ← readDatum (fun data => deserializeValue c value data) data
      pure (.struct [k, v], data)
    let (entries, data) ← readItems (readDatum entry) len data
    let _ ← (assert (mapOk c entries) "map invariants are violated" : Res _)
    pure (.map entries, data)

def deserializeFields (c : Checks) : List DataType → Bytes → Read (List Datum × Bytes)
  | [], data => pure ([], data)
  | ty :: tys, data => do
    let (d, data) ← readDatum (fun data => deserializeValue c ty data) data
    let (ds, data) ← deserializeFields c tys data
    pure (d :: ds, data)

end

def deserializeDatum (c : Checks) (ty : DataType) (data : Bytes) : Read (Datum × Bytes) :=
  readDatum (deserializeValue c ty) data

end ValueEncoding
