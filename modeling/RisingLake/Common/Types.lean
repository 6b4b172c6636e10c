import RisingLake.Lib.Bytes

/-!
# Data types and scalars (`common/src/types`)

The types that are not composed of others are `PrimitiveType`, their values `Primitive`. Integers
and floating point numbers are their bits. Values of other libraries are given by what they are made
of: a date by its days, a time by its seconds and nanoseconds, a `jsonb` by its text.
-/

namespace Types

inductive PrimitiveType where
  | int16
  | int32
  | int64
  | int256
  | serial
  | float32
  | float64
  | varchar
  | bytea
  | boolean
  | decimal
  | interval
  | date
  | time
  | timestamp
  | timestamptz
  | jsonb
  deriving DecidableEq, Repr

inductive DataType where
  | primitive (t : PrimitiveType)
  | struct (fields : List DataType)
  | list (item : DataType)
  | map (key value : DataType)
  deriving Repr

/-- A decimal number of 96 bits, its scale and its sign. -/
structure RustDecimal where
  mantissa : BitVec 96
  scale : Fin 29
  negative : Bool
  deriving DecidableEq, Repr

inductive Decimal where
  | negativeInf
  | normalized (d : RustDecimal)
  | positiveInf
  | nan
  deriving DecidableEq, Repr

inductive Primitive where
  | int16 (v : BitVec 16)
  | int32 (v : BitVec 32)
  | int64 (v : BitVec 64)
  | int256 (v : BitVec 256)
  | serial (v : BitVec 64)
  | float32 (bits : BitVec 32)
  | float64 (bits : BitVec 64)
  | utf8 (v : Bytes)
  | bytea (v : Bytes)
  | bool (v : Bool)
  | decimal (v : Decimal)
  | interval (months days : BitVec 32) (usecs : BitVec 64)
  | date (days : BitVec 32)
  | time (secs nano : BitVec 32)
  | timestamp (secs : BitVec 64) (nsecs : BitVec 32)
  | timestamptz (micros : BitVec 64)
  | jsonb (text : Bytes)
  deriving DecidableEq, Repr

/-- A value that is not NULL. A map is the list of its entries, structs of a key and a value. -/
inductive ScalarImpl where
  | primitive (v : Primitive)
  | struct (fields : List (Option ScalarImpl))
  | list (items : List (Option ScalarImpl))
  | map (entries : List (Option ScalarImpl))
  deriving Repr

abbrev Datum := Option ScalarImpl

/-- The encoding of `rust_decimal`. The first byte belongs to the flags and is not used there. -/
structure RustDecimalCodec where
  serialize : RustDecimal → Bytes
  deserialize : Bytes → RustDecimal
  length_serialize (d : RustDecimal) : (serialize d).length = 16
  head_serialize (d : RustDecimal) : (serialize d).head? = some 0
  deserialize_serialize (d : RustDecimal) : deserialize (serialize d) = d

/-- What the other libraries do: the encoding of a decimal, and what they accept, the days of a
date, the parts of a time and of a timestamp, the text of a `jsonb`, and keys of a map as distinct.
-/
structure Checks where
  rustDecimal : RustDecimalCodec
  dateOk : BitVec 32 → Bool
  timeOk : BitVec 32 → BitVec 32 → Bool
  timestampOk : BitVec 64 → BitVec 32 → Bool
  jsonOk : Bytes → Bool
  distinctKeys : List ScalarImpl → Bool

/-- `String::from_utf8` accepts the bytes. -/
def validUtf8 (bytes : Bytes) : Bool :=
  (ByteArray.mk (bytes.map fun b => UInt8.ofNat b.val).toArray).validateUTF8

def entryKey : Datum → Option ScalarImpl
  | some (.struct (key :: _)) => key
  | _ => none

/-- `MapValue::try_from_entries` accepts the entries: no key is NULL, and they are distinct. -/
def mapOk (c : Checks) (entries : List Datum) : Bool :=
  match entries.mapM entryKey with
  | some keys => c.distinctKeys keys
  | none => false

/-! ## Values of a type -/

def Primitive.dataType : Primitive → PrimitiveType
  | .int16 _ => .int16
  | .int32 _ => .int32
  | .int64 _ => .int64
  | .int256 _ => .int256
  | .serial _ => .serial
  | .float32 _ => .float32
  | .float64 _ => .float64
  | .utf8 _ => .varchar
  | .bytea _ => .bytea
  | .bool _ => .boolean
  | .decimal _ => .decimal
  | .interval _ _ _ => .interval
  | .date _ => .date
  | .time _ _ => .time
  | .timestamp _ _ => .timestamp
  | .timestamptz _ => .timestamptz
  | .jsonb _ => .jsonb

/-- The parts make up a value of the type. -/
def Primitive.Valid (c : Checks) : Primitive → Prop
  | .utf8 v => validUtf8 v = true
  | .date days => c.dateOk days = true
  | .time secs nano => c.timeOk secs nano = true
  | .timestamp secs nsecs => c.timestampOk secs nsecs = true
  | .jsonb text => c.jsonOk text = true
  | _ => True

mutual

def ScalarImpl.HasType (c : Checks) : DataType → ScalarImpl → Prop
  | .primitive t, .primitive v => v.dataType = t ∧ v.Valid c
  | .struct tys, .struct fields => fieldsHaveType c tys fields
  | .list item, .list items => ∀ v, some v ∈ items → ScalarImpl.HasType c item v
  | .map key value, .map entries => mapOk c entries = true ∧ ∀ e ∈ entries, ∃ k v,
      e = some (.struct [k, v]) ∧ (∀ s, k = some s → ScalarImpl.HasType c key s) ∧
        ∀ s, v = some s → ScalarImpl.HasType c value s
  | _, _ => False

/-- The fields of a struct, each NULL or of its type. -/
def fieldsHaveType (c : Checks) : List DataType → List Datum → Prop
  | [], [] => True
  | ty :: tys, d :: ds => (∀ v, d = some v → ScalarImpl.HasType c ty v) ∧ fieldsHaveType c tys ds
  | _, _ => False

end

mutual

/-- The types that a type is composed of. -/
def DataType.primitives : DataType → List PrimitiveType
  | .primitive t => [t]
  | .struct tys => fieldPrimitives tys
  | .list item => item.primitives
  | .map key value => key.primitives ++ value.primitives

def fieldPrimitives : List DataType → List PrimitiveType
  | [] => []
  | ty :: tys => ty.primitives ++ fieldPrimitives tys

end

mutual

/-- The strings and lists in the value are shorter than `2 ^ 32`. -/
def ScalarImpl.Short : ScalarImpl → Prop
  | .primitive (.utf8 v) | .primitive (.bytea v) => v.length < 2 ^ 32
  | .primitive (.jsonb text) => text.length + 1 < 2 ^ 32
  | .primitive _ => True
  | .struct fields => datumsShort fields
  | .list items | .map items => items.length < 2 ^ 32 ∧ datumsShort items

def datumsShort : List Datum → Prop
  | [] => True
  | none :: ds => datumsShort ds
  | some v :: ds => v.Short ∧ datumsShort ds

end

def Datum.HasType (c : Checks) (ty : DataType) (d : Datum) : Prop := ∀ v, d = some v →
    v.HasType c ty

end Types
