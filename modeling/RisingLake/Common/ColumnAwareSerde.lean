import RisingLake.Common.ValueEncoding
import RisingLake.Hummock.ColumnAware

/-!
# The serializer and the deserializer of column-aware rows

`Serializer` writes a row under the ids of its columns. `Deserializer` reads the columns that it
requires into their places in a row of defaults; a column that was not written keeps its default.
-/

namespace ValueEncoding

open Res Bytes Types

structure Serializer where
  encodedColumnIds : Bytes
  datumNum : Nat

variable (columnIds : List ColumnId)

def Serializer.new : Serializer where
  encodedColumnIds := columnIds.flatMap fun id => leBytes 4 id.val
  datumNum := columnIds.length % 2 ^ 32

/-- `RowEncoding::encode`: the flag, the offsets and the data. -/
def encode (c : Checks) (datums : List Datum) : Res (Nat × Bytes × Bytes) := do
  let (offsets, buf) := layDatums [] (datums.map (·.map (serializeScalar c)))
  let maxOffset ← unwrap offsets.getLast? "should encode at least one column"
  let (flag, offsetBytes) ← setOffsets offsets maxOffset
  .ok (flag, offsetBytes, buf)

/-- `ValueRowSerializer::serialize`. -/
def Serializer.serialize (s : Serializer) (c : Checks) (row : List Datum) : Res Bytes := do
  assert (row.length == s.datumNum) "assertion failed: row.len() == self.datum_num"
  let (flag, offsets, buf) ← encode c row
  .ok (leBytes 1 flag ++ leBytes 4 s.datumNum ++ s.encodedColumnIds ++ offsets ++ buf)

structure Deserializer where
  requiredColumnIds : HashMap ColumnId Nat
  schema : List DataType
  defaultRow : List Datum

/-- The position of each id; of two equal ids the last. -/
def positions : HashMap ColumnId Nat := columnIds.zipIdx.foldl (fun m (id, i) => m.insert id i) ∅

def setDatum (row : List Datum) (i : Nat) (datum : Datum) : Res (List Datum) :=
  if i < row.length then .ok (row.set i datum) else .error .index

def Deserializer.new (schema : List DataType) (columnWithDefault : List (Nat × Datum)) :
    Res Deserializer := do
  assert (columnIds.length == schema.length) "assertion failed: column_ids.len() == schema.len()"
  let defaultRow ← columnWithDefault.foldlM (fun row (i, datum) => setDatum row i datum)
    (List.replicate schema.length none)
  .ok { requiredColumnIds := positions columnIds, schema, defaultRow }

/-- The value of a column in the reader's row. -/
def Deserializer.readColumn (d : Deserializer) (c : Checks) (decodedIdx : Nat) :
    Option Bytes → Read Datum
  | none => pure none
  | some slice => do
    let ty ← (index d.schema decodedIdx : Res _)
    let (v, _) ← deserializeValue c ty slice
    pure (some v)

/-- The rest of the loop over the columns, of which the last `n` are left. -/
def Deserializer.readColumns (d : Deserializer) (c : Checks) (offsetBytes datumNum : Nat)
    (offsets data : Bytes) : Nat → Bytes → List Datum → Read (List Datum)
  | 0, _, row => pure row
  | n + 1, bytes, row => do
    let (id, bytes) ← (getLe 4 bytes : Res _)
    match d.requiredColumnIds[(Fin.ofNat _ id : ColumnId)]? with
    | some decodedIdx => do
      let slice ← (datumAt offsetBytes datumNum offsets data (datumNum - (n + 1)) : Res _)
      let datum ← d.readColumn c decodedIdx slice
      let row ← (setDatum row decodedIdx datum : Res _)
      d.readColumns c offsetBytes datumNum offsets data n bytes row
    | none => d.readColumns c offsetBytes datumNum offsets data n bytes row

/-- `ValueRowDeserializer::deserialize`. -/
def Deserializer.deserialize (d : Deserializer) (c : Checks) (encodedBytes : Bytes) :
    Read (List Datum) := do
  let (bits, encodedBytes) ← (getLe 1 encodedBytes : Res _)
  let flag ← (flagFromBits bits : Res _)
  match offsetBytesOf flag with
  | .error _ => throw (.invalidFlag bits)
  | .ok offsetBytes => do
    let (datumNum, encodedBytes) ← (getLe 4 encodedBytes : Res _)
    let dataStartIdx := 4 * datumNum + datumNum * offsetBytes
    let offsets ← (slice encodedBytes (4 * datumNum) dataStartIdx : Res _)
    let data ← (slice encodedBytes dataStartIdx encodedBytes.length : Res _)
    d.readColumns c offsetBytes datumNum offsets data datumNum encodedBytes d.defaultRow

end ValueEncoding
