import RisingLake.Lib.Bytes
import RisingLake.Lib.Maps

/-!
# Column-aware rows (`common/src/util/value_encoding/column_aware_row_encoding.rs`)

A row is a flag, the number of its columns, their ids, the offsets of their data and the data. The
flag gives the width of the offsets, the smallest in which the last one fits.
`tryDropInvalidColumns` drops the columns that are not in the schema any more.

A column id is an `i32`, kept as the value of its four bytes. A datum that is null has no data.
-/

namespace ValueEncoding

open Res Bytes

abbrev ColumnId := U32

/-- `Flag::from_bits`: the bits that are not `EMPTY` give the width of the offsets. -/
def flagFromBits (bits : Nat) : Res Nat :=
  if bits % 128 < 4 then .ok (bits % 128) else .error (.unwrap "should be a valid flag")

def offsetBytesOf (flag : Nat) : Res Nat :=
  match flag with
  | 1 => .ok 1
  | 2 => .ok 2
  | 3 => .ok 4
  | _ => .error (.explicit "invalid flag")

/-- `Flag::EMPTY`. -/
def emptyFlag : Nat := 128

/-- `RowEncoding::set_offsets`: the flag of the row and its offsets. -/
def setOffsets (offsets : List Nat) (maxOffset : Nat) : Res (Nat × Bytes) :=
  if maxOffset < 2 ^ 8 then .ok (emptyFlag + 1, offsets.flatMap (leBytes 1))
  else if maxOffset < 2 ^ 16 then .ok (emptyFlag + 2, offsets.flatMap (leBytes 2))
  else if maxOffset < 2 ^ 32 then .ok (emptyFlag + 3, offsets.flatMap (leBytes 4))
  else .error (.explicit "encoding length exceeds u32")

/-- The offset of each datum, and the data. -/
def layDatums : Bytes → List (Option Bytes) → List Nat × Bytes
  | buf, [] => ([], buf)
  | buf, datum :: datums =>
    let (offsets, data) := layDatums (buf ++ datum.getD []) datums
    (buf.length :: offsets, data)

/-- `RowEncoding::encode_slice` and `Serializer::serialize_inner`. -/
def serialize (columns : List (ColumnId × Option Bytes)) : Res Bytes := do
  let (offsets, buf) := layDatums [] (columns.map (·.2))
  let maxOffset ← unwrap offsets.getLast? "should encode at least one column"
  let (flag, offsetBytes) ← setOffsets offsets maxOffset
  .ok (leBytes 1 flag ++ leBytes 4 columns.length ++
    columns.flatMap (fun c => leBytes 4 c.1.val) ++ offsetBytes ++ buf)

/-- Whether one of the next `n` column ids is not valid. -/
def isColumnDropped (valid : BTreeSet ColumnId) : Nat → Bytes → Res Bool
  | 0, _ => .ok false
  | n + 1, bytes => do
    let (id, bytes) ← getLe 4 bytes
    if !valid.contains (Fin.ofNat _ id) then .ok true else isColumnDropped valid n bytes

/-- The datum of column `i` of `datumNum`. -/
def datumAt (offsetBytes datumNum : Nat) (offsets data : Bytes) (i : Nat) : Res (Option Bytes) := do
  let thisOffset := leNat (← slice offsets (i * offsetBytes) (i * offsetBytes + offsetBytes))
  if i + 1 < datumNum then
    let nextOffset :=
      leNat (← slice offsets (i * offsetBytes + offsetBytes) (i * offsetBytes + 2 * offsetBytes))
    if thisOffset = nextOffset then .ok none
    else do .ok (some (← slice data thisOffset nextOffset))
  else if thisOffset = data.length then .ok none
  else do .ok (some (← slice data thisOffset data.length))

def validColumns (valid : BTreeSet ColumnId) (offsetBytes datumNum : Nat) (offsets data : Bytes) :
    Nat → Bytes → Res (List (ColumnId × Option Bytes))
  | 0, _ => .ok []
  | n + 1, bytes => do
    let (id, bytes) ← getLe 4 bytes
    if valid.contains (Fin.ofNat _ id) then
      let datum ← datumAt offsetBytes datumNum offsets data (datumNum - (n + 1))
      .ok ((Fin.ofNat _ id, datum) :: (← validColumns valid offsetBytes datumNum offsets data n bytes))
    else validColumns valid offsetBytes datumNum offsets data n bytes

/-- The slow path that drops columns. -/
def dropColumns (valid : BTreeSet ColumnId) (flag datumNum : Nat) (encodedBytes : Bytes) :
    Res (Option Bytes) := do
  let offsetBytes ← offsetBytesOf flag
  let dataStartIdx := 4 * datumNum + datumNum * offsetBytes
  let offsets ← slice encodedBytes (4 * datumNum) dataStartIdx
  let data ← slice encodedBytes dataStartIdx encodedBytes.length
  let columns ← validColumns valid offsetBytes datumNum offsets data datumNum encodedBytes
  if columns.isEmpty then .ok none else do .ok (some (← serialize columns))

/-- `none` if no column is dropped, and if none would be left. -/
def tryDropInvalidColumns (encodedBytes : Bytes) (valid : BTreeSet ColumnId) :
    Res (Option Bytes) := do
  let (bits, encodedBytes) ← getLe 1 encodedBytes
  let flag ← flagFromBits bits
  let (datumNum, encodedBytes) ← getLe 4 encodedBytes
  if ← isColumnDropped valid datumNum encodedBytes then dropColumns valid flag datumNum encodedBytes
  else .ok none

end ValueEncoding
