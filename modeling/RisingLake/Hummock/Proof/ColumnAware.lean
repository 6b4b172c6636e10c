import RisingLake.Hummock.ColumnAware

/-!
# Dropping columns of a row

`encodeRow` is the encoding of a list of columns with their data. Dropping the columns of an encoded
row that are not valid gives the encoding of the others (`tryDropInvalidColumns_encodeRow`), which
is not longer (`length_encodeRow_filter_le`). Whether anything is dropped depends on the ids only.
-/

namespace ValueEncoding

open Res Bytes List

abbrev Row := List (ColumnId × Bytes)

variable (row : Row) (valid : BTreeSet ColumnId)

def rowLen : Nat := (row.map (·.2.length)).sum

def rowData : Bytes := row.flatMap (·.2)

def rowIds : Bytes := row.flatMap fun c => leBytes 4 c.1.val

def rowOffsets : Nat → Row → List Nat
  | _, [] => []
  | start, c :: row => start :: rowOffsets (start + c.2.length) row

def lastOffset : Nat := rowLen row.dropLast

def flagOf (maxOffset : Nat) : Nat := if maxOffset < 2 ^ 8 then 1 else if maxOffset < 2 ^ 16 then 2
    else 3

def widthOf (maxOffset : Nat) : Nat := if maxOffset < 2 ^ 8 then 1 else if maxOffset < 2 ^ 16 then 2
    else 4

def encodeRow : Bytes :=
  leBytes 1 (emptyFlag + flagOf (lastOffset row)) ++ leBytes 4 row.length ++ rowIds row ++
    (rowOffsets 0 row).flatMap (leBytes (widthOf (lastOffset row))) ++ rowData row

/-! ## Lengths -/

theorem length_rowData : (rowData row).length = rowLen row := by
  rw [rowData, length_flatMap]
  rfl

theorem length_rowIds : (rowIds row).length = 4 * row.length := by
  simp [rowIds, Nat.mul_comm]

theorem length_rowOffsets : ∀ start, (rowOffsets start row).length = row.length := by
  induction row with
  | nil => exact fun _ => rfl
  | cons c row ih => exact fun start => congrArg (· + 1) (ih _)

theorem length_flatMap_leBytes (w : Nat) (xs : List Nat) :
    (xs.flatMap (leBytes w)).length = xs.length * w := by
  simp

theorem rowLen_append (row row' : Row) : rowLen (row ++ row') = rowLen row + rowLen row' := by
  simp [rowLen]

theorem rowLen_le_of_sublist {row row' : Row} (h : row.Sublist row') : rowLen row ≤ rowLen row' :=
  (h.map _).sum_le_sum fun _ _ => Nat.zero_le _

theorem lastOffset_le_of_sublist {row row' : Row} (h : row.Sublist row') :
    lastOffset row ≤ lastOffset row' := by
  refine rowLen_le_of_sublist ?_
  rw [← reverse_sublist, ← tail_reverse, ← tail_reverse]
  exact h.reverse.tail

theorem widthOf_mono {m n : Nat} (h : m ≤ n) : widthOf m ≤ widthOf n := by
  unfold widthOf
  split_ifs <;> omega

theorem length_encodeRow : (encodeRow row).length =
    5 + 4 * row.length + row.length * widthOf (lastOffset row) + rowLen row := by
  simp only [encodeRow, length_append, length_leBytes, length_rowIds, length_flatMap_leBytes,
    length_rowOffsets, length_rowData]

theorem length_encodeRow_filter_le (keep : ColumnId × Bytes → Bool) (row : Row) :
    (encodeRow (row.filter keep)).length ≤ (encodeRow row).length := by
  have hsub : (row.filter keep).Sublist row := filter_sublist
  have hlen := hsub.length_le
  have hwidth := Nat.mul_le_mul hlen (widthOf_mono (lastOffset_le_of_sublist hsub))
  have hdata := rowLen_le_of_sublist hsub
  rw [length_encodeRow, length_encodeRow]
  omega

/-! ## Writing a row -/

def toDatum (data : Bytes) : Option Bytes := if data = [] then none else some data

theorem getD_toDatum (data : Bytes) : (toDatum data).getD [] = data := by
  unfold toDatum
  split
  · exact Eq.symm ‹_›
  · rfl

theorem layDatums_eq : ∀ buf : Bytes,
    layDatums buf (row.map fun c => toDatum c.2) =
      (rowOffsets buf.length row, buf ++ rowData row) := by
  induction row with
  | nil =>
    intro buf
    simp [layDatums, rowOffsets, rowData]
  | cons c row ih =>
    intro buf
    rw [map_cons, layDatums, getD_toDatum, ih]
    simp [rowOffsets, rowData]

theorem getLast?_rowOffsets {row : Row} (hne : row ≠ []) : ∀ start,
    (rowOffsets start row).getLast? = some (start + lastOffset row) := by
  induction row with
  | nil => exact absurd rfl hne
  | cons c row ih =>
    intro start
    cases row with
    | nil => simp [rowOffsets, lastOffset, rowLen]
    | cons c' row =>
      rw [rowOffsets, rowOffsets, getLast?_cons_cons, ← rowOffsets, ih (by simp)]
      simp [lastOffset, rowLen]
      omega

theorem setOffsets_eq (offsets : List Nat) {maxOffset : Nat} (h : maxOffset < 2 ^ 32) :
    setOffsets offsets maxOffset =
      .ok (emptyFlag + flagOf maxOffset, offsets.flatMap (leBytes (widthOf maxOffset))) := by
  unfold setOffsets flagOf widthOf
  split_ifs <;> rfl

theorem serialize_eq {row : Row} (hne : row ≠ []) (h : lastOffset row < 2 ^ 32) :
    serialize (row.map fun c => (c.1, toDatum c.2)) = .ok (encodeRow row) := by
  have hmap : (row.map fun c => (c.1, toDatum c.2)).map (·.2) = row.map fun c => toDatum c.2 := by
    rw [map_map]
    rfl
  rw [serialize, hmap, layDatums_eq]
  dsimp only
  rw [getLast?_rowOffsets hne, unwrap, ok_bind, length_nil, Nat.zero_add, setOffsets_eq _ h]
  simp [encodeRow, rowIds, flatMap_map]

/-! ## Reading a row -/

theorem offsetBytesOf_flagOf (n : Nat) : offsetBytesOf (flagOf n) = .ok (widthOf n) := by
  unfold flagOf widthOf
  split_ifs <;> rfl

theorem lt_pow_widthOf {n : Nat} (h : n < 2 ^ 32) : n < 256 ^ widthOf n := by
  unfold widthOf
  split_ifs <;> assumption

theorem flagFromBits_flagOf (n : Nat) : flagFromBits (emptyFlag + flagOf n) = .ok (flagOf n) := by
  unfold flagOf
  split_ifs <;> rfl

theorem rowOffsets_append (c : ColumnId × Bytes) (after : Row) :
    ∀ start, rowOffsets start (row ++ c :: after) =
      rowOffsets start row ++ (start + rowLen row) ::
        rowOffsets (start + rowLen row + c.2.length) after := by
  induction row with
  | nil => exact fun _ => rfl
  | cons d row ih =>
    intro start
    rw [cons_append, rowOffsets, ih, rowOffsets]
    simp [rowLen, Nat.add_assoc]

theorem slice_offset (before after : Row) (c : ColumnId × Bytes) (w : Nat) :
    slice ((rowOffsets 0 (before ++ c :: after)).flatMap (leBytes w)) (before.length * w)
      (before.length * w + w) = .ok (leBytes w (rowLen before)) := by
  rw [rowOffsets_append, flatMap_append, Nat.zero_add]
  refine slice_append _ _ _ ?_ ?_ <;> simp [length_rowOffsets]

theorem slice_rowOffsets (w : Nat) :
    slice (rowIds row ++ ((rowOffsets 0 row).flatMap (leBytes w) ++ rowData row)) (4 * row.length)
      (4 * row.length + row.length * w) = .ok ((rowOffsets 0 row).flatMap (leBytes w)) :=
  slice_append _ _ _ (length_rowIds row).symm (by rw [length_rowIds, length_flatMap_leBytes,
    length_rowOffsets])

theorem slice_rowData (w : Nat) :
    slice (rowIds row ++ ((rowOffsets 0 row).flatMap (leBytes w) ++ rowData row))
      (4 * row.length + row.length * w)
      (rowIds row ++ ((rowOffsets 0 row).flatMap (leBytes w) ++ rowData row)).length =
        .ok (rowData row) := by
  have hstart : 4 * row.length + row.length * w =
      (rowIds row ++ (rowOffsets 0 row).flatMap (leBytes w)).length := by
    rw [length_append, length_rowIds, length_flatMap_leBytes, length_rowOffsets]
  have hdata := slice_append _ (rowData row) [] hstart length_append
  rwa [append_nil, append_assoc] at hdata

theorem datumAt_eq {before after row : Row} {c : ColumnId × Bytes} {w : Nat}
    (hrow : before ++ c :: after = row) (hw : lastOffset row < 256 ^ w) :
      datumAt w row.length ((rowOffsets 0 row).flatMap (leBytes w)) (rowData row)
        (row.length - (after.length + 1)) = .ok (toDatum c.2) := by
  subst hrow
  rw [show (before ++ c :: after).length - (after.length + 1) = before.length by simp]
  have hthis : rowLen before < 256 ^ w := by
    refine Nat.lt_of_le_of_lt (rowLen_le_of_sublist ?_) hw
    rw [dropLast_append_of_ne_nil (by simp)]
    exact sublist_append_left _ _
  have hdata : rowData (before ++ c :: after) = rowData before ++ (c.2 ++ rowData after) := by
    simp [rowData]
  have hc : rowLen [c] = c.2.length := by simp [rowLen]
  -- the datum ends at the next offset, or at the end of the data
  have hread : (if rowLen before = rowLen before + c.2.length then .ok none
      else do .ok (some (← slice (rowData (before ++ c :: after)) (rowLen before)
        (rowLen before + c.2.length))) : Res (Option Bytes)) = .ok (toDatum c.2) := by
    by_cases hnil : c.2 = []
    · rw [if_pos (by simp [hnil]), toDatum, if_pos hnil]
    · have hpos := length_pos_iff.2 hnil
      rw [if_neg (by omega), hdata, slice_append _ _ _ (length_rowData before).symm
        (by rw [length_rowData]), ok_bind, toDatum, if_neg hnil]
  rw [datumAt, slice_offset, ok_bind]
  rw [leNat_leBytes hthis]
  cases after with
  | nil => rwa [if_neg (by simp), length_rowData, rowLen_append, hc]
  | cons d after =>
    have hnext : rowLen before + c.2.length < 256 ^ w := by
      have hsub : rowLen (before ++ [c]) ≤ lastOffset (before ++ c :: d :: after) := by
        refine rowLen_le_of_sublist ?_
        simp
      rw [rowLen_append] at hsub
      omega
    have hslice : slice ((rowOffsets 0 (before ++ c :: d :: after)).flatMap (leBytes w))
        (before.length * w + w) (before.length * w + 2 * w) =
        .ok (leBytes w (rowLen before + c.2.length)) := by
      have := slice_offset (before ++ [c]) after d w
      rw [length_append, length_singleton, Nat.succ_mul, Nat.add_assoc] at this
      rw [Nat.two_mul]
      simpa [rowLen] using this
    rwa [if_pos (by simp), hslice, ok_bind, leNat_leBytes hnext]

theorem getLe_flag (n : Nat) (rest : Bytes) :
    getLe 1 (leBytes 1 (emptyFlag + flagOf n) ++ rest) = .ok (emptyFlag + flagOf n, rest) := by
  refine getLe_leBytes ?_ rest
  unfold emptyFlag flagOf
  split_ifs <;> omega

theorem getLe_columnId (id : ColumnId) (rest : Bytes) :
    getLe 4 (leBytes 4 id.val ++ rest) = .ok (id.val, rest) :=
  getLe_leBytes id.isLt rest

theorem isColumnDropped_eq (row : Row) (rest : Bytes) :
    isColumnDropped valid row.length (rowIds row ++ rest) =
      .ok (!row.all fun c => valid.contains c.1) := by
  induction row with
  | nil => rfl
  | cons c row ih =>
    rw [length_cons, isColumnDropped, rowIds, flatMap_cons, append_assoc, getLe_columnId,
      ok_bind, all_cons]
    simp only [Fin.ofNat_eq_cast, Fin.cast_val_eq_self]
    cases valid.contains c.1 with
    | false => rfl
    | true => exact ih

theorem validColumns_eq {w : Nat} {row : Row} (hw : lastOffset row < 256 ^ w)
    (rest : Bytes) : ∀ before after : Row, before ++ after = row →
    validColumns valid w row.length ((rowOffsets 0 row).flatMap (leBytes w)) (rowData row) after.length
      (rowIds after ++ rest) =
    .ok ((after.filter fun c => valid.contains c.1).map fun c => (c.1, toDatum c.2)) := by
  intro before after
  induction after generalizing before with
  | nil => exact fun _ => rfl
  | cons c after ih =>
    intro hrow
    have hnext := ih (before ++ [c]) (by rw [← hrow]; simp)
    rw [length_cons, validColumns, rowIds, flatMap_cons, append_assoc, getLe_columnId, ok_bind,
      datumAt_eq hrow hw]
    rw [rowIds] at hnext
    cases hc : valid.contains c.1 with
    | true | false => simp [hnext, hc]

/-- Dropping the invalid columns of a row; it is left alone if there are none, and if it has no
others. -/
def dropInvalid (row : Row) : Option Row :=
  if (row.all fun c => valid.contains c.1) || (row.all fun c => !valid.contains c.1) then none
  else some (row.filter fun c => valid.contains c.1)

theorem dropColumns_eq {row : Row} (hoffset : lastOffset row < 2 ^ 32) :
    dropColumns valid (flagOf (lastOffset row)) row.length
      (rowIds row ++ (rowOffsets 0 row).flatMap (leBytes (widthOf (lastOffset row))) ++ rowData row) =
    .ok (if row.all (fun c => !valid.contains c.1) then none
      else some (encodeRow (row.filter fun c => valid.contains c.1))) := by
  have hcolumns := validColumns_eq valid (lt_pow_widthOf hoffset)
    ((rowOffsets 0 row).flatMap (leBytes (widthOf (lastOffset row))) ++ rowData row) [] row rfl
  rw [dropColumns, offsetBytesOf_flagOf, ok_bind]
  dsimp only
  rw [append_assoc, slice_rowOffsets, ok_bind, slice_rowData, ok_bind, hcolumns, ok_bind]
  have hnil : row.all (fun c => !valid.contains c.1) = true ↔
      (row.filter fun c => valid.contains c.1) = [] := by
    simp only [all_eq_true, filter_eq_nil_iff, Bool.not_eq_true', Bool.not_eq_true]
  by_cases hne : (row.filter fun c => valid.contains c.1) = []
  · rw [hne, map_nil, isEmpty_nil, if_pos rfl, if_pos (hnil.2 hne)]
  · have hoffset' : lastOffset (row.filter fun c => valid.contains c.1) < 2 ^ 32 :=
      Nat.lt_of_le_of_lt (lastOffset_le_of_sublist filter_sublist) hoffset
    rw [if_neg (by simpa using hne), serialize_eq hne hoffset', ok_bind, if_neg (mt hnil.1 hne)]

theorem tryDropInvalidColumns_encodeRow {row : Row}
    (hlen : row.length < 2 ^ 32) (hoffset : lastOffset row < 2 ^ 32) :
    tryDropInvalidColumns (encodeRow row) valid = .ok ((dropInvalid valid row).map encodeRow) := by
  rw [tryDropInvalidColumns, encodeRow]
  simp only [append_assoc]
  rw [getLe_flag, ok_bind]
  rw [flagFromBits_flagOf, ok_bind, getLe_leBytes hlen, ok_bind]
  rw [isColumnDropped_eq, ← append_assoc, dropColumns_eq valid hoffset, dropInvalid]
  cases row.all fun c => valid.contains c.1 <;> cases row.all fun c => !valid.contains c.1 <;> rfl

end ValueEncoding
