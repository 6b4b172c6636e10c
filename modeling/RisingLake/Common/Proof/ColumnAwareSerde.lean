import RisingLake.Common.ColumnAwareSerde
import RisingLake.Common.Proof.ValueEncoding
import RisingLake.Hummock.Proof.ColumnAware

/-!
# Rows under a changed schema

A deserializer reads an encoded row column by column (`deserialize_encodeRow`), and a column that it
does not require has no effect, so that dropping it changes nothing (`readRow_filter`). A typed row
is read back by placing its values (`readRow_columnsOf`), and a place is written by the column of
its id only (`getElem?_placeAll`).
-/

namespace ValueEncoding

open Res Bytes Types List Deserializer List

/-! ## Writing -/

def datumBytes (c : Checks) (datum : Datum) : Bytes := (datum.map (serializeScalar c)).getD []

def columnsOf (c : Checks) (columns : List (ColumnId × Datum)) : Row :=
  columns.map fun col => (col.1, datumBytes c col.2)

variable (required : HashMap ColumnId Nat) (columns : List (ColumnId × Datum)) (d : Deserializer)
  {c : Checks}

theorem layDatums_datumBytes (datums : List Datum) : ∀ buf : Bytes,
    layDatums buf (datums.map (·.map (serializeScalar c))) =
      layDatums buf (datums.map fun d => toDatum (datumBytes c d)) := by
  induction datums with
  | nil => exact fun _ => rfl
  | cons d datums ih =>
    intro buf
    rw [map_cons, map_cons, layDatums, layDatums, getD_toDatum, ih]
    rfl

theorem rowLen_columnsOf :
    rowLen (columnsOf c columns) = ((columns.map (·.2)).flatMap (datumBytes c)).length := by
  rw [rowLen, columnsOf, length_flatMap, map_map, map_map]
  rfl

theorem lastOffset_le_rowLen (row : Row) : lastOffset row ≤ rowLen row :=
  rowLen_le_of_sublist (dropLast_sublist row)

theorem length_columnsOf : (columnsOf c columns).length = columns.length := length_map _

variable {ids : List ColumnId} {row : List Datum}

theorem Serializer.serialize_eq (hne : ids ≠ []) (hrow : row.length = ids.length)
    (hlen : ids.length + (row.flatMap (datumBytes c)).length < 2 ^ 32) :
    (Serializer.new ids).serialize c row = .ok (encodeRow (columnsOf c (ids.zip row))) := by
  have hzip : (ids.zip row).length = ids.length := by rw [length_zip, hrow, Nat.min_self]
  have hmod : ids.length % 2 ^ 32 = ids.length := Nat.mod_eq_of_lt (by omega)
  have hfst : (ids.zip row).map (·.1) = ids := map_fst_zip (Nat.le_of_eq hrow.symm)
  have hsnd : (ids.zip row).map (·.2) = row := map_snd_zip (Nat.le_of_eq hrow)
  have hdatums : row.map (fun d => toDatum (datumBytes c d)) =
      (columnsOf c (ids.zip row)).map fun c => toDatum c.2 := by
    conv_lhs => rw [← hsnd]
    rw [columnsOf, map_map, map_map]
    rfl
  have hids : (ids.flatMap fun id => leBytes 4 id.val) = rowIds (columnsOf c (ids.zip row)) := by
    conv_lhs => rw [← hfst]
    rw [rowIds, columnsOf, flatMap_map, flatMap_map]
  have hcols : columnsOf c (ids.zip row) ≠ [] := by
    intro h
    have := congrArg length h
    rw [length_columnsOf, hzip] at this
    exact hne (length_eq_zero_iff.1 this)
  have hoffset : lastOffset (columnsOf c (ids.zip row)) < 2 ^ 32 := by
    have := lastOffset_le_rowLen (columnsOf c (ids.zip row))
    rw [rowLen_columnsOf, hsnd] at this
    omega
  rw [Serializer.serialize, Serializer.new]
  rw [hmod, assert_eq_ok (u := ()).2 (by rw [hrow]; exact beq_self_eq_true _), ok_bind, encode,
    layDatums_datumBytes, hdatums, layDatums_eq]
  dsimp only
  rw [getLast?_rowOffsets hcols, unwrap, ok_bind, length_nil, Nat.zero_add,
    setOffsets_eq _ hoffset, ok_bind, ok_bind]
  rw [encodeRow, length_columnsOf, hzip, hids, nil_append]

/-! ## Reading column by column -/

variable (c) (out : List Datum)

def Deserializer.readPlace (col : ColumnId × Bytes) : Read (List Datum) :=
  match d.requiredColumnIds[col.1]? with
  | some idx => do
    let datum ← d.readColumn c idx (toDatum col.2)
    (setDatum out idx datum : Res _)
  | none => pure out

def Deserializer.readRow (row : Row) : Read (List Datum) := row.foldlM (d.readPlace c) d.defaultRow

theorem readColumns_eq {w : Nat} {row : Row}
    (hw : lastOffset row < 256 ^ w) (rest : Bytes) : ∀ (before after : Row) (out : List Datum),
    before ++ after = row →
    d.readColumns c w row.length ((rowOffsets 0 row).flatMap (leBytes w)) (rowData row) after.length
      (rowIds after ++ rest) out = after.foldlM (d.readPlace c) out := by
  intro before after
  induction after generalizing before with
  | nil => exact fun _ _ => rfl
  | cons col after ih =>
    intro out hrow
    have hnext := fun out => ih (before ++ [col]) out (by rw [← hrow]; simp)
    rw [length_cons, readColumns, rowIds, flatMap_cons, append_assoc,
      lift_ok (getLe_columnId _ _), pure_bind]
    simp only [Fin.ofNat_eq_cast, Fin.cast_val_eq_self]
    rw [foldlM_cons, readPlace]
    simp only [rowIds] at hnext
    cases d.requiredColumnIds[col.1]? with
    | none =>
      rw [hnext, pure_bind]
    | some idx =>
      dsimp only
      rw [lift_ok (datumAt_eq hrow hw), pure_bind, bind_assoc]
      simp only [hnext]

theorem deserialize_encodeRow {row : Row} (hlen : row.length < 2 ^ 32)
    (hoffset : lastOffset row < 2 ^ 32) : d.deserialize c (encodeRow row) = d.readRow c row := by
  rw [deserialize, encodeRow]
  simp only [append_assoc]
  rw [lift_ok (getLe_flag _ _), pure_bind]
  rw [lift_ok (flagFromBits_flagOf _), pure_bind, offsetBytesOf_flagOf]
  dsimp only
  rw [lift_ok (getLe_leBytes hlen _), pure_bind]
  rw [lift_ok (slice_rowOffsets row _), pure_bind, lift_ok (slice_rowData row _), pure_bind,
    readColumns_eq d c (lt_pow_widthOf hoffset) _ [] row _ rfl]
  rfl

theorem readRow_filter {keep : ColumnId → Bool} (row : Row)
    (hkeep : ∀ id, keep id = false → d.requiredColumnIds[id]? = none) :
    d.readRow c (row.filter fun col => keep col.1) = d.readRow c row := by
  rw [readRow, readRow]
  generalize d.defaultRow = out
  induction row generalizing out with
  | nil => rfl
  | cons col row ih =>
    cases hcol : keep col.1 with
    | true =>
      rw [filter_cons_of_pos (by exact hcol), foldlM_cons]
      exact bind_congr ih
    | false =>
      rw [filter_cons_of_neg (by simp [hcol]), foldlM_cons, readPlace, hkeep _ hcol]
      exact ih out

/-! ## The places of the ids -/

theorem getElem?_foldl_insert :
    ∀ {ids : List ColumnId} (n : Nat) (m : HashMap ColumnId Nat), ids.Nodup →
    ∀ id, ((ids.zipIdx n).foldl (fun m (p : ColumnId × Nat) => m.insert p.1 p.2) m)[id]? =
      if id ∈ ids then some (n + ids.idxOf id) else m[id]?
  | [], _, _, _, _ => by rw [if_neg not_mem_nil]; rfl
  | x :: ids, n, m, hnodup, id => by
    have hx := nodup_cons.1 hnodup
    rw [zipIdx_cons, foldl_cons, getElem?_foldl_insert (n + 1) _ hx.2, HashMap.getElem?_insert_eq]
    by_cases hid : x = id
    · subst hid
      rw [if_neg hx.1, if_pos rfl, if_pos (.head _), idxOf_cons_self]
      rfl
    rw [if_neg hid, idxOf_cons_ne _ hid]
    by_cases hmem : id ∈ ids
    · rw [if_pos hmem, if_pos (.tail _ hmem)]
      congr 1
      omega
    · rw [if_neg hmem, if_neg (by simp [hmem, Ne.symm hid])]

theorem getElem?_positions (hnodup : ids.Nodup) (id : ColumnId) :
    (positions ids)[id]? = if id ∈ ids then some (ids.idxOf id) else none := by
  rw [positions, getElem?_foldl_insert 0 ∅ hnodup id, Nat.zero_add]
  rfl

variable {id : ColumnId}

theorem positions_eq_some (hnodup : ids.Nodup) {j : Nat} : (positions ids)[id]? = some j ↔
    ids[j]? = some id := by
  rw [getElem?_positions hnodup]
  constructor
  · intro h
    split at h
    · cases h
      exact getElem?_idxOf ‹_›
    · cases h
  · intro h
    obtain ⟨hj, rfl⟩ := List.getElem?_eq_some_iff.1 h
    rw [if_pos (getElem_mem hj), hnodup.idxOf_getElem]

/-! ## The reader's row -/

def place (col : ColumnId × Datum) : List Datum :=
  match required[col.1]? with
  | some idx => out.set idx col.2
  | none => out

def placeAll : List Datum := columns.foldl (place required) out

theorem length_place (col : ColumnId × Datum) : (place required out col).length = out.length := by
  unfold place
  split
  · exact length_set
  · rfl

theorem length_placeAll : ∀ out, (placeAll required columns out).length = out.length := by
  induction columns with
  | nil => exact fun _ => rfl
  | cons col columns ih => exact fun out => (ih _).trans (length_place required out col)

theorem getElem?_placeAll {readerIds : List ColumnId} (hnodup : readerIds.Nodup) {j : Nat}
    (hj : readerIds[j]? = some id) : ∀ {columns : List (ColumnId × Datum)} {out : List Datum},
    (columns.map (·.1)).Nodup → j < out.length → (placeAll (positions readerIds) columns out)[j]? =
      match columns.lookup id with
      | some datum => some datum
      | none => out[j]?
  | [], _, _, _ => rfl
  | (id', datum) :: columns, out, hcols, hlt => by
    have hcols' := nodup_cons.1 hcols
    have hlt' : j < (place (positions readerIds) out (id', datum)).length := by rwa [length_place]
    rw [placeAll, foldl_cons, ← placeAll, getElem?_placeAll hnodup hj hcols'.2 hlt',
      IterMap.lookup_cons_eq]
    by_cases hid : id = id'
    · subst hid
      have hnone : columns.lookup id = none := by
        rw [lookup_eq_none_iff]
        intro p hp
        rw [bne_iff_ne]
        rintro rfl
        exact hcols'.1 (mem_map.2 ⟨p, hp, rfl⟩)
      rw [if_pos rfl, hnone, place, (positions_eq_some hnodup).2 hj]
      exact getElem?_set_self hlt
    · rw [if_neg hid]
      cases columns.lookup id with
      | some _ => rfl
      | none =>
        unfold place
        cases hpos : (positions readerIds)[id']? with
        | none => rfl
        | some idx =>
          refine getElem?_set_ne fun hidx => hid ?_
          subst hidx
          have := (positions_eq_some hnodup).1 hpos
          rw [hj] at this
          exact Option.some.inj this

variable {d : Deserializer} {datum : Datum} {c : Checks}

theorem readColumn_datumBytes {idx : Nat} {ty : DataType}
    (hschema : d.schema[idx]? = some ty) (htype : datum.HasType c ty) (hstruct : ty ≠ .struct [])
    (hlen : (datumBytes c datum).length < 2 ^ 32) :
    d.readColumn c idx (toDatum (datumBytes c datum)) = pure datum := by
  cases datum with
  | none => rfl
  | some v =>
    have hv := htype v rfl
    have hne : datumBytes c (some v) ≠ [] := serializeScalar_ne_nil hv hstruct
    have hread := deserializeValue_serializeScalar hv (short_of_length hlen) []
    rw [append_nil] at hread
    rw [toDatum, if_neg hne, readColumn, lift_ok (index_eq_ok.2 hschema)]
    exact congrArg (· >>= fun r => pure (some r.1)) hread

theorem readRow_columnsOf {columns : List (ColumnId × Datum)}
    (hread : ∀ col ∈ columns, ∀ idx, d.requiredColumnIds[col.1]? = some idx →
      idx < d.defaultRow.length ∧ d.readColumn c idx (toDatum (datumBytes c col.2)) = pure col.2) :
    d.readRow c (columnsOf c columns) = pure (placeAll d.requiredColumnIds columns d.defaultRow) := by
  rw [readRow, columnsOf]
  generalize d.defaultRow = out at hread ⊢
  induction columns generalizing out with
  | nil => rfl
  | cons col columns ih =>
    have hstep : d.readPlace c out (col.1, datumBytes c col.2) =
        pure (place d.requiredColumnIds out col) := by
      rw [readPlace, place]
      cases hreq : d.requiredColumnIds[col.1]? with
      | none => rfl
      | some idx =>
        obtain ⟨hlt, hcol⟩ := hread col (.head _) idx hreq
        dsimp only
        rw [hcol, pure_bind, setDatum, if_pos hlt]
        rfl
    rw [map_cons, foldlM_cons, hstep]
    refine ih _ fun col' hcol' idx hreq => ?_
    rw [length_place]
    exact hread col' (.tail _ hcol') idx hreq

/-! ## A deserializer -/

/-- The default of a place; of two the last. -/
def defaultOf (columnWithDefault : List (Nat × Datum)) (j : Nat) : Datum :=
  (columnWithDefault.reverse.lookup j).getD none

theorem setDatum_eq_ok {row' : List Datum} {i : Nat} :
    setDatum row i datum = .ok row' ↔ i < row.length ∧ row' = row.set i datum := by
  unfold setDatum
  split <;> simp [*, eq_comm]

theorem foldlM_setDatum : ∀ {defaults : List (Nat × Datum)} {row row' : List Datum},
    defaults.foldlM (fun row (p : Nat × Datum) => setDatum row p.1 p.2) row = .ok row' →
    row'.length = row.length ∧ ∀ j < row.length, row'[j]? = match defaults.reverse.lookup j with
        | some datum => some datum
        | none => row[j]?
  | [], row, row', h => by
    cases h
    exact ⟨rfl, fun _ _ => rfl⟩
  | (i, datum) :: defaults, row, row', h => by
    rw [foldlM_cons, bind_eq_ok] at h
    obtain ⟨row1, h1, h⟩ := h
    obtain ⟨hi, rfl⟩ := setDatum_eq_ok.1 h1
    obtain ⟨hlen, hget⟩ := foldlM_setDatum h
    rw [length_set] at hlen hget
    refine ⟨hlen, fun j hj => ?_⟩
    rw [hget j hj, reverse_cons, lookup_append]
    cases defaults.reverse.lookup j with
    | some d => rfl
    | none =>
      rw [IterMap.lookup_cons_eq]
      by_cases hij : j = i
      · subst hij
        rw [if_pos rfl]
        exact getElem?_set_self hj
      · rw [if_neg hij]
        exact getElem?_set_ne (Ne.symm hij)

variable {defaults : List (Nat × Datum)}

theorem Deserializer.new_eq_ok {schema : List DataType} (h : new ids schema defaults = .ok d) :
    ids.length = schema.length ∧ d.requiredColumnIds = positions ids ∧ d.schema = schema ∧
      d.defaultRow.length = ids.length ∧
      ∀ j < ids.length, d.defaultRow[j]? = some (defaultOf defaults j) := by
  rw [new, bind_eq_ok] at h
  obtain ⟨⟨⟩, hlen, h⟩ := h
  obtain ⟨row, hrow, h⟩ := bind_eq_ok.1 h
  have hlen : ids.length = schema.length := by simpa using assert_eq_ok.1 hlen
  obtain ⟨hlenRow, hget⟩ := foldlM_setDatum hrow
  rw [length_replicate] at hlenRow hget
  cases h
  refine ⟨hlen, rfl, rfl, hlenRow.trans hlen.symm, fun j hj => ?_⟩
  rw [hget j (hlen ▸ hj), defaultOf]
  cases defaults.reverse.lookup j with
  | some datum => rfl
  | none => exact getElem?_replicate_of_lt (hlen ▸ hj)

/-! ## Changing the schema -/

structure Columns where
  ids : List ColumnId
  types : List DataType
  length_types : types.length = ids.length
  nodup : ids.Nodup

structure Columns.HasRow (s : Columns) (c : Checks) (row : List Datum) : Prop where
  length_eq : row.length = s.ids.length
  typed : ∀ (i : Nat) (ty : DataType) (datum : Datum), s.types[i]? = some ty →
    row[i]? = some datum → datum.HasType c ty

/-- The columns of both schemas have the same type in both. -/
def Columns.SameTypes (writer reader : Columns) : Prop :=
  ∀ (i j : Nat) (id : ColumnId), writer.ids[i]? = some id → reader.ids[j]? = some id →
    writer.types[i]? = reader.types[j]?

theorem lookup_zip : ∀ {ids : List ColumnId} {row : List Datum} {i : Nat}, ids.Nodup →
    row.length = ids.length → ids[i]? = some id → (ids.zip row).lookup id = row[i]?
  | [], _, _, _, _, hi => by cases hi
  | x :: ids, datum :: row, i, hnodup, hlen, hi => by
    have hx := nodup_cons.1 hnodup
    rw [zip_cons_cons, IterMap.lookup_cons_eq]
    cases i with
    | zero =>
      cases hi
      exact if_pos rfl
    | succ i =>
      have hid : id ≠ x := by
        rintro rfl
        exact hx.1 (mem_of_getElem? hi)
      rw [if_neg hid]
      exact lookup_zip hx.2 (Nat.succ.inj hlen) hi

theorem lookup_zip_none (h : id ∉ ids) : (ids.zip row).lookup id = none := by
  rw [lookup_eq_none_iff]
  intro p hp
  rw [bne_iff_ne]
  rintro rfl
  exact h (of_mem_zip hp).1

variable (c) in
theorem length_datumBytes_le (h : datum ∈ row) :
    (datumBytes c datum).length ≤ (row.flatMap (datumBytes c)).length := by
  obtain ⟨before, after, rfl⟩ := append_of_mem h
  rw [flatMap_append, flatMap_cons, length_append, length_append]
  omega

section

variable {c : Checks} {writer : Columns}
  (hrow : writer.HasRow c row) (hstruct : DataType.struct [] ∉ writer.types)
  (hlen : writer.ids.length + (row.flatMap (datumBytes c)).length < 2 ^ 32)

include hrow hlen in
theorem columnsOf_fits : (columnsOf c (writer.ids.zip row)).length < 2 ^ 32 ∧
    lastOffset (columnsOf c (writer.ids.zip row)) < 2 ^ 32 := by
  have hsnd : (writer.ids.zip row).map (·.2) = row := map_snd_zip (Nat.le_of_eq hrow.length_eq)
  have hlast := lastOffset_le_rowLen (columnsOf c (writer.ids.zip row))
  rw [rowLen_columnsOf, hsnd] at hlast
  rw [length_columnsOf, length_zip]
  omega

include hrow hstruct hlen in
theorem readRow_written {reader : Columns}
    (hnew : new reader.ids reader.types defaults = .ok d) (hsame : writer.SameTypes reader) :
    d.readRow c (columnsOf c (writer.ids.zip row)) =
      pure (placeAll (positions reader.ids) (writer.ids.zip row) d.defaultRow) := by
  obtain ⟨-, hreq, hschema, hlenRow, -⟩ := new_eq_ok hnew
  rw [readRow_columnsOf, hreq]
  rintro ⟨id, datum⟩ hcol idx hidx
  rw [hreq, positions_eq_some reader.nodup] at hidx
  obtain ⟨i, hi⟩ := mem_iff_getElem?.1 hcol
  obtain ⟨hid, hdatum⟩ := getElem?_zip_eq_some.1 hi
  have hlt : i < writer.types.length := by
    rw [writer.length_types]
    exact (List.getElem?_eq_some_iff.1 hid).1
  have hty : writer.types[i]? = some (writer.types.get ⟨i, hlt⟩) := getElem?_eq_getElem hlt
  have hmem := length_datumBytes_le c (mem_of_getElem? hdatum)
  refine ⟨hlenRow ▸ (List.getElem?_eq_some_iff.1 hidx).1,
    readColumn_datumBytes (hschema ▸ (hsame i idx id hid hidx).symm.trans hty) ?_ ?_ (by omega)⟩
  · exact hrow.typed i _ datum hty hdatum
  · intro hnil
    exact hstruct (hnil ▸ get_mem _ _)

end

theorem dropInvalid_eq_none {valid : BTreeSet ColumnId} (hrow : row.length = ids.length) :
    dropInvalid valid (columnsOf c (ids.zip row)) = none ↔
      (∀ id ∈ ids, valid.contains id = true) ∨ ∀ id ∈ ids, valid.contains id = false := by
  have hall : ∀ p : ColumnId → Bool, ((columnsOf c (ids.zip row)).all fun col => p col.1) =
      ids.all p := by
    intro p
    have hfst : (ids.zip row).map (·.1) = ids := map_fst_zip (Nat.le_of_eq hrow.symm)
    conv_rhs => rw [← hfst]
    rw [columnsOf, all_map, all_map]
    rfl
  have hor : (ids.all (valid.contains ·) || ids.all fun id => !valid.contains id) = true ↔
      (∀ id ∈ ids, valid.contains id = true) ∨ ∀ id ∈ ids, valid.contains id = false := by
    simp only [Bool.or_eq_true, all_eq_true, Bool.not_eq_true']
  rw [dropInvalid, hall, hall fun id => !valid.contains id, ← hor]
  split <;> simp [*]

/-- A row survives a change of the schema. The columns that the reader shares with the writer have
the values that were written, the others their defaults. Columns are dropped unless all are valid,
or none is, and a reader of valid columns reads the same without the others. -/
theorem column_aware_survives_schema_change {c : Checks} {writer : Columns} {row : List Datum}
    (hne : writer.ids ≠ []) (hrow : writer.HasRow c row)
    (hstruct : DataType.struct [] ∉ writer.types)
    (hlen : writer.ids.length + (row.flatMap (datumBytes c)).length < 2 ^ 32) :
    ∃ bytes, (Serializer.new writer.ids).serialize c row = .ok bytes ∧
      (∀ (reader : Columns) (defaults : List (Nat × Datum)) (d : Deserializer),
        new reader.ids reader.types defaults = .ok d → writer.SameTypes reader →
        ∃ out, d.deserialize c bytes = pure out ∧ out.length = reader.ids.length ∧
          (∀ (i j : Nat) (id : ColumnId), writer.ids[i]? = some id → reader.ids[j]? = some id →
            out[j]? = row[i]?) ∧
          ∀ (j : Nat) (id : ColumnId), reader.ids[j]? = some id → id ∉ writer.ids →
            out[j]? = some (defaultOf defaults j)) ∧
      ∀ valid : BTreeSet ColumnId, (tryDropInvalidColumns bytes valid = .ok none ↔
          (∀ id ∈ writer.ids, valid.contains id = true) ∨ ∀ id ∈ writer.ids,
            valid.contains id = false) ∧
        (¬((∀ id ∈ writer.ids, valid.contains id = true) ∨ ∀ id ∈ writer.ids,
          valid.contains id = false) →
          ∃ bytes', tryDropInvalidColumns bytes valid = .ok (some bytes') ∧
            ∀ (reader : Columns) (defaults : List (Nat × Datum)) (d : Deserializer),
              new reader.ids reader.types defaults = .ok d →
              (∀ id ∈ reader.ids, valid.contains id = true) →
              d.deserialize c bytes' = d.deserialize c bytes) := by
  obtain ⟨hcount, hoffset⟩ := columnsOf_fits hrow hlen
  refine ⟨_, Serializer.serialize_eq hne hrow.length_eq hlen, ?_, fun valid => ?_⟩
  · intro reader defaults d hnew hsame
    obtain ⟨-, -, -, hlenRow, hdefault⟩ := new_eq_ok hnew
    have hkeys : ((writer.ids.zip row).map (·.1)).Nodup := by
      rw [map_fst_zip (Nat.le_of_eq hrow.length_eq.symm)]
      exact writer.nodup
    have hplace : ∀ {j : Nat} {id : ColumnId}, reader.ids[j]? = some id → j < reader.ids.length :=
      fun hj => (List.getElem?_eq_some_iff.1 hj).1
    refine ⟨_, (deserialize_encodeRow d c hcount hoffset).trans
      (readRow_written hrow hstruct hlen hnew hsame), ?_, ?_, ?_⟩
    · rw [length_placeAll, hlenRow]
    · intro i j id hi hj
      have hi' : i < row.length := hrow.length_eq ▸ (List.getElem?_eq_some_iff.1 hi).1
      rw [getElem?_placeAll reader.nodup hj hkeys (hlenRow ▸ hplace hj),
        lookup_zip writer.nodup hrow.length_eq hi, getElem?_eq_getElem hi']
    · intro j id hj hid
      rw [getElem?_placeAll reader.nodup hj hkeys (hlenRow ▸ hplace hj), lookup_zip_none hid]
      exact hdefault j (hplace hj)
  · have hdrop := tryDropInvalidColumns_encodeRow valid hcount hoffset
    have hnone : dropInvalid valid (columnsOf c (writer.ids.zip row)) = none ↔ _ :=
      dropInvalid_eq_none hrow.length_eq
    refine ⟨?_, fun hsome => ?_⟩
    · rw [hdrop, ← hnone, Except.ok.injEq, Option.map_eq_none_iff]
    · have hdropped : dropInvalid valid (columnsOf c (writer.ids.zip row)) =
          some ((columnsOf c (writer.ids.zip row)).filter fun col => valid.contains col.1) := by
        have := mt hnone.1 hsome
        unfold dropInvalid at this ⊢
        split
        · exact absurd (if_pos ‹_›) this
        · rfl
      refine ⟨encodeRow ((columnsOf c (writer.ids.zip row)).filter fun col => valid.contains col.1),
        by rw [hdrop, hdropped, Option.map_some], ?_⟩
      intro reader defaults d hnew hvalid
      obtain ⟨-, hreq, -⟩ := new_eq_ok hnew
      have hsub :
          ((columnsOf c (writer.ids.zip row)).filter fun col => valid.contains col.1).Sublist _ :=
        filter_sublist
      rw [deserialize_encodeRow d c (Nat.lt_of_le_of_lt hsub.length_le hcount)
          (Nat.lt_of_le_of_lt (lastOffset_le_of_sublist hsub) hoffset),
        deserialize_encodeRow d c hcount hoffset]
      refine readRow_filter d c _ fun id hid => ?_
      rw [hreq, getElem?_positions reader.nodup, if_neg]
      intro hmem
      rw [hvalid id hmem] at hid
      cases hid

/-- A reader that has the columns in another order, and one with a default that was not written. -/
theorem column_aware_survives_schema_change_reordered :
    ∃ bytes, (Serializer.new [1, 2]).serialize acceptAll [some (.primitive (.int32 7)), none] =
      .ok bytes ∧
      ∃ d, new [2, 3, 1] [.primitive .boolean, .primitive .int64, .primitive .int32]
          [(1, some (.primitive (.int64 9)))] = .ok d ∧
        ∃ out, d.deserialize acceptAll
            bytes = pure out ∧
          out[0]? = some none ∧ out[1]? = some (some (.primitive (.int64 9))) ∧
          out[2]? = some (some (.primitive (.int32 7))) := by
  have hrow : Columns.HasRow ⟨[1, 2], [.primitive .int32, .primitive .boolean], rfl, by decide⟩
      acceptAll
      [some (.primitive (.int32 7)), none] := by
    refine ⟨rfl, fun i ty datum hty hdatum v hv => ?_⟩
    match i with
    | 0 => cases hty; cases hdatum; cases hv; exact ⟨rfl, trivial⟩
    | 1 => cases hdatum; cases hv
    | _ + 2 => cases hty
  obtain ⟨bytes, hbytes, hread, -⟩ :=
    column_aware_survives_schema_change (by decide) hrow (by simp) (by decide)
  obtain ⟨out, hout, -, hshared, hdefault⟩ := hread
    ⟨[2, 3, 1], [.primitive .boolean, .primitive .int64, .primitive .int32], rfl, by decide⟩
    [(1, some (.primitive (.int64 9)))] _ rfl (fun i j id hi hj => by
      rcases i with _ | _ | _ <;> rcases j with _ | _ | _ | _ <;> cases hi <;> first | rfl | cases hj)
  exact ⟨bytes, hbytes, _, rfl, out, hout, hshared 1 0 2 rfl rfl, hdefault 1 3 rfl (by decide),
    hshared 0 2 1 rfl rfl⟩

end ValueEncoding
