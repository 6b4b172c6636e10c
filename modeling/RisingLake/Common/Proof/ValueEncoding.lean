import RisingLake.Common.ValueEncoding

/-!
# Value encoding round trip

Reading the encoding of a value of a type, under this type, gives the value back and leaves what
follows (`deserializeValue_serializeScalar`). Only a struct without fields has an empty encoding.
-/

namespace ValueEncoding

open Res Bytes Types List

variable {c : Checks}

/-! ## Primitives -/

theorem getBits_putBits {w : Nat} (hw : 8 ∣ w) (v : BitVec w) (rest : Bytes) :
    getBits w (putBits v ++ rest) = .ok (v, rest) := by
  have hlt : v.toNat < 256 ^ (w / 8) := by
    rw [show 256 = 2 ^ 8 from rfl, ← Nat.pow_mul, Nat.mul_div_cancel' hw]
    exact v.isLt
  rw [getBits, putBits, getLe_leBytes hlt]
  simp

theorem readBits_putBits {w : Nat} (hw : 8 ∣ w) (f : BitVec w → Primitive) (v : BitVec w)
    (rest : Bytes) : readBits w f (putBits v ++ rest) = pure (f v, rest) := by
  rw [readBits, lift_ok (getBits_putBits hw v rest), pure_bind]

theorem deserializeBytea_serializeStr {bytes : Bytes} (h : bytes.length < 2 ^ 32) (rest : Bytes) :
    deserializeBytea (serializeStr bytes ++ rest) = .ok (bytes, rest) := by
  rw [deserializeBytea, serializeStr, append_assoc, getLe_leBytes h]
  exact getBytes_append rest rfl

variable (d : Decimal)

theorem unorderedDeserialize_unorderedSerialize :
    unorderedDeserialize c (unorderedSerialize c d) = .ok d := by
  cases d with
  | normalized d =>
    obtain ⟨tl, htl⟩ := head?_eq_some_iff.1 (c.rustDecimal.head_serialize d)
    have h : unorderedDeserialize c (0 :: tl) =
        .ok (.normalized (c.rustDecimal.deserialize (0 :: tl))) := rfl
    rw [unorderedSerialize, htl, h, ← htl, c.rustDecimal.deserialize_serialize]
  | nan => rfl
  | positiveInf => rfl
  | negativeInf => rfl

theorem length_unorderedSerialize : (unorderedSerialize c d).length = 16 := by
  cases d with
  | normalized d => exact c.rustDecimal.length_serialize d
  | nan => rfl
  | positiveInf => rfl
  | negativeInf => rfl

theorem deserializeStr_serializeStr {v : Bytes} (hv : validUtf8 v = true) (h : v.length < 2 ^ 32)
    (rest : Bytes) : deserializeStr (serializeStr v ++ rest) = pure (.utf8 v, rest) := by
  rw [deserializeStr, lift_ok (deserializeBytea_serializeStr h rest)]
  simp [hv]

theorem deserializeDecimal_unorderedSerialize (rest : Bytes) :
    deserializeDecimal c (unorderedSerialize c d ++ rest) = pure (.decimal d, rest) := by
  rw [deserializeDecimal, lift_ok (getBytes_append rest (length_unorderedSerialize d)), pure_bind]
  dsimp only
  rw [lift_ok (unorderedDeserialize_unorderedSerialize d), pure_bind]

theorem deserializeInterval_eq (months days : BitVec 32) (usecs : BitVec 64) (rest : Bytes) :
    deserializeInterval (putBits months ++ putBits days ++ putBits usecs ++ rest) =
      pure (.interval months days usecs, rest) := by
  rw [deserializeInterval, append_assoc, append_assoc,
    lift_ok (getBits_putBits (by decide) months _), pure_bind]
  dsimp only
  rw [lift_ok (getBits_putBits (by decide) days _), pure_bind]
  rw [lift_ok (getBits_putBits (by decide) usecs _), pure_bind]

theorem deserializeDate_eq {days : BitVec 32} (h : c.dateOk days = true) (rest : Bytes) :
    deserializeDate c (putBits days ++ rest) = pure (.date days, rest) := by
  rw [deserializeDate, lift_ok (getBits_putBits (by decide) days _)]
  simp [h]

theorem deserializeTime_eq {secs nano : BitVec 32} (h : c.timeOk secs nano = true) (rest : Bytes) :
    deserializeTime c (putBits secs ++ putBits nano ++ rest) = pure (.time secs nano, rest) := by
  rw [deserializeTime, append_assoc, lift_ok (getBits_putBits (by decide) secs _), pure_bind]
  dsimp only
  rw [lift_ok (getBits_putBits (by decide) nano _)]
  simp [h]

theorem deserializeTimestamp_eq {secs : BitVec 64} {nsecs : BitVec 32}
    (h : c.timestampOk secs nsecs = true) (rest : Bytes) :
    deserializeTimestamp c (putBits secs ++ putBits nsecs ++ rest) =
      pure (.timestamp secs nsecs, rest) := by
  rw [deserializeTimestamp, append_assoc, lift_ok (getBits_putBits (by decide) secs _), pure_bind]
  dsimp only
  rw [lift_ok (getBits_putBits (by decide) nsecs _)]
  simp [h]

theorem deserializeJsonb_eq {text : Bytes} (h : c.jsonOk text = true)
    (hlen : (jsonbValueSerialize text).length < 2 ^ 32) (rest : Bytes) :
    deserializeJsonb c (serializeStr (jsonbValueSerialize text) ++ rest) =
      pure (.jsonb text, rest) := by
  rw [deserializeJsonb, lift_ok (deserializeBytea_serializeStr hlen rest)]
  change (if c.jsonOk text then _ else _) = _
  rw [if_pos h]

theorem deserializePrimitive_serializePrimitive {v : Primitive} (hv : v.Valid c)
    (hshort : (ScalarImpl.primitive v).Short) (rest : Bytes) :
    deserializePrimitive c v.dataType (serializePrimitive c v ++ rest) = pure (v, rest) := by
  cases v with
  | int16 v | int32 v | int64 v | int256 v | serial v | float32 v | float64 v | timestamptz v =>
    exact readBits_putBits (by decide) _ v rest
  | utf8 v => exact deserializeStr_serializeStr hv hshort rest
  | bytea v =>
    simp only [Primitive.dataType, deserializePrimitive, serializePrimitive]
    rw [lift_ok (deserializeBytea_serializeStr hshort rest), pure_bind]
  | bool v =>
    cases v <;> rfl
  | decimal v => exact deserializeDecimal_unorderedSerialize v rest
  | interval months days usecs => exact deserializeInterval_eq months days usecs rest
  | date days => exact deserializeDate_eq hv rest
  | time secs nano => exact deserializeTime_eq hv rest
  | timestamp secs nsecs => exact deserializeTimestamp_eq hv rest
  | jsonb text => exact deserializeJsonb_eq hv hshort rest

theorem serializePrimitive_ne_nil (v : Primitive) : serializePrimitive c v ≠ [] := by
  intro h
  have hlen := congrArg length h
  cases v <;> simp [serializePrimitive, putBits, serializeStr, length_unorderedSerialize] at hlen

/-! ## Composite values -/

variable (c) in
theorem length_le_serializeDatums (ds : List Datum) :
    ds.length ≤ (serializeDatums c ds).length := by
  induction ds with
  | nil => exact Nat.zero_le _
  | cons d ds ih =>
    cases d with
    | none => rw [serializeDatums, length_cons, length_cons]; omega
    | some v =>
      rw [serializeDatums, length_append, length_cons, length_cons]
      omega

variable {ds : List Datum} {v : ScalarImpl}

theorem short_of_mem (hshort : datumsShort ds) (hmem : some v ∈ ds) : v.Short := by
  induction ds with
  | nil => cases hmem
  | cons d ds ih =>
    rcases mem_cons.1 hmem with rfl | h
    · exact hshort.1
    · cases d with
      | none => exact ih hshort h
      | some w => exact ih hshort.2 h

mutual

theorem short_of_length : ∀ {v : ScalarImpl}, (serializeScalar c v).length < 2 ^ 32 → v.Short
  | .primitive v, h => by
    cases v <;> simp [serializeScalar, serializePrimitive, serializeStr, jsonbValueSerialize,
      ScalarImpl.Short] at h ⊢ <;>
      omega
  | .struct fields, h => datumsShort_of_length h
  | .list items, h | .map items, h => by
    rw [serializeScalar, length_append] at h
    have := length_le_serializeDatums c items
    exact ⟨by omega, datumsShort_of_length (by omega)⟩

theorem datumsShort_of_length : ∀ {ds : List Datum}, (serializeDatums c ds).length < 2 ^ 32 →
    datumsShort ds
  | [], _ => trivial
  | none :: ds, h => by
    rw [serializeDatums, length_cons] at h
    have hds : datumsShort ds := datumsShort_of_length (by omega)
    exact hds
  | some v :: ds, h => by
    rw [serializeDatums, length_append, length_cons] at h
    exact ⟨short_of_length (by omega), datumsShort_of_length (by omega)⟩

end

/-- A reader gives the scalar back. -/
def ReadsBack (c : Checks) (read : Bytes → Read (ScalarImpl × Bytes)) (v : ScalarImpl) : Prop :=
  ∀ rest, read (serializeScalar c v ++ rest) = pure (v, rest)

theorem readDatum_none (read : Bytes → Read (ScalarImpl × Bytes)) (rest : Bytes) :
    readDatum read (0 :: rest) = pure (none, rest) := by
  rfl

variable {read : Bytes → Read (ScalarImpl × Bytes)}

theorem readDatum_some (h : ReadsBack c read v) (rest : Bytes) :
    readDatum read (1 :: (serializeScalar c v ++ rest)) = pure (some v, rest) := by
  have htag : getLe 1 (1 :: (serializeScalar c v ++ rest)) = .ok (1, serializeScalar c v ++ rest) :=
    getLe_leBytes (show 1 < 256 ^ 1 by decide) _
  rw [readDatum, lift_ok htag, pure_bind]
  dsimp only
  rw [h]
  rfl

theorem readDatum_cons {d : Datum} (h : ∀ v, d = some v → ReadsBack c read v) (rest : Bytes) :
    readDatum read (serializeDatums c (d :: ds) ++ rest) =
      pure (d, serializeDatums c ds ++ rest) := by
  cases d with
  | none => exact readDatum_none read _
  | some v =>
    rw [serializeDatums, append_assoc]
    exact readDatum_some (h v rfl) _

theorem readItems_serializeDatums : ∀ {ds : List Datum}, (∀ v, some v ∈ ds → ReadsBack c read v) →
      ∀ rest, readItems (readDatum read) ds.length (serializeDatums c ds ++ rest) = pure (ds, rest)
  | [], _, _ => rfl
  | d :: ds, h, rest => by
    rw [length_cons, readItems, readDatum_cons (fun v hv => h v (hv ▸ .head _)), pure_bind]
    dsimp only
    rw [readItems_serializeDatums fun v hv => h v (.tail _ hv), pure_bind]

theorem readEntry {readKey readValue : Bytes → Read (ScalarImpl × Bytes)} {k v : Datum}
    (hk : ∀ s, k = some s → ReadsBack c readKey s)
    (hv : ∀ s, v = some s → ReadsBack c readValue s) : ReadsBack c (fun data => do
      let (k, data) ← readDatum readKey data
      let (v, data) ← readDatum readValue data
      pure (.struct [k, v], data)) (.struct [k, v]) := by
  intro rest
  dsimp only
  rw [serializeScalar, readDatum_cons hk, pure_bind]
  rw [readDatum_cons hv]
  rfl

mutual

theorem deserializeValue_serializeScalar : ∀ {ty : DataType} {v : ScalarImpl}, v.HasType c ty →
    v.Short → ReadsBack c (deserializeValue c ty) v
  | .primitive t, .primitive v, hty, hshort => by
    intro rest
    obtain ⟨rfl, hv⟩ := hty
    rw [serializeScalar, deserializeValue, deserializePrimitive_serializePrimitive hv hshort,
      pure_bind]
  | .struct tys, .struct fields, hty, hshort => by
    intro rest
    rw [serializeScalar, deserializeValue, deserializeFields_serializeDatums hty hshort, pure_bind]
  | .list item, .list items, hty, ⟨hcount, hshort⟩ => by
    intro rest
    rw [serializeScalar, deserializeValue, append_assoc, lift_ok (getLe_leBytes hcount _), pure_bind]
    dsimp only
    rw [readItems_serializeDatums, pure_bind]
    intro v hv
    exact deserializeValue_serializeScalar (hty v hv) (short_of_mem hshort hv)
  | .map key value, .map entries, hty, ⟨hcount, hshort⟩ => by
    intro rest
    obtain ⟨hok, hentries⟩ := hty
    rw [serializeScalar, deserializeValue, append_assoc, lift_ok (getLe_leBytes hcount _), pure_bind]
    dsimp only
    rw [readItems_serializeDatums, pure_bind]
    · rw [hok]
      rfl
    · intro e he
      obtain ⟨k, v, heq, hk, hv⟩ := hentries (some e) he
      cases heq
      have hentry : datumsShort [k, v] := short_of_mem hshort he
      refine readEntry (fun s hs => ?_) (fun s hs => ?_)
      · exact deserializeValue_serializeScalar (hk s hs) (short_of_mem hentry (by simp [hs]))
      · exact deserializeValue_serializeScalar (hv s hs) (short_of_mem hentry (by simp [hs]))

theorem deserializeFields_serializeDatums : ∀ {tys : List DataType} {ds : List Datum},
    fieldsHaveType c tys ds → datumsShort ds → ∀ rest,
      deserializeFields c tys (serializeDatums c ds ++ rest) = pure (ds, rest)
  | [], [], _, _, _ => rfl
  | ty :: tys, d :: ds, hty, hshort, rest => by
    have hds : datumsShort ds := by
      cases d with
      | none => exact hshort
      | some v => exact hshort.2
    rw [deserializeFields, readDatum_cons, pure_bind]
    · dsimp only
      rw [deserializeFields_serializeDatums hty.2 hds, pure_bind]
    · intro v hv
      exact deserializeValue_serializeScalar (hty.1 v hv) (short_of_mem hshort (hv ▸ .head _))

end

/-! ## Sizes -/

section
variable {capacity : Bytes → Nat}

theorem length_serializeDatums
    (h : ∀ v, some v ∈ ds → (serializeScalar c v).length = estimateScalarSize capacity v) :
    (serializeDatums c ds).length = estimateDatumsSize capacity ds := by
  induction ds with
  | nil => rfl
  | cons d ds ih =>
    have hds := ih fun v hv => h v (.tail _ hv)
    cases d with
    | none => rw [serializeDatums, estimateDatumsSize, length_cons, hds, Nat.add_comm]
    | some v =>
      rw [serializeDatums, estimateDatumsSize, length_append, length_cons, h v (.head _)]
      omega

mutual

theorem length_serializeScalar : ∀ {ty : DataType} {v : ScalarImpl}, v.HasType c ty →
    .jsonb ∉ ty.primitives →
    (serializeScalar c v).length = estimateScalarSize capacity v
  | .primitive t, .primitive v, hty, hjsonb => by
    obtain ⟨rfl, -⟩ := hty
    rw [serializeScalar, estimateScalarSize]
    cases v with
    | jsonb text => exact absurd (.head _) hjsonb
    | decimal v => exact length_unorderedSerialize v
    | _ => simp [serializePrimitive, estimatePrimitiveSize, putBits, serializeStr]
  | .struct tys, .struct fields, hty, hjsonb => by
    rw [serializeScalar, estimateScalarSize]
    exact length_serializeDatums fun v hv => length_serializeField hty hjsonb hv
  | .list item, .list items, hty, hjsonb => by
    rw [serializeScalar, estimateScalarSize, length_append, length_leBytes,
      length_serializeDatums fun v hv => length_serializeScalar (hty v hv) hjsonb]
  | .map key value, .map entries, hty, hjsonb => by
    rw [DataType.primitives, mem_append, not_or] at hjsonb
    rw [serializeScalar, estimateScalarSize, length_append, length_leBytes, length_serializeDatums]
    intro e he
    obtain ⟨k, v, heq, hk, hv⟩ := hty.2 (some e) he
    cases heq
    rw [serializeScalar, estimateScalarSize, length_serializeDatums]
    intro s hs
    rcases mem_cons.1 hs with hs | hs
    · exact length_serializeScalar (hk s hs.symm) hjsonb.1
    · exact length_serializeScalar (hv s (mem_singleton.1 hs).symm) hjsonb.2

theorem length_serializeField : ∀ {tys : List DataType} {ds : List Datum} {v : ScalarImpl},
    fieldsHaveType c tys ds → .jsonb ∉ fieldPrimitives tys → some v ∈ ds →
    (serializeScalar c v).length = estimateScalarSize capacity v
  | [], [], _, _, _, hv => nomatch hv
  | ty :: tys, d :: ds, v, hty, hjsonb, hv => by
    rw [fieldPrimitives, mem_append, not_or] at hjsonb
    rcases mem_cons.1 hv with hv | hv
    · exact length_serializeScalar (hty.1 v hv.symm) hjsonb.1
    · exact length_serializeField hty.2 hjsonb.2 hv

end

/-- A datum is read back from its encoding, whatever follows, and its size is the estimated one. -/
theorem deserializeDatum_serializeDatum {ty : DataType} {d : Datum} (hty : d.HasType c ty)
    (hshort : ∀ v, d = some v → v.Short) (hjsonb : .jsonb ∉ ty.primitives) (capacity : Bytes → Nat)
    (rest : Bytes) : deserializeDatum c ty (serializeDatum c d ++ rest) = pure (d, rest) ∧
      estimateDatumSize capacity d = (serializeDatum c d).length := by
  cases d with
  | none => exact ⟨readDatum_none _ rest, rfl⟩
  | some v =>
    have hv := hty v rfl
    refine ⟨readDatum_some (deserializeValue_serializeScalar hv (hshort v rfl)) rest, ?_⟩
    rw [estimateDatumSize, serializeDatum, length_cons, length_serializeScalar hv hjsonb, Nat.add_comm]

/-- The flags, which hold the scale and the sign, and the mantissa. -/
def flagsThenMantissa : RustDecimalCodec where
  serialize d :=
    leBytes 4 (d.scale.val * 2 ^ 16 + if d.negative then 2 ^ 31 else 0) ++ leBytes 12 d.mantissa.toNat
  deserialize bytes :=
    let flags := leNat (bytes.take 4)
    { mantissa := BitVec.ofNat 96 (leNat (bytes.drop 4))
      scale := Fin.ofNat 29 (flags / 2 ^ 16 % 2 ^ 8)
      negative := flags / 2 ^ 31 % 2 = 1 }
  length_serialize d := by simp
  head_serialize d := by
    rw [leBytes_succ, cons_append, head?_cons, Option.some.injEq, Fin.ext_iff]
    simp only [Fin.ofNat_eq_cast, Fin.val_natCast]
    split <;> simp <;> omega
  deserialize_serialize d := by
    have hflags : (d.scale.val * 2 ^ 16 + if d.negative then 2 ^ 31 else 0) < 256 ^ 4 := by
      split <;> omega
    have hmantissa : d.mantissa.toNat < 256 ^ 12 := d.mantissa.isLt
    dsimp only
    rw [take_left' (length_leBytes _ _), drop_left' (length_leBytes _ _),
      leNat_leBytes hflags, leNat_leBytes hmantissa]
    obtain ⟨mantissa, ⟨scale, hs⟩, negative⟩ := d
    cases negative with
    | true | false =>
      simp only [if_true, Bool.false_eq_true, if_false, BitVec.ofNat_toNat, BitVec.setWidth_eq,
        RustDecimal.mk.injEq, true_and]
      refine ⟨Fin.ext ?_, ?_⟩
      · simp only [Fin.ofNat_eq_cast, Fin.val_natCast]; omega
      · simp only [decide_eq_true_iff, decide_eq_false_iff_not]; omega

def acceptAll : Checks where
  rustDecimal := flagsThenMantissa
  dateOk _ := true
  timeOk _ _ := true
  timestampOk _ _ := true
  jsonOk _ := true
  distinctKeys _ := true

/-- A list of strings with a NULL, a map, and the decimal -0.5. -/
theorem deserializeDatum_serializeDatum_nested :
    let ty : DataType := .struct [.list (.primitive .varchar),
      .map (.primitive .int16) (.primitive .boolean), .primitive .decimal]
    let d : Datum := some (.struct [some (.list [some (.primitive (.utf8 [97])), none]),
      some (.map [some (.struct [some (.primitive (.int16 5)), some (.primitive (.bool true))])]),
      some (.primitive (.decimal (.normalized ⟨5, 1, true⟩)))])
    deserializeDatum acceptAll ty (serializeDatum acceptAll d ++ [9]) = pure (d, [9]) ∧
      estimateDatumSize (fun _ => 0) d = (serializeDatum acceptAll d).length := by
  intro ty d
  refine deserializeDatum_serializeDatum ?_ ?_ ?_ _ _
  · simp [d, ty, Datum.HasType, ScalarImpl.HasType, fieldsHaveType, Primitive.dataType,
      Primitive.Valid,
      show validUtf8 [97] = true by decide]
    rfl
  · simp [d, ScalarImpl.Short, datumsShort]
  · simp [ty, DataType.primitives, fieldPrimitives]

end

theorem serializeScalar_ne_nil {ty : DataType} (hty : v.HasType c ty)
    (hne : ty ≠ .struct []) : serializeScalar c v ≠ [] := by
  intro h
  have hlen := congrArg length h
  cases v with
  | primitive v =>
    exact serializePrimitive_ne_nil v h
  | struct fields =>
    rw [serializeScalar, length_nil] at hlen
    have hfields : fields = [] :=
      length_eq_zero_iff.1 (by have := length_le_serializeDatums c fields; omega)
    subst hfields
    cases ty with
    | struct tys => cases tys <;> simp [ScalarImpl.HasType, fieldsHaveType] at hty hne
    | _ => simp [ScalarImpl.HasType] at hty
  | list | map => rw [serializeScalar, length_append] at hlen; simp at hlen

end ValueEncoding
