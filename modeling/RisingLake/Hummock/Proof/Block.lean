import RisingLake.Hummock.Block
import RisingLake.Hummock.Proof.Key
import RisingLake.Lib.Returns

/-!
# The block format

A block is a list of slots: an entry, how much of its key it shares with the one before, the widths
of its lengths, and whether it is a restart point (`BlockSlot`). `restarts` and `changes` say where
the restart points and the changes of width are. The builder keeps its buffer and its tables in step
with the slots (`Built`, `add_returnsOr`), and what it builds is decoded to a block that holds them
(`Holds`, `decode_build`).
-/

namespace Hummock

open Res Bytes List LenType Block
open BlockBuilder (encodeTypeIndex)

/-! ## Slots -/

/-- An entry as it is laid out in a block. -/
structure BlockSlot where
  fullKey : FullKey
  value : Bytes
  overlap : Nat
  keyLenType : LenType
  valueLenType : LenType
  restart : Bool

namespace BlockSlot

def key (s : BlockSlot) : Bytes := s.fullKey.encodeWithoutTableId

def entry (s : BlockSlot) : FullKey × Bytes := (s.fullKey, s.value)

def types (s : BlockSlot) : LenType × LenType := (s.keyLenType, s.valueLenType)

def header (s : BlockSlot) : Bytes :=
  (KeyPrefix.newWithoutLen s.overlap (s.key.length - s.overlap) s.value.length 0).encode s.keyLenType
    s.valueLenType

def encode (s : BlockSlot) : Bytes := s.header ++ s.key.drop s.overlap ++ s.value

def keyPrefixAt (s : BlockSlot) (offset : Nat) : KeyPrefix :=
  ⟨s.overlap, s.key.length - s.overlap, s.value.length, offset,
    s.keyLenType.len * 2 + s.valueLenType.len⟩

variable (s : BlockSlot)

theorem length_header : s.header.length = s.keyLenType.len * 2 + s.valueLenType.len := by
  simp only [header, KeyPrefix.encode, put2, put, length_append, length_beBytes]
  omega

theorem length_encode (offset : Nat) : s.encode.length = (s.keyPrefixAt offset).entryLen := by
  simp only [encode, keyPrefixAt, KeyPrefix.entryLen, length_append, length_header, length_drop]

theorem length_encode_pos : 0 < s.encode.length := by
  have hlen : 0 < s.keyLenType.len := by cases s.keyLenType <;> decide
  rw [s.length_encode 0]
  simp only [keyPrefixAt, KeyPrefix.entryLen]
  omega

end BlockSlot

open BlockSlot (types)

/-- What the layout of a slot promises, given the slot before. -/
structure LaidAfter (last : Option BlockSlot) (s : BlockSlot) : Prop where
  key_lt : s.key.length < 256 ^ s.keyLenType.len
  value_lt : s.value.length < 256 ^ s.valueLenType.len
  overlap_le : s.overlap ≤ s.key.length
  restart : s.restart = true → s.overlap = 0
  shared : s.restart = false → ∃ l, last = some l ∧ l.types = s.types ∧ l.key.take s.overlap =
    s.key.take s.overlap

def Linked (slots : List BlockSlot) : Prop :=
  ∀ before s after, slots = before ++ s :: after → LaidAfter before.getLast? s

variable {slots : List BlockSlot} {s : BlockSlot}

theorem Linked.append_singleton (h : Linked slots) (hs : LaidAfter slots.getLast? s) :
    Linked (slots ++ [s]) := by
  intro before t after heq
  rcases eq_nil_or_concat after with rfl | ⟨after', u, rfl⟩
  · obtain ⟨hbefore, hst⟩ := append_inj' heq rfl
    cases hst
    exact hbefore ▸ hs
  · have heq' : slots ++ [s] = (before ++ t :: after') ++ [u] := by simpa using heq
    obtain ⟨hslots, -⟩ := append_inj' heq' rfl
    exact h before t after' hslots

def slotData (slots : List BlockSlot) : Bytes := slots.flatMap BlockSlot.encode

@[simp] theorem slotData_nil : slotData [] = [] := rfl
@[simp] theorem slotData_cons (s : BlockSlot) (slots : List BlockSlot) :
    slotData (s :: slots) = s.encode ++ slotData slots := rfl
variable (a b : List BlockSlot)

@[simp] theorem slotData_append : slotData (a ++ b) = slotData a ++ slotData b :=
  flatMap_append

abbrev Mark := Nat × LenType × LenType

def RestartPoint.mark (point : RestartPoint) : Mark :=
  (point.offset.val, point.keyLenType, point.valueLenType)

open RestartPoint (mark)

def restarts : Nat → List BlockSlot → List Mark
  | _, [] => []
  | off, s :: slots =>
    let rest := restarts (off + s.encode.length) slots
    if s.restart then (off, s.types) :: rest else rest

def changes : Option (LenType × LenType) → Nat → List BlockSlot → List Mark
  | _, _, [] => []
  | last, off, s :: slots =>
    let rest := changes (some s.types) (off + s.encode.length) slots
    if last = some s.types then rest else (off, s.types) :: rest

theorem restarts_append : ∀ off : Nat,
    restarts off (a ++ b) = restarts off a ++ restarts (off + (slotData a).length) b := by
  induction a with
  | nil => intro off; simp [restarts]
  | cons s a ih =>
    intro off
    simp only [cons_append, restarts, ih, slotData_cons, Nat.add_assoc]
    split <;> simp

theorem length_restarts (slots : List BlockSlot) : ∀ off : Nat,
    (restarts off slots).length = slots.countP BlockSlot.restart := by
  induction slots with
  | nil => intro off; rfl
  | cons s slots ih =>
    intro off
    simp only [restarts]
    split <;> simp [*]

theorem le_of_mem_restarts : ∀ {off : Nat} {m : Mark}, m ∈ restarts off slots → off ≤ m.1 := by
  induction slots with
  | nil => intro off m h; cases h
  | cons s slots ih =>
    intro off m h
    simp only [restarts] at h
    split at h
    · rcases mem_cons.1 h with rfl | h
      · exact Nat.le_refl _
      · have := ih h; omega
    · have := ih h; omega

theorem le_of_mem_changes : ∀ {last : Option (LenType × LenType)} {off : Nat}
    {m : Mark}, m ∈ changes last off slots → off ≤ m.1 := by
  induction slots with
  | nil => intro last off m h; cases h
  | cons s slots ih =>
    intro last off m h
    simp only [changes] at h
    split at h
    · have := ih h; omega
    · rcases mem_cons.1 h with rfl | h
      · exact Nat.le_refl _
      · have := ih h; omega

theorem changes_append_singleton (slots : List BlockSlot) (s : BlockSlot) :
    ∀ (last : Option (LenType × LenType)) (off : Nat), changes last off (slots ++ [s]) =
      changes last off slots ++
        if (slots.getLast?.map types).or last = some s.types then []
        else [(off + (slotData slots).length, s.types)] := by
  induction slots with
  | nil =>
    intro last off
    simp [changes]
  | cons t slots ih =>
    intro last off
    have hlast : ((t :: slots).getLast?.map types).or last =
        (slots.getLast?.map types).or (some t.types) := by
      rw [getLast?_cons]
      cases slots.getLast? <;> rfl
    simp only [cons_append, changes, ih, hlast, slotData_cons, Nat.add_assoc]
    split <;> simp

/-! ## Reading a slot -/

theorem LenType.get_put (t : LenType) {v : Nat} (h : v < 256 ^ t.len) (rest : Bytes) :
    t.get (t.put v ++ rest) = .ok (v, rest) := getBe_beBytes h rest

theorem LenType.lt_of_new {n : Nat} {t : LenType} (h : new n = .ok t) : n < 256 ^ t.len := by
  unfold new at h
  split_ifs at h <;> cases h <;> simp only [len] <;> omega

theorem LaidAfter.decode_encode {last : Option BlockSlot} (h : LaidAfter last s) (offset : Nat)
    (rest : Bytes) : KeyPrefix.decode (s.encode ++ rest) offset s.keyLenType s.valueLenType =
      .ok (s.keyPrefixAt offset) := by
  have hov := h.overlap_le
  have hkey := h.key_lt
  have hencode : s.encode ++ rest = s.keyLenType.put s.overlap ++
      (s.keyLenType.put (s.key.length - s.overlap) ++
        (s.valueLenType.put s.value.length ++ (s.key.drop s.overlap ++ s.value ++ rest))) := by
    simp [BlockSlot.encode, BlockSlot.header, KeyPrefix.encode, KeyPrefix.newWithoutLen, put2]
  rw [KeyPrefix.decode, get2, hencode, get_put _ (by omega), ok_bind]
  dsimp only
  rw [get_put _ (by omega), ok_bind]
  rw [ok_bind]
  rw [get_put _ h.value_lt]
  rfl

/-! ## Adding an entry -/

theorem skipEqual_spec {n : Nat} {base target : Bytes} {stop : Nat}
    (hstop : stop ≤ base.length ∧ stop ≤ target.length) : ∀ {fuel i : Nat}, i ≤ stop →
      base.take i = target.take i →
      skipEqual n base target stop fuel i ≤ stop ∧ base.take (skipEqual n base target stop fuel i) =
          target.take (skipEqual n base target stop fuel i)
  | 0, i, hi, h => ⟨hi, h⟩
  | fuel + 1, i, hi, h => by
    unfold skipEqual
    split
    · rename_i hnext
      refine skipEqual_spec hstop hnext.1 ?_
      rw [take_add, take_add, h, hnext.2]
    · exact ⟨hi, h⟩

theorem bytesDiff_spec (base target : Bytes) : ∃ i ≤ target.length,
    bytesDiffBelowMaxKeyLength base target = target.drop i ∧ base.take i = target.take i := by
  let stop := min (min base.length target.length) maxKeyLen
  have hstop : stop ≤ base.length ∧ stop ≤ target.length := by
    omega
  obtain ⟨h8, e8⟩ := skipEqual_spec hstop (Nat.zero_le stop) (by simp)
  obtain ⟨h4, e4⟩ := skipEqual_spec hstop h8 e8
  obtain ⟨h1, e1⟩ := skipEqual_spec hstop h4 e4
  exact ⟨_, Nat.le_trans h1 hstop.2, rfl, e1⟩

/-- The panics of a builder when a length, an offset or a number of restart points does not fit in a
`u32`. -/
def u32Limits : List Panic :=
  [.explicit "unexpected LenType", .explicit "overflow: buf_len",
    .explicit "overflow: restart_points_len", .explicit "overflow: restart_points_type_index_len",
    .assert "result_buf.len() < u32::MAX"]

theorem lenType_new_returnsOr (n : Nat) :
    ReturnsOr (· ∈ u32Limits) (new n) fun t => n < 256 ^ t.len := by
  cases h : new n with
  | ok t => exact lt_of_new h
  | error e =>
    unfold new at h
    split_ifs at h
    cases h
    simp [ReturnsOr, u32Limits]

theorem checkedIntoU32_returnsOr {n : Nat} {msg : String} (hmsg : .explicit msg ∈ u32Limits) :
    ReturnsOr (· ∈ u32Limits) (checkedIntoU32 n msg) fun x => x.val = n := by
  unfold checkedIntoU32
  split
  · rfl
  · exact hmsg

theorem assert_returnsOr {c : Bool} {msg : String} (hmsg : .assert msg ∈ u32Limits) :
    ReturnsOr (· ∈ u32Limits) (assert c msg) fun _ => True := by
  cases c
  · exact hmsg
  · trivial

/-- The builder holds the slots. -/
structure Built (interval : Nat) (tableId : TableId) (b : BlockBuilder) (slots : List BlockSlot) :
    Prop where
  buf : b.buf = slotData slots
  interval : b.restartCount = interval
  points : b.restartPoints.map (·.val) = (restarts 0 slots).map (·.1)
  index : b.restartPointsTypeIndex.map mark = changes none 0 slots
  widths : b.restartPointsTypeIndex.getLast?.map (·.mark.2) = slots.getLast?.map types
  lastKey : b.lastKey = (slots.getLast?.map BlockSlot.key).getD []
  count : b.entryCount = slots.length
  table : b.tableId = if slots.isEmpty then none else some tableId
  linked : Linked slots
  tables : ∀ s ∈ slots, s.fullKey.userKey.tableId = tableId

namespace Built

variable {interval : Nat} {tableId : TableId} {b : BlockBuilder}

theorem of_new {options : BlockBuilderOptions} (h : BlockBuilder.new options = .ok b) :
    Built options.restartInterval tableId b [] := by
  unfold BlockBuilder.new at h
  split at h
  · cases h
  · cases h
    refine ⟨rfl, rfl, rfl, rfl, rfl, rfl, rfl, rfl, ?_, by simp⟩
    intro before s after heq
    simp at heq

section

variable (h : Built interval tableId b slots)
include h

theorem assertTableId_ok {t : TableId} (ht : t = tableId) : b.assertTableId t = .ok () := by
  unfold BlockBuilder.assertTableId
  rw [h.table]
  by_cases hnil : slots.isEmpty = true <;> simp [hnil, ht]

theorem debugValid_ok (dbg : Bool) (t : Option TableId) :
    ({ b with tableId := t } : BlockBuilder).debugValid dbg = .ok () := by
  unfold BlockBuilder.debugValid
  split
  · rename_i hzero
    have hslots : slots = [] := length_eq_zero_iff.1 (h.count.symm.trans hzero)
    subst hslots
    have hpoints : b.restartPoints = [] := by simpa [restarts] using h.points
    have hindex : b.restartPointsTypeIndex = [] := by simpa [changes] using h.index
    simp [h.buf, hpoints, hindex, h.lastKey, debugAssert]
  · rfl

variable {k : FullKey}

theorem debugAscending_ok (dbg : Bool) (t : Option TableId)
    (htable : k.userKey.tableId = tableId) (hlt : ∀ s ∈ slots, s.fullKey < k) :
    ({ b with tableId := t } : BlockBuilder).debugAscending dbg k.encodeWithoutTableId = .ok () := by
  unfold BlockBuilder.debugAscending
  split
  · rename_i hpos
    have hne : slots ≠ [] := by
      intro hnil
      simp [h.count, hnil] at hpos
    obtain ⟨s, hs⟩ : ∃ s, slots.getLast? = some s := ⟨_, getLast?_eq_some_getLast hne⟩
    have hmem : s ∈ slots := mem_of_getLast? hs
    have hcmp : compareEncodedFullKey s.key k.encodeWithoutTableId = .ok .lt := by
      rw [BlockSlot.key, compareEncodedFullKey_withoutTableId ((h.tables s hmem).trans htable.symm),
        (cmp_eq_lt_iff _ _).2 (hlt s hmem)]
    have hkey : k.encodeWithoutTableId.isEmpty = false := by
      rw [isEmpty_eq_false_iff, ← length_pos_iff, FullKey.length_encodeWithoutTableId]
      simp [epochLen]
    simp only [h.lastKey, hs, Option.map_some, Option.getD_some, hkey, hcmp]
    rfl
  · rfl

theorem typeMismatch_eq (t : Option TableId)
    (kType vType : LenType) : ({ b with tableId := t } : BlockBuilder).typeMismatch kType vType =
      decide (slots.getLast?.map types ≠ some (kType, vType)) := by
  unfold BlockBuilder.typeMismatch
  rw [← h.widths]
  cases b.restartPointsTypeIndex.getLast? with
  | none => simp
  | some last =>
    simp only [Option.map_some, mark, ne_eq, Option.some.injEq]
    by_cases hk : kType = last.keyLenType
    · by_cases hv : vType = last.valueLenType
      · simp [hk, hv]
      · simp [hv, Ne.symm hv]
    · simp [hk, Ne.symm hk]

theorem restartOrDiff_returnsOr (hinterval : 0 < interval) (t : Option TableId) {v : Bytes}
    {kType vType : LenType} (hk : k.encodeWithoutTableId.length < 256 ^ kType.len)
    (hv : v.length < 256 ^ vType.len) : ReturnsOr (· ∈ u32Limits)
      (({ b with tableId := t } : BlockBuilder).restartOrDiff k.encodeWithoutTableId kType vType)
      fun r => ∃ (s : BlockSlot) (points : List U32) (index : List RestartPoint),
        s.entry = (k, v) ∧ s.types = (kType, vType) ∧ LaidAfter slots.getLast? s ∧
        r = ({ b with tableId := t, restartPoints := points, restartPointsTypeIndex := index },
          s.key.drop s.overlap) ∧
        points.map (·.val) = (restarts 0 (slots ++ [s])).map (·.1) ∧
        index.map mark = changes none 0 (slots ++ [s]) ∧
        index.getLast?.map (·.mark.2) = some s.types := by
  have hmismatch := h.typeMismatch_eq t kType vType
  have hrem : checkedRem b.entryCount b.restartCount = .ok (b.entryCount % b.restartCount) := by
    rw [checkedRem, if_neg (by rw [h.interval]; omega)]
  unfold BlockBuilder.restartOrDiff
  rw [hmismatch, hrem, ok_bind]
  split
  · -- a restart point: the whole key is written
    refine (checkedIntoU32_returnsOr (by simp [u32Limits])).bind fun offset hoffset => ?_
    rw [h.buf] at hoffset
    let s : BlockSlot := ⟨k, v, 0, kType, vType, true⟩
    refine ⟨s, _, _, rfl, rfl, ⟨hk, hv, Nat.zero_le _, fun _ => rfl, fun hr => ?_⟩, rfl, ?_, ?_, ?_⟩
    · cases hr
    · simp [restarts_append, restarts, h.points, s, hoffset]
    · rw [changes_append_singleton]
      by_cases hm : slots.getLast?.map types = some (kType, vType)
      · simp [hm, h.index, s, types]
      · simp [hm, h.index, s, types, mark, hoffset]
    · by_cases hm : slots.getLast?.map types = some (kType, vType)
      · simp [hm, h.widths, s, types]
      · simp [hm, s, types, mark]
  · -- the widths are those of the last slot, with which the key shares a part
    rename_i hnot
    have hm : slots.getLast?.map types = some (kType, vType) := by
      by_contra hm
      exact hnot (.inr (by simpa using hm))
    obtain ⟨l, hl, hltypes⟩ := Option.map_eq_some_iff.1 hm
    obtain ⟨i, hi, hdiff, hshared⟩ := bytesDiff_spec b.lastKey k.encodeWithoutTableId
    have hlast : b.lastKey = l.key := by rw [h.lastKey, hl]; rfl
    let s : BlockSlot := ⟨k, v, i, kType, vType, false⟩
    refine ⟨s, b.restartPoints, b.restartPointsTypeIndex, rfl, rfl, ⟨hk, hv, hi, fun hr => ?_,
      fun _ => ⟨l, hl, hltypes, hlast ▸ hshared⟩⟩, ?_, ?_, ?_, ?_⟩
    · cases hr
    · rw [hdiff]
      rfl
    · simp [restarts_append, restarts, h.points]
    · rw [changes_append_singleton]
      simp [hm, h.index, s, types]
    · rw [h.widths, hm]
      rfl

theorem add_returnsOr (hinterval : 0 < interval) (dbg : Bool)
    {v : Bytes} (htable : k.userKey.tableId = tableId) (hlt : ∀ s ∈ slots, s.fullKey < k) :
    ReturnsOr (· ∈ u32Limits) (b.add dbg k v) fun b' =>
      ∃ s : BlockSlot, s.entry = (k, v) ∧ Built interval tableId b' (slots ++ [s]) := by
  unfold BlockBuilder.add
  dsimp only
  rw [h.assertTableId_ok htable, h.debugValid_ok, h.debugAscending_ok dbg _ htable hlt]
  refine (lenType_new_returnsOr _).bind fun kType hk => ?_
  refine (lenType_new_returnsOr _).bind fun vType hv => ?_
  refine (h.restartOrDiff_returnsOr hinterval _ hk hv).bind fun r hr => ?_
  obtain ⟨s, points, index, hentry, htypes, hlaid, rfl, hpoints, hindex, hwidths⟩ := hr
  have hkey : s.key = k.encodeWithoutTableId := congrArg (fun e => e.1.encodeWithoutTableId) hentry
  have hvalue : s.value = v := congrArg Prod.snd hentry
  have hov := hlaid.overlap_le
  have hdrop : (s.key.drop s.overlap).length = s.key.length - s.overlap := length_drop
  have hsub : checkedSub s.key.length (s.key.drop s.overlap).length = .ok s.overlap :=
    checkedSub_eq_ok.2 (by omega)
  rw [types, Prod.mk.injEq] at htypes
  rw [← hkey, hsub, hdrop]
  refine ⟨s, hentry,
    ⟨?_, h.interval, hpoints, hindex, ?_, ?_, ?_, ?_, h.linked.append_singleton hlaid, ?_⟩⟩
  · simp [h.buf, BlockSlot.encode, BlockSlot.header, htypes.1, htypes.2, hvalue, KeyPrefix.encode,
      KeyPrefix.newWithoutLen]
  · simpa using hwidths
  · simp
  · simp [h.count]
  · simp [htable]
  · refine forall_mem_append.2 ⟨h.tables, forall_mem_singleton.2 ?_⟩
    rw [← htable]
    exact congrArg (fun e => e.1.userKey.tableId) hentry

end

theorem addAll_returnsOr (hinterval : 0 < interval) (dbg : Bool) {entries : List (FullKey × Bytes)}
    (htable : ∀ e ∈ entries, e.1.userKey.tableId = tableId)
    (hsorted : entries.Pairwise fun x y => x.1 < y.1) (h : Built interval tableId b []) :
    ReturnsOr (· ∈ u32Limits) (entries.foldlM (fun b e => b.add dbg e.1 e.2) b) fun b' =>
      ∃ slots, slots.map BlockSlot.entry = entries ∧ Built interval tableId b' slots := by
  let P : List (FullKey × Bytes) → BlockBuilder → Prop := fun rest b =>
    ∃ slots : List BlockSlot, slots.map BlockSlot.entry ++ rest = entries ∧
      Built interval tableId b slots
  have hP : P entries b := ⟨[], rfl, h⟩
  refine (ReturnsOr.foldlM P (fun e rest b hb => ?_) hP).mono fun b' hb' => ?_
  · obtain ⟨slots, heq, hb⟩ := hb
    have hmem : e ∈ entries := heq ▸ mem_append_right _ (.head _)
    have hlt : ∀ s ∈ slots, s.fullKey < e.1 := by
      intro s hs
      rw [← heq, pairwise_append] at hsorted
      exact hsorted.2.2 s.entry (mem_map_of_mem hs) e (.head _)
    refine (hb.add_returnsOr hinterval dbg (htable e hmem) hlt).mono fun b' ⟨s, hs, hb'⟩ => ?_
    exact ⟨slots ++ [s], by rw [map_append, ← heq]; simp [hs], hb'⟩
  · obtain ⟨slots, heq, hb'⟩ := hb'
    exact ⟨slots, by simpa using heq, hb'⟩

end Built

/-! ## Decoding -/

theorem LenType.fromU8_toNat (t : LenType) : fromU8 t.toNat = .ok t := by
  cases t <;> rfl

theorem getLe_offset (x : U32) (rest : Bytes) :
    getLe 4 (leBytes 4 x.val ++ rest) = .ok (x.val, rest) :=
  getLe_leBytes (by have := x.isLt; omega) rest

theorem decodeTypeIndex_encode : ∀ (index : List RestartPoint),
    decodeTypeIndex index.length (index.flatMap encodeTypeIndex) = .ok index
  | [] => rfl
  | point :: index => by
    have hk : point.keyLenType.toNat < 2 ^ 4 := by cases point.keyLenType <;> decide
    have hv : point.valueLenType.toNat < 2 ^ 4 := by cases point.valueLenType <;> decide
    rw [flatMap_cons, length_cons, decodeTypeIndex, encodeTypeIndex, append_assoc,
      getLe_offset, ok_bind]
    dsimp only
    rw [getLe_leBytes (by omega), ok_bind]
    rw [show (point.keyLenType.toNat * 2 ^ 4 + point.valueLenType.toNat) / 2 ^ 4 =
      point.keyLenType.toNat by omega,
      show (point.keyLenType.toNat * 2 ^ 4 + point.valueLenType.toNat) % 2 ^ 4 =
        point.valueLenType.toNat by omega,
      fromU8_toNat, fromU8_toNat, ok_bind, ok_bind, decodeTypeIndex_encode index,
      ok_bind, Fin.ofNat_val_eq_self]

variable {typeIndex offset : Nat}

theorem nextTypeIndex_stay {index : List RestartPoint} (hlt : typeIndex < index.length)
    (h : ∀ next, index[typeIndex + 1]? = some next → offset < next.offset.val) :
    nextTypeIndex index typeIndex offset = .ok typeIndex := by
  unfold nextTypeIndex
  rw [checkedSub_eq_ok.2 ⟨by omega, rfl⟩, ok_bind]
  split
  · have hnext : index[typeIndex + 1]? = some (index.get ⟨typeIndex + 1, by omega⟩) :=
      getElem?_eq_getElem _
    rw [index_eq_ok.2 hnext, ok_bind, if_neg (Nat.not_le.2 (h _ hnext))]
  · rfl

theorem nextTypeIndex_step {index : List RestartPoint} {next : RestartPoint}
    (hnext : index[typeIndex + 1]? = some next) (h : next.offset.val ≤ offset) :
    nextTypeIndex index typeIndex offset = .ok (typeIndex + 1) := by
  obtain ⟨hlt, -⟩ := List.getElem?_eq_some_iff.1 hnext
  unfold nextTypeIndex
  rw [checkedSub_eq_ok.2 ⟨by omega, rfl⟩, ok_bind, if_pos (by omega), index_eq_ok.2 hnext,
    ok_bind, if_pos h]

/-- At a slot's offset the type index gives the slot's widths; `typeIndex` has those before the
slot. -/
theorem nextTypeIndex_ok {index : List RestartPoint} {off typeIndex : Nat}
    {entry : RestartPoint} (hentry : index[typeIndex]? = some entry)
    (hchanges : (index.drop (typeIndex + 1)).map mark = changes (some entry.mark.2) off (s :: slots)) :
    ∃ j e, nextTypeIndex index typeIndex off = .ok j ∧ index[j]? = some e ∧
      e.mark.2 = s.types ∧ (index.drop (j + 1)).map mark =
        changes (some s.types) (off + s.encode.length) slots := by
  obtain ⟨hlt, -⟩ := List.getElem?_eq_some_iff.1 hentry
  by_cases htypes : entry.mark.2 = s.types
  · -- the next change, if any, is behind `s`
    rw [changes, if_pos (by rw [htypes])] at hchanges
    refine ⟨typeIndex, entry, nextTypeIndex_stay hlt fun next hnext => ?_, hentry, htypes, hchanges⟩
    have hdrop : (index.drop (typeIndex + 1))[0]? = some next := by
      rw [getElem?_drop]
      exact hnext
    have hge := le_of_mem_changes (hchanges ▸ mem_map_of_mem (mem_of_getElem? hdrop))
    have hpos := s.length_encode_pos
    simp only [mark] at hge
    omega
  · -- the next change is at `s`
    rw [changes, if_neg (by simpa using htypes)] at hchanges
    obtain ⟨next, rest, hdrop, hmark, hchanges⟩ := map_eq_cons_iff.1 hchanges
    have hnext : index[typeIndex + 1]? = some next := by
      rw [← Nat.add_zero (typeIndex + 1), ← getElem?_drop, hdrop]
      rfl
    have hoffset : next.offset.val = off := congrArg Prod.fst hmark
    refine ⟨typeIndex + 1, next, nextTypeIndex_step hnext (by omega), hnext,
      congrArg Prod.snd hmark, ?_⟩
    rw [← drop_drop, hdrop]
    exact hchanges

theorem decodeRestartPoints_ok {index : List RestartPoint} :
    ∀ {slots : List BlockSlot} {off typeIndex : Nat} {entry : RestartPoint} {points : List U32},
      points.map (·.val) = (restarts off slots).map (·.1) →
    index[typeIndex]? = some entry →
    (index.drop (typeIndex + 1)).map mark = changes (some entry.mark.2) off slots →
    (∀ before s after, slots = before ++ s :: after → s.restart = false →
      (before.getLast?.map types).getD entry.mark.2 = s.types) →
    ∃ result, decodeRestartPoints index points.length typeIndex
        (points.flatMap fun point => leBytes 4 point.val) = .ok result ∧
      result.map mark = restarts off slots
  | [], off, typeIndex, entry, points, hpoints, hentry, hchanges, hlinked => by
    have hnil : points = [] := by simpa [restarts] using hpoints
    exact ⟨[], by simp [hnil, decodeRestartPoints], rfl⟩
  | s :: slots, off, typeIndex, entry, points, hpoints, hentry, hchanges, hlinked => by
    have hlinked' : ∀ before t after, slots = before ++ t :: after → t.restart = false →
        (before.getLast?.map types).getD s.types = t.types := by
      intro before t after heq ht
      have := hlinked (s :: before) t after (by rw [heq]; rfl) ht
      rw [getLast?_cons] at this
      cases hb : before.getLast? <;> simpa [hb] using this
    by_cases hrestart : s.restart = true
    · simp only [restarts, hrestart, if_true, map_cons] at hpoints ⊢
      obtain ⟨point, points', rfl, hoff, hpoints'⟩ := map_eq_cons_iff.1 hpoints
      obtain ⟨j, e, hnext, he, hetypes, hrest⟩ := nextTypeIndex_ok hentry hchanges
      obtain ⟨result, hrun, hmarks⟩ := decodeRestartPoints_ok hpoints' he
        (by rw [hetypes]; exact hrest) (by rw [hetypes]; exact hlinked')
      refine ⟨⟨point, e.keyLenType, e.valueLenType⟩ :: result, ?_, ?_⟩
      · rw [length_cons, flatMap_cons, decodeRestartPoints, getLe_offset, ok_bind]
        dsimp only
        rw [hoff, hnext, ok_bind, index_eq_ok.2 he, ok_bind, hrun, ok_bind, ← hoff,
          Fin.ofNat_val_eq_self]
      · rw [map_cons, hmarks, ← hetypes, ← hoff]
        rfl
    · -- no point for `s`, which has the widths before it
      have hsame : entry.mark.2 = s.types := by
        simpa using hlinked [] s slots rfl (by simpa using hrestart)
      simp only [restarts, hrestart, Bool.false_eq_true] at hpoints ⊢
      rw [changes, if_pos (by rw [hsame])] at hchanges
      exact decodeRestartPoints_ok hpoints hentry (by rw [hsame]; exact hchanges)
        (by rw [hsame]; exact hlinked')

def rawBlock (data : Bytes) (points : List U32) (index : List RestartPoint) (tableId : TableId) :
    Bytes :=
  data ++ (points.flatMap (fun point => leBytes 4 point.val) ++ (leBytes 4 points.length ++
    (index.flatMap encodeTypeIndex ++ (leBytes 4 index.length ++ leBytes 4 tableId.val))))

theorem length_points (points : List U32) :
    (points.flatMap fun point => leBytes 4 point.val).length = points.length * 4 := by
  simp

theorem length_typeIndex (index : List RestartPoint) :
    (index.flatMap encodeTypeIndex).length = index.length * RestartPoint.sizeOf := by
  simp [encodeTypeIndex, RestartPoint.sizeOf]

theorem length_rawBlock (data : Bytes) (points : List U32) (index : List RestartPoint)
    (tableId : TableId) : (rawBlock data points index tableId).length =
      data.length + (points.length * 4 + (4 + (index.length * 5 + (4 + 4)))) := by
  simp only [rawBlock, length_append, length_points, length_typeIndex, length_leBytes,
    RestartPoint.sizeOf]

variable {tableId : TableId}

theorem decodeFromRaw_rawBlock {data : Bytes} {points : List U32} {index : List RestartPoint}
    {restartPoints : List RestartPoint} (hpoints : points.length < 2 ^ 32)
    (hindex : index.length < 2 ^ 32) (hrun : decodeRestartPoints index points.length 0
      (points.flatMap fun point => leBytes 4 point.val) = .ok restartPoints) :
    decodeFromRaw (rawBlock data points index tableId) =
      .ok ⟨rawBlock data points index tableId, data.length, tableId, restartPoints⟩ := by
  have hlen := length_rawBlock data points index tableId
  generalize hbuf : rawBlock data points index tableId = buf at hlen
  have hp := length_points points
  have hi := length_typeIndex index
  generalize hpbytes : (points.flatMap fun point => leBytes 4 point.val) = pbytes at hp hrun
  generalize hibytes : index.flatMap encodeTypeIndex = ibytes at hi
  have hbuf' : buf = data ++ (pbytes ++ (leBytes 4 points.length ++
      (ibytes ++ (leBytes 4 index.length ++ leBytes 4 tableId.val)))) := by
    rw [← hbuf, rawBlock, hpbytes, hibytes]
  -- the four places the decoder reads at
  have htable : buf.drop (buf.length - 4) = leBytes 4 tableId.val ++ [] := by
    rw [hbuf', ← append_assoc, ← append_assoc, ← append_assoc, ← append_assoc, drop_left', append_nil]
    simp only [length_append, length_leBytes]
    omega
  have hnindex : buf.drop (buf.length - 8) = leBytes 4 index.length ++ leBytes 4 tableId.val := by
    rw [hbuf', ← append_assoc, ← append_assoc, ← append_assoc, drop_left']
    simp only [length_append, length_leBytes]
    omega
  have hnpoints : buf.drop (data.length + points.length * 4) = leBytes 4 points.length ++
      (ibytes ++ (leBytes 4 index.length ++ leBytes 4 tableId.val)) := by
    rw [hbuf', ← append_assoc, drop_left']
    simp only [length_append]
    omega
  have hislice : slice buf (data.length + points.length * 4 + 4) (buf.length - 8) = .ok ibytes := by
    rw [hbuf', ← append_assoc, ← append_assoc]
    refine slice_append _ _ _ ?_ ?_ <;> simp only [length_append, length_leBytes] <;> omega
  have hpslice : slice buf data.length (data.length + points.length * 4) = .ok pbytes := by
    rw [hbuf']
    exact slice_append _ _ _ rfl (by omega)
  unfold decodeFromRaw
  rw [checkedSub_eq_ok.2 ⟨by omega, rfl⟩, ok_bind, htable, getLe_offset, ok_bind]
  dsimp only
  rw [checkedSub_eq_ok.2 ⟨by omega, rfl⟩, ok_bind, hnindex, getLe_leBytes (by omega), ok_bind]
  rw [RestartPoint.sizeOf, checkedSub_eq_ok.2 ⟨by omega, rfl⟩, ok_bind,
    show buf.length - 4 - (4 + index.length * 5) = data.length + points.length * 4 + 4 by omega,
    hislice, ok_bind, ← hibytes, decodeTypeIndex_encode, ok_bind,
    checkedSub_eq_ok.2 ⟨by omega, rfl⟩, ok_bind, Nat.add_sub_cancel, hnpoints,
    getLe_leBytes (by omega), ok_bind]
  rw [checkedSub_eq_ok.2 ⟨by omega, rfl⟩, ok_bind,
    show data.length + points.length * 4 + 4 - (4 + points.length * 4) = data.length by omega,
    hpslice, ok_bind, hrun, ok_bind, Fin.ofNat_val_eq_self]

/-- The block holds the slots. -/
structure Holds (block : Block) (slots : List BlockSlot) : Prop where
  ne_nil : slots ≠ []
  data_ne_nil : block.data ≠ []
  entries : block.entries = slotData slots
  dataLen : block.dataLen = (slotData slots).length
  points : block.restartPoints.map mark = restarts 0 slots
  linked : Linked slots
  tables : ∀ s ∈ slots, s.fullKey.userKey.tableId = block.tableId

theorem decodeFromRaw_built {interval : Nat} {b : BlockBuilder}
    (h : Built interval tableId b slots) (hne : slots ≠ [])
    (hpoints : b.restartPoints.length < 2 ^ 32)
    (hindex : b.restartPointsTypeIndex.length < 2 ^ 32) : ∃ block, decodeFromRaw
        (rawBlock b.buf b.restartPoints b.restartPointsTypeIndex tableId) = .ok block ∧
      Holds block slots := by
  obtain ⟨s, rest, rfl⟩ := exists_cons_of_ne_nil hne
  -- the first entry of the type index is for the first slot
  have hchanges := h.index
  obtain ⟨entry, index, hentry, hmark, hmarks⟩ := map_eq_cons_iff.1 hchanges
  have htypes : entry.mark.2 = s.types := congrArg Prod.snd hmark
  have hget : b.restartPointsTypeIndex[0]? = some entry := by rw [hentry]; rfl
  have hrest : (b.restartPointsTypeIndex.drop (0 + 1)).map mark =
      changes (some entry.mark.2) 0 (s :: rest) := by
    rw [hentry, changes, if_pos (by rw [htypes])]
    exact hmarks
  obtain ⟨result, hrun, hresult⟩ := decodeRestartPoints_ok h.points hget hrest (by
    intro before t after heq ht
    obtain ⟨l, hl, hltypes, -⟩ := (h.linked before t after heq).shared ht
    rw [hl]
    exact hltypes)
  have hne' : slotData (s :: rest) ≠ [] := by
    rw [← length_pos_iff, slotData_cons, length_append]
    have := s.length_encode_pos
    omega
  refine ⟨_, decodeFromRaw_rawBlock hpoints hindex hrun, hne, ?_, ?_, ?_, hresult, h.linked, h.tables⟩
  · rw [h.buf]
    exact append_ne_nil_of_left_ne_nil hne' _
  · rw [entries, rawBlock, h.buf, take_left]
  · rw [h.buf]

theorem compression_decode_encode (a : CompressionAlgorithm) :
    ∃ v : U8, a.encode = [v] ∧ CompressionAlgorithm.decode v = .ok a := by
  cases a
  · exact ⟨0, rfl, rfl⟩
  · exact ⟨1, rfl, rfl⟩
  · exact ⟨2, rfl, rfl⟩

/-- A block behind its compression method and its checksum. -/
def sealBlock (codec : Codec) (algorithm : CompressionAlgorithm) (raw : Bytes) : Bytes :=
  let body := (if algorithm = .none then raw else codec.compress algorithm raw) ++ algorithm.encode
  body ++ leBytes 8 (codec.xxhash64Checksum body).val

/-- What is read at the end of a block: the method and the checksum behind the payload. -/
structure Trailer (codec : Codec) (buf payload : Bytes) (algorithm : CompressionAlgorithm) : Prop where
  checksumPos : checkedSub buf.length 8 = .ok (payload.length + 1)
  algorithmPos : checkedSub buf.length 9 = .ok payload.length
  checksum : ∃ c, getLe 8 (buf.drop (payload.length + 1)) = .ok (c, []) ∧
    codec.xxhash64Verify (buf.take (payload.length + 1)) (Fin.ofNat _ c) = .ok ()
  algorithm : ∃ v, index buf payload.length = .ok v ∧ CompressionAlgorithm.decode v = .ok algorithm
  payload : buf.take payload.length = payload

theorem sealBlock_trailer (codec : Codec) (algorithm : CompressionAlgorithm) (raw : Bytes) :
    Trailer codec (sealBlock codec algorithm raw)
      (if algorithm = .none then raw else codec.compress algorithm raw) algorithm := by
  obtain ⟨v, hv, hdecode⟩ := compression_decode_encode algorithm
  generalize hpayload : (if algorithm = .none then raw else codec.compress algorithm raw) = payload
  have hbuf : sealBlock codec algorithm raw =
      payload ++ [v] ++ leBytes 8 (codec.xxhash64Checksum (payload ++ [v])).val := by
    rw [sealBlock, hpayload, hv]
  have hlen : (sealBlock codec algorithm raw).length = payload.length + 1 + 8 := by simp [hbuf]
  have hsum : (codec.xxhash64Checksum (payload ++ [v])).val < 256 ^ 8 := by
    omega
  have hbody : (payload ++ [v]).length = payload.length + 1 := by simp
  refine ⟨checkedSub_eq_ok.2 (by omega), checkedSub_eq_ok.2 (by omega),
    ⟨(codec.xxhash64Checksum (payload ++ [v])).val, ?_, ?_⟩, ⟨v, ?_, hdecode⟩, ?_⟩
  · rw [hbuf, ← hbody, drop_left, ← append_nil (leBytes 8 _), getLe_leBytes hsum]
  · rw [hbuf, ← hbody, take_left, Fin.ofNat_val_eq_self, Codec.xxhash64Verify, if_pos rfl]
  · rw [index_eq_ok, hbuf, append_assoc, getElem?_append_right (Nat.le_refl _), Nat.sub_self]
    rfl
  · rw [hbuf, append_assoc, take_left]

theorem decode_sealBlock {codec : Codec} {algorithm : CompressionAlgorithm} {raw : Bytes}
    {block : Block} (hraw : decodeFromRaw raw = .ok block) :
    decode codec (sealBlock codec algorithm raw) raw.length = .ok (.ok block) := by
  have h := sealBlock_trailer codec algorithm raw
  obtain ⟨c, hget, hverify⟩ := h.checksum
  obtain ⟨v, hindex, hdecode⟩ := h.algorithm
  unfold decode
  rw [h.checksumPos, ok_bind, hget, ok_bind]
  dsimp only
  rw [hverify]
  rw [h.algorithmPos, ok_bind, hindex, ok_bind, hdecode, h.payload]
  by_cases halg : algorithm = .none
  · subst halg
    rw [if_pos rfl]
    rw [hraw, ok_bind]
  · have hdecompress := codec.decompress_compress algorithm raw
    cases algorithm with
    | none => exact absurd rfl halg
    | lz4 | zstd => simp [hdecompress, hraw]

theorem decode_build {interval : Nat} {b : BlockBuilder} (codec : Codec)
    (h : Built interval tableId b slots) (hne : slots ≠ []) :
    ReturnsOr (· ∈ u32Limits) (b.build codec) fun r => (∃ buf, r.2 = { b with buf }) ∧ ∃ block,
      decode codec r.1 b.uncompressedBlockSize = .ok (.ok block) ∧ Holds block slots := by
  have hcount : 0 < b.entryCount := by
    rw [h.count]
    exact length_pos_iff.2 hne
  have htable : b.tableId = some tableId := by
    rw [h.table, if_neg (by simpa using hne)]
  unfold BlockBuilder.build
  rw [decide_eq_true hcount, assert_true]
  refine (checkedIntoU32_returnsOr (by simp [u32Limits])).bind fun nRestarts hnRestarts => ?_
  refine (checkedIntoU32_returnsOr (by simp [u32Limits])).bind fun nIndex hnIndex => ?_
  have hraw : b.buf ++ (b.restartPoints.flatMap fun point => leBytes 4 point.val) ++
      leBytes 4 nRestarts.val ++ b.restartPointsTypeIndex.flatMap encodeTypeIndex ++
      leBytes 4 nIndex.val ++ leBytes 4 tableId.val =
        rawBlock b.buf b.restartPoints b.restartPointsTypeIndex tableId := by
    simp only [rawBlock, hnRestarts, hnIndex, append_assoc]
  rw [htable, unwrap, ok_bind, hraw]
  obtain ⟨block, hblock, hholds⟩ :=
    decodeFromRaw_built h hne (hnRestarts ▸ nRestarts.isLt) (hnIndex ▸ nIndex.isLt)
  have hsize : b.uncompressedBlockSize =
      (rawBlock b.buf b.restartPoints b.restartPointsTypeIndex tableId).length := by
    rw [length_rawBlock, BlockBuilder.uncompressedBlockSize, RestartPoint.sizeOf]
    omega
  refine (assert_returnsOr (by simp [u32Limits])).bind fun _ _ => ⟨⟨_, rfl⟩, block, ?_, hholds⟩
  rw [hsize]
  exact decode_sealBlock hblock

end Hummock
