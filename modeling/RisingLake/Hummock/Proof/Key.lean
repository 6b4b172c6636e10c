import RisingLake.Hummock.Key
import RisingLake.Lib.Slice

/-!
# The order of keys

* `splitVnode_eq_ok`: the keys that split at a vnode are the ones prefixed with its two bytes.
* `vnodeKey_lt_iff`: prefixed keys are ordered by vnode, then by the rest.
* `compareEncodedFullKey_eq`: comparing two encoded full keys is comparing the decoded keys.
* `decode_encode`: decoding undoes encoding.
* `prefixedRange_exact`: what lies in the range of a vnode and in that of a prefix.
-/

namespace Hummock

open Res Bytes List FullKey Bound TableKey

theorem cmp_congr {α β : Type} [LT α] [DecidableLT α] [LT β] [DecidableLT β] {a b : α} {c d : β}
    (h : a < b ↔ c < d) (h' : b < a ↔ d < c) : cmp a b = cmp c d := by
  simp [cmp, cmpUsing, h, h']

theorem cmp_then {α β γ : Type} [LinearOrder α] [LinearOrder β] [LT γ] [DecidableLT γ]
    {a b : α} {x y : β} {z w : γ} (h : a < b ↔ x < y ∨ x = y ∧ z < w)
    (h' : b < a ↔ y < x ∨ y = x ∧ w < z) : cmp a b = (cmp x y).then (cmp z w) := by
  rcases lt_trichotomy x y with hlt | rfl | hgt
  · rw [(cmp_eq_lt_iff _ _).2 hlt, (cmp_eq_lt_iff _ _).2 (h.2 (.inl hlt))]
    rfl
  · rw [cmp_self_eq_eq]
    exact cmp_congr (by simp [h]) (by simp [h'])
  · rw [(cmp_eq_gt_iff _ _).2 hgt, (cmp_eq_gt_iff _ _).2 (h'.2 (.inl hgt))]
    rfl

/-! ## Vnodes -/

variable {dbg : Bool} {a b vn : VirtualNode}

namespace VirtualNode

/-- The vnodes that the build makes. -/
def Ok (dbg : Bool) (vn : VirtualNode) : Prop := dbg = true → vn.toIndex < vnodeMaxCount

theorem val_maxRepresentable : maxRepresentable.val = 2 ^ 15 - 1 := rfl

theorem length_toBeBytes (vn : VirtualNode) : vn.toBeBytes.length = size := length_beBytes _ _

theorem beNat_toBeBytes (vn : VirtualNode) : beNat vn.toBeBytes = vn.val :=
  beNat_beBytes (by have := vn.isLt; simp only [size]; omega)

theorem fromIndex_eq_ok {i : Nat} (hi : i < 2 ^ 16) :
    fromIndex dbg i = .ok vn ↔ vn.Ok dbg ∧ i = vn.val := by
  simp only [fromIndex, bind_eq_ok, debugAssert_eq_ok, decide_eq_true_eq, Except.ok.injEq,
    Fin.ext_iff, Fin.val_ofNat, Nat.mod_eq_of_lt hi, Ok, toIndex]
  grind

theorem fromIndex_of_lt (dbg : Bool) {i : Nat} (h : i < vnodeMaxCount) :
    fromIndex dbg i = .ok (Fin.ofNat _ i) := by
  simp [fromIndex, debugAssert, h]

theorem toBeBytes_lt_iff : a.toBeBytes < b.toBeBytes ↔ a < b := by
  rw [beNat_lt_iff (by rw [length_toBeBytes, length_toBeBytes]), beNat_toBeBytes,
    beNat_toBeBytes, Fin.lt_def]

theorem toBeBytes_inj : a.toBeBytes = b.toBeBytes ↔ a = b := by
  constructor
  · intro h
    have := congrArg beNat h
    rw [beNat_toBeBytes, beNat_toBeBytes] at this
    exact Fin.ext this
  · rintro rfl; rfl

theorem exists_toBeBytes {bytes : Bytes} (h : bytes.length = size) :
    ∃ v : VirtualNode, bytes = v.toBeBytes := by
  have hlt := beNat_lt bytes
  have hbytes := beBytes_beNat bytes
  rw [h] at hlt hbytes
  exact ⟨⟨_, hlt⟩, hbytes.symm⟩

theorem fromBeBytes_eq_ok {bytes : Bytes} (hlen : bytes.length = size) :
    fromBeBytes dbg bytes = .ok vn ↔ vn.Ok dbg ∧ bytes = vn.toBeBytes := by
  obtain ⟨v, rfl⟩ := exists_toBeBytes hlen
  simp only [fromBeBytes, beNat_toBeBytes, Fin.ofNat_val_eq_self, bind_eq_ok, debugAssert_eq_ok,
    decide_eq_true_eq, Except.ok.injEq, toBeBytes_inj, Ok, toIndex]
  grind

end VirtualNode

open VirtualNode

theorem vnodeKey_lt_iff {x y : Bytes} : a.toBeBytes ++ x < b.toBeBytes ++ y ↔
    a < b ∨ a = b ∧ x < y := by
  rw [append_lt_append_iff _ _ (by rw [length_toBeBytes, length_toBeBytes]), toBeBytes_lt_iff,
    toBeBytes_inj]

theorem vnodeKey_le_iff {x y : Bytes} : a.toBeBytes ++ x ≤ b.toBeBytes ++ y ↔
    a < b ∨ a = b ∧ x ≤ y := by
  rw [← not_lt, vnodeKey_lt_iff]
  rcases lt_trichotomy a b with h | h | h
  · simp [h, h.not_gt, h.ne']
  · simp [h]
  · simp [h, h.not_gt, h.ne']

theorem vnodeKey_inj {x y : Bytes} :
    a.toBeBytes ++ x = b.toBeBytes ++ y ↔ a = b ∧ x = y := by
  constructor
  · intro h
    have := append_inj h (by rw [length_toBeBytes, length_toBeBytes])
    exact ⟨toBeBytes_inj.1 this.1, this.2⟩
  · rintro ⟨rfl, rfl⟩
    rfl

theorem exists_vnode {key : Bytes} (h : size ≤ key.length) : ∃ (v : VirtualNode) (inner : Bytes),
    v.toIndex = beNat (key.take size) ∧ key = v.toBeBytes ++ inner := by
  obtain ⟨v, hv⟩ := exists_toBeBytes (show (key.take size).length = size by simp [h])
  exact ⟨v, key.drop size, by rw [hv, beNat_toBeBytes, toIndex], by rw [← hv, take_append_drop]⟩

namespace TableKey

theorem splitVnode_eq_ok {key inner : Bytes} : splitVnode dbg key = .ok (vn, inner) ↔
    vn.Ok dbg ∧ key = vn.toBeBytes ++ inner := by
  have hlen := length_toBeBytes vn
  by_cases hkey : size ≤ key.length
  · have htake : (key.take size).length = size := by simp [hkey]
    simp only [splitVnode, bind_eq_ok, debugAssert_eq_ok, hkey, not_lt.2 hkey, decide_true,
      implies_true, if_false, fromBeBytes_eq_ok htake, Except.ok.injEq, Prod.mk.injEq]
    constructor
    · rintro ⟨-, -, _, ⟨hok, hvn⟩, rfl, rfl⟩
      exact ⟨hok, by rw [← hvn, take_append_drop]⟩
    · rintro ⟨hok, rfl⟩
      exact ⟨(), trivial, vn, ⟨hok, by rw [← hlen, take_left]⟩, rfl, by rw [← hlen, drop_left]⟩
  · refine iff_of_false (fun h => ?_) ?_
    · simp [splitVnode, bind_eq_ok, not_le.1 hkey] at h
    · rintro ⟨-, rfl⟩
      simp [hlen] at hkey

theorem keyPart_eq_ok {key inner : Bytes} : keyPart dbg key = .ok inner ↔
    ∃ vn : VirtualNode, vn.Ok dbg ∧ key = vn.toBeBytes ++ inner := by
  simp only [keyPart, bind_eq_ok, Prod.exists, splitVnode_eq_ok, Except.ok.injEq, exists_eq_right]

theorem vnodePart_eq_ok {key : Bytes} : vnodePart dbg key = .ok vn ↔
    vn.Ok dbg ∧ ∃ inner, key = vn.toBeBytes ++ inner := by
  simp only [vnodePart, bind_eq_ok, Prod.exists, splitVnode_eq_ok, Except.ok.injEq,
    exists_and_right, exists_eq_right, exists_and_left]

end TableKey

/-! ## User keys and full keys -/

theorem UserKey.lt_iff {a b : UserKey} :
    a < b ↔ a.tableId < b.tableId ∨ a.tableId = b.tableId ∧ a.tableKey < b.tableKey :=
  Prod.Lex.toLex_lt_toLex

variable {a b : FullKey}

theorem FullKey.lt_iff :
    a < b ↔ a.userKey < b.userKey ∨ a.userKey = b.userKey ∧ b.epochWithGap < a.epochWithGap :=
  Prod.Lex.toLex_lt_toLex

theorem FullKey.cmp_eq (a b : FullKey) :
    cmp a b = (cmp a.userKey b.userKey).then (cmp b.epochWithGap a.epochWithGap) :=
  cmp_then lt_iff lt_iff

theorem UserKey.decode_eq_ok {bs : Bytes} {key : UserKey} : UserKey.decode bs = .ok key ↔
    bs = key.encode := by
  unfold UserKey.decode UserKey.encode
  constructor
  · intro h
    split at h
    · cases h
    cases h
    have htake : (bs.take tablePrefixLen).length = tablePrefixLen := by simp; omega
    have hlt := beNat_lt (bs.take tablePrefixLen)
    rw [htake] at hlt
    simp only [Fin.ofNat_eq_cast, Fin.val_natCast]
    rw [Nat.mod_eq_of_lt (by simpa [tablePrefixLen] using hlt)]
    conv_lhs => rw [← take_append_drop tablePrefixLen bs, ← beBytes_beNat (bs.take _), htake]
  · rintro rfl
    have hlen := length_beBytes tablePrefixLen key.tableId.val
    have htake : (beBytes tablePrefixLen key.tableId.val ++ key.tableKey).take tablePrefixLen =
        beBytes tablePrefixLen key.tableId.val := take_left' hlen
    rw [htake, beNat_beBytes (by simp [tablePrefixLen])]
    simp

theorem UserKey.encode_lt_iff {a b : UserKey} : a.encode < b.encode ↔ a < b := by
  rw [UserKey.lt_iff, UserKey.encode, UserKey.encode, append_lt_append_iff _ _ (by simp),
    beNat_lt_iff (by simp)]
  have ha : a.tableId.val < 256 ^ tablePrefixLen := by simp [tablePrefixLen]
  have hb : b.tableId.val < 256 ^ tablePrefixLen := by simp [tablePrefixLen]
  rw [beNat_beBytes ha, beNat_beBytes hb]
  refine or_congr_right (and_congr_left fun _ => ⟨fun h => ?_, fun h => by rw [h]⟩)
  have := congrArg beNat h
  rw [beNat_beBytes ha, beNat_beBytes hb] at this
  exact Fin.ext this

theorem FullKey.decode_eq_ok {bs : Bytes} {key : FullKey} : decode bs = .ok key ↔
    bs = key.encode := by
  rw [decode]
  constructor
  · intro h
    split at h
    · cases h
    obtain ⟨ukey, hu, h⟩ := bind_eq_ok.1 h
    cases h
    rw [UserKey.decode_eq_ok] at hu
    have hdrop : (bs.drop (bs.length - epochLen)).length = epochLen := by simp; omega
    have hlt := beNat_lt (bs.drop (bs.length - epochLen))
    rw [hdrop] at hlt
    rw [encode, ← hu]
    simp only [Fin.ofNat_eq_cast, Fin.val_natCast]
    rw [Nat.mod_eq_of_lt (by simpa [epochLen] using hlt)]
    conv_lhs => rw [← take_append_drop (bs.length - epochLen) bs, ← beBytes_beNat (bs.drop _), hdrop]
  · rintro rfl
    have hpos : key.encode.length - epochLen = key.userKey.encode.length := by
      simp [encode]
    rw [if_neg (by simp [encode])]
    refine bind_eq_ok.2 ⟨key.userKey, ?_, ?_⟩
    · rw [UserKey.decode_eq_ok, hpos, encode, take_left]
    · rw [hpos, encode, drop_left, beNat_beBytes (by simp [epochLen])]
      simp

variable (key : FullKey)

theorem FullKey.decode_encode : decode key.encode = .ok key := decode_eq_ok.2 rfl

theorem FullKey.encode_inj : a.encode = b.encode ↔ a = b := by
  constructor
  · intro h
    have := decode_encode a
    rw [h, decode_encode b] at this
    cases this
    rfl
  · rintro rfl; rfl

theorem FullKey.encode_ne_nil : key.encode ≠ [] := by
  simp [encode, UserKey.encode, beBytes, tablePrefixLen]

theorem FullKey.length_encodeWithoutTableId :
    key.encodeWithoutTableId.length = key.userKey.tableKey.length + epochLen := by
  simp [encodeWithoutTableId]

theorem FullKey.fromSliceWithoutTableId_encode :
    fromSliceWithoutTableId key.userKey.tableId key.encodeWithoutTableId = .ok key := by
  have hpos : checkedSub key.encodeWithoutTableId.length epochLen =
      .ok key.userKey.tableKey.length :=
    checkedSub_eq_ok.2 (by rw [length_encodeWithoutTableId]; omega)
  rw [fromSliceWithoutTableId, hpos, ok_bind, encodeWithoutTableId,
    drop_left, beNat_beBytes (by simp [epochLen])]
  simp

theorem beBytes_epoch_lt_iff (k k' : FullKey) :
    beBytes epochLen k.epochWithGap.val < beBytes epochLen k'.epochWithGap.val ↔
      k.epochWithGap < k'.epochWithGap := by
  rw [beNat_lt_iff (by simp), beNat_beBytes (by simp [epochLen]),
    beNat_beBytes (by simp [epochLen]), ← Fin.lt_def]

theorem splitKeyEpoch_append (key : Bytes) (epoch : EpochWithGap) :
    splitKeyEpoch (key ++ beBytes epochLen epoch.val) = .ok (key, beBytes epochLen epoch.val) := by
  have hpos : (key ++ beBytes epochLen epoch.val).length - epochLen = key.length := by simp
  rw [splitKeyEpoch, if_neg (by simp), hpos, splitAt_eq, take_left, drop_left]

theorem compareEncodedFullKey_eq (a b : FullKey) :
    compareEncodedFullKey a.encode b.encode = .ok (cmp a b) := by
  simp only [compareEncodedFullKey, encode, splitKeyEpoch_append, ok_bind]
  rw [cmp_eq, cmp_congr (beBytes_epoch_lt_iff b a) (beBytes_epoch_lt_iff a b),
    cmp_congr UserKey.encode_lt_iff UserKey.encode_lt_iff]

theorem compareEncodedFullKey_withoutTableId (h : a.userKey.tableId = b.userKey.tableId) :
    compareEncodedFullKey a.encodeWithoutTableId b.encodeWithoutTableId = .ok (cmp a b) := by
  have hkey : ∀ {x y : UserKey}, x.tableId = y.tableId → (x.tableKey < y.tableKey ↔ x < y) := by
    intro x y hxy
    simp [UserKey.lt_iff, hxy]
  simp only [compareEncodedFullKey, encodeWithoutTableId, splitKeyEpoch_append, ok_bind]
  rw [cmp_eq, cmp_congr (beBytes_epoch_lt_iff b a) (beBytes_epoch_lt_iff a b),
    cmp_congr (hkey h) (hkey h.symm)]

/-- Decoding undoes encoding; encodings are compared as the keys are, by table id, table key and
descending epoch; and sorting the encodings is sorting the keys. -/
theorem encode_order (a b : FullKey) (keys : List FullKey) :
    decode a.encode = .ok a ∧ compareEncodedFullKey a.encode b.encode = .ok (cmp a b) ∧
    cmp a b =
      ((cmp a.userKey.tableId b.userKey.tableId).then (cmp a.userKey.tableKey b.userKey.tableKey)).then
      (cmp b.epochWithGap a.epochWithGap) ∧
    Slice.sortBy compareEncodedFullKey (keys.map encode) =
      List.map encode <$> Slice.sortBy (fun a b => .ok (cmp a b)) keys := by
  refine ⟨decode_encode a, compareEncodedFullKey_eq a b, ?_,
    Slice.sortBy_map compareEncodedFullKey_eq keys⟩
  rw [FullKey.cmp_eq, cmp_then UserKey.lt_iff UserKey.lt_iff]

/-! ## Ranges -/

theorem cons_le_cons {x y : U8} {l m : Bytes} : x :: l ≤ y :: m ↔ x < y ∨ x = y ∧ l ≤ m := by
  rw [← not_lt, cons_lt_cons_iff]
  grind

theorem nextKeyNoAlloc_cons (x : U8) (p : Bytes) : nextKeyNoAlloc (x :: p) =
    match nextKeyNoAlloc p with
    | some (s, e) => some (x :: s, e)
    | none => if x = 0xff then none else some ([], x + 1) := by
  unfold nextKeyNoAlloc
  rw [reverse_cons, dropWhile_append]
  cases p.reverse.dropWhile (· == 0xff) with
  | nil => by_cases hx : x = 0xff <;> simp [hx]
  | cons b before => simp

theorem prefix_iff (p k : Bytes) : p ≤ k ∧ (endBoundOfPrefix p).belowEnd k = true ↔ p <+: k := by
  induction p generalizing k with
  | nil => simp [endBoundOfPrefix, nextKeyNoAlloc, belowEnd, ← not_lt]
  | cons x p ih =>
    cases k with
    | nil => simp
    | cons c k =>
      rw [cons_prefix_cons, ← ih, cons_le_cons, endBoundOfPrefix, nextKeyNoAlloc_cons,
        endBoundOfPrefix]
      rcases nextKeyNoAlloc p with _ | ⟨s, e⟩
      · by_cases hx : x = 0xff
        · have : ¬x < c := by rw [hx, Fin.lt_def]; omega
          simp only [if_pos hx, belowEnd, and_true, or_iff_right this]
        · simp only [if_neg hx, belowEnd, nil_append, cons_lt_cons_iff, not_lt_nil,
            and_false, and_true]
          grind
      · simp only [belowEnd, cons_append, cons_lt_cons_iff]
        grind

theorem contains_rangeOfPrefix (p k : Bytes) : Bound.contains (rangeOfPrefix p) k = true ↔
    p <+: k := by
  unfold rangeOfPrefix
  split
  · rename_i hnil
    simp [isEmpty_iff.1 hnil, Bound.contains, aboveStart, belowEnd]
  · rw [Bound.contains, Bool.and_eq_true, aboveStart, decide_eq_true_eq, prefix_iff]

variable {bound start stop : Bound Bytes} {e : Bound TableKey} {key : TableKey}

def startIn (vn : VirtualNode) : Bound Bytes → Bound TableKey
  | .included b => .included (vn.toBeBytes ++ b)
  | .excluded b => .excluded (vn.toBeBytes ++ b)
  | .unbounded => .included (vn.toBeBytes ++ [])

/-- The end bound of inner keys, in the vnode. -/
inductive EndIn (vn : VirtualNode) : Bound Bytes → Bound TableKey → Prop where
  | included (b : Bytes) : EndIn vn (.included b) (.included (vn.toBeBytes ++ b))
  | excluded {b : Bytes} (h : b ≠ []) : EndIn vn (.excluded b) (.excluded (vn.toBeBytes ++ b))
  | next {v : VirtualNode} (hv : v.toIndex < vnodeMaxCount) (h : v.val = vn.val + 1) :
    EndIn vn .unbounded (.excluded (v.toBeBytes ++ []))
  | last (h : vn = maxRepresentable) : EndIn vn .unbounded .unbounded

theorem endBoundOfVnode_ok (dbg : Bool) (hvn : vn.toIndex < vnodeMaxCount) :
    ∃ e, endBoundOfVnode dbg vn = .ok e ∧ EndIn vn .unbounded e := by
  unfold endBoundOfVnode
  split
  · rename_i hmax
    exact ⟨_, rfl, .last hmax⟩
  · rename_i hne
    have hlt : vn.val + 1 < vnodeMaxCount := by
      simp only [Fin.ext_iff, val_maxRepresentable, vnodeMaxCount, toIndex] at hne hvn ⊢
      omega
    let next : VirtualNode := ⟨vn.val + 1, hlt.trans (by decide)⟩
    have hrun : fromIndex dbg (vn.toIndex + 1) = .ok next :=
      (fromIndex_eq_ok next.isLt).2 ⟨fun _ => hlt, rfl⟩
    rw [hrun]
    have hnext : EndIn vn .unbounded (.excluded (next.toBeBytes ++ [])) :=
      .next (show next.val < _ from hlt) rfl
    exact ⟨_, rfl, by rwa [append_nil] at hnext⟩

theorem prefixedRangeWithVnode_ok (dbg : Bool) (hvn : vn.toIndex < vnodeMaxCount)
    (hstart : start ≠ .excluded []) (hstop : stop ≠ .excluded []) :
    ∃ e, prefixedRangeWithVnode dbg (start, stop) vn = .ok (startIn vn start, e) ∧
      EndIn vn stop e := by
  unfold prefixedRangeWithVnode
  cases stop with
  | included b =>
    refine ⟨_, ?_, .included b⟩
    cases start <;> simp_all [startIn, prefixSliceWithVnode, assert]
  | excluded b =>
    refine ⟨_, ?_, .excluded fun hb => hstop (hb ▸ rfl)⟩
    cases start <;> simp_all [startIn, prefixSliceWithVnode, assert]
  | unbounded =>
    obtain ⟨e, hrun, he⟩ := endBoundOfVnode_ok dbg hvn
    refine ⟨e, ?_, he⟩
    cases start <;> simp_all [startIn, prefixSliceWithVnode, assert]

theorem leftVnode_startIn (hvn : vn.Ok dbg) (bound : Bound Bytes) :
    leftVnode dbg (startIn vn bound) = .ok vn.toIndex := by
  have hpart : ∀ inner, vnodePart dbg (vn.toBeBytes ++ inner) = .ok vn := fun inner =>
    vnodePart_eq_ok.2 ⟨hvn, inner, rfl⟩
  cases bound <;> simp only [startIn, leftVnode, hpart, ok_bind]

theorem EndIn.rightVnode (h : EndIn vn stop e) (hvn : vn.Ok dbg) :
    rightVnodeExclusive dbg e = .ok (vn.toIndex + 1) := by
  have hsplit : ∀ v inner, Ok dbg v → splitVnode dbg (v.toBeBytes ++ inner) = .ok (v, inner) :=
    fun _ _ hv => splitVnode_eq_ok.2 ⟨hv, rfl⟩
  cases h with
  | included b => simp [rightVnodeExclusive, vnodePart, hsplit _ _ hvn]
  | excluded hb => simp [rightVnodeExclusive, hsplit _ _ hvn, hb]
  | next hv hnext =>
    rw [rightVnodeExclusive, hsplit _ _ fun _ => hv, toIndex, ← hnext]
    rfl
  | last hmax =>
    rw [hmax]
    rfl

section
variable {v : VirtualNode} {inner : Bytes}

theorem aboveStart_startIn : (startIn vn bound).aboveStart (v.toBeBytes ++ inner) = true ↔
    vn < v ∨ vn = v ∧ bound.aboveStart inner = true := by
  have hnil : [] ≤ inner := not_lt.1 (not_lt_nil inner)
  cases bound <;> simp only [startIn, aboveStart, vnodeKey_le_iff, vnodeKey_lt_iff,
    decide_eq_true_eq, hnil]

theorem EndIn.belowEnd (h : EndIn vn stop e) : e.belowEnd (v.toBeBytes ++ inner) = true ↔
    v < vn ∨ v = vn ∧ stop.belowEnd inner = true ∨ vn = maxRepresentable ∧ stop = .unbounded := by
  cases h with
  | included | excluded => simp [Bound.belowEnd, vnodeKey_le_iff, vnodeKey_lt_iff]
  | next hv hnext =>
    simp only [Bound.belowEnd, vnodeKey_lt_iff, not_lt_nil, decide_eq_true_eq, and_true, and_false,
      or_false, Fin.lt_def, Fin.ext_iff, val_maxRepresentable, vnodeMaxCount, toIndex] at *
    omega
  | last hmax => simp [Bound.belowEnd, hmax]

end

/-- What lies in the range of a vnode and in that of a prefix. -/
theorem prefixedRange_exact (dbg : Bool) :
    (∀ vn : VirtualNode, vn.toIndex < vnodeMaxCount → ∀ start stop : Bound Bytes,
      start ≠ .excluded [] → stop ≠ .excluded [] →
      ∃ range, prefixedRangeWithVnode dbg (start, stop) vn = .ok range ∧
        vnodeRange dbg range = .ok (vn.toIndex, vn.toIndex + 1) ∧
        ∀ key : TableKey, size ≤ key.length → (Bound.contains range key = true ↔
          (∃ inner, splitVnode dbg key = .ok (vn, inner) ∧
            Bound.contains (start, stop) inner = true) ∨
          2 ^ 15 ≤ beNat (key.take size) ∧ vn = maxRepresentable ∧ stop = .unbounded)) ∧
    ∀ p k : Bytes, Bound.contains (rangeOfPrefix p) k = true ↔ p <+: k := by
  refine ⟨fun vn hvn start stop hstart hstop => ?_, contains_rangeOfPrefix⟩
  obtain ⟨e, hrun, he⟩ := prefixedRangeWithVnode_ok dbg hvn hstart hstop
  refine ⟨_, hrun, ?_, fun key hlen => ?_⟩
  · rw [vnodeRange, leftVnode_startIn fun _ => hvn, ok_bind, he.rightVnode fun _ => hvn, ok_bind]
  · obtain ⟨v, inner, hv, rfl⟩ := exists_vnode hlen
    have hsplit : ∀ inner', splitVnode dbg (v.toBeBytes ++ inner) = .ok (vn, inner') ↔
        v = vn ∧ inner = inner' := fun inner' => by
      rw [splitVnode_eq_ok, and_iff_right (show vn.Ok dbg from fun _ => hvn), vnodeKey_inj]
    have hhigh : vn = maxRepresentable → (2 ^ 15 ≤ v.toIndex ↔ vn < v) := by
      rintro rfl
      rw [Fin.lt_def, val_maxRepresentable, toIndex]
      omega
    rw [← hv, Bound.contains, Bool.and_eq_true, aboveStart_startIn, he.belowEnd]
    simp only [hsplit, Bound.contains, Bool.and_eq_true]
    constructor
    · rintro ⟨hs | ⟨rfl, hs⟩, hlt | ⟨heq, he⟩ | ⟨hmax, hstop⟩⟩
      · exact absurd hlt hs.not_gt
      · exact absurd heq hs.ne'
      · exact .inr ⟨(hhigh hmax).2 hs, hmax, hstop⟩
      · exact absurd hlt (lt_irrefl _)
      · exact .inl ⟨inner, ⟨rfl, rfl⟩, hs, he⟩
      · exact .inl ⟨inner, ⟨rfl, rfl⟩, hs, by rw [hstop]; rfl⟩
    · rintro (⟨_, ⟨rfl, rfl⟩, hs, he⟩ | ⟨hv, hmax, hstop⟩)
      · exact ⟨.inr ⟨rfl, hs⟩, .inr (.inl ⟨rfl, he⟩)⟩
      · exact ⟨.inl ((hhigh hmax).1 hv), .inr (.inr ⟨hmax, hstop⟩)⟩

/-- Keys with the highest bit set, which are of no vnode, lie in the range of the last one. -/
theorem prefixedRange_highBit : ∃ range : TableKeyRange, contains range [0x80, 0x00] = true ∧
    (prefixedRangeWithVnode true (.unbounded, .unbounded) maxRepresentable = .ok range ∧
      splitVnode true [0x80, 0x00] = .error (.assert "(inner as usize) < Self::MAX_COUNT")) ∧
    prefixedRangeWithVnode false (.unbounded, .unbounded) maxRepresentable = .ok range ∧
      splitVnode false [0x80, 0x00] = .ok (2 ^ 15, []) :=
  ⟨(.included [0x7f, 0xff], .unbounded), by decide +kernel⟩

theorem prefixedRange_exact_five : ∃ range,
    prefixedRangeWithVnode true (.included [1], .excluded [2]) 5 = .ok range ∧
      vnodeRange true range = .ok (5, 6) ∧
      contains range [0, 5, 1] = true := by
  obtain ⟨range, hrun, hvnodes, h⟩ :=
    (prefixedRange_exact true).1 5 (by decide) (.included [1]) (.excluded [2]) nofun (by decide)
  exact ⟨range, hrun, hvnodes, (h [0, 5, 1] (by decide)).2 (.inl ⟨[1], by decide +kernel, by decide⟩)⟩

end Hummock
