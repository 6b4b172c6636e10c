import RisingLake.Hummock.Proof.Key
import RisingLake.Hummock.Watermark

/-!
# Rewriting a range by a table watermark

A range of a single vnode starts and ends in that vnode, or ends before the first key of the next
one (`vnode_eq_ok`). On such a range `rewriteRangeWithTableWatermark` should leave exactly the keys
that the watermark does not filter.

It does for ascending watermarks (`rewrite_ascending`) and for descending ones, unless the end bound
is the first key of the next vnode: the inner key of that bound is empty, so it is never above the
watermark, and the range is left as it is (`rewrite_descending_next`).
-/

namespace Hummock

open Res Bytes VirtualNode Bound TableKey TableWatermarksIndex WatermarkDirection

/-! ## Ranges of a single vnode -/

/-- A start bound in the vnode. -/
inductive StartsIn (vn : VirtualNode) : Bound TableKey → Prop where
  | included (s : Bytes) : StartsIn vn (.included (vn.toBeBytes ++ s))
  | excluded (s : Bytes) : StartsIn vn (.excluded (vn.toBeBytes ++ s))
  | unbounded : vn = zero → StartsIn vn .unbounded

/-- An end bound in the vnode, or just after it. -/
inductive EndsIn (dbg : Bool) (vn : VirtualNode) : Bound TableKey → Prop where
  | included (e : Bytes) : EndsIn dbg vn (.included (vn.toBeBytes ++ e))
  | excluded (e : Bytes) : e ≠ [] → EndsIn dbg vn (.excluded (vn.toBeBytes ++ e))
  | next (vn' : VirtualNode) : vn'.Ok dbg → vn.val + 1 = vn'.val →
    EndsIn dbg vn (.excluded (vn'.toBeBytes ++ []))
  | unbounded : vn = maxRepresentable → EndsIn dbg vn .unbounded

variable {dbg : Bool} {vn : VirtualNode} {b : Bound TableKey}

theorem leftVnode_eq_ok {l : Nat} (h : leftVnode dbg b = .ok l) :
    ∃ vn : VirtualNode, l = vn.val ∧ StartsIn vn b := by
  cases b with
  | included key | excluded key =>
    obtain ⟨vn, hvn, h⟩ := bind_eq_ok.1 h
    cases h
    obtain ⟨-, s, rfl⟩ := vnodePart_eq_ok.1 hvn
    exact ⟨vn, rfl, by constructor⟩
  | unbounded =>
    cases h
    exact ⟨0, rfl, .unbounded rfl⟩

theorem rightVnodeExclusive_eq_ok (h : rightVnodeExclusive dbg b = .ok (vn.val + 1)) :
    EndsIn dbg vn b := by
  cases b with
  | included key =>
    simp only [rightVnodeExclusive, bind_eq_ok, vnodePart_eq_ok, Except.ok.injEq, toIndex] at h
    obtain ⟨vn', ⟨-, e, rfl⟩, hvn⟩ := h
    rw [show vn' = vn from Fin.ext (by omega)]
    exact .included e
  | excluded key =>
    simp only [rightVnodeExclusive, bind_eq_ok, Prod.exists, splitVnode_eq_ok] at h
    obtain ⟨vn', inner, ⟨hok, rfl⟩, h⟩ := h
    split at h
    · rename_i hempty
      rw [List.isEmpty_iff.1 hempty]
      simp only [Except.ok.injEq] at h
      exact .next vn' hok h.symm
    · rename_i hne
      simp only [Except.ok.injEq, toIndex] at h
      rw [show vn' = vn from Fin.ext (by omega)]
      exact .excluded inner (by simpa using hne)
  | unbounded =>
    simp only [rightVnodeExclusive, Except.ok.injEq, toIndex] at h
    exact .unbounded (Fin.ext (by omega))

theorem vnode_eq_ok {range : TableKeyRange} (h : vnode dbg range = .ok vn) :
    StartsIn vn range.1 ∧ EndsIn dbg vn range.2 := by
  simp only [vnode, vnodeRange, bind_eq_ok, Prod.exists, checkedSub_eq_ok, assert_eq_ok, beq_iff_eq,
    Except.ok.injEq] at h
  obtain ⟨l, r, ⟨_, hl, _, hr, rfl, rfl⟩, w, ⟨hle, rfl⟩, -, hw, h⟩ := h
  obtain ⟨v, rfl, hs⟩ := leftVnode_eq_ok hl
  obtain rfl : v = vn := Fin.ext ((fromIndex_eq_ok v.isLt).1 h).2
  refine ⟨hs, rightVnodeExclusive_eq_ok ?_⟩
  rw [hr]
  congr 1
  omega

/-! ## Keys of the vnode -/

section
variable {u : VirtualNode} {x w : Bytes}

theorem StartsIn.le (h : StartsIn vn b) (hx : b.aboveStart (u.toBeBytes ++ x) = true) : vn ≤ u := by
  cases h with
  | included s | excluded s =>
    simp only [aboveStart, decide_eq_true_eq, vnodeKey_le_iff, vnodeKey_lt_iff] at hx
    exact hx.elim le_of_lt fun h => h.1.le
  | unbounded hvn =>
    rw [hvn]
    exact Fin.zero_le _

theorem EndsIn.le (h : EndsIn dbg vn b) (hu : u.toIndex < vnodeMaxCount)
    (hx : b.belowEnd (u.toBeBytes ++ x) = true) : u ≤ vn := by
  cases h with
  | included e | excluded e =>
    simp only [belowEnd, decide_eq_true_eq, vnodeKey_le_iff, vnodeKey_lt_iff] at hx
    exact hx.elim le_of_lt fun h => h.1.le
  | next vn' _ hvn =>
    simp only [belowEnd, decide_eq_true_eq, vnodeKey_lt_iff, List.not_lt_nil, and_false,
      or_false, Fin.lt_def] at hx
    exact Fin.le_def.2 (by omega)
  | unbounded hvn =>
    rw [hvn]
    exact Nat.le_pred_of_lt hu

theorem EndsIn.next_of_empty {e : TableKey} (h : EndsIn dbg vn (.excluded e)) (hvn : vn.Ok dbg)
    (hempty : keyPart dbg e = .ok []) : ∀ x, vn.toBeBytes ++ x < e := by
  generalize hb : Bound.excluded e = b at h
  cases h with
  | included e' => cases hb
  | excluded e' hne =>
    cases hb
    rw [keyPart_eq_ok.2 ⟨vn, hvn, rfl⟩] at hempty
    cases hempty
    exact absurd rfl hne
  | next vn' _ hnext =>
    cases hb
    exact fun x => vnodeKey_lt_iff.2 (.inl (Fin.lt_def.2 (by omega)))
  | unbounded => cases hb

theorem StartsIn.overwriteStartKey_ok (h : StartsIn vn b) (hvn : vn.Ok dbg) (w : Bytes) :
    ∃ o, overwriteStartKey dbg w b = .ok o ∧
      (o = true → ∀ x, w ≤ x → b.aboveStart (vn.toBeBytes ++ x) = true) ∧
      (o = false → ∀ x, b.aboveStart (vn.toBeBytes ++ x) = true → w ≤ x) := by
  cases h with
  | included s | excluded s =>
    refine ⟨decide (s < w), ?_, fun hlt x hx => ?_, fun hge x hx => ?_⟩
    · simp [overwriteStartKey, keyPart_eq_ok.2 ⟨vn, hvn, rfl⟩]
    · simp only [aboveStart, decide_eq_true_eq, append_le_append_left, append_lt_append_left] at hlt ⊢
      order
    · simp only [aboveStart, decide_eq_true_eq, append_le_append_left, append_lt_append_left,
        decide_eq_false_iff_not, not_lt] at hge hx
      order
  | unbounded =>
    exact ⟨true, rfl, fun _ _ _ => rfl, by simp⟩

theorem StartsIn.lt_of_startsAfter (h : StartsIn vn b)
    (hfull : startsAfter (vn.toBeBytes ++ w) b = true)
    (hx : b.aboveStart (vn.toBeBytes ++ x) = true) : w < x := by
  cases h with
  | included s | excluded s =>
    simp only [startsAfter, aboveStart, decide_eq_true_eq,
      append_lt_append_left, append_le_append_left] at hfull hx
    order
  | unbounded => cases hfull

theorem EndsIn.overwriteEndKey_ok (h : EndsIn dbg vn b) (hvn : vn.Ok dbg) (w : Bytes)
    (hnext : ∀ e, b = .excluded e → keyPart dbg e ≠ .ok []) : ∃ o, overwriteEndKey dbg w b = .ok o ∧
      (o = true → ∀ x, x ≤ w → b.belowEnd (vn.toBeBytes ++ x) = true) ∧
      (o = false → ∀ x, b.belowEnd (vn.toBeBytes ++ x) = true → x ≤ w) := by
  cases h with
  | included e | excluded e =>
    refine ⟨decide (w < e), ?_, fun hlt x hx => ?_, fun hge x hx => ?_⟩
    · simp [overwriteEndKey, keyPart_eq_ok.2 ⟨vn, hvn, rfl⟩]
    · simp only [belowEnd, decide_eq_true_eq, append_le_append_left, append_lt_append_left] at hlt ⊢
      order
    · simp only [belowEnd, decide_eq_true_eq, append_le_append_left, append_lt_append_left,
        decide_eq_false_iff_not, not_lt] at hge hx
      order
  | next vn' hok => exact absurd (keyPart_eq_ok.2 ⟨vn', hok, rfl⟩) (hnext _ rfl)
  | unbounded =>
    exact ⟨true, rfl, fun _ _ _ => rfl, by simp⟩

theorem EndsIn.lt_of_endsBefore (h : EndsIn dbg vn b)
    (hfull : endsBefore (vn.toBeBytes ++ w) b = true) (hx : b.belowEnd (vn.toBeBytes ++ x) = true) : x < w := by
  cases h with
  | included e | excluded e =>
    simp only [endsBefore, belowEnd, decide_eq_true_eq, append_lt_append_left,
      append_le_append_left] at hfull hx
    order
  | next vn' _ hvn =>
    simp only [endsBefore, decide_eq_true_eq, vnodeKey_le_iff] at hfull
    rcases hfull with hlt | ⟨rfl, -⟩
    · rw [Fin.lt_def] at hlt
      omega
    · omega
  | unbounded => cases hfull

end

/-! ## The rewritten range -/

section
variable {idx : TableWatermarksIndex} {epoch : HummockEpoch} {range : TableKeyRange}
  {u : VirtualNode} {w x : Bytes}

theorem contains_iff_vnode (range : TableKeyRange) (hs : StartsIn vn range.1)
    (he : EndsIn dbg vn range.2) (hu : u.toIndex < vnodeMaxCount) :
    contains range (u.toBeBytes ++ x) = true ↔
      u = vn ∧ range.1.aboveStart (vn.toBeBytes ++ x) = true ∧
      range.2.belowEnd (vn.toBeBytes ++ x) = true := by
  simp only [contains, Bool.and_eq_true]
  constructor
  · intro hx
    obtain rfl : u = vn := le_antisymm (he.le hu hx.2) (hs.le hx.1)
    exact ⟨rfl, hx⟩
  · rintro ⟨rfl, hx⟩
    exact hx

theorem contains_point (key k : TableKey) : contains (.included key, .excluded key) k = false := by
  simp only [contains, aboveStart, belowEnd, Bool.and_eq_false_iff, decide_eq_false_iff_not,
    not_le, not_lt]
  exact lt_or_ge k key

theorem exists_above (s w : Bytes) : ∃ x : Bytes, s < x ∧ w < x := by
  have hlt : ∀ y : Bytes, y < y ++ [0] := fun y => by
    have := (append_lt_append_left y (c := []) (d := [0])).2 (by simp)
    simpa using this
  rcases le_total s w with h | h
  · exact ⟨w ++ [0], h.trans_lt (hlt w), hlt w⟩
  · exact ⟨s ++ [0], hlt s, h.trans_lt (hlt s)⟩

section
variable (hv : vnode dbg range = .ok vn) (hvn : vn.toIndex < vnodeMaxCount)
  (hr : idx.readWatermark vn epoch = .ok (some w))
include hv hvn hr

/-- **Ascending**: the keys from the watermark on are left. -/
theorem rewrite_ascending (hdir : idx.watermarkDirection = .ascending) :
    ∃ range', idx.rewriteRangeWithTableWatermark dbg epoch range = .ok range' ∧
      ∀ u x, toIndex u < vnodeMaxCount → (contains range' (u.toBeBytes ++ x) = true ↔
        contains range (u.toBeBytes ++ x) = true ∧ w ≤ x) := by
  obtain ⟨hs, he⟩ := vnode_eq_ok hv
  obtain ⟨o, ho, hover, hkeep⟩ := hs.overwriteStartKey_ok (show vn.Ok dbg from fun _ => hvn) w
  simp only [rewriteRangeWithTableWatermark, hv, hr, hdir, ho, ok_bind, prefixSliceWithVnode]
  cases o with
  | false =>
    refine ⟨range, rfl, fun u x hu => ?_⟩
    rw [contains_iff_vnode range hs he hu]
    exact ⟨fun hx => ⟨hx, hkeep rfl x hx.2.1⟩, And.left⟩
  | true =>
    by_cases hfull : endsBefore (vn.toBeBytes ++ w) range.2 = true
    · simp only [hfull, if_true]
      refine ⟨_, rfl, fun u x hu => ?_⟩
      rw [contains_point, contains_iff_vnode range hs he hu]
      refine iff_of_false Bool.false_ne_true ?_
      rintro ⟨hx, hle⟩
      exact absurd (he.lt_of_endsBefore hfull hx.2.2) (not_lt.2 hle)
    · simp only [hfull, Bool.false_eq_true, if_false]
      refine ⟨_, rfl, fun u x hu => ?_⟩
      rw [contains_iff_vnode (.included (vn.toBeBytes ++ w), range.2) (.included w) he hu,
        contains_iff_vnode range hs he hu]
      simp only [aboveStart, decide_eq_true_eq, append_le_append_left]
      constructor
      · rintro ⟨hu, hw, hb⟩
        exact ⟨⟨hu, hover rfl x hw, hb⟩, hw⟩
      · rintro ⟨⟨hu, -, hb⟩, hw⟩
        exact ⟨hu, hw, hb⟩

/-- **Descending**: the keys up to the watermark are left, unless the range ends at the first key of
the next vnode. -/
theorem rewrite_descending (hdir : idx.watermarkDirection = .descending)
    (hnext : ∀ e, range.2 = .excluded e → keyPart dbg e ≠ .ok []) :
    ∃ range', idx.rewriteRangeWithTableWatermark dbg epoch range = .ok range' ∧
      ∀ u x, toIndex u < vnodeMaxCount → (contains range' (u.toBeBytes ++ x) = true ↔
        contains range (u.toBeBytes ++ x) = true ∧ x ≤ w) := by
  obtain ⟨hs, he⟩ := vnode_eq_ok hv
  obtain ⟨o, ho, hover, hkeep⟩ := he.overwriteEndKey_ok (fun _ => hvn) w hnext
  simp only [rewriteRangeWithTableWatermark, hv, hr, hdir, ho, ok_bind, prefixSliceWithVnode]
  cases o with
  | false =>
    refine ⟨range, rfl, fun u x hu => ?_⟩
    rw [contains_iff_vnode range hs he hu]
    exact ⟨fun hx => ⟨hx, hkeep rfl x hx.2.2⟩, And.left⟩
  | true =>
    by_cases hfull : startsAfter (vn.toBeBytes ++ w) range.1 = true
    · simp only [hfull]
      refine ⟨_, rfl, fun u x hu => ?_⟩
      rw [contains_point, contains_iff_vnode range hs he hu]
      refine iff_of_false Bool.false_ne_true ?_
      rintro ⟨hx, hle⟩
      exact absurd (hs.lt_of_startsAfter hfull hx.2.1) (not_lt.2 hle)
    · simp only [hfull, Bool.false_eq_true]
      have hend : EndsIn dbg vn (.included (vn.toBeBytes ++ w)) := .included w
      refine ⟨_, rfl, fun u x hu => ?_⟩
      rw [contains_iff_vnode (range.1, .included (vn.toBeBytes ++ w)) hs hend hu,
        contains_iff_vnode range hs he hu]
      simp only [belowEnd, decide_eq_true_eq, append_le_append_left]
      constructor
      · rintro ⟨hu, ha, hw⟩
        exact ⟨⟨hu, ha, hover rfl x hw⟩, hw⟩
      · rintro ⟨⟨hu, ha, -⟩, hw⟩
        exact ⟨hu, ha, hw⟩

/-- **Descending, up to the next vnode**: the range is left as it is, with keys above the
watermark. -/
theorem rewrite_descending_next (hdir : idx.watermarkDirection = .descending) {e : TableKey}
    (hend : range.2 = .excluded e) (hempty : keyPart dbg e = .ok []) :
    idx.rewriteRangeWithTableWatermark dbg epoch range = .ok range ∧
      ∃ x, contains range (vn.toBeBytes ++ x) = true ∧ w < x := by
  obtain ⟨hs, he⟩ := vnode_eq_ok hv
  constructor
  · simp [rewriteRangeWithTableWatermark, hv, hr, hdir, hend, overwriteEndKey, hempty]
  · obtain ⟨start, stop⟩ := range
    subst hend
    -- any key of the vnode beyond the start is in the range
    have hbelow : ∀ x, belowEnd (.excluded e) (vn.toBeBytes ++ x) = true :=
      fun x => by simpa only [belowEnd, decide_eq_true_eq] using he.next_of_empty (fun _ => hvn) hempty x
    cases hs with
    | included s | excluded s =>
      obtain ⟨x, hsx, hwx⟩ := exists_above s w
      refine ⟨x, ?_, hwx⟩
      simp only [contains, aboveStart, hbelow, append_le_append_left, append_lt_append_left, hsx,
        hsx.le, decide_true, Bool.and_true]
    | unbounded =>
      obtain ⟨x, -, hwx⟩ := exists_above w w
      exact ⟨x, by simp only [contains, aboveStart, hbelow, Bool.and_true], hwx⟩

end

/-- **When the rewritten range is exact**: it holds the keys of the range that the watermark does
not filter, except for a descending watermark on a range that ends at the first key of the next
vnode. Without a watermark the range does not change. -/
theorem rewriteRange_exact_iff {o : Option Bytes} (hv : vnode dbg range = .ok vn)
    (hvn : vn.toIndex < vnodeMaxCount) (hr : idx.readWatermark vn epoch = .ok o) :
    ∃ range', idx.rewriteRangeWithTableWatermark dbg epoch range = .ok range' ∧
      (o = none → range' = range) ∧
      ((∀ key inner, keyPart true key = .ok inner →
        (contains range' key = true ↔ contains range key = true ∧
            ∀ w, o = some w → idx.watermarkDirection.filterByWatermark inner w = false)) ↔
        ¬(idx.watermarkDirection = .descending ∧ o.isSome = true ∧
          ∃ e, range.2 = .excluded e ∧ keyPart dbg e = .ok [])) := by
  cases o with
  | none =>
    refine ⟨range, ?_, fun _ => rfl, ?_⟩
    · simp [rewriteRangeWithTableWatermark, hv, hr]
    · simp
  | some w =>
    have hkeys : ∀ key inner, keyPart true key = .ok inner ↔
        ∃ u : VirtualNode, u.toIndex < vnodeMaxCount ∧ key = u.toBeBytes ++ inner := fun key inner => by
      simp only [keyPart_eq_ok, VirtualNode.Ok, forall_const]
    simp only [reduceCtorEq, false_implies, true_and, Option.some.injEq, forall_eq',
      Option.isSome_some, hkeys, forall_exists_index, and_imp]
    cases hdir : idx.watermarkDirection with
    | ascending =>
      obtain ⟨range', hrun, hexact⟩ := rewrite_ascending hv hvn hr hdir
      refine ⟨range', hrun, iff_of_true ?_ (by simp)⟩
      rintro key x u hu rfl
      simpa [filterByWatermark] using hexact u x hu
    | descending =>
      by_cases hnext : ∃ e, range.2 = .excluded e ∧ keyPart dbg e = .ok []
      · obtain ⟨e, hend, hempty⟩ := hnext
        obtain ⟨hrun, x, hx, hlt⟩ := rewrite_descending_next hv hvn hr hdir hend hempty
        refine ⟨range, hrun, iff_of_false (fun hexact => ?_) (not_not.2 ⟨rfl, e, hend, hempty⟩)⟩
        have := ((hexact _ x vn hvn rfl).1 hx).2
        simp [filterByWatermark, hlt] at this
      · obtain ⟨range', hrun, hexact⟩ :=
          rewrite_descending hv hvn hr hdir fun e hend hempty => hnext ⟨e, hend, hempty⟩
        refine ⟨range', hrun, iff_of_true ?_ fun h => hnext h.2⟩
        rintro key x u hu rfl
        simpa [filterByWatermark] using hexact u x hu

/-- A descending watermark `[5]` on the vnode 0, whose range `prefixed_range_with_vnode` ends at
vnode 1: the key `[9]` is above the watermark and stays. -/
theorem rewriteRange_keeps_filtered :
    let idx : TableWatermarksIndex := ⟨.descending, [(1, [⟨[true], [5]⟩])], none, 1, none⟩
    let range : TableKeyRange := (.included [0, 0], .excluded [0, 1])
    prefixedRangeWithVnode true (.unbounded, .unbounded) 0 = .ok range ∧ vnode true range = .ok 0 ∧
      idx.readWatermark 0 1 = .ok (some [5]) ∧
      idx.rewriteRangeWithTableWatermark true 1 range = .ok range ∧
      contains range [0, 0, 9] = true ∧ keyPart true [0, 0, 9] = .ok [9] ∧
      descending.filterByWatermark [9] [5] = true := by
  decide +kernel

/-- The same range with the end bound inside the vnode is cut at the watermark. -/
theorem rewriteRange_exact_descending :
    let idx : TableWatermarksIndex := ⟨.descending, [(1, [⟨[true], [5]⟩])], none, 1, none⟩
    let range : TableKeyRange := (.included [0, 0], .excluded [0, 0, 9])
    ∃ range', idx.rewriteRangeWithTableWatermark true 1 range = .ok range' ∧ ∀ key inner,
      keyPart true key = .ok inner →
        (contains range' key = true ↔ contains range key = true ∧
          descending.filterByWatermark inner [5] = false) := by
  intro idx range
  obtain ⟨range', hrun, -, hiff⟩ := @rewriteRange_exact_iff true 0 idx 1 range (some [5])
    (by decide +kernel) (by decide) (by decide +kernel)
  refine ⟨range', hrun, fun key inner hkey => ?_⟩
  have hexact := hiff.2 (by
    rintro ⟨-, -, e, hend, hempty⟩
    cases hend
    rw [show keyPart true [0, 0, 9] = .ok [9] by decide +kernel] at hempty
    cases hempty) key inner hkey
  simpa using hexact

end

end Hummock
