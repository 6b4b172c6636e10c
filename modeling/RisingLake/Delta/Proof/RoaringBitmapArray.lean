import RisingLake.Delta.RoaringBitmapArray

/-!
# Equality of bitmap arrays

The arrays are compared bitmap by bitmap, so only empty bitmaps at the end of one array tell it
apart from another one with the same values. `EndsEmpty` says from the calls of a run whether it
leaves such bitmaps (`endsEmpty_iff`): `and` and `andNot` do where they empty the last bitmap, which
`remove` drops.
-/

namespace Delta.RoaringBitmapArray

open List

variable {a b that : Bitmaps} {value i : Nat}

/-! ## The bitmaps after a call -/

theorem getD_extendBitmaps (n : Nat) : (extendBitmaps a n).getD i ∅ = a.getD i ∅ := by
  by_cases hi : i < a.length
  · rw [extendBitmaps, getD_append _ _ _ _ hi]
  · rw [extendBitmaps, getD_append_right _ _ _ _ (by omega), getD_eq_default a _ (by omega),
      List.getD, getElem?_replicate]
    split <;> rfl

theorem length_extendBitmaps {n : Nat} (h : a.length ≤ n) : (extendBitmaps a n).length = n := by
  rw [extendBitmaps, length_append, length_replicate]
  omega

theorem extend_spec {n : Nat} (a : Bitmaps) {c : Prop} [Decidable c] (hc : c ↔ a.length < n) :
    (if c then extendBitmaps a n else a).length = max a.length n ∧
      ∀ i, (if c then extendBitmaps a n else a).getD i ∅ = a.getD i ∅ := by
  split
  case isTrue h =>
    have hlt := hc.1 h
    exact ⟨by rw [length_extendBitmaps (by omega)]; omega, fun _ => getD_extendBitmaps _⟩
  case isFalse h =>
    have hle := mt hc.2 h
    exact ⟨by omega, fun _ => rfl⟩

theorem getD_modify {f : RoaringBitmap → RoaringBitmap} {high : Nat} (h : high < a.length) :
    (a.modify high f).getD i ∅ = if i = high then f (a.getD i ∅) else a.getD i ∅ := by
  simp only [List.getD, getElem?_modify]
  by_cases hi : i = high
  · subst hi
    simp [h]
  · simp [hi, Ne.symm hi]

theorem add_spec (h : add a value = some b) :
    b.length = max a.length (highBytes value + 1) ∧ highBytes value < 2 ^ 31 - 1 ∧
      ∀ i, b.getD i ∅ = if i = highBytes value then insert (lowBytes value) (a.getD i ∅)
        else a.getD i ∅ := by
  unfold add at h
  split at h
  case isFalse => cases h
  case isTrue hmax =>
    obtain ⟨hlen, hget⟩ := extend_spec a (Nat.lt_succ_iff (n := highBytes value)).symm
    cases h
    refine ⟨by rw [length_modify, hlen], ?_, fun i => ?_⟩
    · unfold highBytes maxRepresentableValue at *
      omega
    · rw [getD_modify (by rw [hlen]; omega), hget]

theorem foldl_modify_spec (f : Nat → RoaringBitmap) (n : Nat) : ∀ (start : Nat) (a : Bitmaps),
    start + n ≤ a.length →
    let b := (range' start n).foldl (fun a high => a.modify high (· ∪ f high)) a
    b.length = a.length ∧
      ∀ i, b.getD i ∅ = if start ≤ i ∧ i < start + n then a.getD i ∅ ∪ f i else a.getD i ∅ := by
  induction n with
  | zero => exact fun start a _ => ⟨rfl, fun i => (if_neg (by omega)).symm⟩
  | succ n ih =>
    intro start a h
    obtain ⟨hlen, hget⟩ :=
      ih (start + 1) (a.modify start (· ∪ f start)) (by rw [length_modify]; omega)
    refine ⟨by rw [range'_succ, foldl_cons, hlen, length_modify], fun i => ?_⟩
    rw [range'_succ, foldl_cons, hget, getD_modify (by omega)]
    by_cases hi : i = start
    · rw [if_neg (by omega), if_pos hi, if_pos (by omega), hi]
    · rw [if_neg hi]
      exact if_congr (by omega) rfl rfl

theorem rangeAt_lastHigh {start stop : Nat} {isInclusive : Bool}
    (h : start ≤ stop) (hne : ¬(start = stop ∧ !isInclusive)) :
    highBytes start ≤ lastHigh stop isInclusive ∧
      (rangeAt start stop isInclusive (lastHigh stop isInclusive)).Nonempty := by
  have hlow (v : Nat) : (lowBytes v).val = v % 2 ^ 32 := rfl
  have hfin : lowBytes stop = 0 ↔ stop % 2 ^ 32 = 0 := by rw [← hlow]; exact Fin.ext_iff
  have hhigh (v : Nat) : highBytes v = v / 2 ^ 32 := rfl
  -- the first value that the range adds there
  have hmem : ∀ first last : Nat, first < last → last ≤ 2 ^ 32 → (interval first last).Nonempty :=
    fun first last hlt hle => ⟨⟨first, by omega⟩, by simp [interval, hlt]⟩
  simp only [lastHigh, rangeAt, hfin, hlow, hhigh]
  cases isInclusive with
  | true =>
    simp only [Bool.not_true, Bool.false_eq_true, and_false, if_false, if_true]
    exact ⟨by omega, hmem _ _ (by split_ifs <;> omega) (by omega)⟩
  | false =>
    simp only [Bool.not_false, and_true, Bool.false_eq_true, if_false] at hne ⊢
    refine ⟨by split_ifs <;> omega, hmem _ _ ?_ ?_⟩ <;> split_ifs <;> omega

theorem addRange_spec {start stop : Nat} {isInclusive : Bool}
    (h : addRange a start stop isInclusive = some b) :
    start = stop ∧ isInclusive = false ∧ b = a ∨
    ¬(start = stop ∧ isInclusive = false) ∧ lastHigh stop isInclusive < 2 ^ 31 - 1 ∧
      b.length = max a.length (lastHigh stop isInclusive + 1) ∧
      (b.getD (lastHigh stop isInclusive) ∅).Nonempty ∧
      ∀ i, lastHigh stop isInclusive < i → b.getD i ∅ = a.getD i ∅ := by
  unfold addRange at h
  split at h
  case isFalse => cases h
  case isTrue hmax =>
    split at h
    case isTrue hnil =>
      cases h
      exact .inl ⟨hnil.1, by simpa using hnil.2, rfl⟩
    case isFalse hnil =>
      obtain ⟨hle, hvalue⟩ := rangeAt_lastHigh hmax.1 hnil
      have hlast : lastHigh stop isInclusive ≤ highBytes stop := by
        unfold lastHigh
        split <;> omega
      obtain ⟨hlen, hget⟩ := extend_spec a (Nat.lt_succ_iff (n := lastHigh stop isInclusive)).symm
      obtain ⟨hlen', hget'⟩ := foldl_modify_spec (rangeAt start stop isInclusive)
        (lastHigh stop isInclusive + 1 - highBytes start) (highBytes start) _ (by rw [hlen]; omega)
      cases h
      refine .inr ⟨by simpa using hnil, ?_, by rw [hlen', hlen], ?_, fun i hi => ?_⟩
      · unfold highBytes maxRepresentableValue at *
        omega
      · rw [hget', if_pos (by omega)]
        exact hvalue.mono Finset.subset_union_right
      · rw [hget', if_neg (by omega), hget]

theorem getD_mapIdx {f : Nat → RoaringBitmap → RoaringBitmap} (h : ∀ i, a.length ≤ i → f i ∅ = ∅) :
    (a.mapIdx f).getD i ∅ = f i (a.getD i ∅) := by
  by_cases hi : i < a.length
  · rw [getD_eq_getElem _ _ (by rw [length_mapIdx]; exact hi), getElem_mapIdx, getD_eq_getElem a _ hi]
  · rw [getD_eq_default _ _ (by rw [length_mapIdx]; omega), getD_eq_default a _ (by omega),
      h i (by omega)]

theorem or_spec : (or a that).length = max a.length that.length ∧
    ∀ i, (or a that).getD i ∅ = a.getD i ∅ ∪ that.getD i ∅ := by
  obtain ⟨hlen, hget⟩ := extend_spec a (n := that.length) .rfl
  refine ⟨by rw [or, length_mapIdx, hlen], fun i => ?_⟩
  rw [or, getD_mapIdx, hget]
  intro i hi
  rw [getD_eq_default that _ (by omega), Finset.empty_union]

theorem and_spec : (and a that).length = a.length ∧
    ∀ i, (and a that).getD i ∅ = a.getD i ∅ ∩ that.getD i ∅ := by
  refine ⟨length_mapIdx, fun i => ?_⟩
  rw [and, getD_mapIdx fun i _ => by simp]
  split
  · rfl
  · rw [getD_eq_default that _ (by omega), Finset.inter_empty]

theorem andNot_spec : (andNot a that).length = a.length ∧
    ∀ i, (andNot a that).getD i ∅ = a.getD i ∅ \ that.getD i ∅ := by
  refine ⟨length_mapIdx, fun i => ?_⟩
  rw [andNot, getD_mapIdx fun i _ => by simp]
  split
  · rfl
  · rcases Nat.lt_or_ge i that.length with hi | hi
    · rw [getD_eq_default a _ (by omega), Finset.empty_sdiff]
    · rw [getD_eq_default that _ hi, Finset.sdiff_empty]

/-! ## Empty bitmaps at the end -/

def EndsInEmpty (a : Bitmaps) : Prop := a.length ≠ 0 ∧ a.getD (a.length - 1) ∅ = ∅

theorem endsInEmpty_or : EndsInEmpty (or a that) ↔
    (that.length ≤ a.length → EndsInEmpty a) ∧ (a.length ≤ that.length → EndsInEmpty that) := by
  obtain ⟨hlen, hget⟩ := @or_spec a that
  simp only [EndsInEmpty, hlen, hget, Finset.union_eq_empty]
  rcases Nat.lt_trichotomy a.length that.length with h | h | h
  · have hle : ¬that.length ≤ a.length := by omega
    rw [Nat.max_eq_right (by omega), getD_eq_default a _ (by omega)]
    simp [hle, Nat.le_of_lt h]
  · rw [h, Nat.max_self]
    simp only [Nat.le_refl, true_imp_iff]
    tauto
  · have hle : ¬a.length ≤ that.length := by omega
    rw [Nat.max_eq_left (by omega), getD_eq_default that _ (by omega)]
    simp [hle, Nat.le_of_lt h]

theorem rdropWhile_spec (a : Bitmaps) : ¬EndsInEmpty (a.rdropWhile (· = ∅)) ∧
    (a.rdropWhile (· = ∅)).length ≤ a.length ∧
    ∀ i, (a.rdropWhile (· = ∅)).getD i ∅ = a.getD i ∅ := by
  induction a using List.reverseRecOn with
  | nil => exact ⟨fun h => h.1 rfl, Nat.le_refl _, fun _ => rfl⟩
  | append_singleton a bitmap ih =>
    obtain ⟨hends, hlen, hget⟩ := ih
    rw [rdropWhile_concat]
    split
    case isTrue hempty =>
      refine ⟨hends, by rw [length_append]; omega, fun i => (hget i).trans ?_⟩
      simp only [decide_eq_true_iff] at hempty
      by_cases hi : i < a.length
      · rw [getD_append _ _ _ _ hi]
      · rw [getD_eq_default a _ (by omega), getD_append_right _ _ _ _ (by omega), hempty]
        simp [List.getD, getElem?_singleton]
        split <;> rfl
    case isFalse hempty =>
      refine ⟨fun h => hempty ?_, Nat.le_refl _, fun _ => rfl⟩
      simpa [EndsInEmpty] using h.2

theorem remove_spec (h : remove a value = some b) :
    b.length ≤ a.length ∧
      (EndsInEmpty b ↔ EndsInEmpty a ∧ (highBytes value < a.length →
        ((a.getD (highBytes value) ∅).erase (lowBytes value)).Nonempty)) := by
  unfold remove at h
  split at h
  case isFalse => cases h
  case isTrue hmax =>
    dsimp only at h
    by_cases hlt : highBytes value < a.length
    · have hat : (a.modify (highBytes value) (·.erase (lowBytes value)))[highBytes value]? =
          some ((a.getD (highBytes value) ∅).erase (lowBytes value)) := by
        simp [hlt]
      simp only [hat, Option.some.injEq] at h
      split at h
      case isTrue hempty =>
        cases h
        obtain ⟨hends, hlen, -⟩ :=
          rdropWhile_spec (a.modify (highBytes value) (·.erase (lowBytes value)))
        rw [length_modify] at hlen
        refine ⟨hlen, iff_of_false hends fun h => ?_⟩
        exact Finset.not_nonempty_iff_eq_empty.2 hempty (h.2 hlt)
      case isFalse hne =>
        cases h
        have hvalue := Finset.nonempty_iff_ne_empty.2 hne
        rw [EndsInEmpty, EndsInEmpty, length_modify, getD_modify hlt]
        refine ⟨Nat.le_refl _, ?_⟩
        split
        case isTrue hlast =>
          rw [hlast]
          refine iff_of_false (fun h => hne h.2) fun h => ?_
          rw [h.1.2, Finset.erase_empty] at hne
          exact hne rfl
        case isFalse => exact ⟨fun h => ⟨h, fun _ => hvalue⟩, And.left⟩
    · have hsame : a.modify (highBytes value) (·.erase (lowBytes value)) = a :=
        modify_eq_self (by omega)
      rw [hsame, getElem?_eq_none (by omega), if_neg (by simp)] at h
      cases h
      exact ⟨Nat.le_refl _, fun h => ⟨h, fun h => absurd h hlt⟩, And.left⟩

theorem remove_of_endsInEmpty (hlast : EndsInEmpty a) (hmax : value ≤ maxRepresentableValue)
    (hhigh : highBytes value = a.length - 1) : remove a value = some (a.rdropWhile (· = ∅)) := by
  have hlt : a.length - 1 < a.length := by have := hlast.1; omega
  have hsame : a.modify (a.length - 1) (·.erase (lowBytes value)) = a := by
    refine List.ext_getElem (length_modify _ _ _) fun i hi hi' => ?_
    rw [← getD_eq_getElem _ ∅ hi, ← getD_eq_getElem a ∅ hi', getD_modify hlt]
    split
    · rw [‹i = _›, hlast.2, Finset.erase_empty]
    · rfl
  have hat : a[a.length - 1]? = some ∅ := by
    rw [getElem?_eq_getElem hlt, ← getD_eq_getElem a ∅ hlt, hlast.2]
  rw [remove, if_pos hmax, hhigh]
  dsimp only
  rw [hsame, if_pos hat]

namespace Run

variable (r : Run)

def array : Bitmaps := r.eval.getD []

/-- The run leaves an empty bitmap at the end of the array. Each call is judged by its arguments and
the array before it. -/
def EndsEmpty : Run → Prop
  | .new => False
  | .add r value => r.EndsEmpty ∧ highBytes value + 1 < r.array.length
  | .addRange r start stop isInclusive =>
    r.EndsEmpty ∧
      (start = stop ∧ isInclusive = false ∨ lastHigh stop isInclusive + 1 < r.array.length)
  -- a call that empties its bitmap, or finds it empty, drops the empty ones at the end
  | .remove r value => r.EndsEmpty ∧ (highBytes value < r.array.length →
      ((r.array.getD (highBytes value) ∅).erase (lowBytes value)).Nonempty)
  | .or r that => (that.array.length ≤ r.array.length → r.EndsEmpty) ∧
      (r.array.length ≤ that.array.length → that.EndsEmpty)
  | .and r that => r.array.length ≠ 0 ∧
      Disjoint (r.array.getD (r.array.length - 1) ∅) (that.array.getD (r.array.length - 1) ∅)
  | .andNot r that => r.array.length ≠ 0 ∧
      r.array.getD (r.array.length - 1) ∅ ⊆ that.array.getD (r.array.length - 1) ∅
  | .copy r => r.EndsEmpty
  | .clear _ => False

variable {r}

theorem array_eq (h : r.eval = some a) : r.array = a := by rw [array, h, Option.getD_some]

/-- The calls say whether an empty bitmap is left at the end; and no array is too long. -/
theorem endsEmpty_iff (h : r.eval = some a) :
    (EndsInEmpty a ↔ r.EndsEmpty) ∧ a.length ≤ 2 ^ 31 - 1 := by
  induction r generalizing a with
  | new => cases h; exact ⟨iff_of_false (fun h => h.1 rfl) id, Nat.zero_le _⟩
  | clear r =>
    obtain ⟨_, -, h⟩ := Option.bind_eq_some_iff.1 h
    cases h
    exact ⟨iff_of_false (fun h => h.1 rfl) id, Nat.zero_le _⟩
  | add r value ih =>
    obtain ⟨a', ha, h⟩ := Option.bind_eq_some_iff.1 h
    obtain ⟨hends, hlong⟩ := ih ha
    obtain ⟨hlen, hmax, hget⟩ := add_spec h
    refine ⟨?_, by omega⟩
    rw [EndsEmpty, ← hends, array_eq ha, EndsInEmpty, EndsInEmpty, hlen, hget]
    by_cases hlast : highBytes value + 1 < a'.length
    · rw [Nat.max_eq_left (by omega), if_neg (by omega)]
      exact ⟨fun h => ⟨h, hlast⟩, And.left⟩
    · rw [Nat.max_eq_right (by omega), Nat.add_sub_cancel, if_pos rfl]
      exact iff_of_false (fun h => Finset.insert_ne_empty _ _ h.2) fun h => hlast h.2
  | addRange r start stop isInclusive ih =>
    obtain ⟨a', ha, h⟩ := Option.bind_eq_some_iff.1 h
    obtain ⟨hends, hlong⟩ := ih ha
    rw [EndsEmpty, ← hends, array_eq ha]
    rcases addRange_spec h with ⟨hstop, hincl, rfl⟩ | ⟨hne, hmax, hlen, hvalue, hget⟩
    · exact ⟨⟨fun h => ⟨h, .inl ⟨hstop, hincl⟩⟩, And.left⟩, hlong⟩
    · refine ⟨?_, by omega⟩
      rw [or_iff_right hne, EndsInEmpty, EndsInEmpty, hlen]
      by_cases hlast : lastHigh stop isInclusive + 1 < a'.length
      · rw [Nat.max_eq_left (by omega), hget _ (by omega)]
        exact ⟨fun h => ⟨h, hlast⟩, And.left⟩
      · rw [Nat.max_eq_right (by omega), Nat.add_sub_cancel]
        exact iff_of_false (fun h => hvalue.ne_empty h.2) fun h => hlast h.2
  | remove r value ih =>
    obtain ⟨a', ha, h⟩ := Option.bind_eq_some_iff.1 h
    obtain ⟨hends, hlong⟩ := ih ha
    obtain ⟨hlen, hiff⟩ := remove_spec h
    rw [EndsEmpty, ← hends, array_eq ha]
    exact ⟨hiff, by omega⟩
  | or r that ih ihThat =>
    obtain ⟨a', ha, h⟩ := Option.bind_eq_some_iff.1 h
    obtain ⟨that', hthat, h⟩ := Option.bind_eq_some_iff.1 h
    cases h
    obtain ⟨hends, hlong⟩ := ih ha
    obtain ⟨hends', hlong'⟩ := ihThat hthat
    rw [EndsEmpty, ← hends, ← hends', array_eq ha, array_eq hthat, or_spec.1]
    exact ⟨endsInEmpty_or, by omega⟩
  | and r that ih ihThat =>
    obtain ⟨a', ha, h⟩ := Option.bind_eq_some_iff.1 h
    obtain ⟨that', hthat, h⟩ := Option.bind_eq_some_iff.1 h
    cases h
    rw [EndsEmpty, array_eq ha, array_eq hthat, EndsInEmpty, and_spec.1, and_spec.2,
      Finset.disjoint_iff_inter_eq_empty]
    exact ⟨.rfl, (ih ha).2⟩
  | andNot r that ih ihThat =>
    obtain ⟨a', ha, h⟩ := Option.bind_eq_some_iff.1 h
    obtain ⟨that', hthat, h⟩ := Option.bind_eq_some_iff.1 h
    cases h
    rw [EndsEmpty, array_eq ha, array_eq hthat, EndsInEmpty, andNot_spec.1, andNot_spec.2,
      Finset.sdiff_eq_empty_iff_subset]
    exact ⟨.rfl, (ih ha).2⟩
  | copy r ih =>
    obtain ⟨a', ha, h⟩ := Option.bind_eq_some_iff.1 h
    cases h
    rw [EndsEmpty, ← (ih ha).1, RoaringBitmapArray.copy, endsInEmpty_or, or_spec.1]
    refine ⟨⟨fun h => h.2 (Nat.zero_le _), fun h => ⟨fun hle => absurd hle ?_, fun _ => h⟩⟩, ?_⟩
    · have := h.1
      simp only [length_nil]
      omega
    · simpa using (ih ha).2

end Run

/-! ## Values -/

def values (bitmaps : Bitmaps) : Set Nat := {value | contains bitmaps value}

theorem contains_iff (v : Fin (2 ^ 32)) : i * 2 ^ 32 + v.val ∈ values a ↔ v ∈ a.getD i ∅ := by
  have hhigh : highBytes (i * 2 ^ 32 + v.val) = i := by
    unfold highBytes
    omega
  have hlow : lowBytes (i * 2 ^ 32 + v.val) = v := by
    refine Fin.ext ?_
    change (i * 2 ^ 32 + v.val) % 2 ^ 32 = v.val
    omega
  rw [values, Set.mem_ofPred_eq, contains, hhigh, hlow]
  cases h : a[i]? <;> simp [List.getD, h]

theorem values_eq_iff : values a = values b ↔ ∀ i, a.getD i ∅ = b.getD i ∅ := by
  constructor
  · intro h i
    ext v
    rw [← contains_iff, ← contains_iff, h]
  · intro h
    ext value
    have hvalue : value = highBytes value * 2 ^ 32 + (lowBytes value).val := by
      change value = value / 2 ^ 32 * 2 ^ 32 + value % 2 ^ 32
      omega
    rw [hvalue, contains_iff, contains_iff, h]

theorem length_le_of_values_eq (ha : ¬EndsInEmpty a) (h : ∀ i, a.getD i ∅ = b.getD i ∅) :
    a.length ≤ b.length := by
  by_contra hlt
  refine ha ⟨by omega, ?_⟩
  rw [h, getD_eq_default b _ (by omega)]

theorem eq_of_values_eq (ha : ¬EndsInEmpty a) (hb : ¬EndsInEmpty b) (h : values a = values b) :
    a = b := by
  have hget := values_eq_iff.1 h
  have hlen := Nat.le_antisymm (length_le_of_values_eq ha hget)
    (length_le_of_values_eq hb fun i => (hget i).symm)
  refine List.ext_getElem hlen fun i hi hi' => ?_
  rw [← getD_eq_getElem a ∅ hi, ← getD_eq_getElem b ∅ hi', hget]

/-- Equality of the two arrays is that of their sets, and equal sets have one hash code. -/
def EqualAsSets (hash : RoaringBitmap → BitVec 32) (a b : Bitmaps) : Prop :=
  (equals a b = true ↔ values a = values b) ∧
    (values a = values b → hashCode a hash = hashCode b hash)

theorem equalAsSets_of_imp {hash : RoaringBitmap → BitVec 32} (h : values a = values b → a = b) :
    EqualAsSets hash a b := by
  rw [EqualAsSets, equals, decide_eq_true_iff]
  exact ⟨⟨congrArg values, h⟩, fun hvalues => congrArg (hashCode · hash) (h hvalues)⟩

/-- An array is compared as a set with every array whose calls leave no empty bitmap at its end,
just if its own calls leave none. -/
theorem equals_iff_values_eq_iff (hash : RoaringBitmap → BitVec 32) {r : Run} {a : Bitmaps}
    (ha : r.eval = some a) :
    (∀ (q : Run) (b : Bitmaps), q.eval = some b → ¬q.EndsEmpty → EqualAsSets hash a b) ↔
      ¬r.EndsEmpty := by
  obtain ⟨hends, hlong⟩ := Run.endsEmpty_iff ha
  constructor
  · -- the last bitmap is empty, so that `remove` of any value in it drops it
    intro h hempty
    have hlast := hends.2 hempty
    obtain ⟨value, hmax, hhigh⟩ :
        ∃ value, value ≤ maxRepresentableValue ∧ highBytes value = a.length - 1 := by
      refine ⟨(a.length - 1) * 2 ^ 32, ?_, ?_⟩
      · unfold maxRepresentableValue
        omega
      · exact Nat.mul_div_cancel _ (Nat.two_pow_pos 32)
    obtain ⟨htrim, -, hget⟩ := rdropWhile_spec a
    have heval : (r.remove value).eval = some (a.rdropWhile (· = ∅)) := by
      rw [Run.eval, ha]
      exact remove_of_endsInEmpty hlast hmax hhigh
    have hvalues : values a = values (a.rdropWhile (· = ∅)) :=
      values_eq_iff.2 fun i => (hget i).symm
    have hequal := ((h _ _ heval ((Run.endsEmpty_iff heval).1.not.1 htrim)).1).2 hvalues
    rw [equals, decide_eq_true_iff] at hequal
    rw [← hequal] at htrim
    exact htrim hlast
  · intro h q b hb hq
    exact equalAsSets_of_imp
      (eq_of_values_eq (hends.not.2 h) ((Run.endsEmpty_iff hb).1.not.2 hq))

/-- The value 3 is taken away, which empties the first of two bitmaps. -/
theorem equals_iff_values_eq_iff_first :
    let r := ((Run.new.add 3).add (2 ^ 32 + 8)).andNot (Run.new.add 3)
    let q := Run.new.add (2 ^ 32 + 8)
    r.eval = some [∅, {8}] ∧ q.eval = some [∅, {8}] ∧ ¬r.EndsEmpty ∧
      ∀ hash, EqualAsSets hash [∅, {8}] [∅, {8}] := by
  intro r q
  have hr : r.eval = some [∅, {8}] := by decide +kernel
  have hq : q.eval = some [∅, {8}] := by decide +kernel
  have hends : ¬r.EndsEmpty := by
    have harray : ((Run.new.add 3).add (2 ^ 32 + 8)).array = [{3}, {8}] := by decide +kernel
    have hthat : (Run.new.add 3).array = [{3}] := by decide +kernel
    rintro ⟨-, hsub⟩
    rw [harray, hthat] at hsub
    exact absurd hsub (by decide)
  refine ⟨hr, hq, hends, fun hash => ?_⟩
  exact (equals_iff_values_eq_iff hash hr).2 hends q _ hq fun h => h.1

/-- The value 0 is taken away from {0}. -/
theorem equals_ne_values :
    let r := (Run.new.add 0).andNot (Run.new.add 0)
    r.EndsEmpty ∧ ∃ a, r.eval = some a ∧ Run.new.eval = some [] ∧
      values a = values [] ∧ equals a [] = false := by
  have hzero : (Run.new.add 0).array = [{0}] := by decide +kernel
  refine ⟨⟨by rw [hzero]; decide, by rw [hzero]⟩, [∅], by decide +kernel, rfl, ?_, rfl⟩
  refine values_eq_iff.2 fun i => ?_
  rcases i with _ | i <;> rfl

end Delta.RoaringBitmapArray
