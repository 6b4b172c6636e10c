import RisingLake.Lib.Bound
import RisingLake.Lib.Res

/-!
# Ordered maps

`BTreeMap K V` is iterated in the order of its keys. `range` gives the entries within bounds, and
panics on bounds that are the wrong way round, unless the map has no root node to search from. A
list of entries in strict order of their keys is given by its members (`eq_of_ordered`), so what an
ordered traversal yields can be told entry by entry.
-/

/-- `std::collections::BTreeMap`. -/
abbrev BTreeMap (K V : Type) [LinearOrder K] := Std.ExtTreeMap K V (@compare K LinearOrder.toOrd)

namespace BTreeMap

open Std.ExtTreeMap

variable {K V : Type} [LinearOrder K]

instance transOrd : Std.TransOrd K := inferInstance

instance [DecidableEq V] : DecidableEq (BTreeMap K V) :=
  fun m m' => inferInstanceAs (Decidable (m = m'))

theorem getElem?_insert_eq (m : BTreeMap K V) (k a : K) (v : V) :
    (m.insert k v)[a]? = if k = a then some v else m[a]? := by
  rw [getElem?_insert]
  simp only [Std.LawfulEqCmp.compare_eq_iff_eq]

theorem getElem?_erase_eq (m : BTreeMap K V) (k a : K) : (m.erase k)[a]? = if k = a then none
    else m[a]? := by
  rw [getElem?_erase]
  simp only [Std.LawfulEqCmp.compare_eq_iff_eq]

theorem ext {m m' : BTreeMap K V} (h : ∀ k : K, m[k]? = m'[k]?) : m = m' :=
  ext_getElem? h

variable {m : BTreeMap K V} {e : K × V}

theorem mem_toList : e ∈ m.toList ↔ m[e.1]? = some e.2 := mem_toList_iff_getElem?_eq_some

/-! ## Ranges -/

/-- The bounds that `BTreeMap::range` accepts. -/
def rangeOk : Bound K × Bound K → Bool
  | (.excluded a, .excluded b) => a < b
  | (.included a, .included b) | (.included a, .excluded b) | (.excluded a, .included b) => a ≤ b
  | (.unbounded, _) | (_, .unbounded) => true

/-- What `BTreeMap::range` says of bounds that it does not accept. -/
def rangeError : Bound K × Bound K → String
  | (.excluded a, .excluded b) =>
    if a = b then "range start and end are equal and excluded in BTreeMap"
    else "range start is greater than range end in BTreeMap"
  | _ => "range start is greater than range end in BTreeMap"

/-- The entries of the map whose keys are in the range. -/
def entriesIn (m : BTreeMap K V) (range : Bound K × Bound K) : List (K × V) :=
  m.toList.filter fun e => Bound.contains range e.1

/-- The bounds are compared on the way down from the root. A map gets its root (`rooted`) with its
first entry and keeps it when the entries are removed. -/
def range (m : BTreeMap K V) (rooted : Bool) (range : Bound K × Bound K) : Res (List (K × V)) :=
  if rooted && !rangeOk range then .error (.explicit (rangeError range))
  else .ok (m.entriesIn range)

variable {r : Bound K × Bound K}

theorem range_eq_ok {rooted : Bool} (h : rangeOk r = true ∨ rooted = false) :
    m.range rooted r = .ok (m.entriesIn r) := by
  rcases h with h | h <;> simp [range, h]

theorem mem_entriesIn : e ∈ m.entriesIn r ↔ m[e.1]? = some e.2 ∧ Bound.contains r e.1 = true := by
  rw [entriesIn, List.mem_filter, mem_toList]

/-! ## Directions -/

/-- `a` comes before `b` in a traversal. -/
def Before (rev : Bool) (a b : K) : Prop := if rev then b < a else a < b

/-- How two keys compare in a traversal. -/
def cmpDir (rev : Bool) (a b : K) : Ordering := if rev then (cmp a b).swap else cmp a b

variable {rev : Bool} {a b c : K}

theorem Before.irrefl (a : K) : ¬Before rev a a := by
  cases rev <;> exact lt_irrefl a

theorem Before.ne (h : Before rev a b) : a ≠ b := by
  intro heq
  subst heq
  exact Before.irrefl a h

theorem Before.trans (h : Before rev a b) (h' : Before rev b c) : Before rev a c := by
  cases rev with
  | false => exact lt_trans h h'
  | true => exact lt_trans h' h

theorem cmpDir_eq_lt : cmpDir rev a b = .lt ↔ Before rev a b := by
  cases rev with
  | false => exact cmp_eq_lt_iff a b
  | true =>
    rw [cmpDir, cmp_swap]
    exact cmp_eq_lt_iff b a

theorem cmpDir_eq_gt : cmpDir rev a b = .gt ↔ Before rev b a := by
  cases rev with
  | false => exact cmp_eq_gt_iff a b
  | true =>
    rw [cmpDir, cmp_swap]
    exact cmp_eq_gt_iff b a

theorem cmpDir_eq_eq : cmpDir rev a b = .eq ↔ a = b := by
  cases rev with
  | false => exact cmp_eq_eq_iff a b
  | true =>
    rw [cmpDir, if_pos rfl, cmp_swap, cmp_eq_eq_iff]
    exact eq_comm

/-- The entries are in strict order of their keys. -/
def Ordered (rev : Bool) (es : List (K × V)) : Prop := es.Pairwise fun e e' => Before rev e.1 e'.1

theorem eq_of_ordered {es es' : List (K × V)} (h : Ordered rev es) (h' : Ordered rev es')
    (hmem : ∀ e, e ∈ es ↔ e ∈ es') : es = es' := by
  have hirrefl : Std.Irrefl fun e e' : K × V => Before rev e.1 e'.1 := ⟨fun e => Before.irrefl e.1⟩
  have hanti : Std.Antisymm fun e e' : K × V => Before rev e.1 e'.1 :=
    ⟨fun e e' hlt hgt => absurd (hlt.trans hgt) (Before.irrefl e.1)⟩
  exact List.Pairwise.eq_of_mem_iff h h' hmem

theorem ordered_toList (m : BTreeMap K V) : Ordered false m.toList :=
  ordered_keys_toList.imp compare_lt_iff_lt.1

/-- The entries in a range, in the direction of a traversal. -/
def traverse (rev : Bool) (m : BTreeMap K V) (r : Bound K × Bound K) : List (K × V) :=
  if rev then (m.entriesIn r).reverse else m.entriesIn r

theorem mem_traverse : e ∈ m.traverse rev r ↔ m[e.1]? = some e.2 ∧ Bound.contains r e.1 = true := by
  rw [← mem_entriesIn]
  cases rev with
  | false => rfl
  | true => exact List.mem_reverse

theorem ordered_traverse (m : BTreeMap K V) (r : Bound K × Bound K) :
    Ordered rev (m.traverse rev r) := by
  have hsorted : (m.entriesIn r).Pairwise fun e e' => e.1 < e'.1 := (ordered_toList m).filter _
  cases rev with
  | false => exact hsorted
  | true => exact List.pairwise_reverse.2 hsorted

end BTreeMap
