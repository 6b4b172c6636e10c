import RisingLake.Lib.BTreeMap

/-!
# Hash maps

`HashMap K V` is a finite map, without an order. `IterMap K V` is a hash map together with the order
in which a loop visits it: its entries as a list with distinct keys. The order is unspecified in the
source, so results quantify over every `IterMap`, and `IterMap.Same` relates two that hold the same
entries.

`HashMap::retain` is `filter`.
-/

abbrev HashMap (K V : Type) [Ord K] := Std.ExtTreeMap K V compare

abbrev BTreeSet (K : Type) [Ord K] := Std.ExtTreeSet K compare

namespace HashMap

open Std.ExtTreeMap

variable {K V : Type} [Ord K] [Std.TransOrd K] [Std.LawfulEqOrd K] (m : HashMap K V)

theorem getElem?_insert_eq [DecidableEq K] (k a : K) (v : V) :
    (m.insert k v)[a]? = if k = a then some v else m[a]? := by
  rw [getElem?_insert]
  simp only [Std.LawfulEqCmp.compare_eq_iff_eq]

theorem getElem?_erase_eq [DecidableEq K] (k a : K) : (m.erase k)[a]? = if k = a then none
    else m[a]? := by
  rw [getElem?_erase]
  simp only [Std.LawfulEqCmp.compare_eq_iff_eq]

theorem getElem?_filter_eq (f : K → V → Bool) (a : K) : (m.filter f)[a]? = m[a]?.filter (f a) := by
  rw [getElem?_filter]
  simp only [getKey_eq, Option.pfilter_eq_filter]

theorem map_insert [DecidableEq K] {W : Type} (f : V → W) (k : K) (v : V) :
    (m.insert k v).map (fun _ => f) = (m.map fun _ => f).insert k (f v) := by
  apply ext_getElem?
  intro a
  rw [getElem?_map, getElem?_insert_eq, getElem?_insert_eq, getElem?_map]
  split <;> rfl

theorem map_filter {W : Type} (f : V → W) (keep : K → Bool) :
    (m.filter fun k _ => keep k).map (fun _ => f) =
      (m.map fun _ => f).filter fun k _ => keep k := by
  apply ext_getElem?
  intro a
  rw [getElem?_map, getElem?_filter_eq, getElem?_filter_eq, getElem?_map]
  cases m[a]? with
  | none => rfl
  | some v => cases keep a <;> simp [Option.filter]

end HashMap

instance lawfulOrderOrdFin {n : Nat} : Std.LawfulOrderOrd (Fin n) where
  isLE_compare _ _ := Nat.isLE_compare
  isGE_compare _ _ := Nat.isGE_compare

namespace BTreeSet

variable {K : Type} [Ord K] [Std.TransOrd K]

def first? (s : BTreeSet K) : Option K := s.toList.head?

def last? (s : BTreeSet K) : Option K := s.toList.getLast?

variable [Preorder K] [Std.LawfulOrderOrd K] {s : BTreeSet K}

theorem first?_getD_le_iff [Std.LawfulEqOrd K] {top x : K} (htop : ∀ y, y ≤ top) :
    s.first?.getD top ≤ x ↔ top ≤ x ∨ ∃ y ∈ s, y ≤ x := by
  rw [first?, ← Std.ExtTreeSet.min?_eq_head?_toList]
  cases hmin : s.min? with
  | none =>
    rw [Std.ExtTreeSet.min?_eq_none_iff] at hmin
    simp [hmin]
  | some m =>
    obtain ⟨hm, hle⟩ := Std.ExtTreeSet.min?_eq_some_iff_mem_and_forall.1 hmin
    refine ⟨fun h => .inr ⟨m, hm, h⟩, fun h => ?_⟩
    rcases h with h | ⟨y, hy, h⟩
    · exact (htop m).trans h
    · exact (Std.isLE_compare.1 (hle y hy)).trans h

theorem le_last?_getD_iff [Std.LawfulEqOrd K] {bot x : K} (hbot : ∀ y, bot ≤ y) :
    x ≤ s.last?.getD bot ↔ x ≤ bot ∨ ∃ y ∈ s, x ≤ y := by
  rw [last?, ← Std.ExtTreeSet.max?_eq_getLast?_toList]
  cases hmax : s.max? with
  | none =>
    rw [Std.ExtTreeSet.max?_eq_none_iff] at hmax
    simp [hmax]
  | some m =>
    obtain ⟨hm, hle⟩ := Std.ExtTreeSet.max?_eq_some_iff_mem_and_forall.1 hmax
    refine ⟨fun h => .inr ⟨m, hm, h⟩, fun h => ?_⟩
    rcases h with h | ⟨y, hy, h⟩
    · exact h.trans (hbot m)
    · exact h.trans (Std.isLE_compare.1 (hle y hy))

theorem toList_sorted (s : BTreeSet K) : s.toList.Pairwise (· < ·) :=
  Std.ExtTreeSet.ordered_toList.imp Std.compare_eq_lt.1

end BTreeSet

/-- A hash map and the order in which it is iterated. -/
structure IterMap (K V : Type) where
  entries : List (K × V)
  nodup : (entries.map (·.1)).Nodup

namespace IterMap

variable {K V W : Type} [DecidableEq K]

def empty : IterMap K V := ⟨[], List.nodup_nil⟩

variable (m : IterMap K V)

def get? (k : K) : Option V := m.entries.lookup k

def contains (k : K) : Bool := (m.get? k).isSome

/-- The map with its values mapped, visited in the same order. -/
def map (f : V → W) (m : IterMap K V) : IterMap K W where
  entries := m.entries.map fun e => (e.1, f e.2)
  nodup := by simpa [List.map_map, Function.comp_def] using m.nodup

def erase (k : K) : IterMap K V where
  entries := m.entries.filter fun e => e.1 ≠ k
  nodup := m.nodup.sublist (List.filter_sublist.map _)

def insert (k : K) (v : V) : IterMap K V where
  entries := (k, v) :: (m.erase k).entries
  nodup := by
    rw [List.map_cons, List.nodup_cons]
    exact ⟨by simp [erase], (m.erase k).nodup⟩

/-- The two maps hold the same entries, visited in any order. -/
def Same (m m' : IterMap K V) : Prop := m.entries.Perm m'.entries

theorem lookup_cons_eq (k k' : K) (v : V) (es : List (K × V)) :
    ((k', v) :: es).lookup k = if k = k' then some v else es.lookup k := by
  rw [List.lookup_cons]
  by_cases hk : k = k'
  · simp [hk]
  · simp [show (k == k') = false by simpa using hk, hk]

variable {m : IterMap K V} {k : K}

theorem get?_eq_some_iff {v : V} : m.get? k = some v ↔ (k, v) ∈ m.entries := by
  obtain ⟨entries, hnd⟩ := m
  simp only [get?]
  induction entries with
  | nil => simp
  | cons e entries ih =>
    obtain ⟨k', v'⟩ := e
    simp only [List.map_cons, List.nodup_cons, List.mem_map, not_exists, not_and] at hnd
    rw [lookup_cons_eq]
    by_cases hk : k = k'
    · subst hk
      simp only [if_true, Option.some.injEq, List.mem_cons, Prod.mk.injEq, true_and]
      constructor
      · rintro rfl; exact .inl rfl
      · rintro (rfl | hm)
        · rfl
        · exact absurd rfl (hnd.1 _ hm)
    · simp only [hk, List.mem_cons, Prod.mk.injEq, false_and, false_or]
      exact ih hnd.2

theorem get?_erase (m : IterMap K V) (k a : K) : (m.erase k).get? a = if k = a then none
    else m.get? a := by
  apply Option.ext
  intro v
  rw [get?_eq_some_iff]
  split
  · simp_all [erase]
  · simp_all [erase, get?_eq_some_iff, eq_comm]

theorem get?_insert (m : IterMap K V) (k a : K) (v : V) :
    (m.insert k v).get? a = if k = a then some v else m.get? a := by
  have h : (m.insert k v).get? a = if a = k then some v else (m.erase k).get? a :=
    lookup_cons_eq a k v _
  rw [h, get?_erase]
  by_cases hk : k = a
  · simp [hk]
  · simp [hk, Ne.symm hk]

theorem contains_iff : m.contains k = true ↔ ∃ v, (k, v) ∈ m.entries := by
  rw [contains, Option.isSome_iff_exists]
  exact exists_congr fun v => get?_eq_some_iff

theorem contains_iff_mem_keys : m.contains k = true ↔ k ∈ m.entries.map (·.1) := by
  rw [contains_iff]
  simp

theorem get?_map {f : V → W} : (m.map f).get? k = (m.get? k).map f := by
  obtain ⟨entries, hnd⟩ := m
  simp only [get?, map]
  clear hnd
  induction entries with
  | nil => rfl
  | cons e entries ih =>
    rw [List.map_cons, lookup_cons_eq, ih]
    rw [lookup_cons_eq]
    split <;> rfl

theorem contains_map {f : V → W} : (m.map f).contains k = m.contains k := by
  simp [contains, get?_map]

theorem Same.get? {m' : IterMap K V} (h : m.Same m') (k : K) : m.get? k = m'.get? k := by
  apply Option.ext
  intro v
  rw [get?_eq_some_iff, get?_eq_some_iff]
  exact h.mem_iff

theorem flatMap_entries (m : IterMap K V) (k : K) (f : K × V → List W)
    (hf : ∀ e ∈ m.entries, e.1 ≠ k → f e = []) :
    m.entries.flatMap f = (m.get? k).elim [] fun v => f (k, v) := by
  obtain ⟨entries, hnd⟩ := m
  simp only [get?]
  induction entries with
  | nil => rfl
  | cons e entries ih =>
    obtain ⟨k', v'⟩ := e
    rw [List.map_cons, List.nodup_cons] at hnd
    have ih := ih hnd.2 fun e he => hf e (.tail _ he)
    rw [List.flatMap_cons, lookup_cons_eq]
    by_cases hk : k = k'
    · subst hk
      have hnone : entries.lookup k = none := List.lookup_eq_none_iff.2 fun e he => by
        simpa using fun h : k = e.1 => hnd.1 (List.mem_map.2 ⟨e, he, h.symm⟩)
      rw [ih, hnone]
      simp
    · rw [hf (k', v') (.head _) (Ne.symm hk), ih, if_neg hk, List.nil_append]

end IterMap

namespace HashMap

variable {K V : Type} [Ord K] [Std.TransOrd K] [Std.LawfulEqOrd K] [DecidableEq K]

/-- The map, visited in the order of its keys. -/
def iter (m : HashMap K V) : IterMap K V where
  entries := m.toList
  nodup := List.pairwise_map.2
    (Std.ExtTreeMap.distinct_keys_toList.imp fun h heq => h (Std.LawfulEqCmp.compare_eq_iff_eq.2 heq))

theorem get?_iter (m : HashMap K V) (k : K) : m.iter.get? k = m[k]? := by
  apply Option.ext
  intro v
  rw [IterMap.get?_eq_some_iff]
  exact Std.ExtTreeMap.mem_toList_iff_getElem?_eq_some

end HashMap
