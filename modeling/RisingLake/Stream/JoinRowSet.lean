import RisingLake.Lib.SortedMap

/-!
# `JoinRowSet` (`stream/src/executor/join/join_row_set.rs`)

A map that is a vector of entries while it is small, and a `BTreeMap` from then on. The keys of the
entries are different; only the `BTreeMap` has them in order.
-/

namespace Stream

open List

def swapRemove {α : Type} (xs : List α) (pos : Nat) : List α :=
  match xs.getLast? with
  | some last => (xs.set pos last).dropLast
  | none => xs

theorem swapRemove_perm {α : Type} {xs : List α} {pos : Nat} {x : α} (h : xs[pos]? = some x) :
    xs.Perm (x :: swapRemove xs pos) := by
  rcases eq_nil_or_concat xs with rfl | ⟨ys, last, rfl⟩
  · cases h
  rw [concat_eq_append] at h ⊢
  rw [swapRemove, getLast?_concat]
  dsimp only
  by_cases hpos : pos < ys.length
  · rw [List.getElem?_append_left hpos, List.getElem?_eq_getElem hpos, Option.some_inj] at h
    rw [set_append_left _ _ hpos, dropLast_concat]
    calc ys ++ [last]
      _ |>.Perm (last :: ys) := perm_append_singleton last ys
      _ |>.Perm (last :: x :: ys.eraseIdx pos) :=
        (h ▸ (getElem_cons_eraseIdx_perm hpos).symm).cons last
      _ |>.Perm (x :: last :: ys.eraseIdx pos) := .swap ..
      _ |>.Perm (x :: ys.set pos last) := (set_perm_cons_eraseIdx hpos last).symm.cons x
  · rw [List.getElem?_append_right (by omega)] at h
    have hzero : pos - ys.length = 0 := by
      have := (List.getElem?_eq_some_iff.1 h).1
      simpa using this
    rw [hzero, List.getElem?_cons_zero, Option.some_inj] at h
    rw [set_append_right _ _ (by omega), hzero, set_cons_zero, dropLast_concat, ← h]
    exact perm_append_singleton last ys

/-- An entry under each key, as a vector or as a `BTreeMap`. -/
inductive JoinRowSet (K V : Type) [LinearOrder K] where
  | btree (inner : SortedMap K V)
  | vec (inner : List (K × V)) (nodup : (inner.map (·.1)).Nodup)

def maxVecSize : Nat := 4

namespace JoinRowSet

variable {K V : Type} [LinearOrder K]

def default : JoinRowSet K V := vec [] .nil

def entries : JoinRowSet K V → List (K × V)
  | btree inner => inner.entries
  | vec inner _ => inner

variable (s : JoinRowSet K V)

def isEmpty (s : JoinRowSet K V) : Bool := s.entries.isEmpty

def keys : List K := s.entries.map (·.1)

def values : List V := s.entries.map (·.2)

/-- A vector that is full becomes a `BTreeMap`. -/
def grow : JoinRowSet K V → JoinRowSet K V
  | btree inner => btree inner
  | vec inner nodup => if inner.length ≥ maxVecSize then btree (.ofList inner) else vec inner nodup

def push (inner : List (K × V)) (nodup : (inner.map (·.1)).Nodup) (key : K) (value : V) :
    JoinRowSet K V × Bool :=
  if h : key ∈ inner.map (·.1) then (vec inner nodup, false)
  else (vec (inner ++ [(key, value)]) (by
    rw [map_append, map_cons, map_nil, nodup_append]
    refine ⟨nodup, nodup_singleton _, fun a ha b hb heq => h ?_⟩
    have hkey : a = key := heq.trans (mem_singleton.1 hb)
    exact hkey ▸ ha), true)

/-- Whether the key was vacant. -/
def tryInsert (key : K) (value : V) : JoinRowSet K V × Bool :=
  match s.grow with
  | btree inner =>
    if (inner.get? key).isSome then (btree inner, false) else (btree (inner.insert key value), true)
  | vec inner nodup => push inner nodup key value

def removeAt (inner : List (K × V)) (nodup : (inner.map (·.1)).Nodup) (pos : Nat) :
    Option V × JoinRowSet K V :=
  match h : inner[pos]? with
  | some e => (some e.2, vec (swapRemove inner pos)
      (nodup_cons.1 (((swapRemove_perm h).map (·.1)).nodup_iff.1 nodup)).2)
  | none => (none, vec inner nodup)

theorem nodup_entries (m : SortedMap K V) : (m.entries.map (·.1)).Nodup :=
  pairwise_map.2 (m.sorted.imp fun h => h.ne)

/-- A `BTreeMap` that has become small is a vector again. -/
def shrink (inner : SortedMap K V) : JoinRowSet K V :=
  if inner.len ≤ maxVecSize / 2 then vec inner.entries (nodup_entries inner) else btree inner

def remove : JoinRowSet K V → K → Option V × JoinRowSet K V
  | btree inner, key => (inner.get? key, shrink (inner.erase key))
  | vec inner nodup, key =>
    match inner.findIdx? (·.1 = key) with
    | some pos => removeAt inner nodup pos
    | none => (none, vec inner nodup)

def get : JoinRowSet K V → K → Option V
  | btree inner, key => inner.get? key
  | vec inner _, key => inner.lookup key

omit [LinearOrder K] in
theorem nodup_zip {W : Type} {ks : List K} (h : ks.Nodup) (vs : List W) :
    ((ks.zip vs).map (·.1)).Nodup := by
  induction ks generalizing vs with
  | nil => exact .nil
  | cons k ks ih =>
    obtain ⟨hk, hks⟩ := nodup_cons.1 h
    cases vs with
    | nil => exact .nil
    | cons v vs =>
      rw [zip_cons_cons, map_cons, nodup_cons]
      refine ⟨fun hmem => hk ?_, ih hks vs⟩
      obtain ⟨e, he, rfl⟩ := mem_map.1 hmem
      exact (of_mem_zip he).1

/-- What `values_mut` leaves: the set with other values, in the order of an iteration. -/
def withValues {W : Type} : JoinRowSet K V → List W → JoinRowSet K W
  | btree inner, vs => btree (inner.withValues vs)
  | vec inner nodup, vs => vec ((inner.map (·.1)).zip vs) (nodup_zip nodup vs)

/-- What a write through `get_mut` leaves: another value under the key. -/
def replace (key : K) (value : V) : JoinRowSet K V :=
  s.withValues (s.entries.map fun e => if e.1 = key then value else e.2)

/-! ## Ranges -/

def minEntry (es : List (K × V)) : Option (K × V) := es.argmin (·.1)

def maxEntry (es : List (K × V)) : Option (K × V) := es.argmax (·.1)

variable (bound : Bound K)

/-- The first entry that is not before the bound. -/
def lowerBound : Option (K × V) :=
  match s with
  | btree inner => inner.entries.find? fun e => bound.aboveStart e.1
  | vec inner _ => minEntry (inner.filter fun e => Bound.contains (bound, .unbounded) e.1)

/-- The last entry that is not after the bound. -/
def upperBound : Option (K × V) :=
  match s with
  | btree inner => (inner.entries.filter fun e => bound.belowEnd e.1).getLast?
  | vec inner _ => maxEntry (inner.filter fun e => Bound.contains (.unbounded, bound) e.1)

def firstKeySorted : Option K :=
  match s with
  | btree inner => inner.firstKeyValue.map (·.1)
  | vec inner _ => (minEntry inner).map (·.1)

end JoinRowSet

end Stream
