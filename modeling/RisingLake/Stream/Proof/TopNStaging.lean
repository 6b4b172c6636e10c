import RisingLake.Stream.TopNCache

/-!
# What a staging holds

`TopNStaging.Net base cur s`: the staging holds the difference between two contents of the middle
cache, key by key. It is kept when a row is added to the middle, and when one is removed.
-/

namespace Stream.TopNStaging

open SortedMap

variable {V : Type} [DecidableEq V]

/-- What the staging holds under a key: a row to insert, one to delete, and the two rows of an
update. -/
def at? (s : TopNStaging V) (k : CacheKey) : Option V × Option V × Option (V × V) :=
  (s.toInsert.get? k, s.toDelete.get? k, s.toUpdate.get? k)

/-- The difference between what is under a key before and after; there is none between equal rows.
-/
def diff : Option V → Option V → Option V × Option V × Option (V × V)
  | none, none => (none, none, none)
  | none, some r => (some r, none, none)
  | some r, none => (none, some r, none)
  | some r, some r' => if r = r' then (none, none, none) else (none, none, some (r, r'))

def Net (base cur : CacheKey → Option V) (s : TopNStaging V) :
    Prop := ∀ k, s.at? k = diff (base k) (cur k)

variable {base : CacheKey → Option V} {s : TopNStaging V} {k a : CacheKey} {row : V}

theorem net_new (cur : CacheKey → Option V) : Net cur cur new := by
  intro k
  cases cur k with
  | none => rfl
  | some r => exact (if_pos rfl).symm

theorem at?_insert_ne (h : a ≠ k) : (s.insert k row).at? a = s.at? a := by
  unfold TopNStaging.insert at?
  split
  · split <;> simp [get?_insert, get?_erase, h]
  · simp [get?_insert, h]

theorem at?_insert_self {b : Option V} (h : s.at? k = diff b none) :
    (s.insert k row).at? k = diff b (some row) := by
  unfold at? at h
  unfold TopNStaging.insert at?
  cases b with
  | none =>
    simp only [diff, Prod.mk.injEq] at h
    simp [h, diff]
  | some old =>
    simp only [diff, Prod.mk.injEq] at h
    by_cases hrow : old = row
    · simp [h, hrow, diff]
    · simp [h, hrow, diff]

omit [DecidableEq V] in
theorem at?_delete_ne (h : a ≠ k) : (s.delete k row).at? a = s.at? a := by
  unfold TopNStaging.delete at?
  split
  · simp [get?_erase, h]
  · split <;> simp [get?_insert, get?_erase, h]

theorem at?_delete_self {b : Option V} (h : s.at? k = diff b (some row)) :
    (s.delete k row).at? k = diff b none := by
  unfold at? at h
  unfold TopNStaging.delete at?
  cases b with
  | none =>
    simp only [diff, Prod.mk.injEq] at h
    simp [h, diff]
  | some old =>
    by_cases hrow : old = row
    · simp only [diff, if_pos hrow, Prod.mk.injEq] at h
      simp [h, hrow, diff]
    · simp only [diff, if_neg hrow, Prod.mk.injEq] at h
      simp [h, diff]

variable {m : Cache V}

theorem Net.insert (h : Net base m.get? s) (hk : m.get? k = none) (row : V) :
    Net base (m.insert k row).get? (s.insert k row) := by
  intro a
  by_cases ha : a = k
  · subst ha
    rw [get?_insert_self]
    exact at?_insert_self (hk ▸ h a)
  · rw [get?_insert_of_ne ha, at?_insert_ne ha, h a]

theorem Net.delete (h : Net base m.get? s) (hk : m.get? k = some row) :
    Net base (m.erase k).get? (s.delete k row) := by
  intro a
  by_cases ha : a = k
  · subst ha
    rw [get?_erase_self]
    exact at?_delete_self (hk ▸ h a)
  · rw [get?_erase_of_ne ha, at?_delete_ne ha, h a]

end Stream.TopNStaging
