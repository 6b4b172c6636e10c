import RisingLake.Stream.StateTable

/-!
# What state tables hold

The scans of the vnodes of a table that keeps its rows under their own keys, in its own vnodes, give
every row of the range once (`mem_scans`, `nodup_scans`).
-/

namespace Stream.TableDesc

open Res Std.ExtTreeMap

variable {R K : Type} [LinearOrder K] {d : TableDesc R K} {t : StateTable R K} {row : R}

theorem insert_eq_ok (hvnode : d.vnodeByPk (d.pk row) ∈ d.vnodes) (h : t[d.pk row]? = none) :
    d.insert t row = .ok (Std.ExtTreeMap.insert t (d.pk row) row) := by
  simp [insert, checkVnode, hvnode, h]

theorem delete_eq_ok [DecidableEq R] (hvnode : d.vnodeByPk (d.pk row) ∈ d.vnodes)
    (h : t[d.pk row]? = some row) : d.delete t row = .ok (erase t (d.pk row)) := by
  simp [delete, checkVnode, hvnode, h]

theorem update_eq_ok [DecidableEq R] {newRow : R} (hpk : d.pk row = d.pk newRow)
    (hvnode : d.vnodeByPk (d.pk newRow) ∈ d.vnodes) (h : t[d.pk row]? = some row) :
    d.update t row newRow = .ok (Std.ExtTreeMap.insert t (d.pk newRow) newRow) := by
  rw [hpk] at h
  simp [update, checkVnode, hvnode, hpk, h]

variable {inRange : R → Bool}

theorem mem_iterWithVnode {vnode : Nat} : row ∈ d.iterWithVnode t vnode inRange ↔
      ∃ k, t[k]? = some row ∧ d.vnodeByPk k = vnode ∧ inRange row = true := by
  simp [iterWithVnode]

/-- The rows are kept under their keys, in the vnodes of the table. -/
structure Keeps (d : TableDesc R K) (t : StateTable R K) : Prop where
  pk : ∀ {k row}, t[k]? = some row → d.pk row = k
  vnode : ∀ {k row}, t[k]? = some row → d.vnodeByPk k ∈ d.vnodes

def scans (d : TableDesc R K) (t : StateTable R K) (inRange : R → Bool) : List (List R) :=
  d.vnodes.map fun vnode => d.iterWithVnode t vnode inRange

theorem mem_scans (h : d.Keeps t) :
    row ∈ (d.scans t inRange).flatten ↔ t[d.pk row]? = some row ∧ inRange row = true := by
  simp only [scans, List.mem_flatten, List.mem_map]
  constructor
  · rintro ⟨rows, ⟨vnode, -, rfl⟩, hrow⟩
    obtain ⟨k, hk, -, hrange⟩ := mem_iterWithVnode.1 hrow
    rw [h.pk hk]
    exact ⟨hk, hrange⟩
  · rintro ⟨hk, hrange⟩
    exact ⟨_, ⟨_, h.vnode hk, rfl⟩, mem_iterWithVnode.2 ⟨_, hk, rfl, hrange⟩⟩

theorem nodup_iterWithVnode (h : d.Keeps t) (vnode : Nat) (inRange : R → Bool) :
    (d.iterWithVnode t vnode inRange).Nodup := by
  have hkeys : (t.toList.filter fun e => d.vnodeByPk e.1 == vnode && inRange e.2).Pairwise
      fun e e' => e.1 ≠ e'.1 :=
    (ordered_keys_toList.imp fun hlt => (compare_lt_iff_lt.1 hlt).ne).filter _
  rw [iterWithVnode, List.Nodup, List.pairwise_map]
  refine hkeys.imp_of_mem fun {e e'} he he' hne heq => hne ?_
  rw [List.mem_filter, mem_toList_iff_getElem?_eq_some] at he he'
  rw [← h.pk he.1, ← h.pk he'.1, heq]

theorem nodup_scans (h : d.Keeps t) (inRange : R → Bool) : (d.scans t inRange).flatten.Nodup := by
  rw [List.nodup_flatten]
  constructor
  · intro rows hrows
    obtain ⟨vnode, -, rfl⟩ := List.mem_map.1 hrows
    exact nodup_iterWithVnode h vnode inRange
  · rw [scans, List.pairwise_map]
    refine d.nodup.imp fun {v v'} hne row hrow hrow' => hne ?_
    obtain ⟨k, hk, rfl, -⟩ := mem_iterWithVnode.1 hrow
    obtain ⟨k', hk', rfl, -⟩ := mem_iterWithVnode.1 hrow'
    rw [← h.pk hk, ← h.pk hk']

end Stream.TableDesc
