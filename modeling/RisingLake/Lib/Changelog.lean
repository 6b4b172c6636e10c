import Mathlib

/-!
# Changelogs of keyed tables

A table holds at most one row under each key. A change inserts a row, where its key is absent, or
deletes the row that is there; a list of changes that breaks this is inconsistent and has no result.
The changes of one key act on its cell only (`applyAll_eq_some_iff`), and `net` is the least list of
changes that takes one cell to another.
-/

inductive Change (R : Type) where
  | insert (row : R)
  | delete (row : R)
  deriving DecidableEq, Repr

namespace Change

open List

variable {K R : Type}

def row : Change R → R
  | insert r => r
  | delete r => r

@[simp] theorem row_insert (r : R) : (insert r).row = r := rfl

@[simp] theorem row_delete (r : R) : (delete r).row = r := rfl

/-- The change of what `f` makes of the row. -/
def map {R' : Type} (f : R → R') : Change R → Change R'
  | insert r => insert (f r)
  | delete r => delete (f r)

@[simp] theorem row_map {R' : Type} (f : R → R') (c : Change R) : (c.map f).row = f c.row := by
  cases c <;> rfl

variable [DecidableEq R]

/-- What a change makes of the row under its key: an insertion needs the cell empty, a deletion
needs it to hold the deleted row. -/
def onCell : Option R → Change R → Option (Option R)
  | none, insert r => some (some r)
  | some r', delete r => if r = r' then some none else none
  | _, _ => none

/-- The changes that take a cell from one content to another. -/
def net : Option R → Option R → List (Change R)
  | none, none => []
  | none, some r => [insert r]
  | some r, none => [delete r]
  | some r, some r' => if r = r' then [] else [delete r, insert r']

@[simp] theorem net_self (b : Option R) : net b b = [] := by
  cases b <;> simp [net]

theorem foldlM_net (b c : Option R) : (net b c).foldlM onCell b = some c := by
  cases b with
  | none => cases c <;> simp [net, onCell]
  | some r =>
    cases c with
    | none => simp [net, onCell]
    | some r' =>
      by_cases h : r = r'
      · simp [net, h]
      · simp [net, h, onCell]

theorem onCell_insert {b c : Option R} {r : R} (h : onCell b (insert r) = some c) :
    b = none ∧ c = some r := by
  cases b <;> simp_all [onCell]

theorem onCell_delete {b c : Option R} {r : R} (h : onCell b (delete r) = some c) :
    b = some r ∧ c = none := by
  cases b with
  | none => simp [onCell] at h
  | some r' =>
    by_cases hr : r = r'
    · simp_all [onCell]
    · simp [onCell, hr] at h

theorem onCell_row {b b' : Option R} {c : Change R} (h : onCell b c = some b') :
    (∀ r, b = some r → r = c.row) ∧ ∀ r, b' = some r → r = c.row := by
  cases c with
  | insert r =>
    obtain ⟨rfl, rfl⟩ := onCell_insert h
    simp [row, eq_comm]
  | delete r =>
    obtain ⟨rfl, rfl⟩ := onCell_delete h
    simp [row, eq_comm]

variable [DecidableEq K] (key : R → K)

/-- A change of the table whose rows are found under `key`. -/
def apply (t : K → Option R) (c : Change R) : Option (K → Option R) :=
  (onCell (t (key c.row)) c).map (Function.update t (key c.row))

def applyAll (t : K → Option R) (cs : List (Change R)) : Option (K → Option R) :=
  cs.foldlM (apply key) t

def ofKey (k : K) (cs : List (Change R)) : List (Change R) := cs.filter fun c => key c.row = k

variable {key} {t t' : K → Option R} {c : Change R} {cs : List (Change R)}

omit [DecidableEq R] in
theorem ofKey_map {R' : Type} (f : R' → R) (k : K) (cs : List (Change R')) :
    ofKey key k (cs.map (map f)) = (cs.filter fun c => key (f c.row) = k).map (map f) := by
  rw [ofKey, filter_map]
  simp only [Function.comp_def, row_map]

theorem applyAll_append (t : K → Option R) (cs cs' : List (Change R)) :
    applyAll key t (cs ++ cs') = applyAll key t cs >>= fun t' => applyAll key t' cs' :=
  foldlM_append

theorem apply_eq_some (h : apply key t c = some t') :
    onCell (t (key c.row)) c = some (t' (key c.row)) ∧ ∀ k, k ≠ key c.row → t' k = t k := by
  obtain ⟨r, hr, rfl⟩ := Option.map_eq_some_iff.1 h
  exact ⟨by simpa using hr, fun k hk => Function.update_of_ne hk ..⟩

/-- A changelog acts on each cell by the changes of its key. -/
theorem applyAll_eq_some_iff : ∀ {cs : List (Change R)} {t t' : K → Option R},
    applyAll key t cs = some t' ↔
      ∀ k, (ofKey key k cs).foldlM onCell (t k) = some (t' k)
  | [], t, t' => by
    simp only [applyAll, ofKey, filter_nil, foldlM_nil, Option.pure_def, Option.some.injEq]
    exact funext_iff
  | c :: cs, t, t' => by
    have hcell : ∀ k, (ofKey key k (c :: cs)).foldlM onCell (t k) =
        if key c.row = k then onCell (t k) c >>= (ofKey key k cs).foldlM onCell
        else (ofKey key k cs).foldlM onCell (t k) := by
      intro k
      simp only [ofKey]
      split
      · simp_all
      · simp_all
    simp only [hcell]
    rw [applyAll, foldlM_cons, apply]
    cases hc : onCell (t (key c.row)) c with
    | none =>
      simp only [Option.map_none, Option.bind_eq_bind, Option.bind_none, reduceCtorEq,
        false_iff, not_forall]
      exact ⟨key c.row, by simp [hc]⟩
    | some r =>
      simp only [Option.map_some, Option.bind_eq_bind, Option.bind_some]
      rw [← applyAll, applyAll_eq_some_iff]
      refine forall_congr' fun k => ?_
      by_cases hk : key c.row = k
      · subst hk; simp [hc]
      · rw [Function.update_of_ne (Ne.symm hk), if_neg hk]

theorem applyAll_of_net (h : ∀ k, ofKey key k cs = net (t k) (t' k)) :
    applyAll key t cs = some t' :=
  applyAll_eq_some_iff.2 fun k => by rw [h k]; exact foldlM_net _ _

/-- The rows of the table are found under their own keys. -/
def Keyed (key : R → K) (t : K → Option R) : Prop := ∀ k r, t k = some r → key r = k

theorem Keyed.apply (ht : Keyed key t) (h : apply key t c = some t') : Keyed key t' := by
  obtain ⟨hcell, hrest⟩ := apply_eq_some h
  intro k r hk
  by_cases hkey : k = key c.row
  · subst hkey
    cases c with
    | insert r' =>
      rw [(onCell_insert hcell).2] at hk
      cases hk
      rfl
    | delete r' =>
      rw [(onCell_delete hcell).2] at hk
      cases hk
  · exact ht k r (hrest k hkey ▸ hk)

theorem Keyed.applyAll : ∀ {cs : List (Change R)} {t : K → Option R}, Keyed key t →
    applyAll key t cs = some t' → Keyed key t'
  | [], _, ht, h => by
    cases h
    exact ht
  | c :: cs, t, ht, h => by
    obtain ⟨t1, h1, h⟩ := Option.bind_eq_some_iff.1 h
    exact (ht.apply h1).applyAll h

/-! ## Parts of a table -/

theorem foldlM_onCell_filter (p : R → Bool) : ∀ {cs : List (Change R)} {b b' : Option R},
    cs.foldlM onCell b = some b' → (cs.filter fun c => p c.row).foldlM onCell (b.filter p) =
      some (b'.filter p)
  | [], _, _, h => by
    cases h
    rfl
  | c :: cs, b, b', h => by
    obtain ⟨b1, h1, h⟩ := Option.bind_eq_some_iff.1 h
    have ih := foldlM_onCell_filter p h
    cases c with
    | insert r =>
      obtain ⟨rfl, rfl⟩ := onCell_insert h1
      cases hp : p r <;> simpa [filter_cons, hp, onCell, Option.filter] using ih
    | delete r =>
      obtain ⟨rfl, rfl⟩ := onCell_delete h1
      cases hp : p r <;> simpa [filter_cons, hp, onCell, Option.filter] using ih

theorem applyAll_filter (p : R → Bool) (h : applyAll key t cs = some t') :
    applyAll key (fun k => (t k).filter p) (cs.filter fun c => p c.row) =
      some fun k => (t' k).filter p := by
  refine applyAll_eq_some_iff.2 fun k => ?_
  have hk := foldlM_onCell_filter p (applyAll_eq_some_iff.1 h k)
  rw [ofKey, filter_filter] at hk
  rw [ofKey, filter_filter]
  simpa only [Bool.and_comm] using hk

omit [DecidableEq R] in
theorem filter_key_eq {rows : List R} {r : R} (hnodup : (rows.map key).Nodup) (hr : r ∈ rows) :
    (rows.filter fun r' => key r' = key r) = [r] := by
  induction rows with
  | nil => cases hr
  | cons x rows ih =>
    rw [map_cons, nodup_cons] at hnodup
    rcases mem_cons.1 hr with rfl | hr
    · rw [filter_cons_of_pos (by simp), filter_eq_nil_iff.2]
      intro r' hr' heq
      exact hnodup.1 (mem_map.2 ⟨r', hr', of_decide_eq_true heq⟩)
    · rw [filter_cons_of_neg, ih hnodup.2 hr]
      intro heq
      exact hnodup.1 (mem_map.2 ⟨r, hr, (of_decide_eq_true heq).symm⟩)

theorem applyAll_rows {mk : R → Change R} (hmk : ∀ r, (mk r).row = r) {rows : List R}
    (hnodup : (rows.map key).Nodup) (hrows : ∀ r ∈ rows, net (t (key r)) (t' (key r)) = [mk r])
    (hrest : ∀ k, (∀ r ∈ rows, key r ≠ k) → t k = t' k) :
    applyAll key t (rows.map mk) = some t' := by
  refine applyAll_of_net fun k => ?_
  have hkey : ofKey key k (rows.map mk) = (rows.filter fun r => key r = k).map mk := by
    rw [ofKey, filter_map]
    exact congrArg _ (filter_congr fun r _ => by simp [hmk])
  rw [hkey]
  by_cases hk : ∃ r ∈ rows, key r = k
  · obtain ⟨r, hr, rfl⟩ := hk
    rw [filter_key_eq hnodup hr, hrows r hr]
    rfl
  · have hne : ∀ r ∈ rows, key r ≠ k := fun r hr heq => hk ⟨r, hr, heq⟩
    rw [hrest k hne, net_self, filter_eq_nil_iff.2 fun r hr => by simp [hne r hr]]
    rfl

end Change
