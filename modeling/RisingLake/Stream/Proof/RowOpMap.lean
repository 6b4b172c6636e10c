import RisingLake.Stream.CompactChunk
import RisingLake.Stream.Proof.Chunk

/-!
# The map of net changes

After every row of a consistent stream, `RowOpMap` holds the net change of each key since a base
table (`RowOpMap.Takes`). The chunks built from it change every key by `Change.net` of its rows in
the base and the final table, in one piece. Tables and changes are those of the classes of rows.
-/

namespace Stream

open Res List RowOpMap Change StreamChunkCompactor IterMap

variable {R C K : Type}

section

variable [DecidableEq K] (eqv : R → C) (key : C → K)

/-- The net change of key `k` takes the row `b` of a base table to the row `c`. -/
def Takes (k : K) (b c : Option C) : Option (RowOp R) → Prop
  | none => b = c
  | some (.insert v) => b = none ∧ c = some (eqv v) ∧ key (eqv v) = k
  | some (.delete v) => b = some (eqv v) ∧ c = none ∧ key (eqv v) = k
  | some (.update old new) => b = some (eqv old) ∧ c = some (eqv new) ∧ key (eqv old) = k ∧
      key (eqv new) = k

/-- The net changes of the map take one table to the other. -/
def RowOpMap.Takes (base cur : K → Option C) (m : RowOpMap K R) : Prop :=
  ∀ k, Stream.Takes eqv key k (base k) (cur k) (m.get? k)

/-- The net change of a key once a row of it has come in. -/
def RowOp.next (op? : Option (RowOp R)) : Change R → Option (RowOp R)
  | .insert v =>
    match op? with
    | some (.delete old) | some (.update old _) => some (.update old v)
    | _ => some (.insert v)
  | .delete v =>
    match op? with
    | some (.insert _) => none
    | some (.update old _) => some (.delete old)
    | _ => some (.delete v)

variable {eqv key} {base cur cur' : K → Option C} {m : RowOpMap K R} {x : OpRow R}

theorem get?_collectRow_invisible (h : x.change? = none) : collectRow eqv key m x = m := by
  have hv : x.vis = false := OpRow.vis_eq h
  simp [collectRow, hv]

/-- A map with one entry replaced. -/
def Replaced {V : Type} (m m' : IterMap K V) (k : K) (v : Option V) : Prop :=
  ∀ k', m'.get? k' = if k = k' then v else m.get? k'

theorem get?_collectRow {c : Change R} (h : x.change? = some c) :
    Replaced m (collectRow eqv key m x) (key (eqv x.row))
      (RowOp.next (m.get? (key (eqv x.row))) c) := by
  intro k
  have hv : x.vis = true := OpRow.vis_eq h
  obtain ⟨op, row, vis⟩ := x
  subst hv
  by_cases hk : key (eqv row) = k
  · subst hk
    cases op <;> cases h <;> cases hm : m.get? (key (eqv row)) with
    | none => simp [collectRow, insertRow, deleteRow, hm, RowOp.next, get?_insert]
    | some op =>
      cases op <;> simp [collectRow, insertRow, deleteRow, hm, RowOp.next, get?_insert, get?_erase]
  · cases op <;> cases h <;> cases hm : m.get? (key (eqv row)) with
    | none => simp [collectRow, insertRow, deleteRow, hm, get?_insert, hk]
    | some op =>
      cases op <;> simp [collectRow, insertRow, deleteRow, hm, get?_insert, get?_erase, hk]

variable [DecidableEq C] {b c : Option C} {op? : Option (RowOp R)}

omit [DecidableEq K] in
theorem Takes.next {k : K} {c' : Option C} {ch : Change R} (h : Takes eqv key k b c op?)
    (hk : key (eqv ch.row) = k) (hc : onCell c (ch.map eqv) = some c') :
    Takes eqv key k b c' (RowOp.next op? ch) := by
  cases ch with
  | insert v =>
    obtain ⟨rfl, rfl⟩ := onCell_insert hc
    match op?, h with
    | none, h => exact ⟨h, rfl, hk⟩
    | some (.delete old), ⟨h1, _, h3⟩ => exact ⟨h1, rfl, h3, hk⟩
  | delete v =>
    obtain ⟨rfl, rfl⟩ := onCell_delete hc
    match op?, h with
    | none, h => exact ⟨h, rfl, hk⟩
    | some (.insert _), ⟨h1, _, _⟩ => exact h1
    | some (.update old _), ⟨h1, _, h3, _⟩ => exact ⟨h1, rfl, h3⟩

theorem RowOpMap.Takes.collectRow {c : Change R} (h : m.Takes eqv key base cur)
    (hx : x.change? = some c) (hc : Change.apply key cur (c.map eqv) = some cur') :
    (collectRow eqv key m x).Takes eqv key base cur' := by
  obtain ⟨hcell, hother⟩ := apply_eq_some hc
  rw [row_map, OpRow.change?_row hx] at hcell hother
  intro k
  rw [get?_collectRow hx k]
  split
  · rename_i hk
    subst hk
    exact (h _).next (by rw [OpRow.change?_row hx]) hcell
  · rename_i hk
    rw [hother k (Ne.symm hk)]
    exact h k

variable {final : K → Option C}

theorem RowOpMap.Takes.foldl :
    ∀ {xs : List (OpRow R)} {m : RowOpMap K R} {cur : K → Option C}, m.Takes eqv key base cur →
      applyAll key cur ((xs.filterMap OpRow.change?).map (Change.map eqv)) = some final →
      (xs.foldl (StreamChunkCompactor.collectRow eqv key) m).Takes eqv key base final
  | [], m, cur, h, hf => by cases hf; exact h
  | x :: xs, m, cur, h, hf => by
    rw [foldl_cons]
    cases hx : x.change? with
    | none =>
      rw [get?_collectRow_invisible hx]
      rw [filterMap_cons_none hx] at hf
      exact foldl h hf
    | some c =>
      rw [filterMap_cons_some hx, map_cons, applyAll] at hf
      obtain ⟨cur', hc, hf⟩ := Option.bind_eq_some_iff.1 hf
      exact foldl (h.collectRow hx hc) hf

/-! ## New chunks -/

omit [DecidableEq K] in
theorem record_changes {k : K} (h : Takes eqv key k b c op?) :
    ((op?.bind (record eqv)).elim [] Record.changes).map (Change.map eqv) = Change.net b c := by
  rcases op? with - | v | v | ⟨old, new⟩
  · cases h; simp
  · obtain ⟨rfl, rfl, -⟩ := h; rfl
  · obtain ⟨rfl, rfl, -⟩ := h; rfl
  · obtain ⟨rfl, rfl, -⟩ := h
    by_cases hr : eqv old = eqv new <;> simp [record, hr, Change.net, Change.map]

omit [DecidableEq K] in
theorem record_key {k : K} {op : RowOp R} {r : Record R}
    (h : Takes eqv key k b c (some op)) (hr : record eqv op = some r) :
    ∀ ch ∈ r.changes, key (eqv ch.row) = k := by
  cases op with
  | insert | delete => cases hr; simpa using h.2.2
  | update old new =>
    simp only [record] at hr
    split at hr
    · cases hr
    · cases hr; simpa using h.2.2

variable (eqv) in
/-- The records of the entries, as the loop appends them. -/
def RowOpMap.records (es : List (K × RowOp R)) : List (Record R) :=
  es.filterMap fun e => record eqv e.2

omit [DecidableEq K] in
variable (eqv) in
theorem foldlM_appendOp : ∀ {s : List (StreamChunk R) × StreamChunkBuilder R}
    {rs : List (Record R)}, StreamChunkBuilder.Holds s rs → ∀ es : List (K × RowOp R),
    ∃ s', es.foldlM (appendOp eqv) s = .ok s' ∧ StreamChunkBuilder.Holds s' (rs ++ records eqv es)
  | s, rs, h, [] => ⟨s, rfl, by simpa [records] using h⟩
  | s, rs, h, e :: es => by
    rw [foldlM_cons]
    cases hr : record eqv e.2 with
    | none =>
      have hstep : appendOp eqv s e = .ok s := by simp [appendOp, hr]
      have hrs : records eqv (e :: es) = records eqv es := filterMap_cons_none hr
      rw [hstep, hrs]
      exact foldlM_appendOp h es
    | some r =>
      obtain ⟨out, hout, hap⟩ := StreamChunkBuilder.appendRecord_spec h.1 r
      have hstep : appendOp eqv s e = .ok (s.1 ++ out.1.toList, out.2) := by
        simp [appendOp, hr, hout]
      have hrs : records eqv (e :: es) = r :: records eqv es := filterMap_cons_some hr
      rw [hstep, hrs, append_cons]
      exact foldlM_appendOp (h.append hap) es

variable {visit : RowOpMap K R → RowOpMap K R}

theorem ofKey_records (hvisit : ∀ m, IterMap.Same m (visit m)) (h : m.Takes eqv key base final)
    (k : K) :
    ofKey key k (((records eqv (visit m).entries).flatMap Record.changes).map (Change.map eqv)) =
      Change.net (base k) (final k) := by
  have hflat : (records eqv (visit m).entries).flatMap Record.changes =
      (visit m).entries.flatMap fun e => (record eqv e.2).elim [] Record.changes := by
    rw [records]
    induction (visit m).entries with
    | nil => rfl
    | cons e es ih =>
      rw [filterMap_cons, flatMap_cons, ← ih]
      cases record eqv e.2 <;> rfl
  have hfilter : ∀ e ∈ (visit m).entries,
    ((record eqv e.2).elim [] Record.changes).filter (fun c => key (eqv c.row) = k) =
        if e.1 = k then (record eqv e.2).elim [] Record.changes else [] := by
    intro e he
    have hget : m.get? e.1 = some e.2 := ((hvisit m).get? e.1).trans (get?_eq_some_iff.2 he)
    have htakes : Takes eqv key e.1 (base e.1) (final e.1) (some e.2) := hget ▸ h e.1
    cases hr : record eqv e.2 with
    | none => simp
    | some r =>
      have hkey := record_key htakes hr
      split
      · rename_i hk
        exact filter_eq_self.2 fun c hc => by simpa [hk] using hkey c hc
      · rename_i hk
        exact filter_eq_nil_iff.2 fun c hc => by simpa [hkey c hc] using hk
  rw [hflat, ofKey_map, filter_flatMap, flatMap_entries _ k, ← (hvisit m).get? k,
    ← record_changes (h k)]
  · cases hget : m.get? k with
    | none => rfl
    | some op =>
      have hmem : (k, op) ∈ (visit m).entries :=
        get?_eq_some_iff.1 (((hvisit m).get? k).symm.trans hget)
      exact congrArg (List.map _) ((hfilter _ hmem).trans (if_pos rfl))
  · intro e he hk
    rw [hfilter e he, if_neg hk]

/-- What compacted chunks are: each key has its net change, and updates stay together. -/
structure Compacted (eqv : R → C) (key : C → K) (base final : K → Option C)
    (out : List (StreamChunk R)) : Prop where
  net : ∀ k, ofKey key k ((changes out).map (Change.map eqv)) = Change.net (base k) (final k)
  paired : ∀ c ∈ out, Paired (fun r => key (eqv r)) c

theorem intoChunks_compacted (hvisit : ∀ m, IterMap.Same m (visit m))
    {chunkSize : Nat} (hsize : 0 < chunkSize) (h : m.Takes eqv key base final) :
    ∃ out, m.intoChunks eqv visit chunkSize = .ok out ∧ Compacted eqv key base final out := by
  have hnew : StreamChunkBuilder.Holds (([], { pending := [], maxChunkSize := some chunkSize }) :
        List (StreamChunk R) × StreamChunkBuilder R) [] :=
    ⟨fun n hn => by cases hn; exact hsize, [], [], rfl, rfl, rfl⟩
  obtain ⟨s, hs, hh⟩ := foldlM_appendOp eqv hnew (visit m).entries
  obtain ⟨groups, hout, hgroups⟩ := hh.take
  have hentry : ∀ e ∈ (visit m).entries, Takes eqv key e.1 (base e.1) (final e.1) (some e.2) := by
    intro e he
    have hget : m.get? e.1 = some e.2 := ((hvisit m).get? e.1).trans (get?_eq_some_iff.2 he)
    exact hget ▸ h e.1
  rw [nil_append] at hgroups
  refine ⟨s.1 ++ s.2.take.1.toList, ?_, ?_, ?_⟩
  · rw [intoChunks, StreamChunkBuilder.new_eq_ok hsize, ok_bind, hs, ok_bind]
  · intro k
    rw [hout, changes_groups, hgroups]
    exact ofKey_records hvisit h k
  · intro c hc
    rw [hout] at hc
    obtain ⟨g, hg, rfl⟩ := mem_map.1 hc
    apply paired_records
    intro old new hm
    have hmem : Record.update old new ∈ records eqv (visit m).entries :=
      hgroups ▸ mem_flatten.2 ⟨g, hg, hm⟩
    obtain ⟨e, he, hr⟩ := mem_filterMap.1 hmem
    have hkey := record_key (hentry e he) hr
    rw [show key (eqv new) = e.1 from hkey (.insert new) (by simp),
      show key (eqv old) = e.1 from hkey (.delete old) (by simp)]

end

end Stream
