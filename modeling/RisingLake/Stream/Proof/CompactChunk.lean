import RisingLake.Stream.Proof.RowOpMap

/-!
# Compaction in place

The rows that `intoCompactedChunks` keeps in play show, for every key, the net change that the map
of `reconstructedCompactedChunks` holds (`Compacting`): each of the transitions of `push` is a step
of that map. After the updates are settled, the visible rows are exactly the net changes.
-/

namespace Stream

open Res List Change StreamChunkCompactor OpRowMutRefTuple OpRowMutRef

variable {R C K : Type}

/-! ## References -/

variable {x : OpRow R}

namespace OpRowMutRef

variable {r r' : OpRowMutRef} {chunks : List (StreamChunk R)}

theorem get_eq_ok : r.get chunks = .ok x ↔ r.get? chunks = some x := by
  unfold get get?
  rw [bind_eq_ok]
  simp only [index_eq_ok, Option.bind_eq_some_iff]

variable (f : OpRow R → OpRow R)

theorem get?_modify : r'.get? (r.modify f chunks) = if r = r' then (r'.get? chunks).map f
    else r'.get? chunks := by
  obtain ⟨c, i⟩ := r
  obtain ⟨c', i'⟩ := r'
  simp only [get?, modify, getElem?_modify]
  by_cases hc : c = c'
  · subst hc
    cases chunks[c]? with
    | none => simp
    | some chunk =>
      by_cases hi : i = i' <;> simp [hi]
  · simp [hc]

theorem get?_modify_of_ne (h : r' ≠ r) : r'.get? (r.modify f chunks) = r'.get? chunks := by
  rw [get?_modify, if_neg (Ne.symm h)]

theorem get?_modify_self {f : OpRow R → OpRow R} (h : r.get? chunks = some x) :
    r.get? (r.modify f chunks) = some (f x) := by
  rw [get?_modify, if_pos rfl, h]; rfl

theorem refs_modify : refs (r.modify f chunks) = refs chunks := by
  unfold refs modify
  rw [length_modify]
  congr 1
  funext i
  rw [getElem?_modify]
  cases chunks[i]? with
  | none => rfl
  | some chunk => by_cases h : r.chunk = i <;> simp [h]

end OpRowMutRef

open OpRowMutRef (get_eq_ok get?_modify get?_modify_of_ne get?_modify_self refs_modify)

variable {r : OpRowMutRef} {chunks : List (StreamChunk R)}

theorem mem_refs : r ∈ refs chunks ↔ ∃ x, r.get? chunks = some x := by
  obtain ⟨c, i⟩ := r
  simp only [refs, mem_flatMap, mem_map, mem_range, OpRowMutRef.mk.injEq, get?]
  constructor
  · rintro ⟨c, hc, i, hi, rfl, rfl⟩
    rw [getElem?_eq_getElem hc] at hi
    exact ⟨_, by rw [getElem?_eq_getElem hc]; exact getElem?_eq_getElem hi⟩
  · rintro ⟨x, hx⟩
    obtain ⟨chunk, hchunk, hx⟩ := Option.bind_eq_some_iff.1 hx
    have hc := (List.getElem?_eq_some_iff.1 hchunk).1
    have hi := (List.getElem?_eq_some_iff.1 hx).1
    exact ⟨c, hc, i, by simpa [hchunk] using hi, rfl, rfl⟩

theorem nodup_refs (chunks : List (StreamChunk R)) : (refs chunks).Nodup := by
  unfold refs
  rw [nodup_flatMap]
  constructor
  · intro i _
    exact nodup_range.map fun a b h => (mk.inj h).2
  · refine nodup_range.imp fun {i j} hij => ?_
    intro r hi hj
    obtain ⟨_, -, rfl⟩ := mem_map.1 hi
    obtain ⟨_, -, h⟩ := mem_map.1 hj
    exact hij (mk.inj h).1.symm

theorem filterMap_range_getElem? (xs : List R) :
    (List.range xs.length).filterMap (xs[·]?) = xs := by
  induction xs with
  | nil => rfl
  | cons x xs ih =>
    rw [length_cons, range_succ_eq_map, filterMap_cons]
    simpa using ih

theorem flatten_eq_refs (chunks : List (StreamChunk R)) :
    chunks.flatten = (refs chunks).filterMap (·.get? chunks) := by
  have hchunk : ∀ i, ((range (chunks[i]?.getD []).length).map (OpRowMutRef.mk i)).filterMap
      (·.get? chunks) = chunks[i]?.getD [] := by
    intro i
    rw [filterMap_map]
    cases hc : chunks[i]? with
    | none => simp
    | some chunk =>
      simp only [Function.comp_def, get?, hc]
      exact filterMap_range_getElem? chunk
  rw [refs, filterMap_flatMap]
  simp only [hchunk]
  clear hchunk
  induction chunks with
  | nil => rfl
  | cons chunk chunks ih =>
    rw [length_cons, range_succ_eq_map, flatMap_cons, flatMap_map]
    simpa using ih

def changeAt (chunks : List (StreamChunk R)) (r : OpRowMutRef) : Option (Change R) :=
  (r.get? chunks).bind OpRow.change?

theorem changeAt_of_get? (h : r.get? chunks = some x) : changeAt chunks r = x.change? := by
  simp [changeAt, h]

theorem changes_eq_refs (chunks : List (StreamChunk R)) :
    changes chunks = (refs chunks).filterMap (changeAt chunks) := by
  rw [changes, flatten_eq_refs, filterMap_filterMap]
  rfl

theorem filterMap_eq_of_sublist {α β : Type} {f : α → Option β} {xs ys : List α}
    (hsub : ys.Sublist xs) (hnd : xs.Nodup) (hf : ∀ x ∈ xs, x ∉ ys → f x = none) :
    xs.filterMap f = ys.filterMap f := by
  induction hsub with
  | slnil => rfl
  | @cons ys xs x hsub ih =>
    obtain ⟨hx, hnd⟩ := nodup_cons.1 hnd
    rw [filterMap_cons_none (hf x (.head _) fun hin => hx (hsub.subset hin))]
    exact ih hnd fun y hy => hf y (.tail _ hy)
  | @cons_cons ys xs x hsub ih =>
    obtain ⟨hx, hnd⟩ := nodup_cons.1 hnd
    have ih := ih hnd fun y hy hout => hf y (.tail _ hy) fun hin => by
      rcases mem_cons.1 hin with rfl | hin
      · exact hx hy
      · exact hout hin
    rw [filterMap_cons, filterMap_cons, ih]

/-! ## Rows in play -/

section

variable [DecidableEq K] {eqv : R → C} {key : C → K} {base cur cur' : K → Option C}
  {m : RowOpMap K R}

def OpRowMutRefTuple.refs (t : OpRowMutRefTuple) : List OpRowMutRef :=
  t.beforePrev.toList ++ [t.prev]

/-- The rows of a tuple show a net change. -/
def OpRowMutRefTuple.Shows (chunks : List (StreamChunk R)) (t : OpRowMutRefTuple) : RowOp R → Prop
  | .insert v => t.beforePrev = none ∧ t.prev.get? chunks = some ⟨.insert, v, true⟩
  | .delete v => t.beforePrev = none ∧ t.prev.get? chunks = some ⟨.delete, v, true⟩
  | .update old new => ∃ p, t.beforePrev = some p ∧ p.get? chunks = some ⟨.delete, old, true⟩ ∧
      t.prev.get? chunks = some ⟨.insert, new, true⟩

/-- The rows in play for a key, of those already read, show its net change. -/
def Shown (chunks : List (StreamChunk R)) (done : List OpRowMutRef) :
    Option OpRowMutRefTuple → Option (RowOp R) → Prop
  | none, none => True
  | some t, some op => t.Shows chunks op ∧ t.refs.Sublist done
  | _, _ => False

/-- The state after the rows `done` of the chunks `input` have been read; `m` is the map of net
changes. -/
structure Compacting (eqv : R → C) (key : C → K) (input : List (StreamChunk R))
    (done : List OpRowMutRef) (m : RowOpMap K R) (s : StreamChunkCompactor.State K R) : Prop where
  refs : refs s.chunks = refs input
  ahead : ∀ r, r ∉ done → r.get? s.chunks = r.get? input
  shown : ∀ k, Shown s.chunks done (s.opRowMap.get? k) (m.get? k)
  visible : ∀ r ∈ done, ∀ x, r.get? s.chunks = some x → x.vis = true →
    ∃ t, s.opRowMap.get? (key (eqv x.row)) = some t ∧ r ∈ t.refs

section

variable {chunks' input : List (StreamChunk R)} {done : List OpRowMutRef}
  {t : OpRowMutRefTuple} {op : RowOp R}

theorem OpRowMutRefTuple.Shows.frame (h : t.Shows chunks op)
    (hf : ∀ r ∈ t.refs, r.get? chunks' = r.get? chunks) : t.Shows chunks' op := by
  have hprev := hf t.prev (by simp [refs])
  cases op with
  | insert | delete => exact ⟨h.1, hprev.trans h.2⟩
  | update old new =>
    obtain ⟨p, hp, hold, hnew⟩ := h
    exact ⟨p, hp, (hf p (by simp [refs, hp])).trans hold, hprev.trans hnew⟩

variable {b c : Option C}

omit [DecidableEq K] in
theorem OpRowMutRefTuple.Shows.key_row {k : K}
    (h : t.Shows chunks op) (htakes : Takes eqv key k b c (some op)) (hr : r ∈ t.refs) :
    ∃ x, r.get? chunks = some x ∧ x.vis = true ∧ key (eqv x.row) = k := by
  cases op with
  | insert | delete =>
    obtain rfl : r = t.prev := by simpa [refs, h.1] using hr
    exact ⟨_, h.2, rfl, htakes.2.2⟩
  | update old new =>
    obtain ⟨p, hp, hold, hnew⟩ := h
    have hr : r = p ∨ r = t.prev := by simpa [refs, hp] using hr
    rcases hr with rfl | rfl
    · exact ⟨_, hold, rfl, htakes.2.2.1⟩
    · exact ⟨_, hnew, rfl, htakes.2.2.2⟩

variable {s s' : StreamChunkCompactor.State K R} {m' : RowOpMap K R}
  {k : K}

section

variable (h : Compacting eqv key input done m s)
include h

theorem Compacting.tuple (ht : s.opRowMap.get? k = some t) :
    ∃ op, m.get? k = some op ∧ t.Shows s.chunks op ∧ t.refs.Sublist done := by
  have hshown := h.shown k
  rw [ht] at hshown
  cases hm : m.get? k with
  | none => rw [hm] at hshown; exact hshown.elim
  | some op => rw [hm] at hshown; exact ⟨op, rfl, hshown⟩

theorem Compacting.vacant (ht : s.opRowMap.get? k = none) : m.get? k = none := by
  have hshown := h.shown k
  rw [ht] at hshown
  cases hm : m.get? k with
  | none => rfl
  | some op => rw [hm] at hshown; exact hshown.elim

theorem Compacting.refs_disjoint (htakes : m.Takes eqv key base cur)
    {k' : K} {t' : OpRowMutRefTuple} (ht : s.opRowMap.get? k = some t)
    (ht' : s.opRowMap.get? k' = some t') (hk : k ≠ k') (hr : r ∈ t.refs) : r ∉ t'.refs := by
  intro hr'
  obtain ⟨op, hm, hshows, -⟩ := h.tuple ht
  obtain ⟨op', hm', hshows', -⟩ := h.tuple ht'
  obtain ⟨x, hx, -, hkey⟩ := hshows.key_row (hm ▸ htakes k) hr
  obtain ⟨x', hx', -, hkey'⟩ := hshows'.key_row (hm' ▸ htakes k') hr'
  obtain rfl : x = x' := Option.mem_unique hx hx'
  exact hk (hkey.symm.trans hkey')

/-- One more row is read: it and the rows in play for its key may change, and the rows of the key
that stay visible are those in play afterwards. -/
theorem Compacting.step (htakes : m.Takes eqv key base cur)
    (hr : r ∉ done) {t' : Option OpRowMutRefTuple} {op' : Option (RowOp R)}
    (hrefs : Stream.refs s'.chunks = Stream.refs s.chunks)
    (hframe : ∀ r', r' ≠ r → (∀ t, s.opRowMap.get? k = some t → r' ∉ t.refs) →
      r'.get? s'.chunks = r'.get? s.chunks)
    (hmap : Replaced s.opRowMap s'.opRowMap k t') (hm : Replaced m m' k op')
    (hshown : Shown s'.chunks (done ++ [r]) t' op')
    (hvis : ∀ r' x, (r' = r ∨ ∃ t, s.opRowMap.get? k = some t ∧ r' ∈ t.refs) →
      r'.get? s'.chunks = some x → x.vis = true → key (eqv x.row) = k ∧ ∃ t, t' = some t ∧
        r' ∈ t.refs) :
    Compacting eqv key input (done ++ [r]) m' s' where
  refs := hrefs.trans h.refs
  ahead := by
    intro r' hr'
    obtain ⟨hdone, hne⟩ : r' ∉ done ∧ r' ≠ r := by simpa using hr'
    rw [hframe r' hne ?_, h.ahead r' hdone]
    intro t ht hmem
    obtain ⟨op, -, -, hsub⟩ := h.tuple ht
    exact hdone (hsub.subset hmem)
  shown := by
    intro k'
    rw [hmap k', hm k']
    split
    · exact hshown
    rename_i hk
    cases ht' : s.opRowMap.get? k' with
    | none => rw [h.vacant ht']; trivial
    | some t2 =>
      obtain ⟨op, hm', hshows, hsub⟩ := h.tuple ht'
      rw [hm']
      refine ⟨hshows.frame fun r' hmem => ?_, hsub.trans (sublist_append_left _ _)⟩
      apply hframe
      · rintro rfl; exact hr (hsub.subset hmem)
      · intro t ht
        exact h.refs_disjoint htakes ht' ht (Ne.symm hk) hmem
  visible := by
    intro r' hmem x hx hxv
    by_cases htouched : r' = r ∨ ∃ t, s.opRowMap.get? k = some t ∧ r' ∈ t.refs
    · obtain ⟨hk, t, ht, hin⟩ := hvis r' x htouched hx hxv
      exact ⟨t, by rw [hmap _, if_pos hk.symm, ht], hin⟩
    obtain ⟨hne, hout⟩ := not_or.1 htouched
    rw [hframe r' hne fun t ht hin => hout ⟨t, ht, hin⟩] at hx
    have hdone : r' ∈ done := by simpa [hne] using hmem
    obtain ⟨t, ht, hin⟩ := h.visible r' hdone x hx hxv
    refine ⟨t, ?_, hin⟩
    rw [hmap _, if_neg, ht]
    rintro rfl
    exact hout ⟨t, ht, hin⟩

end

theorem change?_normalized {c : Change R} (h : x.change? = some c) :
    c = .insert x.row ∧ x.op.normalizeUpdate = .insert ∨ c = .delete x.row ∧ x.op.normalizeUpdate =
      .delete := by
  unfold OpRow.change? at h
  split at h
  · split at h <;> cases h <;> simp_all [Op.normalizeUpdate]
  · cases h

def hideBoth (t : OpRowMutRefTuple) (r : OpRowMutRef) (chunks : List (StreamChunk R)) :
    List (StreamChunk R) := r.setVis false (t.prev.setVis false chunks)

variable {v : R}

theorem push_insert_delete (build : Build) {w : R}
    (hp : t.prev.get? chunks = some ⟨.insert, v, true⟩)
    (hc : r.get? chunks = some ⟨.delete, w, true⟩) :
      t.push build r chunks = .ok (t.beforePrev.isNone,
        { beforePrev := none, prev := t.beforePrev.getD t.prev }, hideBoth t r chunks) := by
  unfold push
  rw [get_eq_ok.2 hp, get_eq_ok.2 hc]
  obtain ⟨before, prev⟩ := t
  cases before <;> simp [debugAssert, hideBoth]

theorem push_delete_insert (build : Build) {w : R} (hb : t.beforePrev = none)
    (hp : t.prev.get? chunks = some ⟨.delete, v, true⟩)
    (hc : r.get? chunks = some ⟨.insert, w, true⟩) :
    t.push build r chunks = .ok (false, { beforePrev := some t.prev, prev := r }, chunks) := by
  unfold push
  rw [get_eq_ok.2 hp, get_eq_ok.2 hc]
  simp [debugAssert, hb]

theorem get?_hideBoth_of_ne {r' : OpRowMutRef} (h : r' ≠ r) (h' : r' ≠ t.prev) :
    r'.get? (hideBoth t r chunks) = r'.get? chunks :=
  (get?_modify_of_ne _ h).trans (get?_modify_of_ne _ h')

theorem not_visible_hideBoth {r' : OpRowMutRef} (h : r' = r ∨ r' = t.prev)
    (hx : r'.get? (hideBoth t r chunks) = some x) : x.vis = false := by
  unfold hideBoth setVis at hx
  by_cases hr : r = r'
  · rw [get?_modify, if_pos hr] at hx
    obtain ⟨y, -, rfl⟩ := Option.map_eq_some_iff.1 hx
    rfl
  · rw [get?_modify, if_neg hr, get?_modify, if_pos (h.resolve_left (Ne.symm hr)).symm] at hx
    obtain ⟨y, -, rfl⟩ := Option.map_eq_some_iff.1 hx
    rfl

theorem ne_of_get? {p : OpRowMutRef} {w : R} (h : p.get? chunks = some ⟨.delete, v, true⟩)
    (h' : r.get? chunks = some ⟨.insert, w, true⟩) : p ≠ r := by
  rintro rfl
  cases h.symm.trans h'

/-- `chunks` is the state's chunks with the operation of the row `r` normalized. -/
structure Normalized (r : OpRowMutRef) (op : Op) (row : R) (before chunks : List (StreamChunk R)) :
    Prop where
  cur : r.get? chunks = some ⟨op, row, true⟩
  other : ∀ r', r' ≠ r → r'.get? chunks = r'.get? before
  refs : refs chunks = refs before

theorem normalized_setOp (hx : r.get? chunks = some x) (hv : x.vis = true) :
    Normalized r x.op.normalizeUpdate x.row chunks (r.setOp x.op.normalizeUpdate chunks) where
  cur := by rw [← hv]; exact get?_modify_self hx
  other := fun _ hne => get?_modify_of_ne _ hne
  refs := refs_modify _

section

variable {op' : Op} {row : R} (h : Compacting eqv key input done m s)
  (htakes : m.Takes eqv key base cur) (hr : r ∉ done) (hn : Normalized r op' row s.chunks chunks)
include h htakes hr hn

theorem Compacting.first (hk : key (eqv row) = k) (ht : s.opRowMap.get? k = none) {o : RowOp R}
    (ho : OpRowMutRefTuple.Shows chunks { beforePrev := none, prev := r } o)
    (hm : Replaced m m' k (some o)) : Compacting eqv key input (done ++ [r]) m'
      { chunks, opRowMap := s.opRowMap.insert k { beforePrev := none, prev := r } } := by
  apply h.step htakes hr hn.refs (fun r' hr' _ => hn.other r' hr') (fun _ => IterMap.get?_insert ..) hm
  · exact ⟨ho, by simp [OpRowMutRefTuple.refs]⟩
  · rintro r' y (rfl | ⟨t, ht', -⟩) hy hyv
    · obtain rfl := Option.mem_unique hn.cur hy
      exact ⟨hk, _, rfl, by simp [OpRowMutRefTuple.refs]⟩
    · rw [ht] at ht'; cases ht'

section
variable (ht : s.opRowMap.get? k = some t)
include ht

theorem Compacting.reinsert (hk : key (eqv row) = k) (hshows : t.Shows s.chunks (.delete v))
    (hsub : t.refs.Sublist done) (hop : op' = .insert) (hv : key (eqv v) = k)
    (hm : Replaced m m' k (some (.update v row))) : Compacting eqv key input (done ++ [r]) m'
      { chunks, opRowMap := s.opRowMap.insert k { beforePrev := some t.prev, prev := r } } := by
  obtain ⟨hbefore, hprev⟩ := hshows
  have hrefs : t.refs = [t.prev] := by simp [OpRowMutRefTuple.refs, hbefore]
  have hdone : t.prev ∈ done := hsub.subset (by simp [hrefs])
  have hprev' : t.prev.get? chunks = some ⟨.delete, v, true⟩ :=
    (hn.other _ fun heq => hr (heq ▸ hdone)).trans hprev
  apply h.step htakes hr hn.refs (fun r' hr' _ => hn.other r' hr') (fun _ => IterMap.get?_insert ..) hm
  · refine ⟨⟨t.prev, rfl, hprev', hop ▸ hn.cur⟩, ?_⟩
    exact (hrefs ▸ hsub).append (List.Sublist.refl [r])
  · rintro r' y hr' hy -
    obtain rfl | rfl : r' = r ∨ r' = t.prev := by
      refine hr'.imp id fun ⟨t2, ht2, hmem⟩ => ?_
      rw [ht] at ht2
      cases ht2
      simpa [hrefs] using hmem
    · obtain rfl := Option.mem_unique hn.cur hy
      exact ⟨hk, _, rfl, by simp [OpRowMutRefTuple.refs]⟩
    · obtain rfl := Option.mem_unique hprev' hy
      exact ⟨hv, _, rfl, by simp [OpRowMutRefTuple.refs]⟩

theorem Compacting.hide {opRowMap : IterMap K OpRowMutRefTuple} {t' : Option OpRowMutRefTuple}
    {o : Option (RowOp R)} (hmap : Replaced s.opRowMap opRowMap k t') (hm : Replaced m m' k o)
    (hshown : Shown (hideBoth t r chunks) (done ++ [r]) t' o)
    (hvis : ∀ p x, t.beforePrev = some p → p.get? (hideBoth t r chunks) = some x →
      key (eqv x.row) = k ∧ ∃ t, t' = some t ∧ p ∈ t.refs) :
    Compacting eqv key input (done ++ [r]) m' { chunks := hideBoth t r chunks, opRowMap } := by
  apply h.step htakes hr
  · exact ((refs_modify _).trans (refs_modify _)).trans hn.refs
  · intro r' hr' hout
    have hprev : r' ≠ t.prev := fun heq => hout t ht (by simp [OpRowMutRefTuple.refs, heq])
    rw [get?_hideBoth_of_ne hr' hprev, hn.other r' hr']
  · exact hmap
  · exact hm
  · exact hshown
  · intro r' y hr' hy hyv
    by_cases hhidden : r' = r ∨ r' = t.prev
    · rw [not_visible_hideBoth hhidden hy] at hyv
      cases hyv
    · obtain ⟨hne, hprev⟩ := not_or.1 hhidden
      obtain ⟨t2, ht2, hmem⟩ := hr'.resolve_left hne
      rw [ht] at ht2
      cases ht2
      exact hvis r' y (by simpa [OpRowMutRefTuple.refs, hprev] using hmem) hy

theorem Compacting.annihilate (hshows : t.Shows s.chunks (.insert v))
    (hm : Replaced m m' k none) : Compacting eqv key input (done ++ [r]) m'
      { chunks := hideBoth t r chunks, opRowMap := s.opRowMap.erase k } := by
  refine h.hide htakes hr hn ht (fun _ => IterMap.get?_erase ..) hm trivial ?_
  intro p x hp
  rw [hshows.1] at hp
  cases hp

theorem Compacting.undoUpdate {old : R} {p : OpRowMutRef} (hp : t.beforePrev = some p)
    (hold : p.get? s.chunks = some ⟨.delete, old, true⟩) (hne : p ≠ t.prev)
    (hsub : t.refs.Sublist done) (hkey : key (eqv old) = k)
    (hm : Replaced m m' k (some (.delete old))) : Compacting eqv key input (done ++ [r]) m'
      { chunks := hideBoth t r chunks
        opRowMap := s.opRowMap.insert k { beforePrev := none, prev := p } } := by
  have hdone : p ∈ done := hsub.subset (by simp [OpRowMutRefTuple.refs, hp])
  have hpr : p ≠ r := fun heq => hr (heq ▸ hdone)
  have hp' : p.get? (hideBoth t r chunks) = some ⟨.delete, old, true⟩ := by
    rw [get?_hideBoth_of_ne hpr hne, hn.other p hpr, hold]
  refine h.hide htakes hr hn ht (fun _ => IterMap.get?_insert ..) hm
    ⟨⟨rfl, hp'⟩, singleton_sublist.2 (mem_append_left _ hdone)⟩ ?_
  intro p' y hp2 hy
  obtain rfl := Option.mem_unique hp hp2
  obtain rfl := Option.mem_unique hp' hy
  exact ⟨hkey, _, rfl, by simp [OpRowMutRefTuple.refs]⟩

end

end

section

variable (build : Build) (hx : r.get? s.chunks = some x) (hv : x.vis = true)
include hx hv

theorem visitRow_vacant (ht : s.opRowMap.get? (key (eqv x.row)) = none) :
    visitRow eqv key build s r = .ok
      { chunks := r.setOp x.op.normalizeUpdate s.chunks
        opRowMap := s.opRowMap.insert (key (eqv x.row)) { beforePrev := none, prev := r } } := by
  simp [visitRow, get_eq_ok.2 hx, hv, ht]

theorem visitRow_occupied (ht : s.opRowMap.get? (key (eqv x.row)) = some t) {out}
    (hp : t.push build r (r.setOp x.op.normalizeUpdate s.chunks) = .ok out) :
    visitRow eqv key build s r = .ok
      { chunks := out.2.2
        opRowMap := if out.1 then s.opRowMap.erase (key (eqv x.row))
          else s.opRowMap.insert (key (eqv x.row)) out.2.1 } := by
  simp [visitRow, get_eq_ok.2 hx, hv, ht, hp]

end

variable [DecidableEq C]

theorem visitRow_compacting (build : Build) {c : Change R} (h : Compacting eqv key input done m s)
    (htakes : m.Takes eqv key base cur) (hr : r ∉ done) (hx : r.get? input = some x)
    (hc : x.change? = some c) (hcell : Change.apply key cur (c.map eqv) = some cur') :
    ∃ s', visitRow eqv key build s r = .ok s' ∧
      Compacting eqv key input (done ++ [r]) (collectRow eqv key m x) s' := by
  have hv : x.vis = true := OpRow.vis_eq hc
  have hxs : r.get? s.chunks = some x := (h.ahead r hr).trans hx
  have hn := normalized_setOp hxs hv
  have hcell := (apply_eq_some hcell).1
  rw [row_map, OpRow.change?_row hc] at hcell
  have htake := htakes (key (eqv x.row))
  have hm' : Replaced m (collectRow eqv key m x) _ _ := get?_collectRow hc
  cases ht : s.opRowMap.get? (key (eqv x.row)) with
  | none =>
    rw [h.vacant ht] at hm'
    refine ⟨_, visitRow_vacant build hxs hv ht, ?_⟩
    rcases change?_normalized hc with ⟨rfl, hop⟩ | ⟨rfl, hop⟩
    · exact h.first htakes hr hn rfl ht (o := .insert x.row) ⟨rfl, hn.cur.trans (by rw [hop])⟩ hm'
    · exact h.first htakes hr hn rfl ht (o := .delete x.row) ⟨rfl, hn.cur.trans (by rw [hop])⟩ hm'
  | some t =>
    obtain ⟨op, hm, hshows, hsub⟩ := h.tuple ht
    rw [hm] at hm' htake
    have hprev : t.prev ∈ done := hsub.subset (by simp [OpRowMutRefTuple.refs])
    have hother := hn.other t.prev fun heq => hr (heq ▸ hprev)
    cases op with
    | insert v =>
      -- the table holds the inserted row, so the change deletes it
      rcases change?_normalized hc with ⟨rfl, hop⟩ | ⟨rfl, hop⟩
      · rw [htake.2.1] at hcell; cases hcell
      · have hpush := push_insert_delete build (hother.trans hshows.2) (hn.cur.trans (by rw [hop]))
        refine ⟨_, visitRow_occupied build hxs hv ht hpush, ?_⟩
        rw [hshows.1]
        exact h.annihilate htakes hr hn ht hshows hm'
    | delete v =>
      rcases change?_normalized hc with ⟨rfl, hop⟩ | ⟨rfl, hop⟩
      · have hpush :=
          push_delete_insert build hshows.1 (hother.trans hshows.2) (hn.cur.trans (by rw [hop]))
        refine ⟨_, visitRow_occupied build hxs hv ht hpush, ?_⟩
        exact h.reinsert htakes hr hn ht rfl hshows hsub hop htake.2.2 hm'
      · rw [htake.2.1] at hcell; cases hcell
    | update old new =>
      obtain ⟨p, hp, hold, hnew⟩ := hshows
      rcases change?_normalized hc with ⟨rfl, hop⟩ | ⟨rfl, hop⟩
      · rw [htake.2.1] at hcell; cases hcell
      have hne := ne_of_get? hold hnew
      have hpush := push_insert_delete build (hother.trans hnew) (hn.cur.trans (by rw [hop]))
      refine ⟨_, visitRow_occupied build hxs hv ht hpush, ?_⟩
      rw [hp]
      exact h.undoUpdate htakes hr hn ht hp hold hne hsub htake.2.2.1 hm'

omit [DecidableEq C] in
theorem visitRow_invisible (build : Build) (h : Compacting eqv key input done m s) (hr : r ∉ done)
    (hx : r.get? input = some x) (hv : x.vis = false) : visitRow eqv key build s r = .ok s ∧
      Compacting eqv key input (done ++ [r]) m s := by
  have hxs : r.get? s.chunks = some x := (h.ahead r hr).trans hx
  refine ⟨by simp [visitRow, get_eq_ok.2 hxs, hv], h.refs, ?_, ?_, ?_⟩
  · intro r' hr'
    exact h.ahead r' fun hmem => hr' (mem_append_left _ hmem)
  · intro k
    have hshown := h.shown k
    cases ht : s.opRowMap.get? k <;> cases hm : m.get? k <;> rw [ht, hm] at hshown
    · trivial
    · exact hshown
    · exact hshown
    · exact ⟨hshown.1, hshown.2.trans (sublist_append_left _ _)⟩
  · intro r' hr' y hy hyv
    rcases mem_append.1 hr' with hdone | hlast
    · exact h.visible r' hdone y hy hyv
    · obtain rfl := mem_singleton.1 hlast
      obtain rfl := Option.mem_unique hxs hy
      rw [hv] at hyv
      cases hyv

variable {final : K → Option C}

theorem foldlM_visitRow (build : Build) :
      ∀ {rs done : List OpRowMutRef} {m : RowOpMap K R} {cur : K → Option C}
      {s : StreamChunkCompactor.State K R}, Compacting eqv key input done m s →
        m.Takes eqv key base cur →
      done ++ rs = refs input →
      applyAll key cur ((rs.filterMap (changeAt input)).map (Change.map eqv)) = some final →
      ∃ s', rs.foldlM (visitRow eqv key build) s = .ok s' ∧
        ∃ m' : RowOpMap K R, m'.Takes eqv key base final ∧
        Compacting eqv key input (refs input) m' s'
  | [], done, m, cur, s, h, htakes, hdone, hf => by
    cases hf
    rw [append_nil] at hdone
    subst hdone
    exact ⟨s, rfl, m, htakes, h⟩
  | r :: rs, done, m, cur, s, h, htakes, hdone, hf => by
    have hmem : r ∈ refs input := hdone ▸ mem_append_right _ (.head _)
    obtain ⟨x, hx⟩ := mem_refs.1 hmem
    have hnodup : (done ++ r :: rs).Nodup := hdone ▸ nodup_refs input
    have hr : r ∉ done := fun hin => (nodup_append.1 hnodup).2.2 r hin r (.head _) rfl
    have hdone' : done ++ [r] ++ rs = refs input := by rw [← hdone]; simp
    rw [foldlM_cons]
    cases hc : x.change? with
    | none =>
      have hv : x.vis = false := OpRow.vis_eq hc
      obtain ⟨hstep, h'⟩ := visitRow_invisible build h hr hx hv
      rw [filterMap_cons_none ((changeAt_of_get? hx).trans hc)] at hf
      rw [hstep]
      exact foldlM_visitRow build h' htakes hdone' hf
    | some c =>
      rw [filterMap_cons_some ((changeAt_of_get? hx).trans hc), map_cons, applyAll] at hf
      obtain ⟨cur', hcell, hf⟩ := Option.bind_eq_some_iff.1 hf
      obtain ⟨s', hstep, h'⟩ := visitRow_compacting build h htakes hr hx hc hcell
      rw [hstep]
      exact foldlM_visitRow build h' (htakes.collectRow hc hcell) hdone' hf

/-! ## Settling the updates -/

/-- The rows of a tuple as the last loop leaves them. -/
def OpRowMutRefTuple.Settled (eqv : R → C) (chunks : List (StreamChunk R)) (t : OpRowMutRefTuple) :
    RowOp R → Prop
  | .update old new => ∃ p x y, t.beforePrev = some p ∧ p.get? chunks = some x ∧
      t.prev.get? chunks = some y ∧ x.row = old ∧ y.row = new ∧
      (eqv old = eqv new ∧ x.vis = false ∧ y.vis = false ∨ eqv old ≠ eqv new ∧ x.vis = true ∧
        y.vis = true ∧
          (x.op = .delete ∧ y.op = .insert ∨ x.op = .updateDelete ∧ y.op = .updateInsert ∧
            t.prev = ⟨p.chunk, p.index + 1⟩))
  | op => t.Shows chunks op

omit [DecidableEq C] in
theorem OpRowMutRefTuple.Settled.frame (h : t.Settled eqv chunks op)
    (hf : ∀ r ∈ t.refs, r.get? chunks' = r.get? chunks) : t.Settled eqv chunks' op := by
  cases op with
  | insert | delete =>
    simp only [Settled] at h ⊢
    exact h.frame hf
  | update old new =>
    obtain ⟨p, x, y, hp, hx, hy, hrest⟩ := h
    exact ⟨p, x, y, hp, (hf p (by simp [refs, hp])).trans hx, (hf t.prev (by simp [refs])).trans hy,
      hrest⟩

variable (eqv) in
theorem finishTuple_settled (build : Build) (h : t.Shows chunks op) :
    ∃ out, finishTuple eqv build chunks t = .ok out ∧
      refs out = refs chunks ∧ (∀ r ∉ t.refs, r.get? out = r.get? chunks) ∧
      t.Settled eqv out op := by
  unfold finishTuple asUpdateOp
  cases op with
  | insert | delete => exact ⟨chunks, by simp [h.1], rfl, fun _ _ => rfl, h⟩
  | update old new =>
    obtain ⟨p, hp, hold, hnew⟩ := h
    have hne := ne_of_get? hold hnew
    have hout : ∀ {f g : OpRow R → OpRow R}, ∀ r ∉ t.refs,
        r.get? (t.prev.modify g (p.modify f chunks)) = r.get? chunks := by
      intro f g r hr
      obtain ⟨h1, h2⟩ : r ≠ p ∧ r ≠ t.prev := by simpa [OpRowMutRefTuple.refs, hp] using hr
      rw [get?_modify_of_ne _ h2, get?_modify_of_ne _ h1]
    have hpget : ∀ {f g : OpRow R → OpRow R},
        p.get? (t.prev.modify g (p.modify f chunks)) = some (f ⟨.delete, old, true⟩) := by
      intro f g
      rw [get?_modify_of_ne _ hne, get?_modify_self hold]
    have htget : ∀ {f g : OpRow R → OpRow R},
        t.prev.get? (t.prev.modify g (p.modify f chunks)) = some (g ⟨.insert, new, true⟩) := by
      intro f g
      refine get?_modify_self ?_
      rw [get?_modify_of_ne _ (Ne.symm hne), hnew]
    have hrefs : ∀ {f g : OpRow R → OpRow R}, refs (t.prev.modify g (p.modify f chunks)) =
        refs chunks :=
      (refs_modify _).trans (refs_modify _)
    simp only [hp, get_eq_ok.2 hold, get_eq_ok.2 hnew, ok_bind, debugAssert,
      decide_true, Bool.or_true, assert_true]
    by_cases heq : eqv old = eqv new
    · rw [if_pos heq]
      exact ⟨_, rfl, hrefs, hout, p, _, _, hp, hpget, htget, rfl, rfl, .inl ⟨heq, rfl, rfl⟩⟩
    rw [if_neg heq]
    split
    · rename_i hnext
      simp only [sameChunk, Bool.and_eq_true, decide_eq_true_eq] at hnext
      refine ⟨_, rfl, hrefs, hout, p, _, _, hp, hpget, htget, rfl, rfl,
        .inr ⟨heq, rfl, rfl, .inr ⟨rfl, rfl, ?_⟩⟩⟩
      rw [hnext.1, hnext.2]
    · exact ⟨chunks, rfl, rfl, fun _ _ => rfl, p, _, _, hp, hold, hnew, rfl, rfl,
        .inr ⟨heq, rfl, rfl, .inl ⟨rfl, rfl⟩⟩⟩

variable (eqv) in
theorem foldlM_finishTuple (build : Build) :
      ∀ {ts : List OpRowMutRefTuple} {chunks : List (StreamChunk R)},
        (∀ t ∈ ts, ∃ op, t.Shows chunks op) →
      ts.Pairwise (fun t t' => ∀ r ∈ t.refs, r ∉ t'.refs) →
      ∃ out, ts.foldlM (finishTuple eqv build) chunks = .ok out ∧
        refs out = refs chunks ∧ (∀ r, (∀ t ∈ ts, r ∉ t.refs) → r.get? out = r.get? chunks) ∧
        ∀ t ∈ ts, ∀ op, t.Shows chunks op → t.Settled eqv out op
  | [], chunks, _, _ => ⟨chunks, rfl, rfl, fun _ _ => rfl, by simp⟩
  | t :: ts, chunks, hshows, hdis => by
    obtain ⟨hhead, hdis⟩ := pairwise_cons.1 hdis
    obtain ⟨op, hop⟩ := hshows t (.head _)
    obtain ⟨mid, hmid, hrefs, hframe, -⟩ := finishTuple_settled eqv build hop
    -- the tuples still to come are not touched by this one
    have hlater : ∀ t' ∈ ts, ∀ op, t'.Shows chunks op → t'.Shows mid op := fun t' ht' op h =>
      h.frame fun r hr => hframe r fun hin => hhead t' ht' r hin hr
    obtain ⟨out, hout, hrefs', hframe', hsettled⟩ := foldlM_finishTuple build
      (fun t' ht' => (hshows t' (.tail _ ht')).imp fun op h => hlater t' ht' op h) hdis
    refine ⟨out, by rw [foldlM_cons, hmid, ok_bind, hout], hrefs'.trans hrefs, ?_, ?_⟩
    · intro r hr
      rw [hframe' r fun t' ht' => hr t' (.tail _ ht'), hframe r (hr t (.head _))]
    · intro t' ht' op' hop'
      rcases mem_cons.1 ht' with rfl | ht'
      · obtain ⟨mid', hmid', -, -, hset⟩ := finishTuple_settled eqv build hop'
        obtain rfl : mid' = mid := Except.ok.inj (hmid'.symm.trans hmid)
        exact hset.frame fun r hr => hframe' r fun t2 ht2 hin => hhead t2 ht2 r hr hin
      · exact hsettled t' ht' op' (hlater t' ht' op' hop')

omit [DecidableEq C] [DecidableEq K] in
theorem OpRowMutRefTuple.Settled.key_row (h : t.Settled eqv chunks op)
    (htakes : Takes eqv key k b c (some op)) (hr : r ∈ t.refs) (hx : r.get? chunks = some x) :
    key (eqv x.row) = k := by
  have hshows : ∀ o : RowOp R, t.Shows chunks o → Takes eqv key k b c (some o) →
      key (eqv x.row) = k := by
    intro o h htakes
    obtain ⟨y, hy, -, hk⟩ := h.key_row htakes hr
    exact Option.mem_unique hx hy ▸ hk
  cases op with
  | insert v => exact hshows (.insert v) h htakes
  | delete v => exact hshows (.delete v) h htakes
  | update old new =>
    obtain ⟨p, x', y', hp, hx', hy', rfl, rfl, -⟩ := h
    have hr : r = p ∨ r = t.prev := by simpa [refs, hp] using hr
    rcases hr with rfl | rfl
    · exact Option.mem_unique hx hx' ▸ htakes.2.2.1
    · exact Option.mem_unique hx hy' ▸ htakes.2.2.2

omit [DecidableEq K] in
theorem OpRowMutRefTuple.Settled.changes (h : t.Settled eqv chunks op)
    (htakes : Takes eqv key k b c (some op)) : 
      (t.refs.filterMap (changeAt chunks)).map (Change.map eqv) = net b c := by
  cases op with
  | insert | delete =>
    obtain ⟨hbefore, hprev⟩ := h
    obtain ⟨rfl, rfl, -⟩ := htakes
    simp [refs, hbefore, changeAt_of_get? hprev, OpRow.change?, net, Change.map]
  | update old new =>
    obtain ⟨p, x, y, hp, hx, hy, rfl, rfl, hcase⟩ := h
    obtain ⟨rfl, rfl, -⟩ := htakes
    rcases hcase with ⟨heq, hxv, hyv⟩ | ⟨hne, hxv, hyv, ⟨hxop, hyop⟩ | ⟨hxop, hyop, -⟩⟩
    · simp [refs, hp, changeAt_of_get? hx, changeAt_of_get? hy, OpRow.change?, hxv, hyv, heq]
    all_goals simp [refs, hp, changeAt_of_get? hx, changeAt_of_get? hy, OpRow.change?, hxv,
      hyv, hxop, hyop, net, hne, Change.map]

omit [DecidableEq C] in
theorem OpRowMutRefTuple.Settled.paired (h : t.Settled eqv chunks op) (hr : r ∈ t.refs)
    (hx : r.get? chunks = some x) (hop : x.op = .updateDelete) (hv : x.vis = true) :
    ∃ y, get? ⟨r.chunk, r.index + 1⟩ chunks = some y ∧ y.vis = true ∧
      y.op = .updateInsert ∧ ⟨r.chunk, r.index + 1⟩ ∈ t.refs := by
  cases op with
  | insert | delete =>
    obtain ⟨hbefore, hprev⟩ := h
    obtain rfl : r = t.prev := by simpa [refs, hbefore] using hr
    obtain rfl := Option.mem_unique hx hprev
    cases hop
  | update old new =>
    obtain ⟨p, x', y', hp, hx', hy', -, -, hcase⟩ := h
    have hr : r = p ∨ r = t.prev := by simpa [refs, hp] using hr
    rcases hr with rfl | rfl
    · obtain rfl := Option.mem_unique hx hx'
      rcases hcase with ⟨-, hxv, -⟩ | ⟨-, -, hyv, ⟨hxop, -⟩ | ⟨-, hyop, hnext⟩⟩
      · rw [hxv] at hv; cases hv
      · rw [hxop] at hop; cases hop
      · exact ⟨y', hnext ▸ hy', hyv, hyop, hnext ▸ by simp [refs]⟩
    · obtain rfl := Option.mem_unique hx hy'
      rcases hcase with ⟨-, -, hyv⟩ | ⟨-, -, -, ⟨-, hyop⟩ | ⟨-, hyop, -⟩⟩
      · rw [hyv] at hv; cases hv
      · rw [hyop] at hop; cases hop
      · rw [hyop] at hop; cases hop

variable {visit : IterMap K OpRowMutRefTuple → IterMap K OpRowMutRefTuple}

section

variable (build : Build) (hvisit : ∀ m, IterMap.Same m (visit m)) 
  (hf : applyAll key base ((changes input).map (Change.map eqv)) = some final)
include build hvisit hf

theorem compactInPlace_settled : ∃ out, compactInPlace eqv key build visit input = .ok out ∧
    refs out = refs input ∧
      ∃ (tuples : K → Option OpRowMutRefTuple) (ops : K → Option (RowOp R)),
        (∀ k, Takes eqv key k (base k) (final k) (ops k)) ∧
        (∀ k, tuples k = none → ops k = none) ∧
        (∀ k t, tuples k = some t → ∃ op, ops k = some op ∧ t.Settled eqv out op ∧
        t.refs.Sublist (refs input)) ∧
        ∀ r x, r.get? out = some x → x.vis = true → ∃ k t, tuples k = some t ∧ r ∈ t.refs := by
  have hinit : Compacting eqv key input [] .empty ⟨input, .empty⟩ :=
    ⟨rfl, fun _ _ => rfl, fun _ => trivial, nofun⟩
  rw [changes_eq_refs] at hf
  obtain ⟨s, hs, m, htakes, h⟩ := foldlM_visitRow build hinit (fun _ => rfl) (nil_append _) hf
  have hmem : ∀ t, t ∈ (visit s.opRowMap).entries.map (·.2) ↔ ∃ k, s.opRowMap.get? k = some t := by
    intro t
    simp only [(hvisit s.opRowMap).get?, IterMap.get?_eq_some_iff, mem_map, Prod.exists,
      exists_eq_right]
  have hshows : ∀ t ∈ (visit s.opRowMap).entries.map (·.2), ∃ op, t.Shows s.chunks op := by
    intro t ht
    obtain ⟨k, hk⟩ := (hmem t).1 ht
    obtain ⟨op, -, hshows, -⟩ := h.tuple hk
    exact ⟨op, hshows⟩
  have hdisjoint : ((visit s.opRowMap).entries.map (·.2)).Pairwise fun t t' => ∀ r ∈ t.refs,
      r ∉ t'.refs := by
    refine pairwise_map.2 ((pairwise_map.1 (visit s.opRowMap).nodup).imp_of_mem ?_)
    intro e e' he he' hne r hr
    have hget : ∀ e ∈ (visit s.opRowMap).entries, s.opRowMap.get? e.1 = some e.2 := fun e he =>
      ((hvisit s.opRowMap).get? e.1).trans (IterMap.get?_eq_some_iff.2 he)
    exact h.refs_disjoint htakes (hget e he) (hget e' he') hne hr
  obtain ⟨out, hout, hrefs, hframe, hsettled⟩ := foldlM_finishTuple eqv build hshows hdisjoint
  refine ⟨out, ?_, hrefs.trans h.refs, s.opRowMap.get?, m.get?, htakes, fun _ => h.vacant, ?_, ?_⟩
  · rw [compactInPlace, hs, ok_bind, hout]
  · intro k t ht
    obtain ⟨op, hm, hshows, hsub⟩ := h.tuple ht
    exact ⟨op, hm, hsettled t ((hmem t).2 ⟨k, ht⟩) op hshows, hsub⟩
  · intro r x hx hv
    by_contra hnone
    push Not at hnone
    -- a row in no tuple is as the first loop left it, so it is not visible
    rw [hframe r fun t ht hin => by
      obtain ⟨k, hk⟩ := (hmem t).1 ht
      exact hnone k t hk hin] at hx
    have hr : r ∈ refs input := h.refs ▸ mem_refs.2 ⟨x, hx⟩
    obtain ⟨t, ht, hin⟩ := h.visible r hr x hx hv
    exact hnone _ t ht hin

theorem compactInPlace_compacted : ∃ out, compactInPlace eqv key build visit input = .ok out ∧
      Compacted eqv key base final out := by
  obtain ⟨out, hout, hrefs, tuples, ops, htakes, hnone, hsome, hvisible⟩ :=
    compactInPlace_settled build hvisit hf
  -- the key of a visible row is the key it is in play for
  have hkey : ∀ k t r x, tuples k = some t → r ∈ t.refs → r.get? out = some x →
      key (eqv x.row) = k := by
    intro k t r x ht hr hx
    obtain ⟨op, hop, hset, -⟩ := hsome k t ht
    exact hset.key_row (hop ▸ htakes k) hr hx
  have hchange : ∀ r c, changeAt out r = some c → ∃ t, tuples (key (eqv c.row)) = some t ∧
      r ∈ t.refs := by
    intro r c hc
    obtain ⟨x, hx, hxc⟩ := Option.bind_eq_some_iff.1 hc
    have hv : x.vis = true := OpRow.vis_eq hxc
    obtain ⟨k, t, ht, hr⟩ := hvisible r x hx hv
    rw [OpRow.change?_row hxc, hkey k t r x ht hr hx]
    exact ⟨t, ht, hr⟩
  have hother : ∀ k r, (∀ t, tuples k = some t → r ∉ t.refs) →
      (changeAt out r).filter (fun c => decide (key (eqv c.row) = k)) = none := by
    intro k r hr
    rw [Option.filter_eq_none_iff]
    intro c hc
    simp only [decide_eq_true_eq]
    rintro rfl
    obtain ⟨t, ht, hin⟩ := hchange r c hc
    exact hr t ht hin
  refine ⟨out, hout, ?_, ?_⟩
  · intro k
    rw [ofKey_map, changes_eq_refs, filter_filterMap]
    cases ht : tuples k with
    | none =>
      have hsame := htakes k
      rw [hnone k ht] at hsame
      rw [show base k = final k from hsame, net_self, map_eq_nil_iff, filterMap_eq_nil_iff]
      exact fun r _ => hother k r fun t ht' => by cases ht.symm.trans ht'
    | some t =>
      obtain ⟨op, hop, hset, hsub⟩ := hsome k t ht
      rw [← hset.changes (hop ▸ htakes k), filterMap_eq_of_sublist (hrefs ▸ hsub) (nodup_refs out)]
      · refine congrArg (List.map _) (filterMap_congr ?_)
        intro r hr
        cases hc : changeAt out r with
        | none => rfl
        | some c =>
          obtain ⟨x, hx, hxc⟩ := Option.bind_eq_some_iff.1 hc
          simp [OpRow.change?_row hxc, hkey k t r x ht hr hx]
      · exact fun r _ hr => hother k r fun t' ht' => Option.mem_unique ht ht' ▸ hr
  · intro chunk hc i x hx hv hop
    obtain ⟨j, hj⟩ := mem_iff_getElem?.1 hc
    have hget : ∀ i, get? ⟨j, i⟩ out = chunk[i]? := by
      intro i; simp [get?, hj]
    have hx' := (hget i).trans hx
    obtain ⟨k, t, ht, hr⟩ := hvisible _ x hx' hv
    obtain ⟨op, -, hset, -⟩ := hsome k t ht
    obtain ⟨y, hy, hyv, hyop, hr'⟩ := hset.paired hr hx' hop hv
    refine ⟨y, (hget (i + 1)).symm.trans hy, hyv, hyop, ?_⟩
    exact (hkey k t _ y ht hr' hy).trans (hkey k t _ x ht hr hx').symm

end

end

end

/-! ## The two compactions -/

variable {S E : Type} [DecidableEq E] {width : Nat}

/-- Both compactions of a consistent stream succeed, and what they yield takes the base table to the
table the input leads to, by the net change of each key. The tables hold classes of rows: the stream
is consistent, and the tables are the same, up to `==`. -/
theorem compacted_chunks_net (eqv : S → E) (build : Build)
    (visit : IterMap (List (Option E)) OpRowMutRefTuple → IterMap (List (Option E)) OpRowMutRefTuple)
    (hvisit : ∀ m, IterMap.Same m (visit m))
    (visitOps : RowOpMap (List (Option E)) (Row S width) → RowOpMap (List (Option E)) (Row S width))
    (hvisitOps : ∀ m, IterMap.Same m (visitOps m)) (c : StreamChunkCompactor S width)
    (chunkSize : Nat) (hsize : 0 < chunkSize) (base final : List (Option E) → Option (Row E width))
    (hinput : applyAll (·.project c.key) base ((changes c.chunks).map (.map (rowClass eqv))) =
      some final) :
    ∃ out out', c.intoCompactedChunks eqv build visit = .ok out ∧
      c.reconstructedCompactedChunks eqv visitOps chunkSize = .ok out' ∧
      ∀ chunks ∈ [out, out'],
        applyAll (·.project c.key) base ((changes chunks).map (.map (rowClass eqv))) = some final ∧
        (∀ k, ofKey (·.project c.key) k ((changes chunks).map (.map (rowClass eqv))) =
          net (base k) (final k)) ∧
        ∀ chunk ∈ chunks, Paired (fun row => (rowClass eqv row).project c.key) chunk := by
  obtain ⟨out, hout, h⟩ := compactInPlace_compacted build hvisit hinput
  have htakes : RowOpMap.Takes (rowClass eqv) (·.project c.key) base final
      (c.chunks.flatten.foldl (collectRow (rowClass eqv) (·.project c.key)) .empty) :=
    RowOpMap.Takes.foldl (fun _ => rfl) hinput
  obtain ⟨out', hout', h'⟩ := intoChunks_compacted hvisitOps hsize htakes
  refine ⟨out, out', hout, hout', forall_mem_cons.2 ⟨?_, forall_mem_singleton.2 ?_⟩⟩
  · exact ⟨applyAll_of_net h.net, h.net, h.paired⟩
  · exact ⟨applyAll_of_net h'.net, h'.net, h'.paired⟩

/-- An interval, its months and days. Intervals are equal if they are equally long, with 30 days in
a month. -/
private abbrev Span := Nat × Nat

private def Span.length (span : Span) : Nat := 30 * span.1 + span.2

/-- A key updated and reverted to an equal row, one updated and one deleted after its insertion,
over two chunks. -/
private def revertedChunks : List (StreamChunk (Row Span 2)) :=
  [[⟨.updateDelete, #v[some (0, 1), some (1, 0)], true⟩,
    ⟨.updateInsert, #v[some (0, 1), some (0, 11)], true⟩,
    ⟨.insert, #v[some (0, 2), none], true⟩, ⟨.delete, #v[some (0, 3), some (0, 5)], true⟩],
   [⟨.insert, #v[some (0, 3), some (0, 31)], true⟩,
    ⟨.updateDelete, #v[some (0, 1), some (0, 11)], true⟩,
    ⟨.updateInsert, #v[some (0, 1), some (0, 30)], true⟩, ⟨.delete, #v[some (0, 2), none], true⟩]]

/-- The table the chunks start from, by the first column. -/
private def revertedBase : List (Option Nat) → Option (Row Nat 2)
  | [some 1] => some #v[some 1, some 30]
  | [some 3] => some #v[some 3, some 5]
  | _ => none

theorem compacted_chunks_net_reverted : let key : Row Nat 2 → List (Option Nat) := (·.project [0])
    let classes := fun chunks => (changes chunks).map (.map (rowClass Span.length))
    (applyAll key revertedBase (classes revertedChunks)).isSome ∧
    ∃ out out', intoCompactedChunks Span.length ⟨true, true⟩ id ⟨revertedChunks, [0]⟩ = .ok out ∧
      reconstructedCompactedChunks Span.length id ⟨revertedChunks, [0]⟩ 2 = .ok out' ∧
      ofKey key [some 1] (classes out) = [] ∧
      ofKey key [some 3] (classes out') =
        [.delete #v[some 3, some 5], .insert #v[some 3, some 31]] := by
  intro key classes
  have hsome : (applyAll key revertedBase (classes revertedChunks)).isSome := by
    decide +kernel
  have hinput : applyAll key revertedBase (classes revertedChunks) =
      some ((applyAll key revertedBase (classes revertedChunks)).getD revertedBase) := by
    obtain ⟨final, hfinal⟩ := Option.isSome_iff_exists.1 hsome
    rw [hfinal, Option.getD_some]
  refine ⟨hsome, ?_⟩
  obtain ⟨out, out', hout, hout', h⟩ := compacted_chunks_net Span.length ⟨true, true⟩ id
    (fun _ => List.Perm.refl _) id (fun _ => List.Perm.refl _) ⟨revertedChunks, [0]⟩ 2 (by decide)
    revertedBase _ hinput
  refine ⟨out, out', hout, hout', ((h out (.head _)).2.1 _).trans ?_,
    ((h out' (.tail _ (.head _))).2.1 _).trans ?_⟩
  · decide +kernel
  · decide +kernel

/-- An update of '1 mon' to '30 days' is dropped by both compactions. -/
theorem compacted_chunks_drop_equal : let old : Row Span 2 := #v[some (0, 1), some (1, 0)]
    let new : Row Span 2 := #v[some (0, 1), some (0, 30)]
    let chunks : List (StreamChunk (Row Span 2)) :=
      [[⟨.updateDelete, old, true⟩, ⟨.updateInsert, new, true⟩]]
    let base : List (Option Span) → Option (Row Span 2) :=
      fun k => if k = [some (0, 1)] then some old else none
    (applyAll (·.project [0]) base (changes chunks)).map (· [some (0, 1)]) = some (some new) ∧
      intoCompactedChunks Span.length ⟨true, true⟩ id ⟨chunks, [0]⟩ =
        .ok [[⟨.delete, old, false⟩, ⟨.insert, new, false⟩]] ∧
      reconstructedCompactedChunks Span.length id ⟨chunks, [0]⟩ 2 = .ok [] := by
  intro old new chunks base
  exact ⟨by decide +kernel, by with_unfolding_all rfl, by with_unfolding_all rfl⟩

end Stream
