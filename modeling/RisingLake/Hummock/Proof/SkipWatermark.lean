import RisingLake.Hummock.Proof.Key
import RisingLake.Hummock.SkipWatermark

/-!
# The keys that the watermarks filter

`isFiltered` says of a user key whether a watermark of its table and vnode filters it. On ascending
keys `shouldDelete` answers just that (`shouldDelete_eq`): the watermarks that have been dropped
filter no key from the current one on (`Tracks`). So the iterator shows the entries that are not
filtered, in order (`Stands`).
-/

namespace Hummock

open Res List SkipWatermarkState WatermarkDirection RemainWatermark
open Std.ExtTreeMap (mem_toList_iff_getElem?_eq_some ordered_keys_toList)

variable (dbg : Bool)

/-! ## Positions of watermarks and keys -/

namespace RemainWatermark

def pos (w : RemainWatermark) : TableId ×ₗ VirtualNode := toLex (w.tableId, w.vnode)

def filters (w : RemainWatermark) (key : UserKey) : Bool :=
  match TableKey.splitVnode false key.tableKey with
  | .ok (vnode, inner) =>
    decide (key.tableId = w.tableId ∧ vnode = w.vnode) &&
      w.direction.filterByWatermark inner w.watermark
  | .error _ => false

end RemainWatermark

theorem cmpVnode_eq (t t' : TableId) (v v' : VirtualNode) :
    cmpVnode t v t' v' = cmp (toLex (t, v)) (toLex (t', v')) := by
  unfold cmpVnode
  rcases lt_trichotomy t t' with h | rfl | h
  · have hlex : toLex (t, v) < toLex (t', v') := Prod.Lex.toLex_lt_toLex.2 (.inl h)
    rw [(cmp_eq_lt_iff _ _).2 h, (cmp_eq_lt_iff _ _).2 hlex]
    rfl
  · rw [(cmp_eq_eq_iff _ _).2 rfl]
    refine cmp_congr ?_ ?_ <;> simp [Prod.Lex.toLex_lt_toLex]
  · have hlex : toLex (t', v') < toLex (t, v) := Prod.Lex.toLex_lt_toLex.2 (.inl h)
    rw [(cmp_eq_gt_iff _ _).2 h, (cmp_eq_gt_iff _ _).2 hlex]
    rfl

def vnodeKey (t : TableId) (v : VirtualNode) (inner : Bytes) : UserKey := ⟨t, v.toBeBytes ++ inner⟩

def HasVnode (key : UserKey) : Prop :=
  ∃ v inner, VirtualNode.toIndex v < vnodeMaxCount ∧ key = vnodeKey key.tableId v inner

theorem splitVnode_vnodeKey (t : TableId) (v : VirtualNode) (inner : Bytes) :
    TableKey.splitVnode false (vnodeKey t v inner).tableKey = .ok (v, inner) :=
  TableKey.splitVnode_eq_ok.2 ⟨nofun, rfl⟩

variable {w : RemainWatermark} {key : UserKey}

theorem RemainWatermark.filters_iff : w.filters key = true ↔
    ∃ inner, key = vnodeKey w.tableId w.vnode inner ∧
      w.direction.filterByWatermark inner w.watermark = true := by
  unfold filters
  split
  · rename_i vnode inner hsplit
    obtain ⟨-, hsplit⟩ := TableKey.splitVnode_eq_ok.1 hsplit
    rw [Bool.and_eq_true, decide_eq_true_eq]
    constructor
    · rintro ⟨⟨htable, rfl⟩, hfilter⟩
      exact ⟨inner, by cases key; simp_all [vnodeKey], hfilter⟩
    · rintro ⟨inner', rfl, hfilter⟩
      obtain ⟨hv, rfl⟩ := vnodeKey_inj.1 hsplit
      exact ⟨⟨rfl, hv.symm⟩, hfilter⟩
  · rename_i hsplit
    refine iff_of_false (by simp) ?_
    rintro ⟨inner, rfl, -⟩
    rw [splitVnode_vnodeKey] at hsplit
    cases hsplit

variable {v : VirtualNode} {inner : Bytes} {t : TableId}

theorem filters_vnodeKey (h : w.pos = toLex (t, v)) :
    w.filters (vnodeKey t v inner) = w.direction.filterByWatermark inner w.watermark := by
  obtain ⟨rfl, rfl⟩ := Prod.ext_iff.1 (toLex.injective h)
  rw [filters, splitVnode_vnodeKey]
  simp [vnodeKey]

theorem not_filters_of_pos_ne (h : w.pos ≠ toLex (t, v)) :
    w.filters (vnodeKey t v inner) = false := by
  rw [filters, splitVnode_vnodeKey]
  have : ¬((vnodeKey t v inner).tableId = w.tableId ∧ v = w.vnode) := by
    rintro ⟨rfl, rfl⟩
    exact h rfl
  simp [this]

theorem vnodeKey_le {t' : TableId} {v' : VirtualNode} {inner' : Bytes} :
    vnodeKey t v inner ≤ vnodeKey t' v' inner' ↔
      toLex (t, v) < toLex (t', v') ∨ toLex (t, v) = toLex (t', v') ∧ inner ≤ inner' := by
  rw [← not_lt, UserKey.lt_iff, Prod.Lex.toLex_lt_toLex]
  simp only [vnodeKey, vnodeKey_lt_iff, EmbeddingLike.apply_eq_iff_eq]
  rcases lt_trichotomy t t' with h | rfl | h
  · simp [h, h.not_gt, h.ne']
  · rcases lt_trichotomy v v' with hv | rfl | hv
    · simp [hv, hv.not_gt, hv.ne']
    · simp
    · simp [hv, hv.not_gt, hv.ne']
  · simp [h, h.not_gt, h.ne']

/-! ## The state -/

def allWatermarks (watermarks : BTreeMap TableId ReadTableWatermark) : List RemainWatermark :=
  (resetWatermark ⟨watermarks, []⟩).remainWatermarks

def filteredBy (ws : List RemainWatermark) (key : UserKey) : Bool := ws.any (·.filters key)

def isFiltered (watermarks : BTreeMap TableId ReadTableWatermark) (key : UserKey) : Bool :=
  filteredBy (allWatermarks watermarks) key

def PosSorted (ws : List RemainWatermark) : Prop := ws.Pairwise fun a b => a.pos < b.pos

theorem allWatermarks_sorted (watermarks : BTreeMap TableId ReadTableWatermark) :
    PosSorted (allWatermarks watermarks) := by
  have htables : watermarks.toList.Pairwise fun a b => a.1 < b.1 :=
    ordered_keys_toList.imp compare_lt_iff_lt.1
  refine pairwise_flatMap.2 ⟨fun a _ => ?_, htables.imp fun hlt x hx y hy => ?_⟩
  · rw [pairwise_map]
    have hvnodes : a.2.vnodeWatermarks.toList.Pairwise fun x y => x.1 < y.1 :=
      ordered_keys_toList.imp compare_lt_iff_lt.1
    refine hvnodes.imp fun hlt => ?_
    exact Prod.Lex.toLex_lt_toLex.2 (.inr ⟨rfl, hlt⟩)
  · obtain ⟨_, -, rfl⟩ := mem_map.1 hx
    obtain ⟨_, -, rfl⟩ := mem_map.1 hy
    exact Prod.Lex.toLex_lt_toLex.2 (.inl hlt)

/-- The watermarks that remain filter the same keys, from `key` on. -/
structure Tracks (watermarks : BTreeMap TableId ReadTableWatermark) (state : SkipWatermarkState)
    (key : UserKey) : Prop where
  watermarks_eq : state.watermarks = watermarks
  sorted : PosSorted state.remainWatermarks
  agrees : ∀ key', key ≤ key' → filteredBy state.remainWatermarks key' = isFiltered watermarks key'

variable {watermarks : BTreeMap TableId ReadTableWatermark} {state : SkipWatermarkState}
  {it : SkipWatermarkIterator}

theorem Tracks.mono {key key' : UserKey} (h : Tracks watermarks state key) (hle : key ≤ key') :
    Tracks watermarks state key' :=
  ⟨h.watermarks_eq, h.sorted, fun k hk => h.agrees k (hle.trans hk)⟩

theorem Tracks.of_reset (h : state.watermarks = watermarks) (key : UserKey) :
    Tracks watermarks state.resetWatermark key := by
  subst h
  exact ⟨rfl, allWatermarks_sorted state.watermarks, fun _ _ => rfl⟩

theorem filteredBy_eq_false {ws : List RemainWatermark}
    (h : ∀ w ∈ ws, w.pos ≠ toLex (t, v)) : filteredBy ws (vnodeKey t v inner) = false := by
  rw [filteredBy, any_eq_false]
  intro w hw
  rw [not_filters_of_pos_ne (h w hw)]
  exact Bool.false_ne_true

theorem filteredBy_cons (w : RemainWatermark) (ws : List RemainWatermark) (key : UserKey) :
    filteredBy (w :: ws) key = (w.filters key || filteredBy ws key) := any_cons

theorem advanceLoop_eq (t : TableId) (v : VirtualNode) (inner : Bytes) :
    ∀ ws : List RemainWatermark, PosSorted ws → ∃ ws',
      advanceLoop dbg t v inner ws = .ok (filteredBy ws (vnodeKey t v inner), ws') ∧
      PosSorted ws' ∧
      ∀ key', vnodeKey t v inner ≤ key' → filteredBy ws' key' = filteredBy ws key' := by
  intro ws
  induction ws with
  | nil => exact fun h => ⟨[], rfl, h, fun _ _ => rfl⟩
  | cons w ws ih =>
    intro hsorted
    obtain ⟨hw, hws⟩ := pairwise_cons.1 hsorted
    rw [advanceLoop, cmpVnode_eq, filteredBy_cons]
    rcases lt_trichotomy w.pos (toLex (t, v)) with hlt | heq | hgt
    · -- the watermark is of an earlier vnode
      rw [show cmp (toLex (w.tableId, w.vnode)) (toLex (t, v)) = .lt from (cmp_eq_lt_iff _ _).2 hlt]
      obtain ⟨ws', hrun, hsorted', hagrees⟩ := ih hws
      refine ⟨ws', ?_, hsorted', fun key' hle => ?_⟩
      · rw [not_filters_of_pos_ne hlt.ne]
        exact hrun
      · rw [hagrees key' hle, filteredBy_cons]
        have hnot : w.filters key' = false := by
          by_contra hfilters
          obtain ⟨inner', rfl, -⟩ := filters_iff.1 (Bool.eq_true_of_not_eq_false hfilters)
          rcases vnodeKey_le.1 hle with h | ⟨h, -⟩
          · exact absurd (hlt.trans h) (lt_irrefl _)
          · exact hlt.ne h.symm
        rw [hnot, Bool.false_or]
    · -- the watermark is of the vnode of the key, and the later ones are not
      have hothers : filteredBy ws (vnodeKey t v inner) = false :=
        filteredBy_eq_false fun w' hw' => (heq ▸ hw w' hw').ne'
      rw [show cmp (toLex (w.tableId, w.vnode)) (toLex (t, v)) = .eq from (cmp_eq_eq_iff _ _).2 heq,
        filters_vnodeKey heq, hothers]
      cases hdir : w.direction with
      | ascending =>
        by_cases hinner : inner < w.watermark
        · refine ⟨w :: ws, ?_, hsorted, fun _ _ => rfl⟩
          simp [filterByWatermark, hinner]
        have hassert : (ws.head?.all fun next =>
            cmpVnode next.tableId next.vnode t v == .gt) = true := by
          rw [Option.all_eq_true]
          intro next hnext
          rw [cmpVnode_eq, beq_iff_eq, cmp_eq_gt_iff]
          exact heq ▸ hw next (mem_of_mem_head? hnext)
        refine ⟨ws, ?_, hws, fun key' hle => ?_⟩
        · simp [filterByWatermark, hinner, hassert, debugAssert]
        · rw [filteredBy_cons]
          have hnot : w.filters key' = false := by
            by_contra hfilters
            obtain ⟨inner', rfl, hfilter⟩ :=
              filters_iff.1 (Bool.eq_true_of_not_eq_false hfilters)
            rw [hdir] at hfilter
            have hlt' : inner' < w.watermark := by
              simpa [filterByWatermark] using hfilter
            rcases vnodeKey_le.1 hle with h | ⟨-, h⟩
            · exact h.ne heq.symm
            · exact hinner (h.trans_lt hlt')
          rw [hnot, Bool.false_or]
      | descending =>
        refine ⟨w :: ws, ?_, hsorted, fun _ _ => rfl⟩
        simp [filterByWatermark]
    · -- all watermarks are of later vnodes
      have hothers : filteredBy ws (vnodeKey t v inner) = false :=
        filteredBy_eq_false fun w' hw' => (hgt.trans (hw w' hw')).ne'
      rw [show cmp (toLex (w.tableId, w.vnode)) (toLex (t, v)) = .gt from (cmp_eq_gt_iff _ _).2 hgt,
        not_filters_of_pos_ne hgt.ne', hothers]
      exact ⟨w :: ws, rfl, hsorted, fun _ _ => rfl⟩

theorem shouldDelete_eq {key : FullKey} (h : Tracks watermarks state key.userKey)
    (hkey : HasVnode key.userKey) : ∃ state',
    state.shouldDelete dbg key = .ok (isFiltered watermarks key.userKey, state') ∧
      Tracks watermarks state' key.userKey := by
  obtain ⟨v, inner, hv, huser⟩ := hkey
  have hfiltered := h.agrees key.userKey le_rfl
  have hsplit : TableKey.splitVnode dbg key.userKey.tableKey = .ok (v, inner) :=
    TableKey.splitVnode_eq_ok.2 ⟨fun _ => hv, by rw [huser]; rfl⟩
  unfold shouldDelete
  split
  · rename_i hnil
    rw [hnil] at hfiltered
    exact ⟨state, by rw [← hfiltered]; rfl, h⟩
  rename_i w ws hremain
  have hsorted := h.sorted
  rw [hremain] at hfiltered hsorted
  obtain ⟨hw, -⟩ := pairwise_cons.1 hsorted
  rw [hsplit, ok_bind]
  dsimp only
  rw [cmpVnode_eq, show toLex (w.tableId, w.vnode) = w.pos from rfl]
  cases hcmp : cmp (toLex (key.userKey.tableId, v)) w.pos with
  | lt =>
    have hlt := (cmp_eq_lt_iff _ _).1 hcmp
    refine ⟨state, ?_, h⟩
    rw [← hfiltered, huser, filteredBy_cons, not_filters_of_pos_ne hlt.ne',
      filteredBy_eq_false fun w' hw' => (hlt.trans (hw w' hw')).ne']
    rfl
  | eq =>
    have heq := (cmp_eq_eq_iff _ _).1 hcmp
    refine ⟨state, ?_, h⟩
    rw [← hfiltered, huser, filteredBy_cons, filters_vnodeKey heq.symm,
      filteredBy_eq_false fun w' hw' => (heq ▸ hw w' hw').ne', Bool.or_false]
  | gt =>
    obtain ⟨ws', hrun, hsorted', hagrees⟩ :=
      advanceLoop_eq dbg key.userKey.tableId v inner state.remainWatermarks h.sorted
    rw [← huser] at hrun hagrees
    rw [advanceWatermark, hsplit, ok_bind]
    dsimp only
    rw [hrun, h.agrees _ le_rfl]
    exact ⟨_, rfl, h.watermarks_eq, hsorted', fun k hk => (hagrees k hk).trans (h.agrees k hk)⟩

/-! ## The iterator -/

def isSkipped (watermarks : BTreeMap TableId ReadTableWatermark) (e : InputEntry) : Bool :=
  isFiltered watermarks e.key.userKey

def unskipped (watermarks : BTreeMap TableId ReadTableWatermark) (es : List InputEntry) :
    List InputEntry :=
  es.filter fun e => !isSkipped watermarks e

/-- Entries in ascending order, whose keys start with a vnode. -/
structure Ascending (es : List InputEntry) : Prop where
  sorted : es.Pairwise fun x y => x.key < y.key
  vnodes : ∀ e ∈ es, HasVnode e.key.userKey

variable {es es' : List InputEntry}

theorem Ascending.of_sublist (h : Ascending es') (hsub : es.Sublist es') :
    Ascending es := ⟨h.sorted.sublist hsub, fun e he => h.vnodes e (hsub.subset he)⟩

/-- Entries whose user keys do not descend. -/
structure Rising (es : List InputEntry) : Prop where
  sorted : es.Pairwise fun x y => x.key.userKey ≤ y.key.userKey
  vnodes : ∀ e ∈ es, HasVnode e.key.userKey

theorem Rising.of_sublist (h : Rising es') (hsub : es.Sublist es') :
    Rising es := ⟨h.sorted.sublist hsub, fun e he => h.vnodes e (hsub.subset he)⟩

/-- The iterator stands on the first of the entries left, which is not filtered. -/
structure Stands (watermarks : BTreeMap TableId ReadTableWatermark) (it : SkipWatermarkIterator)
    (rest : List InputEntry) : Prop where
  rest_eq : it.inner.rest = rest
  rising : Rising rest
  head : ∀ e, rest.head? = some e → isSkipped watermarks e = false
  tracks : ∀ e, rest.head? = some e → Tracks watermarks it.state e.key.userKey

theorem FullKey.userKey_le {a b : FullKey} (h : a < b) : a.userKey ≤ b.userKey := by
  rw [FullKey.lt_iff] at h
  rcases h with h | ⟨h, -⟩
  · exact h.le
  · exact h.le

theorem Ascending.rising {es : List InputEntry} (h : Ascending es) : Rising es :=
  ⟨h.sorted.imp FullKey.userKey_le, h.vnodes⟩

theorem addLastTableStats_inner (it : SkipWatermarkIterator) :
    it.addLastTableStats.inner = it.inner ∧ it.addLastTableStats.state = it.state := by
  unfold SkipWatermarkIterator.addLastTableStats
  split <;> exact ⟨rfl, rfl⟩

theorem countSkipped_inner (it : SkipWatermarkIterator) (e : InputEntry) :
    (it.countSkipped e).inner = it.inner ∧ (it.countSkipped e).state = it.state := by
  unfold SkipWatermarkIterator.countSkipped SkipWatermarkIterator.enterTable
  split
  · exact addLastTableStats_inner it
  · exact ⟨rfl, rfl⟩

theorem skipLoop_stands : ∀ (rest : List InputEntry) {it : SkipWatermarkIterator},
    Rising rest → (∀ e, rest.head? = some e → Tracks watermarks it.state e.key.userKey) →
    ∃ it' rest', it.advanceLoop dbg rest = .ok it' ∧ Stands watermarks it' rest' ∧
      rest'.Sublist rest ∧
      it'.inner.entries = it.inner.entries ∧
      rest' = rest.dropWhile (isSkipped watermarks)
  | [], it, h, _ =>
    ⟨_, [], rfl, ⟨rfl, h, by simp, by simp⟩, .slnil, rfl, rfl⟩
  | e :: rest, it, h, htracks => by
    have hle := (pairwise_cons.1 h.sorted).1
    obtain ⟨state, hrun, hstate⟩ := shouldDelete_eq dbg (htracks e rfl) (h.vnodes e (.head _))
    rw [← isSkipped] at hrun
    rw [SkipWatermarkIterator.advanceLoop, hrun]
    cases hfiltered : isSkipped watermarks e with
    | true =>
      have hnext : ∀ e', rest.head? = some e' →
          Tracks watermarks (({ it with state } : SkipWatermarkIterator).countSkipped e).state
            e'.key.userKey := by
        intro e' he'
        rw [(countSkipped_inner _ e).2]
        exact hstate.mono (hle e' (mem_of_mem_head? he'))
      obtain ⟨it', rest', hrun', hstands, hsub, hentries, hdrop⟩ :=
        skipLoop_stands rest (h.of_sublist (sublist_cons_self e rest)) hnext
      refine ⟨it', rest', hrun', hstands, hsub.cons e, ?_, ?_⟩
      · rw [hentries, (countSkipped_inner _ e).1]
      · rw [dropWhile_cons_of_pos hfiltered, hdrop]
    | false =>
      refine ⟨_, e :: rest, rfl, ⟨rfl, h, ?_, ?_⟩, .refl _, rfl, ?_⟩
      · rintro _ ⟨⟩
        exact hfiltered
      · rintro _ ⟨⟩
        exact hstate
      · rw [dropWhile_cons_of_neg (by simp [hfiltered])]

theorem unskipped_dropWhile (es : List InputEntry) :
    unskipped watermarks (es.dropWhile (isSkipped watermarks)) = unskipped watermarks es := by
  induction es with
  | nil => rfl
  | cons e es ih =>
    by_cases he : isSkipped watermarks e = true
    · rw [dropWhile_cons_of_pos he, ih, unskipped, unskipped, filter_cons_of_neg (by simp [he])]
    · rw [dropWhile_cons_of_neg he]

theorem advanceKey_stands (h : Rising it.inner.rest)
    (htracks : ∀ e, it.inner.rest.head? = some e → Tracks watermarks it.state e.key.userKey) :
    ∃ it' rest, it.advanceKeyAndWatermark dbg = .ok it' ∧ Stands watermarks it' rest ∧
      it'.inner.entries = it.inner.entries ∧
      unskipped watermarks rest = unskipped watermarks it.inner.rest := by
  obtain ⟨it', rest, hrun, hstands, -, hentries, hdrop⟩ := skipLoop_stands dbg _ h htracks
  rw [SkipWatermarkIterator.advanceKeyAndWatermark, hrun]
  obtain ⟨hinner, hstate⟩ := addLastTableStats_inner it'
  refine ⟨_, rest, rfl, ⟨?_, hstands.rising, hstands.head, ?_⟩, ?_, ?_⟩
  · rw [hinner]
    exact hstands.rest_eq
  · rw [hstate]
    exact hstands.tracks
  · rw [hinner]
    exact hentries
  · rw [hdrop, unskipped_dropWhile]

namespace Stands

variable {rest : List InputEntry} {e : InputEntry}

theorem unskipped_cons (h : Stands watermarks it (e :: rest)) :
    unskipped watermarks (e :: rest) = e :: unskipped watermarks rest := by
  rw [unskipped, filter_cons_of_pos (by simp [h.head e rfl])]
  rfl

theorem next (h : Stands watermarks it (e :: rest)) : ∃ it' rest',
    it.next dbg = .ok it' ∧ Stands watermarks it' rest' ∧
      it'.inner.entries = it.inner.entries ∧ unskipped watermarks rest' =
        unskipped watermarks rest := by
  have hle := (pairwise_cons.1 h.rising.sorted).1
  have hrest := h.rising.of_sublist (sublist_cons_self e rest)
  have htracks : ∀ e', rest.head? = some e' → Tracks watermarks it.state e'.key.userKey := by
    intro e' he'
    exact (h.tracks e rfl).mono (hle e' (mem_of_mem_head? he'))
  have htail : it.inner.rest.tail = rest := by rw [h.rest_eq]; rfl
  unfold SkipWatermarkIterator.next
  dsimp only
  rw [htail]
  split
  · exact advanceKey_stands dbg hrest htracks
  rename_i hnone
  refine ⟨_, rest, rfl, ⟨rfl, hrest, fun e' he' => ?_, htracks⟩, rfl, rfl⟩
  -- no watermark remains
  have hremain : it.state.remainWatermarks = [] := by
    simpa [hasWatermark] using hnone
  rw [isSkipped, ← (htracks e' he').agrees _ le_rfl, hremain]
  rfl

end Stands

theorem restart_stands {es : List InputEntry}
    (hstate : it.state.watermarks = watermarks) (h : Rising es) :
    ∃ it' rest, (it.restart es).advanceKeyAndWatermark dbg = .ok it' ∧
      Stands watermarks it' rest ∧ unskipped watermarks rest = unskipped watermarks es := by
  obtain ⟨it', rest, hrun, hstands, -, hunskipped⟩ := advanceKey_stands dbg
    (show Rising (it.restart es).inner.rest from h) fun e _ => Tracks.of_reset hstate e.key.userKey
  exact ⟨it', rest, hrun, hstands, hunskipped⟩

/-! ## The filter, key by key -/

/-- The vnode of the key in its table has a watermark that filters the inner key. -/
def FilteredAt (watermarks : BTreeMap TableId ReadTableWatermark) (key : UserKey) : Prop :=
  ∃ vnode inner table watermark, key.tableKey = VirtualNode.toBeBytes vnode ++ inner ∧
    watermarks[key.tableId]? = some table ∧ table.vnodeWatermarks[vnode]? = some watermark ∧
    table.direction.filterByWatermark inner watermark = true

theorem mem_allWatermarks : w ∈ allWatermarks watermarks ↔
    ∃ table, watermarks[w.tableId]? = some table ∧
    table.direction = w.direction ∧ table.vnodeWatermarks[w.vnode]? = some w.watermark := by
  constructor
  · intro hw
    obtain ⟨⟨t, table⟩, ht, hw⟩ := mem_flatMap.1 hw
    obtain ⟨⟨v, watermark⟩, hv, rfl⟩ := mem_map.1 hw
    exact ⟨table, mem_toList_iff_getElem?_eq_some.1 ht, rfl, mem_toList_iff_getElem?_eq_some.1 hv⟩
  · rintro ⟨table, ht, hdir, hv⟩
    refine mem_flatMap.2 ⟨(w.tableId, table), mem_toList_iff_getElem?_eq_some.2 ht, ?_⟩
    refine mem_map.2 ⟨(w.vnode, w.watermark), mem_toList_iff_getElem?_eq_some.2 hv, ?_⟩
    rw [hdir]

theorem isFiltered_iff : isFiltered watermarks key = true ↔ FilteredAt watermarks key := by
  constructor
  · intro h
    obtain ⟨w, hw, hfilters⟩ := any_eq_true.1 h
    obtain ⟨inner, rfl, hfilter⟩ := filters_iff.1 hfilters
    obtain ⟨table, ht, hdir, hv⟩ := mem_allWatermarks.1 hw
    exact ⟨w.vnode, inner, table, w.watermark, rfl, ht, hv, hdir ▸ hfilter⟩
  · rintro ⟨v, inner, table, watermark, hkey, ht, hv, hfilter⟩
    refine any_eq_true.2 ⟨⟨key.tableId, v, table.direction, watermark⟩,
      mem_allWatermarks.2 ⟨table, ht, rfl, hv⟩, filters_iff.2 ⟨inner, ?_, hfilter⟩⟩
    rw [vnodeKey, ← hkey]

instance (key : UserKey) : Decidable (FilteredAt watermarks key) :=
  decidable_of_iff (isFiltered watermarks key = true) isFiltered_iff

theorem isFiltered_eq (key : UserKey) :
    isFiltered watermarks key = decide (FilteredAt watermarks key) := by
  rw [Bool.eq_iff_iff, isFiltered_iff, decide_eq_true_iff]

/-- What `should_delete` answers to the keys, one after the other. -/
def answers : SkipWatermarkState → List FullKey → Res (List Bool)
  | _, [] => .ok []
  | state, key :: keys => do
    let (delete, state) ← state.shouldDelete dbg key
    .ok (delete :: (← answers state keys))

theorem answers_eq : ∀ (keys : List FullKey) {state : SkipWatermarkState},
    (keys.Pairwise fun a b => a.userKey ≤ b.userKey) → (∀ key ∈ keys, HasVnode key.userKey) →
    (∀ key, keys.head? = some key → Tracks watermarks state key.userKey) →
    answers dbg state keys = .ok (keys.map fun key => isFiltered watermarks key.userKey)
  | [], _, _, _, _ => rfl
  | key :: keys, state, hsorted, hvnodes, htracks => by
    obtain ⟨hle, hsorted⟩ := pairwise_cons.1 hsorted
    obtain ⟨state', hrun, hstate⟩ := shouldDelete_eq dbg (htracks key rfl) (hvnodes key (.head _))
    have hrest := answers_eq keys hsorted (fun k hk => hvnodes k (.tail _ hk)) fun k hk =>
      hstate.mono (hle k (mem_of_mem_head? hk))
    rw [answers, hrun, ok_bind]
    dsimp only
    rw [hrest, ok_bind, map_cons]

/-- The iterator shows these entries, each after a call of `next`, and then none. -/
def Yields : SkipWatermarkIterator → List InputEntry → Prop
  | it, [] => it.inner.rest = []
  | it, e :: es => it.inner.rest.head? = some e ∧ ∃ it', it.next dbg = .ok it' ∧ Yields it' es

theorem Stands.yields : ∀ {es rest : List InputEntry} {it : SkipWatermarkIterator},
    Stands watermarks it rest → unskipped watermarks rest = es → Yields dbg it es
  | [], [], _, h, _ => h.rest_eq
  | [], _ :: _, _, h, hes => by rw [h.unskipped_cons] at hes; cases hes
  | _ :: _, [], _, _, hes => by cases hes
  | _ :: es, e :: rest, it, h, hes => by
    rw [h.unskipped_cons] at hes
    obtain ⟨rfl, htail⟩ := cons.inj hes
    obtain ⟨it', rest', hrun, hstands, -, hrest⟩ := h.next dbg
    exact ⟨by rw [h.rest_eq]; rfl, it', hrun, hstands.yields (hrest.trans htail)⟩

/-- `should_delete` is the filter of each key by itself, and the iterator shows what passes it. -/
theorem skipWatermark_pointwise (dbg : Bool) (watermarks : BTreeMap TableId ReadTableWatermark) :
    (∀ state : SkipWatermarkState, state.watermarks = watermarks → ∀ keys : List FullKey,
      (keys.Pairwise fun a b => a.userKey ≤ b.userKey) → (∀ key ∈ keys, HasVnode key.userKey) →
      answers dbg state.resetWatermark keys =
        .ok (keys.map fun key => decide (FilteredAt watermarks key.userKey))) ∧
    ∀ it : SkipWatermarkIterator, it.state.watermarks = watermarks → Rising it.inner.entries →
      (∃ it', it.rewind dbg = .ok it' ∧
        Yields dbg it' (it.inner.entries.filter fun e => ¬FilteredAt watermarks e.key.userKey)) ∧
      ∀ key, ∃ it', it.seek dbg key = .ok it' ∧ Yields dbg it'
        ((it.inner.entries.dropWhile fun e => e.key < key).filter fun e =>
          ¬FilteredAt watermarks e.key.userKey) := by
  have hfilter : ∀ es, (es.filter fun e : InputEntry => ¬FilteredAt watermarks e.key.userKey) =
      unskipped watermarks es := by
    intro es
    refine filter_congr fun e _ => ?_
    rw [isSkipped, isFiltered_eq, decide_not]
  refine ⟨fun state hstate keys hsorted hvnodes => ?_, fun it hit hrising => ⟨?_, fun key => ?_⟩⟩
  · rw [answers_eq dbg keys hsorted hvnodes fun key _ => Tracks.of_reset hstate key.userKey]
    simp only [isFiltered_eq]
  · obtain ⟨it', rest, hrun, hstands, hrest⟩ := restart_stands dbg hit hrising
    exact ⟨it', hrun, hstands.yields dbg (hrest.trans (hfilter _).symm)⟩
  · obtain ⟨it', rest, hrun, hstands, hrest⟩ :=
      restart_stands dbg hit (hrising.of_sublist (dropWhile_sublist _))
    exact ⟨it', hrun, hstands.yields dbg (hrest.trans (hfilter _).symm)⟩

/-- In vnode 0 of table 1 the keys below `[5]` are filtered, in vnode 1 those above `[3]` of table
2. -/
def twoWatermarks : BTreeMap TableId ReadTableWatermark :=
  .ofList [(1, ⟨.ascending, .ofList [(0, [5])] _⟩), (2, ⟨.descending, .ofList [(1, [3])] _⟩)] _

def twoTables : List InputEntry :=
  [(1, 0, [4]), (1, 0, [4]), (1, 0, [5]), (2, 1, [3]), (2, 1, [4])].map fun (t, v, inner) =>
    ⟨⟨vnodeKey t v inner, 7⟩, .delete, none, none⟩

theorem skipWatermark_pointwise_twoTables :
    answers true (SkipWatermarkState.new twoWatermarks).resetWatermark (twoTables.map (·.key)) =
      .ok [true, true, false, false, true] ∧
    ∃ it', (SkipWatermarkIterator.new twoTables twoWatermarks).rewind true = .ok it' ∧
      Yields true it' ((twoTables.drop 2).take 2) := by
  have h := skipWatermark_pointwise true twoWatermarks
  have hrising : Rising twoTables :=
    ⟨by decide +kernel, forall_mem_map.2 fun x _ => ⟨x.2.1, x.2.2, by revert x; decide, rfl⟩⟩
  have hanswers := h.1 (.new _) rfl _ (pairwise_map.2 hrising.sorted) (forall_mem_map.2 hrising.vnodes)
  obtain ⟨it', hrun, hyields⟩ := (h.2 (.new twoTables _) rfl hrising).1
  exact ⟨hanswers.trans (by decide +kernel), it', hrun, by convert hyields using 1; decide +kernel⟩

end Hummock
