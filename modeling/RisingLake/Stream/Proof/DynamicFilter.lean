import RisingLake.Lib.Returns
import RisingLake.Stream.DynamicFilter
import RisingLake.Stream.Proof.Chunk
import RisingLake.Stream.Proof.StateTable

/-!
# The dynamic filter keeps its output

Whatever is emitted between two barriers keeps the output equal to the left rows that satisfy the
condition with the committed right value: the left rows of the epoch are filtered by that value
(`onLeft_spec`), and the rows between two values are exactly those on which the conditions differ
(`getRange_spec`), so that a barrier takes the output to the condition with the new value
(`onBarrier_spec`).
-/

namespace Stream

open Res List Change StreamChunk TableDesc

/-! ## Chunks -/

section

variable {R : Type} (chunk : StreamChunk R)

theorem changes_cons (chunks : List (StreamChunk R)) :
    changes (chunk :: chunks) = changes [chunk] ++ changes chunks := by
  simp [changes]

theorem changes_append (chunks chunks' : List (StreamChunk R)) :
    changes (chunks ++ chunks') = changes chunks ++ changes chunks' := by
  simp [changes]

theorem changes_compact : changes [chunk] = (compact chunk).filterMap OpRow.change? := by
  rw [changes, flatten_singleton, compact, filterMap_filter]
  refine filterMap_congr fun x _ => ?_
  cases hv : x.vis with
  | true => rfl
  | false => simp [OpRow.change?, hv]

/-- The visible rows of a chunk are records: an update is a `U-` directly followed by its `U+`. -/
def OfRecords (chunk : StreamChunk R) (rs : List (Record R)) : Prop :=
  compact chunk = rs.flatMap Record.rows

variable {chunk : StreamChunk R}

theorem OfRecords.changes_eq {rs : List (Record R)} (h : OfRecords chunk rs) :
    changes [chunk] = rs.flatMap Record.changes := by
  rw [changes_compact, h, filterMap_flatMap]
  rfl

theorem foldlM_changes {σ τ : Type} {f : σ → OpRow R → Res σ} {g : τ → Change R → Option τ}
    {P : τ → σ → Prop} :
    ∀ {xs : List (OpRow R)}, (∀ x ∈ xs, x.vis = true) →
      (∀ x ∈ xs, ∀ {a a' s c}, x.change? = some c →
      g a c = some a' → P a s → ∃ s', f s x = .ok s' ∧ P a' s') → ∀ {a a' s},
    (xs.filterMap OpRow.change?).foldlM g a = some a' → P a s →
      ∃ s', xs.foldlM f s = .ok s' ∧ P a' s'
  | [], _, _, a, a', s, hc, h => by
    cases hc
    exact ⟨s, rfl, h⟩
  | x :: xs, hvis, hstep, a, a', s, hc, h => by
    obtain ⟨c, hx⟩ := Option.isSome_iff_exists.1 (OpRow.change?_isSome.trans (hvis x (.head _)))
    rw [filterMap_cons_some hx] at hc
    obtain ⟨a1, h1, hc⟩ := Option.bind_eq_some_iff.1 hc
    obtain ⟨s1, hs1, h⟩ := hstep x (.head _) hx h1 h
    rw [foldlM_cons, hs1]
    exact foldlM_changes (fun y hy => hvis y (.tail _ hy)) (fun y hy => hstep y (.tail _ hy)) hc h

theorem vis_of_mem_compact : ∀ x ∈ compact chunk, x.vis = true :=
  fun _ hx => (mem_filter.1 hx).2

end

/-! ## The messages -/

section

variable {L R : Type}

def leftChunks (msgs : List (AlignedMessage L R)) : List (StreamChunk L) :=
  msgs.filterMap fun
    | .left chunk => some chunk
    | _ => none

def rightChunks (msgs : List (AlignedMessage L R)) : List (StreamChunk R) :=
  msgs.filterMap fun
    | .right chunk => some chunk
    | _ => none

def outChunks (out : List (Message L)) : List (StreamChunk L) :=
  out.filterMap fun
    | .chunk chunk => some chunk
    | .barrier _ => none

theorem outChunks_append (out out' : List (Message L)) :
    outChunks (out ++ out') = outChunks out ++ outChunks out' := filterMap_append

theorem outChunks_map (chunks : List (StreamChunk L)) : outChunks (chunks.map .chunk) = chunks := by
  rw [outChunks, filterMap_map]
  exact filterMap_some

end

namespace DynamicFilterExecutor

variable {S K K' : Type} [LinearOrder S] [LinearOrder K] [DecidableEq K'] {width rwidth : Nat}
  {e : DynamicFilterExecutor S K width} {key : Row S width → K'}

/-! ## The condition -/

variable {curr prev : Option S}

omit [LinearOrder K] in
theorem getRange_spec (hne : curr ≠ prev) : ∃ range lower isInsert,
    e.getRange curr prev = .ok (range, lower, isInsert) ∧ ∀ row, (e.keyInRange range row = true →
        (row.get e.keyL).isSome ∧ e.satisfied curr row = isInsert ∧ e.satisfied prev row = !isInsert) ∧
      (e.keyInRange range row = false → e.satisfied curr row = e.satisfied prev row) := by
  have hassert : ∀ msg, debugAssert e.build.debugAssertions (decide (curr ≠ prev)) msg = .ok () := by
    intro msg
    rw [decide_eq_true hne]
    exact debugAssert_eq_ok.2 fun _ => rfl
  unfold getRange
  rw [hassert, ok_bind]
  rcases curr with _ | c <;> rcases prev with _ | p
  · exact absurd rfl hne
  on_goal 3 =>
    by_cases hlt : c < p
  all_goals
    refine ⟨_, _, _, by first | rfl | (dsimp only; rw [if_pos hlt]) | (dsimp only; rw [if_neg hlt]),
      fun row => ?_⟩
    unfold keyInRange satisfied
    cases row.get e.keyL with
    | none => simp
    | some l =>
      cases e.comparator <;> simp [Comparator.eval, Bound.contains, Bound.aboveStart,
        Bound.belowEnd] <;> grind

/-! ## The left table -/

/-- The row is in a vnode of the actor. -/
def OwnsRow (e : DynamicFilterExecutor S K width) (row : Row S width) : Prop :=
  e.leftDesc.vnodeByPk (e.leftDesc.pk row) ∈ e.leftDesc.vnodes

variable (hpk : ∀ r r', e.leftDesc.pk r = e.leftDesc.pk r' → key r = key r')
  (hselect : ∀ epoch streams, (e.selectAll epoch streams).Perm streams.flatten)
  (hsize : 0 < e.chunkSize)

/-- The left table holds the rows of `L` whose key is not NULL. -/
structure TableOf (e : DynamicFilterExecutor S K width) (key : Row S width → K')
    (L : K' → Option (Row S width)) (t : StateTable (Row S width) K) : Prop where
  mem : ∀ {p row}, t[p]? = some row ↔
    e.leftDesc.pk row = p ∧ L (key row) = some row ∧ (row.get e.keyL).isSome = true
  vnode : ∀ {p row}, t[p]? = some row → e.leftDesc.vnodeByPk p ∈ e.leftDesc.vnodes

section

variable {L L' : K' → Option (Row S width)} {t : StateTable (Row S width) K} {row : Row S width}

omit [LinearOrder S] [DecidableEq K'] in
theorem TableOf.keeps (h : TableOf e key L t) : e.leftDesc.Keeps t where
  pk hrow := (h.mem.1 hrow).1
  vnode hrow := h.vnode hrow

omit [LinearOrder S] [DecidableEq K'] in
theorem TableOf.of_null (h : TableOf e key L t) (hnull : (row.get e.keyL).isSome = false)
    (hrow : ∀ r, (L (key row) = some r ∨ L' (key row) = some r) → r = row)
    (hrest : ∀ k, k ≠ key row → L' k = L k) : TableOf e key L' t := by
  refine ⟨fun {p r} => ?_, h.vnode⟩
  rw [h.mem]
  by_cases hk : key r = key row
  · have hne : (r.get e.keyL).isSome = true → r ≠ row := by
      rintro hr rfl
      rw [hnull] at hr
      cases hr
    constructor
    · rintro ⟨-, hL, hr⟩
      exact absurd (hrow r (.inl (hk ▸ hL))) (hne hr)
    · rintro ⟨-, hL, hr⟩
      exact absurd (hrow r (.inr (hk ▸ hL))) (hne hr)
  · rw [hrest _ hk]

variable (hvnode : e.OwnsRow row) (hrest : ∀ k, k ≠ key row → L' k = L k)

include hpk hvnode hrest

omit [LinearOrder S] [DecidableEq K'] in
theorem TableOf.change {t' : StateTable (Row S width) K} (h : TableOf e key L t)
    (ht : ∀ p, t'[p]? = if e.leftDesc.pk row = p then L' (key row) else t[p]?)
    (hL : ∀ r, L (key row) = some r → r = row) (hL' : ∀ r, L' (key row) = some r → r = row)
    (hkey : (row.get e.keyL).isSome = true) : TableOf e key L' t' := by
  refine ⟨fun {p r} => ?_, fun {p r} => ?_⟩ <;> rw [ht]
  · by_cases hp : e.leftDesc.pk row = p
    · rw [if_pos hp]
      constructor
      · intro hr
        obtain rfl := hL' r hr
        exact ⟨hp, hr, hkey⟩
      · rintro ⟨hpr, hLr, -⟩
        rwa [hpk r row (hpr.trans hp.symm)] at hLr
    · rw [if_neg hp, h.mem]
      by_cases hk : key r = key row
      · have hne : e.leftDesc.pk r = p → r ≠ row := by
          rintro hpr rfl
          exact hp hpr
        rw [hk]
        exact ⟨fun ⟨hpr, hLr, _⟩ => absurd (hL r hLr) (hne hpr),
          fun ⟨hpr, hLr, _⟩ => absurd (hL' r hLr) (hne hpr)⟩
      · rw [hrest _ hk]
  · split
    · rename_i hp
      exact fun _ => hp ▸ hvnode
    · exact h.vnode

end

variable {L L' : K' → Option (Row S width)} {x : OpRow (Row S width)}
  {s : DynamicFilterState S K width rwidth} {c : Change (Row S width)}

include hpk in
theorem TableOf.write {t : StateTable (Row S width) K} (h : TableOf e key L t)
    (hx : x.change? = some c) (hc : Change.apply key L c = some L') (hvnode : e.OwnsRow x.row) :
    ∃ t', e.writeLeft t x.op x.row = .ok t' ∧ TableOf e key L' t' := by
  obtain ⟨hcell, hrest⟩ := apply_eq_some hc
  have hrow := onCell_row hcell
  rw [OpRow.change?_row hx] at hcell hrest hrow
  unfold writeLeft
  cases hkey : (x.row.get e.keyL).isSome with
  | false => exact ⟨t, rfl, h.of_null hkey (fun r hr => hr.elim (hrow.1 r) (hrow.2 r)) hrest⟩
  | true =>
    rcases OpRow.change?_eq_some hx with ⟨hop, rfl⟩ | ⟨hop, rfl⟩
    · obtain ⟨hL, hL'⟩ := onCell_insert hcell
      have hnone : t[e.leftDesc.pk x.row]? = none := by
        rw [Option.eq_none_iff_forall_ne_some]
        intro r hr
        obtain ⟨hp, hLr, -⟩ := h.mem.1 hr
        rw [hpk _ _ hp, hL] at hLr
        cases hLr
      refine ⟨t.insert (e.leftDesc.pk x.row) x.row, ?_,
        h.change hpk hvnode hrest (fun p => ?_) hrow.1 hrow.2 hkey⟩
      · rcases hop with hop | hop <;> rw [hop] <;> exact insert_eq_ok hvnode hnone
      · rw [BTreeMap.getElem?_insert_eq, hL']
    · obtain ⟨hL, hL'⟩ := onCell_delete hcell
      refine ⟨t.erase (e.leftDesc.pk x.row), ?_,
        h.change hpk hvnode hrest (fun p => ?_) hrow.1 hrow.2 hkey⟩
      · rcases hop with hop | hop <;> rw [hop] <;> exact delete_eq_ok hvnode (h.mem.2 ⟨rfl, hL, hkey⟩)
      · rw [BTreeMap.getElem?_erase_eq, hL']

/-! ## A chunk of the left input -/

/-- The rows a record is turned into. -/
def filtered (e : DynamicFilterExecutor S K width) (rhs : Option S) :
    Record (Row S width) → List (OpRow (Row S width))
  | .insert newRow => [⟨.insert, newRow, e.satisfied rhs newRow⟩]
  | .delete oldRow => [⟨.delete, oldRow, e.satisfied rhs oldRow⟩]
  | .update oldRow newRow =>
    let lastRes := e.satisfied rhs oldRow
    let res := e.satisfied rhs newRow
    [⟨if lastRes && !res then .delete else .updateDelete, oldRow, lastRes⟩,
     ⟨if !lastRes && res then .insert else .updateInsert, newRow, res⟩]

omit [LinearOrder K] in
theorem changes_filtered (rhs : Option S) (r : Record (Row S width)) :
    (e.filtered rhs r).filterMap OpRow.change? = r.changes.filter fun c => e.satisfied rhs c.row := by
  cases r with
  | insert row | delete row => cases h : e.satisfied rhs row <;> simp [filtered, OpRow.change?, h]
  | update old new =>
    cases h : e.satisfied rhs old <;> cases h' :
      e.satisfied rhs new <;> simp [filtered, OpRow.change?, h, h']

omit [LinearOrder K] in
theorem rows_filtered (rhs : Option S) (rs : List (Record (Row S width))) :
    (rs.flatMap (e.filtered rhs)).map (·.row) = (rs.flatMap Record.rows).map (·.row) := by
  rw [map_flatMap, map_flatMap]
  exact flatMap_congr fun r _ => by cases r <;> rfl

/-- What a batch adds to what was built before. -/
def Batch.Adds (b b' : Batch S K width) (xs : List (OpRow (Row S width))) : Prop :=
  b'.newOps = b.newOps ++ xs.map (·.op) ∧ b'.newVisibility = b.newVisibility ++ xs.map (·.vis)

variable {rhs : Option S} {b b' : Batch S K width} {r : Record (Row S width)}

theorem applyRow_eq_ok (h : e.applyRow rhs b x = .ok b') :
    ∃ t, b' = { pushOps b x.op (e.satisfied rhs x.row) with leftTable := t } := by
  obtain ⟨t, -, h⟩ := bind_eq_ok.1 h
  cases h
  exact ⟨t, rfl⟩

theorem applyRecord_adds (h : r.rows.foldlM (e.applyRow rhs) b = .ok b') :
    Batch.Adds b b' (e.filtered rhs r) := by
  cases r with
  | insert | delete =>
    simp only [Record.rows, foldlM_cons, foldlM_nil, bind_pure] at h
    obtain ⟨t, rfl⟩ := applyRow_eq_ok h
    exact ⟨rfl, rfl⟩
  | update old new =>
    -- the first row only tells the second one how it compared
    simp only [Record.rows, foldlM_cons, foldlM_nil, bind_pure, bind_eq_ok] at h
    obtain ⟨b1, h1, h2⟩ := h
    obtain ⟨t1, rfl⟩ := applyRow_eq_ok h1
    obtain ⟨t2, rfl⟩ := applyRow_eq_ok h2
    simp only [filtered]
    cases e.satisfied rhs old <;> cases e.satisfied rhs new <;> exact ⟨rfl, rfl⟩

theorem applyRecords_adds : ∀ {rs : List (Record (Row S width))} {b b' : Batch S K width},
    (rs.flatMap Record.rows).foldlM (e.applyRow rhs) b = .ok b' →
    Batch.Adds b b' (rs.flatMap (e.filtered rhs))
  | [], _, _, h => by
    cases h
    simp [Batch.Adds]
  | r :: rs, b, b', h => by
    rw [flatMap_cons, foldlM_append, bind_eq_ok] at h
    obtain ⟨b1, h1, h2⟩ := h
    obtain ⟨ho1, hv1⟩ := applyRecord_adds h1
    obtain ⟨ho2, hv2⟩ := applyRecords_adds h2
    rw [Batch.Adds, ho2, ho1, hv2, hv1, flatMap_cons, map_append, map_append, append_assoc,
      append_assoc]
    exact ⟨rfl, rfl⟩

include hpk in
theorem applyRow_spec (h : TableOf e key L b.leftTable) (hx : x.change? = some c)
    (hc : Change.apply key L c = some L') (hvnode : e.OwnsRow x.row) :
    ∃ b', e.applyRow rhs b x = .ok b' ∧ TableOf e key L' b'.leftTable := by
  have hleft : (pushOps b x.op (e.satisfied rhs x.row)).leftTable = b.leftTable := by
    unfold pushOps
    split
    · rfl
    · rfl
    · rfl
    · split <;> rfl
  obtain ⟨t', ht', htable⟩ := h.write hpk hx hc hvnode
  refine ⟨{ pushOps b x.op (e.satisfied rhs x.row) with leftTable := t' }, ?_, htable⟩
  rw [applyRow]
  rw [hleft, ht', ok_bind]

omit [LinearOrder S] in
theorem withVisibility_map {R : Type} (xs : List (OpRow R)) :
    withVisibility (xs.map (·.op)) (xs.map (·.row)) (xs.map (·.vis)) = .ok xs := by
  have hzip : ((xs.map (·.op)).zip (xs.map (·.row))).zip (xs.map (·.vis)) =
      xs.map fun x => ((x.op, x.row), x.vis) := by
    rw [zip_map', zip_map']
  simp [withVisibility, hzip, Function.comp_def]

include hpk in
theorem onLeft_spec (h : TableOf e key L s.leftTable) {chunk : StreamChunk (Row S width)}
    {rs : List (Record (Row S width))} (hrs : OfRecords chunk rs)
    (hc : applyAll key L (changes [chunk]) = some L')
    (hvnode : ∀ c ∈ changes [chunk], e.OwnsRow c.row) :
    ∃ out t', e.onLeft s chunk = .ok (out, { s with leftTable := t' }) ∧ TableOf e key L' t' ∧
      changes (outChunks out) = (changes [chunk]).filter
        fun c => e.satisfied s.committedRhsValue.join c.row := by
  have hmem : ∀ x ∈ compact chunk, ∀ {c}, x.change? = some c → c ∈ changes [chunk] :=
    fun x hx c hxc =>
    changes_compact chunk ▸ mem_filterMap.2 ⟨x, hx, hxc⟩
  rw [changes_compact] at hc
  obtain ⟨b, hb, htable⟩ : ∃ b, e.applyBatch (compact chunk) s.committedRhsValue.join s.leftTable =
      .ok b ∧
      TableOf e key L' b.leftTable :=
        foldlM_changes vis_of_mem_compact (fun x hx _ _ _ _ hxc h1 ht =>
    applyRow_spec hpk ht hxc h1 (OpRow.change?_row hxc ▸ hvnode _ (hmem x hx hxc))) hc h
  obtain ⟨hops, hvis⟩ := applyRecords_adds (hrs ▸ hb)
  rw [nil_append] at hops hvis
  have hchanges : (rs.flatMap (e.filtered s.committedRhsValue.join)).filterMap OpRow.change? =
      (changes [chunk]).filter fun c => e.satisfied s.committedRhsValue.join c.row := by
    rw [hrs.changes_eq, filterMap_flatMap, filter_flatMap]
    exact flatMap_congr fun r _ => changes_filtered _ r
  rw [onLeft]
  rw [hb, ok_bind, hrs, ← rows_filtered, hops, hvis]
  split
  · rw [withVisibility_map, ok_bind]
    exact ⟨_, _, rfl, htable, by rw [← hchanges]; simp [outChunks, changes]⟩
  rename_i hcount
  refine ⟨_, _, rfl, htable, ?_⟩
  rw [← hchanges, eq_comm]
  refine filterMap_eq_nil_iff.2 fun x hx => ?_
  cases hv : x.vis with
  | false => simp [OpRow.change?, hv]
  | true =>
    refine absurd (count_pos_iff.2 ?_) hcount
    exact mem_map.2 ⟨x, hx, hv⟩

/-! ## A chunk of the right input -/

variable {cur : Option (Row S (rwidth + 1))}

theorem onRightRow_spec {cur' : Option (Row S (rwidth + 1))} {x : OpRow (Row S (rwidth + 1))}
    {c : Change (Row S (rwidth + 1))} (hx : x.change? = some c) (hc : onCell cur c = some cur')
    (hvalue : s.stagingRhsValue = cur.map (·.get 0)) : e.onRightRow s x =
      .ok { s with stagingRhsValue := cur'.map (·.get 0), stagingRhsRow := cur' } := by
  unfold onRightRow
  rcases OpRow.change?_eq_some hx with ⟨hop, rfl⟩ | ⟨hop, rfl⟩
  · obtain ⟨-, rfl⟩ := onCell_insert hc
    rcases hop with hop | hop <;> rw [hop] <;> rfl
  · obtain ⟨rfl, rfl⟩ := onCell_delete hc
    have hsame : ¬some (x.row.get 0) ≠ s.stagingRhsValue := by rw [hvalue]; simp
    rcases hop with hop | hop <;> rw [hop] <;> dsimp only <;> rw [if_neg hsame] <;> rfl

/-! ## A barrier -/

variable {mk : Row S width → Record (Row S width)}

open StreamChunkBuilder in
omit [LinearOrder S] in
theorem appendRows_holds {op : Op} (hop : op ≠ .updateDelete)
    (hmk : ∀ row, (mk row).rows = [⟨op, row, true⟩]) : ∀ (rows : List (Row S width))
    {chunks : List (StreamChunk (Row S width))} {b : StreamChunkBuilder (Row S width)}
    {rs : List (Record (Row S width))}, Holds (chunks, b) rs →
    Holds (chunks ++ (appendRows op rows b).1, (appendRows op rows b).2) (rs ++ rows.map mk) ∧
      (appendRows op rows b).2.maxChunkSize = b.maxChunkSize
  | [], chunks, b, rs, h => by
    simpa [appendRows] using h
  | row :: rows, chunks, b, rs, h => by
    have happend : b.Appends (mk row).rows (b.appendRow op row) := by
      rw [hmk]
      exact append_spec h.1 hop
    obtain ⟨hholds, hmax⟩ := appendRows_holds hop hmk rows (h.append happend)
    rw [appendRows]
    rw [map_cons, ← append_assoc]
    rw [append_assoc rs] at hholds
    exact ⟨hholds, hmax.trans happend.2.1⟩

omit [LinearOrder S] in
theorem appendRows_take {op : Op} (hop : op ≠ .updateDelete)
    (hmk : ∀ row, (mk row).rows = [⟨op, row, true⟩]) (rows : List (Row S width)) {size : Nat}
    (hsize : 0 < size) : changes ((appendRows op rows ⟨[], some size⟩).1 ++
        (appendRows op rows ⟨[], some size⟩).2.take.1.toList) =
      rows.flatMap (fun row => (mk row).changes) ∧
    (appendRows op rows ⟨[], some size⟩).2.take.2 = ⟨[], some size⟩ := by
  have hholds : StreamChunkBuilder.Holds (R := Row S width) ([], ⟨[], some size⟩) [] := by
    refine ⟨fun m hm => ?_, [], [], rfl, rfl, rfl⟩
    cases hm
    exact hsize
  obtain ⟨hholds, hmax⟩ := appendRows_holds hop hmk rows hholds
  obtain ⟨groups, hchunks, hgroups⟩ := hholds.take
  rw [nil_append] at hchunks hgroups
  constructor
  · rw [hchunks, changes_groups, hgroups, List.flatMap_map]
  · rw [StreamChunkBuilder.take_snd, hmax]

section

include hselect

variable {t : StateTable (Row S width) K} {range : Bound S × Bound S}

omit [DecidableEq K'] in
theorem mem_scan (h : TableOf e key L t) {epoch : U64} {row : Row S width} :
    row ∈ e.scan t epoch range ↔
      (L (key row) = some row ∧ (row.get e.keyL).isSome = true) ∧
        e.keyInRange range row = true := by
  rw [scan, (hselect _ _).mem_iff]
  refine (mem_scans h.keeps).trans (and_congr_left fun _ => h.mem.trans ?_)
  exact and_iff_right rfl

omit [DecidableEq K'] in
theorem nodup_keys_scan (h : TableOf e key L t) (epoch : U64) (range : Bound S × Bound S) :
    ((e.scan t epoch range).map key).Nodup := by
  have hnodup : (e.scan t epoch range).Nodup :=
    (hselect _ _).nodup_iff.2 (nodup_scans h.keeps _)
  refine hnodup.map_on fun row hrow row' hrow' heq => ?_
  have hL := ((mem_scan hselect h).1 hrow).1.1
  have hL' := ((mem_scan hselect h).1 hrow').1.1
  rw [heq, hL'] at hL
  exact (Option.some.inj hL).symm

theorem applyAll_scan (hkeyed : Change.Keyed key L) (h : TableOf e key L t) (epoch : U64)
    {isInsert : Bool} (hrange : ∀ row, (e.keyInRange range row = true →
        (row.get e.keyL).isSome ∧ e.satisfied curr row = isInsert ∧ e.satisfied prev row = !isInsert) ∧
      (e.keyInRange range row = false → e.satisfied curr row = e.satisfied prev row)) :
    applyAll key (fun k => (L k).filter (e.satisfied prev))
      ((e.scan t epoch range).map fun row => if isInsert then .insert row else .delete row) =
      some fun k => (L k).filter (e.satisfied curr) := by
  refine applyAll_rows (fun row => by split <;> rfl) (nodup_keys_scan hselect h epoch range)
    (fun row hrow => ?_) fun k hk => ?_
  · obtain ⟨⟨hL, -⟩, hin⟩ := (mem_scan hselect h).1 hrow
    obtain ⟨-, hcurr, hprev⟩ := (hrange row).1 hin
    cases isInsert <;> simp [hL, Option.filter, hcurr, hprev, net]
  · cases hL : L k with
    | none => rfl
    | some row =>
      have hkey := hkeyed k row hL
      subst hkey
      have hout : e.keyInRange range row = false := by
        rw [Bool.eq_false_iff]
        intro hin
        exact hk row ((mem_scan hselect h).2 ⟨⟨hL, ((hrange row).1 hin).1⟩, hin⟩) rfl
      rw [Option.filter, Option.filter, (hrange row).2 hout]

end

include hselect hsize in
theorem emitRange_spec (hkeyed : Change.Keyed key L)
    (h : TableOf e key L s.leftTable) (hbuilder : s.streamChunkBuilder = ⟨[], some e.chunkSize⟩)
    (epoch : U64) (hne : curr ≠ prev) :
    ∃ out, e.emitRange s epoch curr prev = .ok (out, s.streamChunkBuilder) ∧
      applyAll key (fun k => (L k).filter (e.satisfied prev)) (changes (outChunks out)) =
        some fun k => (L k).filter (e.satisfied curr) := by
  obtain ⟨range, lower, isInsert, hget, hrange⟩ := getRange_spec (e := e) hne
  have hmk : ∀ row : Row S width, (if isInsert then Record.insert row else Record.delete row).rows =
        [⟨if isInsert then .insert else .delete, row, true⟩] := by
    intro row
    split <;> rfl
  obtain ⟨hchanges, htake⟩ :=
    appendRows_take (by split <;> decide) hmk (e.scan s.leftTable epoch range) hsize
  rw [emitRange, hget, ok_bind]
  dsimp only
  rw [hbuilder, htake]
  refine ⟨_, rfl, ?_⟩
  rw [outChunks_map, hchanges, ← applyAll_scan hselect hkeyed h epoch hrange]
  congr 1
  rw [← flatMap_pure_eq_map]
  exact flatMap_congr fun row _ => by cases isInsert <;> rfl

variable {com : Option (Row S (rwidth + 1))}

omit [LinearOrder K] in
theorem writeRight_spec {t : StateTable (Row S (rwidth + 1)) Unit}
    (h : 0 ∈ e.leftDesc.vnodes → t[()]? = com) :
    ∃ t', e.writeRight t com cur = .ok t' ∧ (0 ∈ e.leftDesc.vnodes → t'[()]? = cur) := by
  unfold writeRight
  split
  · rename_i hcond
    obtain ⟨hne, hvnode⟩ := hcond
    have ht := h (contains_iff_mem.1 hvnode)
    have hdelete : ∃ t1, deleteOld t com = .ok t1 ∧ t1[()]? = none := by
      cases com with
      | none => exact ⟨t, rfl, ht⟩
      | some oldRow =>
        exact ⟨_, delete_eq_ok (.head _) ht, by rw [BTreeMap.getElem?_erase_eq]; rfl⟩
    obtain ⟨t1, ht1, hnone⟩ := hdelete
    rw [ht1, ok_bind]
    cases cur with
    | none => exact ⟨t1, rfl, fun _ => hnone⟩
    | some row =>
      exact ⟨_, insert_eq_ok (.head _) hnone, fun _ => by rw [BTreeMap.getElem?_insert_eq]; rfl⟩
  · rename_i hcond
    refine ⟨t, rfl, fun hvnode => (h hvnode).trans ?_⟩
    by_contra hne
    exact hcond ⟨hne, contains_iff_mem.2 hvnode⟩

/-! ## Runs -/

/-- The state in terms of the left rows and of the right row, now and at the last barrier. -/
structure Inv (e : DynamicFilterExecutor S K width) (key : Row S width → K')
    (L : K' → Option (Row S width)) (cur com : Option (Row S (rwidth + 1)))
    (s : DynamicFilterState S K width rwidth) : Prop where
  keyed : Change.Keyed key L
  left : TableOf e key L s.leftTable
  stagingRow : s.stagingRhsRow = cur
  stagingValue : s.stagingRhsValue = cur.map (·.get 0)
  committedRow : s.committedRhsRow = com
  committedValue : s.committedRhsValue.join = com.bind (·.get 0)
  right : 0 ∈ e.leftDesc.vnodes → s.rightTable[()]? = com
  builder : s.streamChunkBuilder = ⟨[], some e.chunkSize⟩

/-- The left rows that satisfy the condition with the right row. -/
def view (e : DynamicFilterExecutor S K width) (L : K' → Option (Row S width))
    (right : Option (Row S (rwidth + 1))) : K' → Option (Row S width) :=
  fun k => (L k).filter (e.satisfied (right.bind (·.get 0)))

include hselect hsize in
theorem onBarrier_spec (h : Inv e key L cur com s) (epoch : U64) :
    ∃ out s', e.onBarrier s epoch = .ok (out, s') ∧ Inv e key L cur cur s' ∧
      applyAll key (e.view L com) (changes (outChunks out)) = some (e.view L cur) := by
  have hcurr : s.stagingRhsValue.join = cur.bind (·.get 0) := by
    rw [h.stagingValue]
    cases cur <;> rfl
  obtain ⟨t', ht', hright⟩ : ∃ t', e.writeRight s.rightTable com cur = .ok t' ∧ _ :=
    writeRight_spec h.right
  have hchunks : ∃ out, e.emitChange s epoch s.stagingRhsValue.join s.committedRhsValue.join =
        .ok (out, s.streamChunkBuilder) ∧
      applyAll key (e.view L com) (changes (outChunks out)) = some (e.view L cur) := by
    unfold view emitChange
    rw [← hcurr, ← h.committedValue]
    by_cases hne : s.committedRhsValue.join = s.stagingRhsValue.join
    · rw [if_neg (not_not_intro hne), hne]
      exact ⟨[], rfl, rfl⟩
    · rw [if_pos hne]
      exact emitRange_spec hselect hsize h.keyed h.left h.builder epoch (Ne.symm hne)
  obtain ⟨out, hout, hview⟩ := hchunks
  rw [onBarrier]
  dsimp only
  rw [hout, ok_bind]
  rw [h.committedRow, h.stagingRow, ht', ok_bind]
  refine ⟨_, _, rfl, ⟨h.keyed, h.left, rfl, h.stagingValue, rfl, hcurr, hright, h.builder⟩, ?_⟩
  have hbarrier : outChunks [(.barrier epoch : Message (Row S width))] = [] := rfl
  rw [outChunks_append, hbarrier, append_nil]
  exact hview

include hselect hsize hpk in
theorem run_spec : ∀ {msgs : List (AlignedMessage (Row S width) (Row S (rwidth + 1)))}
    {L L' : K' → Option (Row S width)} {cur cur' com : Option (Row S (rwidth + 1))}
    {s : DynamicFilterState S K width rwidth}, Inv e key L cur com s →
    (∀ chunk, .left chunk ∈ msgs → ∃ rs, OfRecords chunk rs) →
    (∀ c ∈ changes (leftChunks msgs), e.OwnsRow c.row) →
    applyAll key L (changes (leftChunks msgs)) = some L' →
    (changes (rightChunks msgs)).foldlM onCell cur = some cur' →
    ∃ out s' com', e.run s msgs = .ok (out, s') ∧ Inv e key L' cur' com' s' ∧
      applyAll key (e.view L com) (changes (outChunks out)) = some (e.view L' com')
  | [], L, L', cur, cur', com, s, h, _, _, hleft, hright => by
    cases hleft
    cases hright
    exact ⟨[], s, com, rfl, h, rfl⟩
  | msg :: msgs, L, L', cur, cur', com, s, h, hrecords, hvnode, hleft, hright => by
    have hrecords' : ∀ chunk, .left chunk ∈ msgs → ∃ rs, OfRecords chunk rs :=
      fun chunk hm => hrecords chunk (.tail _ hm)
    -- one message, and then the others from the state it leads to
    have hstep : ∃ out s1 L1 cur1 com1, e.onMessage s msg = .ok (out, s1) ∧
        Inv e key L1 cur1 com1 s1 ∧
        applyAll key (e.view L com) (changes (outChunks out)) = some (e.view L1 com1) ∧
        (∀ c ∈ changes (leftChunks msgs), e.OwnsRow c.row) ∧
        applyAll key L1 (changes (leftChunks msgs)) = some L' ∧
        (changes (rightChunks msgs)).foldlM onCell cur1 = some cur' := by
      cases msg with
      | left chunk =>
        have hcons : leftChunks (.left chunk :: msgs) = chunk :: leftChunks msgs := rfl
        rw [hcons, changes_cons] at hleft hvnode
        rw [applyAll_append] at hleft
        obtain ⟨L1, h1, hleft⟩ := Option.bind_eq_some_iff.1 hleft
        obtain ⟨rs, hrs⟩ := hrecords chunk (.head _)
        obtain ⟨out, t', hout, htable, hchanges⟩ := onLeft_spec hpk h.left hrs h1
          fun c hc => hvnode c (mem_append_left _ hc)
        refine ⟨out, _, L1, cur, com, hout, ⟨h.keyed.applyAll h1, htable, h.stagingRow, h.stagingValue,
          h.committedRow, h.committedValue, h.right, h.builder⟩, ?_,
          fun c hc => hvnode c (mem_append_right _ hc), hleft, hright⟩
        rw [hchanges, h.committedValue]
        exact applyAll_filter _ h1
      | right chunk =>
        have hcons : rightChunks (.right chunk :: msgs) = chunk :: rightChunks msgs := rfl
        rw [hcons, changes_cons, foldlM_append, changes_compact] at hright
        obtain ⟨cur1, h1, hright⟩ := Option.bind_eq_some_iff.1 hright
        obtain ⟨s1, hs1, hinv⟩ :=
          foldlM_changes (P := fun cur s => Inv e key L cur com s) vis_of_mem_compact
          (fun _ _ _ _ s _ hx hc hinv => ⟨_, onRightRow_spec hx hc hinv.stagingValue, hinv.keyed,
            hinv.left, rfl, rfl, hinv.committedRow, hinv.committedValue, hinv.right,
              hinv.builder⟩) h1 h
        exact ⟨[], s1, L, cur1, com, by rw [onMessage, hs1, ok_bind], hinv, rfl, hvnode, hleft, hright⟩
      | barrier epoch =>
        obtain ⟨out, s1, hout, hinv, hview⟩ := onBarrier_spec hselect hsize h epoch
        exact ⟨out, s1, L, cur, cur, hout, hinv, hview, hvnode, hleft, hright⟩
    obtain ⟨out, s1, L1, cur1, com1, hout, hinv, hview, hvnode1, hleft1, hright1⟩ := hstep
    obtain ⟨more, s', com', hmore, hinv', hview'⟩ := run_spec hinv hrecords' hvnode1 hleft1 hright1
    refine ⟨out ++ more, s', com', ?_, hinv', ?_⟩
    · rw [run, hout, ok_bind]
      dsimp only
      rw [hmore, ok_bind]
    · rw [outChunks_append, changes_append, applyAll_append, hview]
      exact hview'

omit [LinearOrder S] [DecidableEq K'] in
theorem init_inv (hsize : 0 < e.chunkSize) : ∃ s : DynamicFilterState S K width rwidth,
    e.init ∅ ∅ = .ok s ∧ Inv e key (fun _ => none) none none s := by
  have hright : (∅ : StateTable (Row S (rwidth + 1)) Unit)[()]? = none :=
    Std.ExtTreeMap.getElem?_empty
  refine ⟨⟨∅, ∅, none, none, none, none, ⟨[], some e.chunkSize⟩⟩, ?_,
    ⟨?_, ⟨?_, ?_⟩, rfl, rfl, rfl, rfl, fun _ => hright, rfl⟩⟩
  · rw [init, StreamChunkBuilder.new_eq_ok hsize]
    rfl
  · nofun
  · intro p row
    constructor
    · nofun
    · rintro ⟨-, hrow, -⟩
      cases hrow
  · intro p row hrow
    cases hrow

/-! ## Restarts -/

/-- Two states that differ only in how an absent committed value is kept, and in a right table that
another actor writes. -/
structure Same (e : DynamicFilterExecutor S K width) (s s' : DynamicFilterState S K width rwidth) :
    Prop where
  leftTable : s.leftTable = s'.leftTable
  committedValue : s.committedRhsValue.join = s'.committedRhsValue.join
  stagingValue : s.stagingRhsValue = s'.stagingRhsValue
  committedRow : s.committedRhsRow = s'.committedRhsRow
  stagingRow : s.stagingRhsRow = s'.stagingRhsRow
  builder : s.streamChunkBuilder = s'.streamChunkBuilder
  right : 0 ∈ e.leftDesc.vnodes → s.rightTable = s'.rightTable

/-- The same output, and states that behave in the same way. -/
def SameStep (e : DynamicFilterExecutor S K width)
    (p q : List (Message (Row S width)) × DynamicFilterState S K width rwidth) : Prop :=
  p.1 = q.1 ∧ Same e p.2 q.2

section

variable {s' : DynamicFilterState S K width rwidth}

theorem onLeft_same (h : Same e s s') (chunk : StreamChunk (Row S width)) :
    Agree (SameStep e) (e.onLeft s chunk) (e.onLeft s' chunk) := by
  rw [onLeft]
  rw [h.committedValue, h.leftTable]
  refine Agree.refl.bind fun b _ hb => ?_
  subst hb
  have hsame : Same e { s with leftTable := b.leftTable } { s' with leftTable := b.leftTable } :=
    ⟨rfl, h.committedValue, h.stagingValue, h.committedRow, h.stagingRow, h.builder, h.right⟩
  split
  · refine Agree.refl.bind fun c _ hc => ?_
    subst hc
    exact ⟨rfl, hsame⟩
  · exact ⟨rfl, hsame⟩

theorem onRightRow_same (h : Same e s s') (x : OpRow (Row S (rwidth + 1))) :
    Agree (Same e) (e.onRightRow s x) (e.onRightRow s' x) := by
  have hsame : ∀ value row, Same e { s with stagingRhsValue := value, stagingRhsRow := row }
        { s' with stagingRhsValue := value, stagingRhsRow := row } := fun value row =>
    ⟨h.leftTable, h.committedValue, rfl, h.committedRow, rfl, h.builder, h.right⟩
  unfold onRightRow
  rw [h.stagingValue]
  split
  · exact hsame _ _
  · exact hsame _ _
  all_goals
    split
    · exact Agree.refl.bind fun _ _ _ => hsame _ _
    · exact hsame _ _

theorem writeRight_same (h : Same e s s') : Agree (fun t t' => 0 ∈ e.leftDesc.vnodes → t = t')
    (e.writeRight s.rightTable s.committedRhsRow s.stagingRhsRow)
    (e.writeRight s'.rightTable s'.committedRhsRow s'.stagingRhsRow) := by
  rw [h.committedRow, h.stagingRow]
  by_cases hvnode : 0 ∈ e.leftDesc.vnodes
  · rw [h.right hvnode]
    cases e.writeRight s'.rightTable s'.committedRhsRow s'.stagingRhsRow with
    | ok t => exact fun _ => rfl
    | error p => exact rfl
  · have hcond : ¬(s'.committedRhsRow ≠ s'.stagingRhsRow ∧ e.leftDesc.vnodes.contains 0 = true) :=
      fun hc => hvnode (contains_iff_mem.1 hc.2)
    rw [writeRight, writeRight, if_neg hcond, if_neg hcond]
    exact fun hv => absurd hv hvnode

theorem emitChange_same (h : Same e s s') (epoch : U64) (curr prev : Option S) :
    e.emitChange s epoch curr prev = e.emitChange s' epoch curr prev := by
  rw [emitChange, emitChange, emitRange, emitRange, h.leftTable, h.builder]

theorem onBarrier_same (h : Same e s s') (epoch : U64) :
    Agree (SameStep e) (e.onBarrier s epoch) (e.onBarrier s' epoch) := by
  rw [onBarrier]
  rw [h.stagingValue, h.committedValue, emitChange_same h]
  refine Agree.refl.bind fun p _ hp => ?_
  subst hp
  refine (writeRight_same h).bind fun t t' ht => ?_
  exact ⟨rfl, ⟨h.leftTable, rfl, rfl, h.stagingRow, h.stagingRow, rfl, ht⟩⟩

theorem run_same : ∀ {msgs : List (AlignedMessage (Row S width) (Row S (rwidth + 1)))}
    {s s' : DynamicFilterState S K width rwidth}, Same e s s' →
    Agree (SameStep e) (e.run s msgs) (e.run s' msgs)
  | [], _, _, h => ⟨rfl, h⟩
  | msg :: msgs, s, s', h => by
    have hstep : Agree (SameStep e) (e.onMessage s msg) (e.onMessage s' msg) := by
      cases msg with
      | left chunk => exact onLeft_same h chunk
      | right chunk =>
        exact (Agree.foldlM (fun x s s' h => onRightRow_same h x) h).bind fun _ _ h' => ⟨rfl, h'⟩
      | barrier epoch => exact onBarrier_same h epoch
    refine hstep.bind fun p q hpq => ?_
    refine (run_same hpq.2).bind fun p' q' hpq' => ?_
    exact ⟨by rw [hpq.1, hpq'.1], hpq'.2⟩

end

omit [LinearOrder S] [DecidableEq K'] in
theorem init_same (hsize : 0 < e.chunkSize) (h : Inv e key L cur cur s)
    {right : StateTable (Row S (rwidth + 1)) Unit} (hright : right[()]? = cur) :
    ∃ s', e.init s.leftTable right = .ok s' ∧ Same e s' s := by
  refine ⟨⟨s.leftTable, right, cur.map (·.get 0), cur.map (·.get 0), cur, cur, ⟨[], some e.chunkSize⟩⟩,
    ?_, rfl, ?_, h.stagingValue.symm, h.committedRow.symm, h.stagingRow.symm, h.builder.symm, ?_⟩
  · rw [init, StreamChunkBuilder.new_eq_ok hsize, hright]
    rfl
  · rw [h.committedValue]
    cases cur <;> rfl
  · intro hvnode
    apply BTreeMap.ext
    intro k
    rw [hright, h.right hvnode]

/-! ## The output -/

theorem run_append {msgs' : List (AlignedMessage (Row S width) (Row S (rwidth + 1)))} :
    ∀ {msgs : List (AlignedMessage (Row S width) (Row S (rwidth + 1)))}
    {s s1 s2 : DynamicFilterState S K width rwidth} {out out' : List (Message (Row S width))},
    e.run s msgs = .ok (out, s1) → e.run s1 msgs' = .ok (out', s2) →
    e.run s (msgs ++ msgs') = .ok (out ++ out', s2)
  | [], s, s1, s2, out, out', h, h' => by
    cases h
    exact h'
  | msg :: msgs, s, s1, s2, out, out', h, h' => by
    rw [run, bind_eq_ok] at h
    obtain ⟨⟨out0, s0⟩, h0, h⟩ := h
    obtain ⟨⟨out1, s1'⟩, h1, h⟩ := bind_eq_ok.1 h
    cases h
    rw [cons_append, run, h0, ok_bind]
    dsimp only
    rw [run_append h1 h', ok_bind, append_assoc]

/-- Over consistent inputs the executor does not fail. After a barrier what it has emitted is a
consistent changelog of the left rows whose keys compare true with the right value, an update takes
as many operations as it has rows, and an executor that starts from the tables goes on with the same
output. -/
theorem dynamic_filter_output (e : DynamicFilterExecutor S K width) (hsize : 0 < e.chunkSize)
    (hselect : ∀ epoch streams, (e.selectAll epoch streams).Perm streams.flatten)
    (key : Row S width → K') (hpk : ∀ r r', e.leftDesc.pk r = e.leftDesc.pk r' → key r = key r')
    (msgs : List (AlignedMessage (Row S width) (Row S (rwidth + 1)))) (epoch : U64)
    (L : K' → Option (Row S width)) (right : Option (Row S (rwidth + 1)))
    (hleft : applyAll key (fun _ => none) (changes (leftChunks msgs)) = some L)
    (hright : (changes (rightChunks msgs)).foldlM onCell none = some right)
    (hupdates : ∀ chunk ∈ leftChunks msgs, ∃ rs, OfRecords chunk rs)
    (hvnode : ∀ c ∈ changes (leftChunks msgs),
      e.leftDesc.vnodeByPk (e.leftDesc.pk c.row) ∈ e.leftDesc.vnodes) :
    ∃ (s0 s : DynamicFilterState S K width rwidth) (out : List (Message (Row S width))),
      e.init ∅ ∅ = .ok s0 ∧ e.run s0 (msgs ++ [.barrier epoch]) = .ok (out, s) ∧
      applyAll key (fun _ => none) (changes (outChunks out)) =
        some (fun k => (L k).filter (e.satisfied (right.bind (·.get 0)))) ∧
      (∀ chunk ∈ leftChunks msgs, ∀ rhs t b, e.applyBatch (compact chunk) rhs t = .ok b →
        b.newOps.length = (compact chunk).length) ∧
      (0 ∈ e.leftDesc.vnodes → s.rightTable[()]? = right) ∧
      ∀ rightTable : StateTable (Row S (rwidth + 1)) Unit, rightTable[()]? = right →
        ∃ s', e.init s.leftTable rightTable = .ok s' ∧
          ∀ later, (e.run s' later).map (·.1) = (e.run s later).map (·.1) := by
  obtain ⟨s0, hs0, hinv0⟩ :
      ∃ s0 : DynamicFilterState S K width rwidth, _ ∧ Inv e key (fun _ => none) none none s0 :=
    init_inv hsize
  have hrecords : ∀ chunk, .left chunk ∈ msgs → ∃ rs, OfRecords chunk rs := fun chunk hm =>
    hupdates chunk (mem_filterMap.2 ⟨_, hm, rfl⟩)
  obtain ⟨out1, s1, com, hrun1, hinv1, hview1⟩ :=
    run_spec hpk hselect hsize hinv0 hrecords hvnode hleft hright
  obtain ⟨out2, s, hrun2, hinv, hview2⟩ := onBarrier_spec hselect hsize hinv1 epoch
  refine ⟨s0, s, out1 ++ out2, hs0, ?_, ?_, ?_, hinv.right, ?_⟩
  · refine run_append hrun1 ?_
    rw [run, onMessage, hrun2, ok_bind]
    dsimp only
    rw [run, ok_bind, append_nil]
  · rw [outChunks_append, changes_append, applyAll_append]
    exact Option.bind_eq_some_iff.2 ⟨_, hview1, hview2⟩
  · intro chunk hm rhs t b hb
    obtain ⟨rs, hrs⟩ := hupdates chunk hm
    rw [hrs] at hb
    rw [(applyRecords_adds hb).1, hrs]
    simpa using congrArg length (rows_filtered rhs rs)
  · intro rightTable ht
    obtain ⟨s', hs', hsame⟩ := init_same hsize hinv ht
    exact ⟨s', hs', fun later => (run_same hsame).map_eq fun _ _ h => h.1⟩

/-- A filter on the first column of rows that are kept by the second one. -/
def exampleFilter : DynamicFilterExecutor Nat Nat 2 where
  build := ⟨true, true⟩
  keyL := 0
  comparator := .greaterThan
  leftDesc := {
    pk := fun row => (row.get 1).elim 0 (· + 1)
    vnodeByPk := (· % 2)
    vnodes := [0, 1]
    nodup := by decide }
  chunkSize := 2
  selectAll := fun _ streams => streams.flatten

/-- Two rows on the left, the first one updated, and a value on the right. -/
def exampleMessages : List (AlignedMessage (Row Nat 2) (Row Nat 1)) :=
  [.left [⟨.insert, #v[some 3, some 1], true⟩, ⟨.insert, #v[some 2, some 2], true⟩],
   .right [⟨.insert, #v[some 4], true⟩],
   .left [⟨.updateDelete, #v[some 3, some 1], true⟩, ⟨.updateInsert, #v[some 5, some 1], true⟩]]

theorem dynamic_filter_output_updated :
    ∃ (s0 s : DynamicFilterState Nat Nat 2 0) (out : List (Message (Row Nat 2)))
      (table : Option Nat → Option (Row Nat 2)),
      exampleFilter.init ∅ ∅ = .ok s0 ∧ exampleFilter.run s0 (exampleMessages ++ [.barrier 1]) =
        .ok (out, s) ∧
      applyAll (·.get 1) (fun _ => none) (changes (outChunks out)) = some table ∧
      table (some 1) = some #v[some 5, some 1] ∧ table (some 2) = none := by
  have hsome : (applyAll (·.get 1) (fun _ : Option Nat => none)
      (changes (leftChunks exampleMessages))).isSome := by decide +kernel
  obtain ⟨L, hL⟩ := Option.isSome_iff_exists.1 hsome
  have hat : ∀ k, L k = ((applyAll (·.get 1) (fun _ : Option Nat => none)
      (changes (leftChunks exampleMessages))).getD fun _ => none) k := by
    intro k
    rw [hL, Option.getD_some]
  have hpk : ∀ r r' : Row Nat 2, exampleFilter.leftDesc.pk r = exampleFilter.leftDesc.pk r' →
      r.get 1 = r'.get 1 := by
    intro r r' h
    change (r.get 1).elim 0 (· + 1) = (r'.get 1).elim 0 (· + 1) at h
    cases hr : r.get 1 <;> cases hr' : r'.get 1 <;> simp_all
  have hupdates : ∀ chunk ∈ leftChunks exampleMessages, ∃ rs, OfRecords chunk rs := by
    intro chunk hm
    rcases mem_cons.1 hm with rfl | hm
    · exact ⟨[.insert #v[some 3, some 1], .insert #v[some 2, some 2]], rfl⟩
    · rcases mem_singleton.1 hm with rfl
      exact ⟨[.update #v[some 3, some 1] #v[some 5, some 1]], rfl⟩
  obtain ⟨s0, s, out, hs0, hrun, htable, -⟩ := dynamic_filter_output exampleFilter (by decide)
    (fun _ _ => List.Perm.refl _) (·.get 1) hpk exampleMessages 1 L (some #v[some 4]) hL
    (by decide +kernel) hupdates (by decide +kernel)
  refine ⟨s0, s, out, _, hs0, hrun, htable, ?_, ?_⟩
  · rw [hat]
    decide +kernel
  · rw [hat]
    decide +kernel

end DynamicFilterExecutor

end Stream
