import RisingLake.Stream.Proof.JoinEntryState
import RisingLake.Stream.Proof.StateTable

/-!
# What the state of a side of a join holds

`SideHolds d stored deg ht`: the tables hold the rows `stored` with the degrees `deg`, and each
entry of the cache holds all the rows of its key. Taking the state of a key gives its rows whether
it is cached or not (`takeState_spec`); an insertion, a deletion and a change of a degree keep the
tables and the cache together.
-/

namespace Stream

open Res Multiset JoinHashMapDesc JoinHashMap BTreeMap

variable {S : Type} {width : Nat}

/-- The serializers keep different keys of one length apart, and the join key and the rest of the
primary key have all columns of the primary key. -/
structure JoinParams.Ok (p : JoinParams S width) : Prop where
  pkSerializer : ∀ {a b}, a.length = b.length → p.pkSerializer a = p.pkSerializer b → a = b
  tableSerializer : ∀ {a b}, a.length = b.length → p.tableSerializer a = p.tableSerializer b → a = b
  covered : ∀ i ∈ p.inputPkIndices, i ∈ p.joinKeyIndices ∨ i ∈ p.pkIndices

def JoinParams.inputPk (p : JoinParams S width) (row : Row S width) : List (Option S) :=
  row.project p.inputPkIndices

/-- The primary keys are different, and the rows are in the vnodes of the actor. -/
structure Storable (d : JoinHashMapDesc S width) (rows : Multiset (Row S width)) : Prop where
  unique : (rows.map d.inputPk).Nodup
  vnode : ∀ row ∈ rows, d.vnodeByPk (d.stateDesc.pk row) ∈ d.vnodes

theorem project_eq_iff {row row' : Row S width} {is : List (Fin width)} :
    row.project is = row'.project is ↔ ∀ i ∈ is, row.get i = row'.get i := List.map_inj_left

theorem length_project (row row' : Row S width) (is : List (Fin width)) :
    (row.project is).length = (row'.project is).length := by simp [Row.project]

variable {d : JoinHashMapDesc S width} {stored : Multiset (Row S width)} {row row' : Row S width}

namespace Storable

theorem nodup (h : Storable d stored) : stored.Nodup := Multiset.Nodup.of_map _ h.unique

theorem eq_of_inputPk (h : Storable d stored) (hr : row ∈ stored) (hr' : row' ∈ stored)
    (heq : d.inputPk row = d.inputPk row') : row = row' :=
  inj_on_of_nodup_map h.unique row hr row' hr' heq

theorem eq_of_keys (h : Storable d stored) (hd : d.Ok) (hr : row ∈ stored) (hr' : row' ∈ stored)
    (hjoin : d.joinKey row = d.joinKey row')
    (hpk : row.project d.pkIndices = row'.project d.pkIndices) : row = row' := by
  refine h.eq_of_inputPk hr hr' (project_eq_iff.2 fun i hi => ?_)
  rcases hd.covered i hi with hi | hi
  · exact project_eq_iff.1 hjoin i hi
  · exact project_eq_iff.1 hpk i hi

theorem eq_of_pk (h : Storable d stored) (hd : d.Ok) (hr : row ∈ stored) (hr' : row' ∈ stored)
    (heq : d.stateDesc.pk row = d.stateDesc.pk row') : row = row' := by
  have horder := project_eq_iff.1 (hd.tableSerializer (length_project ..) heq)
  exact h.eq_of_keys hd hr hr' (project_eq_iff.2 fun i hi => horder i (List.mem_append_left _ hi))
    (project_eq_iff.2 fun i hi => horder i (List.mem_append_right _ hi))

theorem eq_of_joinKey (h : Storable d stored) (hjk : d.pkContainedInJk = true) (hr : row ∈ stored)
    (hr' : row' ∈ stored) (hjoin : d.joinKey row = d.joinKey row') : row = row' := by
  refine h.eq_of_inputPk hr hr' (project_eq_iff.2 fun i hi => project_eq_iff.1 hjoin i ?_)
  simpa using List.all_eq_true.1 hjk i hi

theorem of_cons (h : Storable d (row ::ₘ stored)) : Storable d stored := by
  have hunique := h.unique
  rw [map_cons, nodup_cons] at hunique
  exact ⟨hunique.2, fun r hr => h.vnode r (mem_cons_of_mem hr)⟩

theorem not_mem (h : Storable d (row ::ₘ stored)) : row ∉ stored := (nodup_cons.1 h.nodup).1

theorem filter (h : Storable d stored) (p : Row S width → Prop) [DecidablePred p] :
    Storable d (stored.filter p) :=
  ⟨nodup_of_le (map_le_map (filter_le p stored)) h.unique,
    fun row hrow => h.vnode row (mem_of_mem_filter hrow)⟩

end Storable

/-! ## The tables and the cache -/

def JoinHashMapDesc.cachedDegree (d : JoinHashMapDesc S width) (deg : Row S width → Nat)
    (row : Row S width) : Nat :=
  if d.needDegreeTable then deg row else 0

def JoinHashMapDesc.rowsOf [DecidableEq S] (d : JoinHashMapDesc S width)
    (stored : Multiset (Row S width)) (deg : Row S width → Nat) (key : JoinKey S) :
    Multiset (JoinRow (Row S width)) :=
  (stored.filter fun row => d.joinKey row = key).map fun row => ⟨row, d.cachedDegree deg row⟩

/-- The degree table holds the degrees of the rows. -/
def DegreesHold (d : JoinHashMapDesc S width) (stored : Multiset (Row S width))
    (deg : Row S width → Nat) : Option (StateTable (List (Option S) × Nat) Bytes) → Prop
  | some t => d.needDegreeTable = true ∧
      ∀ k v, t[k]? = some v ↔ ∃ row ∈ stored, d.stateDesc.pk row = k ∧ (d.orderKey row, deg row) = v
  | none => d.needDegreeTable = false

variable {t : Option (StateTable (List (Option S) × Nat) Bytes)}

theorem degreesHold_congr {deg deg' : Row S width → Nat} (h : DegreesHold d stored deg t)
    (hdeg : ∀ r ∈ stored, deg r = deg' r) : DegreesHold d stored deg' t := by
  cases t with
  | none => exact h
  | some t =>
    refine ⟨h.1, fun k v => (h.2 k v).trans ?_⟩
    exact exists_congr fun r => and_congr_right fun hr => by rw [hdeg r hr]

theorem degreesHold_of_not_need {deg : Row S width → Nat} (h : DegreesHold d stored deg t)
    (hneed : ¬d.needDegreeTable = true) (deg' : Row S width → Nat) :
    DegreesHold d stored deg' t := by
  cases t with
  | none => exact h
  | some t => exact absurd h.1 hneed

/-- The tables hold the rows with their degrees. -/
structure TablesHold (d : JoinHashMapDesc S width) (stored : Multiset (Row S width))
    (deg : Row S width → Nat) (ht : JoinHashMap S width) : Prop where
  state : ∀ k row, ht.state[k]? = some row ↔ row ∈ stored ∧ d.stateDesc.pk row = k
  degrees : DegreesHold d stored deg ht.degreeState

variable [DecidableEq S]

/-- The tables hold the rows, and the cache the rows of its keys. -/
structure SideHolds (d : JoinHashMapDesc S width) (stored : Multiset (Row S width))
    (deg : Row S width → Nat) (ht : JoinHashMap S width) :
    Prop extends TablesHold d stored deg ht where
  cache : ∀ key wrapper, ht.inner key = some wrapper →
    ∃ entry, wrapper = some entry ∧ EntryOf d entry (d.rowsOf stored deg key)

variable {deg deg' : Row S width → Nat} {ht : JoinHashMap S width} {key : JoinKey S} {build : Build}

theorem rowsOf_nodup (h : Storable d stored) (hd : d.Ok) (deg : Row S width → Nat)
    (key : JoinKey S) :
    ((d.rowsOf stored deg key).map fun v => d.serializePkFromRow v.row).Nodup := by
  rw [rowsOf, map_map]
  refine (h.nodup.filter _).map_on fun r hr r' hr' heq => ?_
  obtain ⟨hmem, hkey⟩ := mem_filter.1 hr
  obtain ⟨hmem', hkey'⟩ := mem_filter.1 hr'
  exact h.eq_of_keys hd hmem hmem' (hkey.trans hkey'.symm) (hd.pkSerializer (length_project ..) heq)

theorem rowsOf_congr (h : ∀ row ∈ stored, d.joinKey row = key → deg row = deg' row) :
    d.rowsOf stored deg key = d.rowsOf stored deg' key := by
  refine map_congr rfl fun row hrow => ?_
  obtain ⟨hmem, hkey⟩ := mem_filter.1 hrow
  rw [cachedDegree, cachedDegree, h row hmem hkey]

theorem rowsOf_cons_self (row : Row S width) (stored : Multiset (Row S width))
    (deg : Row S width → Nat) : d.rowsOf (row ::ₘ stored) deg (d.joinKey row) =
      ⟨row, d.cachedDegree deg row⟩ ::ₘ d.rowsOf stored deg (d.joinKey row) := by
  have hfilter := filter_cons_of_pos (p := fun r => d.joinKey r = d.joinKey row) stored rfl
  rw [rowsOf, hfilter, map_cons]
  rfl

theorem rowsOf_cons_of_ne (h : d.joinKey row ≠ key) (stored : Multiset (Row S width))
    (deg : Row S width → Nat) : d.rowsOf (row ::ₘ stored) deg key = d.rowsOf stored deg key := by
  have hfilter := filter_cons_of_neg (p := fun r => d.joinKey r = key) stored h
  rw [rowsOf, hfilter]
  rfl

/-! ## Fetching -/

theorem mem_rowsWithPrefix (h : TablesHold d stored deg ht) {e : Bytes × Row S width} :
    e ∈ d.rowsWithPrefix ht key ↔ (e.2 ∈ stored ∧ d.stateDesc.pk e.2 = e.1) ∧
      d.joinKey e.2 = key := by
  rw [rowsWithPrefix, List.mem_filter, BTreeMap.mem_toList, h.state, decide_eq_true_iff]

theorem map_rowsWithPrefix (h : TablesHold d stored deg ht) (hs : Storable d stored)
    (key : JoinKey S) :
    (((d.rowsWithPrefix ht key).map (·.2) : List (Row S width)) : Multiset (Row S width)) =
      stored.filter fun row => d.joinKey row = key := by
  have hnodup : ((d.rowsWithPrefix ht key).map (·.2)).Nodup := by
    refine List.Nodup.map_on (fun e he e' he' heq => ?_) ?_
    · have hpk := ((mem_rowsWithPrefix h).1 he).1.2
      have hpk' := ((mem_rowsWithPrefix h).1 he').1.2
      exact Prod.ext (hpk.symm.trans (heq ▸ hpk')) heq
    · exact ((ordered_toList ht.state).filter _).imp fun hlt heq => hlt.ne (congrArg Prod.fst heq)
  refine (Multiset.Nodup.ext (coe_nodup.2 hnodup) (hs.nodup.filter _)).2 fun row => ?_
  rw [mem_coe, List.mem_map, mem_filter]
  constructor
  · rintro ⟨e, he, rfl⟩
    have hmem := (mem_rowsWithPrefix h).1 he
    exact ⟨hmem.1.1, hmem.2⟩
  · rintro ⟨hrow, hkey⟩
    exact ⟨(d.stateDesc.pk row, row), (mem_rowsWithPrefix h).2 ⟨⟨hrow, rfl⟩, hkey⟩, rfl⟩

omit [DecidableEq S] in
theorem take_orderKey (d : JoinHashMapDesc S width) (row : Row S width) :
    (d.orderKey row).take d.joinKeyIndices.length = d.joinKey row := by
  rw [orderKey, Row.project, List.map_append]
  exact List.take_left' (List.length_map _)

variable {t : StateTable (List (Option S) × Nat) Bytes}

theorem degreesWithPrefix_eq (h : TablesHold d stored deg ht)
    (hdegrees : DegreesHold d stored deg (some t)) (key : JoinKey S) :
    d.degreesWithPrefix t key = (d.rowsWithPrefix ht key).map
      fun e => (e.1, (d.orderKey e.2, deg e.2)) := by
  refine eq_of_ordered ((ordered_toList t).filter _) ?_ fun e => ?_
  · exact List.pairwise_map.2 ((ordered_toList ht.state).filter _)
  · rw [List.mem_map, degreesWithPrefix, List.mem_filter, BTreeMap.mem_toList, hdegrees.2,
      decide_eq_true_iff]
    constructor
    · rintro ⟨⟨row, hrow, hpk, hv⟩, hkey⟩
      rw [← hv, take_orderKey] at hkey
      exact ⟨(e.1, row), (mem_rowsWithPrefix h).2 ⟨⟨hrow, hpk⟩, hkey⟩, Prod.ext rfl hv⟩
    · rintro ⟨e', he', rfl⟩
      obtain ⟨⟨hrow, hpk⟩, hkey⟩ := (mem_rowsWithPrefix h).1 he'
      exact ⟨⟨e'.2, hrow, hpk, rfl⟩, (take_orderKey d e'.2).trans hkey⟩

omit [DecidableEq S] in
theorem pairDegrees_eq (rows : List (Bytes × Row S width))
    (f : Bytes × Row S width → List (Option S) × Nat) :
    pairDegrees build rows (rows.map fun e => (e.1, f e)) =
      .ok (rows.map fun e => ⟨e.2, (f e).2⟩) := by
  have hzip : rows.zip (rows.map fun e => (e.1, f e)) = rows.map fun e => (e, (e.1, f e)) := by
    have hmap := List.zip_map' (f := fun e : Bytes × Row S width => e) (g :=
      fun e => (e.1, f e)) (l := rows)
    rwa [List.map_id'] at hmap
  have hall : (rows.map fun e => (e, (e.1, f e))).all (fun x => x.1.1 == x.2.1) = true := by
    simp
  unfold pairDegrees
  rw [hzip, if_neg (by simp), (debugAssert_eq_ok (u := ())).2 fun _ => hall, List.map_map]
  rfl

section
variable (build : Build) (hs : Storable d stored) (key : JoinKey S)
include hs

theorem fetchRows_spec (h : TablesHold d stored deg ht) : ∃ vs, fetchRows build d ht key = .ok vs ∧
      (vs : Multiset (JoinRow (Row S width))) = d.rowsOf stored deg key := by
  have hrows := map_rowsWithPrefix h hs key
  have hvalues (f : Row S width → Nat) (hf : ∀ row, d.cachedDegree deg row = f row) :
      (((d.rowsWithPrefix ht key).map fun e => (⟨e.2, f e.2⟩ : JoinRow (Row S width)) : List _) :
        Multiset _) =
        d.rowsOf stored deg key := by
    rw [rowsOf, ← hrows, map_coe, List.map_map]
    simp only [hf]
    rfl
  have hdegrees := h.degrees
  rw [fetchRows]
  cases hstate : ht.degreeState with
  | some t =>
    rw [hstate] at hdegrees
    rw [if_pos hdegrees.1, unwrap, ok_bind, degreesWithPrefix_eq h hdegrees]
    exact ⟨_, pairDegrees_eq _ _, hvalues deg fun row => if_pos hdegrees.1⟩
  | none =>
    rw [hstate] at hdegrees
    have hneed : ¬d.needDegreeTable = true := Bool.not_eq_true _ ▸ hdegrees
    rw [if_neg hneed]
    exact ⟨_, rfl, hvalues (fun _ => 0) fun row => if_neg hneed⟩

theorem fetchCachedState_spec (h : TablesHold d stored deg ht) (hd : d.Ok) :
    ∃ entry, fetchCachedState build d ht key = .ok entry ∧
      EntryOf d entry (d.rowsOf stored deg key) := by
  obtain ⟨vs, hrun, hvs⟩ := fetchRows_spec build hs key h
  have hnodup : ((0 + (vs : Multiset (JoinRow (Row S width)))).map
      fun v => d.serializePkFromRow v.row).Nodup := by
    rw [zero_add, hvs]
    exact rowsOf_nodup hs hd deg key
  obtain ⟨entry, hfold, hentry⟩ := EntryOf.foldlM_insert build .default hnodup
  rw [zero_add, hvs] at hentry
  exact ⟨entry, by rw [fetchCachedState, hrun, ok_bind, hfold], hentry⟩

theorem takeState_spec (h : SideHolds d stored deg ht) (hd : d.Ok) :
    ∃ entry inner, ht.takeState build d key = .ok (entry, { ht with inner }) ∧
      EntryOf d entry (d.rowsOf stored deg key) ∧ ∀ key' ≠ key, inner key' = ht.inner key' := by
  rw [takeState]
  cases hinner : ht.inner key with
  | some wrapper =>
    obtain ⟨entry, rfl, hentry⟩ := h.cache key wrapper hinner
    exact ⟨entry, Function.update ht.inner key (some none), rfl, hentry,
      fun key' hne => Function.update_of_ne hne ..⟩
  | none =>
    obtain ⟨entry, hrun, hentry⟩ := fetchCachedState_spec build hs key h.toTablesHold hd
    refine ⟨entry, ht.inner, ?_, hentry, fun key' hne => rfl⟩
    rw [hrun]
    rfl

end

/-- What the cache has for the key are its rows. -/
def Caches (d : JoinHashMapDesc S width) (stored : Multiset (Row S width)) (deg : Row S width → Nat)
    (inner : JoinKey S → Option (Option (JoinEntryState (Row S width)))) (key : JoinKey S) : Prop :=
  ∀ wrapper, inner key = some wrapper →
    ∃ entry, wrapper = some entry ∧ EntryOf d entry (d.rowsOf stored deg key)

section
variable {inner : JoinKey S → Option (Option (JoinEntryState (Row S width)))}
  {entry : JoinEntryState (Row S width)}

theorem caches_cons (h : d.joinKey row ≠ key) :
    Caches d (row ::ₘ stored) deg inner key ↔ Caches d stored deg inner key := by
  rw [Caches, Caches, rowsOf_cons_of_ne h]

theorem caches_of_none (hnone : inner key = none)
    (hother : ∀ key' ≠ key, Caches d stored deg inner key') (key' : JoinKey S) :
    Caches d stored deg inner key' := by
  intro wrapper hget
  refine hother key' (fun heq => ?_) wrapper hget
  rw [heq, hnone] at hget
  cases hget

theorem caches_update (hentry : EntryOf d entry (d.rowsOf stored deg key))
    (hother : ∀ key' ≠ key, Caches d stored deg inner key') (key' : JoinKey S) :
    Caches d stored deg (Function.update inner key (some (some entry))) key' := by
  intro wrapper hget
  by_cases hkey : key' = key
  · subst hkey
    rw [Function.update_self] at hget
    exact ⟨entry, (Option.some_inj.1 hget).symm, hentry⟩
  · rw [Function.update_of_ne hkey] at hget
    exact hother key' hkey wrapper hget

theorem updateState_holds {degreeState : Option (StateTable (List (Option S) × Nat) Bytes)}
    (h : SideHolds d stored deg ht) (hinner : ∀ key' ≠ key, inner key' = ht.inner key')
    (hdegrees : DegreesHold d stored deg' degreeState)
    (hentry : EntryOf d entry (d.rowsOf stored deg' key))
    (hdeg : ∀ row ∈ stored, d.joinKey row ≠ key → deg row = deg' row) :
    SideHolds d stored deg' (updateState ⟨inner, ht.state, degreeState⟩ key entry) where
  state := h.state
  degrees := hdegrees
  cache := by
    refine caches_update hentry fun key' hkey => ?_
    have hcache := h.cache key'
    rwa [← hinner key' hkey, rowsOf_congr fun row hrow hkey' => hdeg row hrow (hkey' ▸ hkey)] at hcache

end

theorem SideHolds.evict (h : SideHolds d stored deg ht) (evicted : JoinKey S → Bool) :
    SideHolds d stored deg (ht.evict evicted) where
  state := h.state
  degrees := h.degrees
  cache key wrapper hget := by
    rw [JoinHashMap.evict] at hget
    dsimp only at hget
    split at hget
    · cases hget
    · exact h.cache key wrapper hget

/-! ## Degrees -/

theorem manipulateDegree_spec (hd : d.Ok) (hs : Storable d stored)
    (hdegrees : DegreesHold d stored deg (some t)) (hstate : ht.degreeState = some t)
    (hrow : row ∈ stored) (n : Nat) :
    ∃ t', ht.manipulateDegree d ⟨row, deg row⟩ n = .ok (⟨row, n⟩, { ht with degreeState := some t' }) ∧
      DegreesHold d stored (Function.update deg row n) (some t') := by
  have hget : t[d.stateDesc.pk row]? = some (d.orderKey row, deg row) :=
    (hdegrees.2 _ _).2 ⟨row, hrow, rfl, rfl⟩
  refine ⟨Std.ExtTreeMap.insert t (d.stateDesc.pk row) (d.orderKey row, n), ?_, hdegrees.1,
    fun k v => ?_⟩
  · have hupdate : d.degreeDesc.update t (d.degreeRow ⟨row, deg row⟩) (d.degreeRow ⟨row, n⟩) =
        .ok (Std.ExtTreeMap.insert t (d.stateDesc.pk row) (d.orderKey row, n)) :=
      TableDesc.update_eq_ok rfl (hs.vnode row hrow) hget
    rw [manipulateDegree, hstate, unwrap, ok_bind]
    rw [hupdate, ok_bind]
  · rw [getElem?_insert_eq]
    by_cases hk : d.stateDesc.pk row = k
    · subst hk
      rw [if_pos rfl, Option.some_inj]
      constructor
      · rintro rfl
        exact ⟨row, hrow, rfl, by rw [Function.update_self]⟩
      · rintro ⟨row', hrow', hpk, rfl⟩
        rw [hs.eq_of_pk hd hrow' hrow hpk, Function.update_self]
    · rw [if_neg hk, hdegrees.2]
      refine exists_congr fun row' => and_congr_right fun _ => and_congr_right fun hpk => ?_
      have hne : row' ≠ row := fun heq => hk (heq ▸ hpk)
      rw [Function.update_of_ne hne]

/-! ## Inserting and deleting -/

section

omit [DecidableEq S]

/-- The table holds `f` of each row under the key of the row. -/
def RowsHold {V : Type} (d : JoinHashMapDesc S width) (stored : Multiset (Row S width))
    (f : Row S width → V) (t : StateTable V Bytes) : Prop :=
  ∀ k v, t[k]? = some v ↔ ∃ row ∈ stored, d.stateDesc.pk row = k ∧ f row = v

theorem rowsHold_id {t : StateTable (Row S width) Bytes} : RowsHold d stored id t ↔
    ∀ k row, t[k]? = some row ↔ row ∈ stored ∧ d.stateDesc.pk row = k := by
  simp [RowsHold]

namespace RowsHold

variable {V : Type} {f : Row S width → V} {t : StateTable V Bytes}
  (hs : Storable d (row ::ₘ stored)) (hd : d.Ok)
include hs hd

theorem ne_pk (hrow' : row' ∈ stored) : d.stateDesc.pk row' ≠ d.stateDesc.pk row := fun hpk => by
  have heq := hs.eq_of_pk hd (mem_cons_of_mem hrow') (mem_cons_self row stored) hpk
  exact hs.not_mem (heq ▸ hrow')

theorem getElem?_eq_none (h : RowsHold d stored f t) : t[d.stateDesc.pk row]? = none := by
  rw [Option.eq_none_iff_forall_ne_some]
  intro v hget
  obtain ⟨row', hrow', hpk, -⟩ := (h _ _).1 hget
  exact ne_pk hs hd hrow' hpk

theorem insert (h : RowsHold d stored f t) :
    RowsHold d (row ::ₘ stored) f (Std.ExtTreeMap.insert t (d.stateDesc.pk row) (f row)) := by
  intro k v
  rw [getElem?_insert_eq, exists_mem_cons]
  by_cases hk : d.stateDesc.pk row = k
  · subst hk
    rw [if_pos rfl, or_iff_left fun ⟨row', hrow', hpk, _⟩ => ne_pk hs hd hrow' hpk,
      and_iff_right rfl, Option.some_inj]
  · rw [if_neg hk, or_iff_right fun h => hk h.1, ← h]

theorem erase (h : RowsHold d (row ::ₘ stored) f t) :
    RowsHold d stored f (Std.ExtTreeMap.erase t (d.stateDesc.pk row)) := by
  intro k v
  rw [getElem?_erase_eq]
  by_cases hk : d.stateDesc.pk row = k
  · subst hk
    rw [if_pos rfl]
    exact iff_of_false nofun fun ⟨row', hrow', hpk, _⟩ => ne_pk hs hd hrow' hpk
  · rw [if_neg hk, h, exists_mem_cons, or_iff_right fun h => hk h.1]

end RowsHold

end

variable (build : Build)

theorem insertCached_spec (h : SideHolds d stored deg ht) (hs : Storable d (row ::ₘ stored))
    (hd : d.Ok) :
    ∃ inner, ht.insertCached build d (d.joinKey row) ⟨row, d.cachedDegree deg row⟩ =
      .ok { ht with inner } ∧
      ∀ key, Caches d (row ::ₘ stored) deg inner key := by
  have hnodup := rowsOf_nodup hs hd deg (d.joinKey row)
  rw [rowsOf_cons_self, map_cons, nodup_cons] at hnodup
  -- the entry of the key is the one that is made here, the other ones are as before
  have hother (key : JoinKey S) (hne : key ≠ d.joinKey row) :
      Caches d (row ::ₘ stored) deg ht.inner key :=
    (caches_cons hne.symm).2 (h.cache key)
  rw [insertCached]
  cases hinner : ht.inner (d.joinKey row) with
  | some wrapper =>
    obtain ⟨entry, rfl, hentry⟩ := h.cache _ _ hinner
    obtain ⟨entry', hrun, hentry'⟩ := hentry.insert build
      fun v' hv' heq => hnodup.1 (mem_map.2 ⟨v', hv', heq⟩)
    rw [← rowsOf_cons_self] at hentry'
    refine ⟨_, ?_, caches_update hentry' hother⟩
    dsimp only [unwrap]
    rw [ok_bind, hrun]
    rfl
  | none =>
    by_cases hjk : d.pkContainedInJk = true
    · -- no other row has the join key
      have hempty : d.rowsOf stored deg (d.joinKey row) = 0 := by
        rw [rowsOf, filter_eq_nil.2, map_zero]
        intro row' hrow' hkey
        have heq := hs.eq_of_joinKey hjk (mem_cons_of_mem hrow') (mem_cons_self row stored) hkey
        exact hs.not_mem (heq ▸ hrow')
      obtain ⟨entry', hrun, hentry'⟩ := EntryOf.default.insert build
        fun v' hv' => (notMem_zero _ hv').elim
      rw [← hempty, ← rowsOf_cons_self] at hentry'
      refine ⟨_, ?_, caches_update hentry' hother⟩
      rw [if_pos hjk, hrun]
      rfl
    · exact ⟨ht.inner, if_neg hjk, caches_of_none hinner hother⟩

theorem insert_spec (h : SideHolds d stored deg ht) (hs : Storable d (row ::ₘ stored)) (hd : d.Ok) :
    ∃ ht', ht.insert build d (d.joinKey row) ⟨row, d.cachedDegree deg row⟩ = .ok ht' ∧
      SideHolds d (row ::ₘ stored) deg ht' := by
  obtain ⟨inner, hcached, hcache⟩ := insertCached_spec build h hs hd
  have hrows := rowsHold_id.2 h.state
  have hinsert : d.stateDesc.insert ht.state row =
      .ok (Std.ExtTreeMap.insert ht.state (d.stateDesc.pk row) row) :=
    TableDesc.insert_eq_ok (hs.vnode row (mem_cons_self row stored)) (hrows.getElem?_eq_none hs hd)
  have hstate := rowsHold_id.1 (hrows.insert hs hd)
  rw [JoinHashMap.insert, hcached, ok_bind]
  rw [hinsert]
  have hdegrees := h.degrees
  cases hdegree : ht.degreeState with
  | none =>
    rw [hdegree] at hdegrees
    exact ⟨_, rfl, ⟨⟨hstate, hdegrees⟩, hcache⟩⟩
  | some t =>
    rw [hdegree] at hdegrees
    have hrun : d.degreeDesc.insert t (d.orderKey row, deg row) = .ok _ :=
      TableDesc.insert_eq_ok (hs.vnode row (mem_cons_self row stored))
        (RowsHold.getElem?_eq_none hs hd hdegrees.2)
    refine ⟨⟨inner, _, some _⟩, ?_, ⟨⟨hstate, hdegrees.1, RowsHold.insert hs hd hdegrees.2⟩, hcache⟩⟩
    have hrow : d.degreeRow ⟨row, d.cachedDegree deg row⟩ = (d.orderKey row, deg row) := by
      rw [degreeRow, cachedDegree, if_pos hdegrees.1]
    dsimp only
    rw [hrow, hrun]
    rfl

theorem removeCached_spec (h : SideHolds d (row ::ₘ stored) deg ht) :
    ∃ inner, ht.removeCached build d (d.joinKey row) row = .ok { ht with inner } ∧
      ∀ key, Caches d stored deg inner key := by
  have hother (key : JoinKey S) (hne : key ≠ d.joinKey row) : Caches d stored deg ht.inner key :=
    (caches_cons hne.symm).1 (h.cache key)
  rw [removeCached]
  cases hinner : ht.inner (d.joinKey row) with
  | some wrapper =>
    obtain ⟨entry, rfl, hentry⟩ := h.cache _ _ hinner
    rw [rowsOf_cons_self] at hentry
    obtain ⟨entry', hrun, hentry'⟩ := hentry.remove build
    refine ⟨_, ?_, caches_update hentry' hother⟩
    exact congrArg (· >>= fun entry => .ok (ht.updateState (d.joinKey row) entry)) hrun
  | none => exact ⟨ht.inner, rfl, caches_of_none hinner hother⟩

/-- What both deletions do. -/
def deleteStored (build : Build) (d : JoinHashMapDesc S width) (ht : JoinHashMap S width)
    (row : Row S width) (degree : Nat) : Res (JoinHashMap S width) :=
  if d.needDegreeTable then ht.delete build d (d.joinKey row) ⟨row, degree⟩
  else ht.deleteRow build d (d.joinKey row) row

theorem deleteStored_spec (h : SideHolds d (row ::ₘ stored) deg ht)
    (hs : Storable d (row ::ₘ stored)) (hd : d.Ok) :
    ∃ ht', deleteStored build d ht row (deg row) = .ok ht' ∧ SideHolds d stored deg ht' := by
  have hmem := mem_cons_self row stored
  obtain ⟨inner, hcached, hcache⟩ := removeCached_spec build h
  have hdelete : d.stateDesc.delete ht.state row =
      .ok (Std.ExtTreeMap.erase ht.state (d.stateDesc.pk row)) :=
    TableDesc.delete_eq_ok (hs.vnode row hmem) ((h.state _ _).2 ⟨hmem, rfl⟩)
  have hstate := rowsHold_id.1 (RowsHold.erase hs hd (rowsHold_id.2 h.state))
  have hdegrees := h.degrees
  cases hdegree : ht.degreeState with
  | none =>
    rw [hdegree] at hdegrees
    refine ⟨⟨inner, _, none⟩, ?_, ⟨⟨hstate, hdegrees⟩, hcache⟩⟩
    rw [deleteStored, if_neg (Bool.not_eq_true _ ▸ hdegrees), deleteRow, hcached, ok_bind]
    rw [hdelete, hdegree]
    rfl
  | some t =>
    rw [hdegree] at hdegrees
    have hget : t[d.stateDesc.pk row]? = some (d.orderKey row, deg row) :=
      (hdegrees.2 _ _).2 ⟨row, hmem, rfl, rfl⟩
    have hrun : d.degreeDesc.delete t (d.orderKey row, deg row) = .ok _ :=
      TableDesc.delete_eq_ok (hs.vnode row hmem) hget
    refine ⟨⟨inner, _, some _⟩, ?_, ⟨⟨hstate, hdegrees.1, RowsHold.erase hs hd hdegrees.2⟩, hcache⟩⟩
    have hrow : d.degreeRow ⟨row, deg row⟩ = (d.orderKey row, deg row) := rfl
    rw [deleteStored, if_pos hdegrees.1, delete, hcached, ok_bind]
    rw [hdelete, ok_bind, hdegree, unwrap, ok_bind, hrow, hrun]
    rfl

end Stream
