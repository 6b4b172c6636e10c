import RisingLake.Stream.JoinHashMap
import RisingLake.Stream.Proof.JoinRowSet

/-!
# What a `JoinEntryState` holds

An entry holds a bag of rows with different primary keys (`EntryOf`): each row is cached under its
primary key, and the index has the primary keys under the values of the inequality column.
Insertions and removals keep it, and do not fail; the lookups of an AS OF join find the closest row.
-/

namespace Stream

open Res Multiset JoinRowSet

variable {S : Type} {width : Nat}

namespace JoinEntryState

variable {R : Type} {build : Build} {s : JoinEntryState R} {pk inequalityKey : Bytes}

/-- The index has the primary key `pk` under the inequality key `k` where `P k pk` holds. -/
structure IndexOf (index : JoinRowSet Bytes (JoinRowSet Bytes Unit)) (P : Bytes → Bytes → Prop) :
    Prop where
  nonempty : ∀ {e}, e ∈ index.entries → e.2.entries ≠ []
  mem : ∀ {k pk}, (∃ pkSet, (k, pkSet) ∈ index.entries ∧ (pk, ()) ∈ pkSet.entries) ↔ P k pk

variable {P : Bytes → Bytes → Prop} {index index' : JoinRowSet Bytes (JoinRowSet Bytes Unit)}
  {pkSet : JoinRowSet Bytes Unit}

theorem IndexOf.mem_pkSet (h : IndexOf index P) (hmem : (inequalityKey, pkSet) ∈ index.entries)
    (pk : Bytes) : (pk, ()) ∈ pkSet.entries ↔ P inequalityKey pk := by
  rw [← h.mem]
  refine ⟨fun hpk => ⟨pkSet, hmem, hpk⟩, ?_⟩
  rintro ⟨pkSet', hmem', hpk⟩
  exact mem_entries_unique hmem hmem' ▸ hpk

theorem IndexOf.congr {Q : Bytes → Bytes → Prop} (h : IndexOf index P)
    (hPQ : ∀ k pk, P k pk ↔ Q k pk) : IndexOf index Q :=
  ⟨h.nonempty, h.mem.trans (hPQ _ _)⟩

theorem IndexOf.replace {Q : Bytes → Bytes → Prop} (h : IndexOf index P) (inequalityKey : Bytes)
    (pkSet : JoinRowSet Bytes Unit)
    (hentries : ∀ e, e ∈ index'.entries ↔
      pkSet.entries ≠ [] ∧ e = (inequalityKey, pkSet) ∨ e ∈ index.entries ∧ e.1 ≠ inequalityKey)
    (hsame : ∀ pk, (pk, ()) ∈ pkSet.entries ↔ Q inequalityKey pk)
    (hother : ∀ k pk, k ≠ inequalityKey → (P k pk ↔ Q k pk)) : IndexOf index' Q := by
  refine ⟨fun {e} he => ?_, fun {k pk} => ⟨?_, fun hQ => ?_⟩⟩
  · rcases (hentries e).1 he with ⟨hne, rfl⟩ | ⟨he, -⟩
    · exact hne
    · exact h.nonempty he
  · rintro ⟨pkSet', he, hpk⟩
    rcases (hentries _).1 he with ⟨-, heq⟩ | ⟨he, hk⟩
    · cases heq
      exact (hsame pk).1 hpk
    · exact (hother k pk hk).1 (h.mem.1 ⟨pkSet', he, hpk⟩)
  · by_cases hk : k = inequalityKey
    · subst hk
      have hpk := (hsame pk).2 hQ
      exact ⟨pkSet, (hentries _).2 (.inl ⟨List.ne_nil_of_mem hpk, rfl⟩), hpk⟩
    · obtain ⟨pkSet', he, hpk⟩ := h.mem.2 ((hother k pk hk).2 hQ)
      exact ⟨pkSet', (hentries _).2 (.inr ⟨he, hk⟩), hpk⟩

theorem forall_ne_of_not_mem (h : (pk, ()) ∉ pkSet.entries) : ∀ e ∈ pkSet.entries, e.1 ≠ pk := by
  rintro ⟨k, ⟨⟩⟩ he rfl
  exact h he

section
variable (build : Build) (h : IndexOf s.inequalityIndex P)
include h

theorem insertPkToInequalityIndex_spec (hfresh : ¬P inequalityKey pk) :
    ∃ index, s.insertPkToInequalityIndex build pk inequalityKey =
      .ok { s with inequalityIndex := index } ∧
      IndexOf index fun k pk' => k = inequalityKey ∧ pk' = pk ∨ P k pk' := by
  have hother k pk' (hk : k ≠ inequalityKey) : P k pk' ↔ k = inequalityKey ∧ pk' = pk ∨
    P k pk' := by simp [hk]
  cases hget : s.inequalityIndex.get inequalityKey with
  | some pkSet =>
    have hmem := get_eq_some_iff.1 hget
    have hpks := h.mem_pkSet hmem
    obtain ⟨pkSet', hinsert, hperm⟩ :=
      tryInsert_spec (forall_ne_of_not_mem fun hpk => hfresh ((hpks pk).1 hpk)) ()
    have hne : pkSet'.entries ≠ [] := List.ne_nil_of_mem (hperm.mem_iff.2 (.head _))
    refine ⟨s.inequalityIndex.replace inequalityKey pkSet', ?_,
      h.replace inequalityKey pkSet' (fun e => ?_) (fun pk' => ?_) hother⟩
    · rw [insertPkToInequalityIndex, hget]
      dsimp only
      rw [hinsert]
      rfl
    · rw [mem_replace ⟨pkSet, hmem⟩, and_iff_right hne]
    · rw [hperm.mem_iff, List.mem_cons, hpks, Prod.mk.injEq, and_iff_left rfl, and_iff_right rfl]
  | none =>
    have hfree := get_eq_none_iff.1 hget
    have hnone pk' : ¬P inequalityKey pk' := fun hP => by
      obtain ⟨pkSet, hmem, -⟩ := h.mem.2 hP
      exact hfree _ hmem rfl
    have hempty : ∀ e ∈ (JoinRowSet.default : JoinRowSet Bytes Unit).entries, e.1 ≠ pk := nofun
    obtain ⟨pkSet, hinsert, hperm⟩ := tryInsert_spec hempty ()
    obtain ⟨index, hindex, hperm'⟩ := tryInsert_spec hfree pkSet
    have hne : pkSet.entries ≠ [] := List.ne_nil_of_mem (hperm.mem_iff.2 (.head _))
    refine ⟨index, ?_, h.replace inequalityKey pkSet (fun e => ?_) (fun pk' => ?_) hother⟩
    · rw [insertPkToInequalityIndex, hget]
      dsimp only
      rw [hinsert, hindex]
      rfl
    · rw [hperm'.mem_iff, List.mem_cons, and_iff_right hne]
      exact or_congr_right ⟨fun he => ⟨he, hfree e he⟩, fun he => he.1⟩
    · rw [hperm.mem_iff, List.mem_cons, Prod.mk.injEq]
      simp [hnone]

theorem removePkFromInequalityIndex_spec (hP : P inequalityKey pk) :
    ∃ index, s.removePkFromInequalityIndex build pk inequalityKey =
      .ok { s with inequalityIndex := index } ∧
      IndexOf index fun k pk' => P k pk' ∧ ¬(k = inequalityKey ∧ pk' = pk) := by
  obtain ⟨pkSet, hmem, hpk⟩ := h.mem.2 hP
  obtain ⟨pkSet', hremove, hperm⟩ := remove_spec hpk
  have hrun : s.removePkFromInequalityIndex build pk inequalityKey = .ok ⟨s.cached,
      if pkSet'.entries =
        [] then ((s.inequalityIndex.replace inequalityKey pkSet').remove inequalityKey).2
      else s.inequalityIndex.replace inequalityKey pkSet'⟩ := by
    rw [removePkFromInequalityIndex, get_eq_some_iff.2 hmem]
    dsimp only
    rw [hremove, ← if_congr List.isEmpty_iff rfl rfl]
    rfl
  refine ⟨_, hrun, h.replace inequalityKey pkSet' (fun e => ?_) (fun pk' => ?_)
    fun k pk' hk => by simp [hk]⟩
  · by_cases hempty : pkSet'.entries = []
    · rw [if_pos hempty]
      have hreplaced :
          (inequalityKey, pkSet') ∈ (s.inequalityIndex.replace inequalityKey pkSet').entries :=
        (mem_replace ⟨pkSet, hmem⟩).2 (.inl rfl)
      obtain ⟨index, hindex, hperm'⟩ := remove_spec hreplaced
      rw [hindex, mem_of_perm_cons hperm', mem_replace ⟨pkSet, hmem⟩]
      constructor
      · rintro ⟨rfl | he, hne⟩
        · exact absurd rfl hne
        · exact .inr he
      · rintro (⟨hne, -⟩ | he)
        · exact absurd hempty hne
        · exact ⟨.inr he, he.2⟩
    · rw [if_neg hempty, mem_replace ⟨pkSet, hmem⟩, and_iff_right hempty]
  · rw [mem_of_perm_cons hperm, h.mem_pkSet hmem, and_iff_right rfl]

/-! The primary key of a row that has an inequality key, and nothing for one that has none. -/

variable {key? : Option Bytes}

theorem insertToIndex_spec (hfresh : ∀ k, key? = some k → ¬P k pk) :
    ∃ index, s.insertToIndex build pk key? = .ok { s with inequalityIndex := index } ∧
      IndexOf index fun k pk' => key? = some k ∧ pk' = pk ∨ P k pk' := by
  cases key? with
  | some k =>
    obtain ⟨index, hrun, hindex⟩ := insertPkToInequalityIndex_spec build h (hfresh k rfl)
    refine ⟨index, hrun, hindex.congr fun k' pk' => ?_⟩
    rw [Option.some_inj, eq_comm]
  | none => exact ⟨s.inequalityIndex, rfl, h.congr fun k' pk' => by simp⟩

theorem removeFromIndex_spec (hP : ∀ k, key? = some k → P k pk) :
    ∃ index, s.removeFromIndex build pk key? = .ok { s with inequalityIndex := index } ∧
      IndexOf index fun k pk' => P k pk' ∧ ¬(key? = some k ∧ pk' = pk) := by
  cases key? with
  | some k =>
    obtain ⟨index, hrun, hindex⟩ := removePkFromInequalityIndex_spec build h (hP k rfl)
    refine ⟨index, hrun, hindex.congr fun k' pk' => ?_⟩
    rw [Option.some_inj, eq_comm]
  | none => exact ⟨s.inequalityIndex, rfl, h.congr fun k' pk' => by simp⟩

end

theorem removeExisting_eq (h : ∀ e ∈ s.cached.entries, e.1 ≠ pk) :
    s.removeExisting build pk key? = .ok (s, false) := by
  have hremove := remove_fst_of_forall_ne h
  unfold removeExisting
  split
  · rfl
  · cases hr : s.cached.remove pk with
    | mk removed cached =>
      rw [hr] at hremove
      cases hremove
      rfl

theorem insert_spec (build : Build) (h : IndexOf s.inequalityIndex P)
    (hkey : ∀ e ∈ s.cached.entries, e.1 ≠ pk) (hfresh : ∀ k, key? = some k → ¬P k pk)
    (value : JoinRow R) :
    ∃ s', s.insert build pk value key? = .ok s' ∧
      s'.cached.entries.Perm ((pk, value) :: s.cached.entries) ∧
      IndexOf s'.inequalityIndex fun k pk' => key? = some k ∧ pk' = pk ∨ P k pk' := by
  obtain ⟨index, hindex, hof⟩ := insertToIndex_spec build h hfresh
  obtain ⟨cached, hinsert, hperm⟩ := tryInsert_spec hkey value
  refine ⟨⟨cached, index⟩, ?_, hperm, hof⟩
  rw [insert, removeExisting_eq hkey, ok_bind]
  dsimp only
  rw [hindex, ok_bind]
  rw [hinsert]
  split <;> rfl

theorem remove_spec (build : Build) {value : JoinRow R} (h : IndexOf s.inequalityIndex P)
    (hmem : (pk, value) ∈ s.cached.entries) (hP : ∀ k, key? = some k → P k pk) :
    ∃ s', s.remove build pk key? = .ok s' ∧
      s.cached.entries.Perm ((pk, value) :: s'.cached.entries) ∧
      IndexOf s'.inequalityIndex fun k pk' => P k pk' ∧ ¬(key? = some k ∧ pk' = pk) := by
  obtain ⟨cached, hremove, hperm⟩ := JoinRowSet.remove_spec hmem
  obtain ⟨index, hindex, hof⟩ := removeFromIndex_spec build (s := { s with cached }) h hP
  refine ⟨⟨cached, index⟩, ?_, hperm, hof⟩
  rw [remove, hremove]
  exact hindex

end JoinEntryState

/-! ## The rows of an entry -/

/-- The entry holds the rows. -/
structure EntryOf (d : JoinHashMapDesc S width) (entry : JoinEntryState (Row S width))
    (rows : Multiset (JoinRow (Row S width))) : Prop where
  cached : (entry.cached.entries : Multiset (Bytes × JoinRow (Row S width))) =
    rows.map fun v => (d.serializePkFromRow v.row, v)
  index : JoinEntryState.IndexOf entry.inequalityIndex fun k pk =>
    ∃ v ∈ rows, d.inequalityKeyOf v.row = some k ∧ d.serializePkFromRow v.row = pk

theorem exists_mem_cons {α : Type} {a : α} {s : Multiset α} {p : α → Prop} :
    (∃ b ∈ a ::ₘ s, p b) ↔ p a ∨ ∃ b ∈ s, p b := by simp only [mem_cons, exists_eq_or_imp]

namespace EntryOf

variable {build : Build} {d : JoinHashMapDesc S width} {entry : JoinEntryState (Row S width)}
  {rows : Multiset (JoinRow (Row S width))} {v : JoinRow (Row S width)}

theorem default : EntryOf d .default 0 where
  cached := rfl
  index := by
    refine ⟨fun he => (List.not_mem_nil he).elim, ⟨?_, ?_⟩⟩
    · rintro ⟨_, he, -⟩
      exact (List.not_mem_nil he).elim
    · rintro ⟨_, hv, -⟩
      exact (notMem_zero _ hv).elim

theorem mem_entries (h : EntryOf d entry rows) {e : Bytes × JoinRow (Row S width)} :
    e ∈ entry.cached.entries ↔ ∃ v ∈ rows, (d.serializePkFromRow v.row, v) = e := by
  rw [← mem_coe, h.cached, mem_map]

theorem values (h : EntryOf d entry rows) :
    (entry.cached.values : Multiset (JoinRow (Row S width))) = rows := by
  rw [JoinRowSet.values, ← map_coe, h.cached, map_map]
  exact map_id' rows

theorem nodup (h : EntryOf d entry rows) :
    (rows.map fun v => d.serializePkFromRow v.row).Nodup := by
  have hkeys := coe_nodup.2 entry.cached.nodup
  rwa [← map_coe, h.cached, map_map] at hkeys

theorem insert (h : EntryOf d entry rows) (build : Build)
    (hfresh : ∀ v' ∈ rows, d.serializePkFromRow v'.row ≠ d.serializePkFromRow v.row) :
    ∃ entry', JoinHashMap.insertFetched build d entry v = .ok entry' ∧
      EntryOf d entry' (v ::ₘ rows) := by
  have hkey : ∀ e ∈ entry.cached.entries, e.1 ≠ d.serializePkFromRow v.row := fun e he => by
    obtain ⟨v', hv', rfl⟩ := h.mem_entries.1 he
    exact hfresh v' hv'
  have hindex k (_ : d.inequalityKeyOf v.row = some k) : ¬∃ v' ∈ rows,
      d.inequalityKeyOf v'.row = some k ∧ d.serializePkFromRow v'.row =
        d.serializePkFromRow v.row := by
    rintro ⟨v', hv', -, heq⟩
    exact hfresh v' hv' heq
  obtain ⟨entry', hrun, hperm, hof⟩ := JoinEntryState.insert_spec build h.index hkey hindex v
  refine ⟨entry', hrun, ?_, hof.congr fun k pk => ?_⟩
  · rw [coe_eq_coe.2 hperm, ← cons_coe, h.cached, map_cons]
  · rw [exists_mem_cons, eq_comm (a := pk)]

theorem remove (h : EntryOf d entry (v ::ₘ rows)) (build : Build) :
    ∃ entry', entry.remove build (d.serializePkFromRow v.row) (d.inequalityKeyOf v.row) = .ok entry' ∧
      EntryOf d entry' rows := by
  have hmem : (d.serializePkFromRow v.row, v) ∈ entry.cached.entries :=
    h.mem_entries.2 ⟨v, mem_cons_self v rows, rfl⟩
  have hnodup := h.nodup
  rw [map_cons, nodup_cons] at hnodup
  obtain ⟨entry', hrun, hperm, hof⟩ := JoinEntryState.remove_spec build h.index hmem
    fun k hk => ⟨v, mem_cons_self v rows, hk, rfl⟩
  refine ⟨entry', hrun, ?_, hof.congr fun k pk => ?_⟩
  · have hcached := h.cached
    rw [coe_eq_coe.2 hperm, map_cons] at hcached
    exact (cons_inj_right _).1 hcached
  · rw [exists_mem_cons]
    constructor
    · rintro ⟨⟨hk, rfl⟩ | hv, hne⟩
      · exact absurd ⟨hk, rfl⟩ hne
      · exact hv
    · rintro ⟨v', hv', hk, rfl⟩
      exact ⟨.inr ⟨v', hv', hk, rfl⟩, fun heq => hnodup.1 (mem_map.2 ⟨v', hv', heq.2⟩)⟩

theorem withValues (h : EntryOf d entry rows) {f : JoinRow (Row S width) → JoinRow (Row S width)}
    (hf : ∀ v, (f v).row = v.row) :
    EntryOf d { entry with cached := entry.cached.withValues (entry.cached.values.map f) }
      (rows.map f) := by
  constructor
  · rw [entries_withValues_map, ← map_coe, h.cached, map_map, map_map]
    exact map_congr rfl fun v _ => by simp [hf]
  · refine h.index.congr fun k pk => ?_
    simp [hf]

theorem foldlM_insert (build : Build) :
    ∀ {vs : List (JoinRow (Row S width))} {entry : JoinEntryState (Row S width)}
      {rows : Multiset (JoinRow (Row S width))}, EntryOf d entry rows →
    ((rows + vs).map fun v => d.serializePkFromRow v.row).Nodup →
    ∃ entry', vs.foldlM (JoinHashMap.insertFetched build d) entry = .ok entry' ∧
      EntryOf d entry' (rows + vs)
  | [], entry, rows, h, _ => ⟨entry, rfl, by rwa [coe_nil, add_zero]⟩
  | v :: vs, entry, rows, h, hnodup => by
    have hcons : rows + ((v :: vs : List _) : Multiset (JoinRow (Row S width))) =
        v ::ₘ rows + vs := by
      rw [← cons_coe, add_cons, cons_add]
    rw [hcons] at hnodup ⊢
    have hfresh : ∀ v' ∈ rows, d.serializePkFromRow v'.row ≠ d.serializePkFromRow v.row :=
      fun v' hv' heq => by
      rw [cons_add, map_cons, nodup_cons] at hnodup
      exact hnodup.1 (mem_map.2 ⟨v', mem_add.2 (.inl hv'), heq⟩)
    obtain ⟨entry₁, hrun, h₁⟩ := h.insert build hfresh
    obtain ⟨entry', hruns, h'⟩ := foldlM_insert build h₁ hnodup
    exact ⟨entry', by rw [List.foldlM_cons, hrun, ok_bind, hruns], h'⟩

/-! ## The lookups of an AS OF join -/

/-- A row of the closest inequality key within a bound, and of the smallest primary key with it; or
no row is within the bound. -/
def AsOf (d : JoinHashMapDesc S width) (rows : Multiset (JoinRow (Row S width)))
    (within : Bytes → Bool) (le : Bytes → Bytes → Prop) : Option (JoinRow (Row S width)) → Prop
  | some v => v ∈ rows ∧ ∃ k, d.inequalityKeyOf v.row = some k ∧ within k ∧
      ∀ v' ∈ rows, ∀ k', d.inequalityKeyOf v'.row = some k' → within k' →
        le k k' ∧ (k' = k → d.serializePkFromRow v.row ≤ d.serializePkFromRow v'.row)
  | none => ∀ v ∈ rows, ∀ k, d.inequalityKeyOf v.row = some k → ¬within k

variable {within : Bytes → Bool} {le : Bytes → Bytes → Prop} {e : Bytes × JoinRowSet Bytes Unit}
  {found : Option (Bytes × JoinRowSet Bytes Unit)}

section
variable (h : EntryOf d entry rows) (build : Build)
include h

theorem firstOf (he : e ∈ entry.inequalityIndex.entries) :
    ∃ v ∈ rows, entry.firstOf build e.2 = .ok (some v) ∧ d.inequalityKeyOf v.row = some e.1 ∧
      ∀ v' ∈ rows, d.inequalityKeyOf v'.row = some e.1 →
        d.serializePkFromRow v.row ≤ d.serializePkFromRow v'.row := by
  have hpks := h.index.mem_pkSet he
  obtain ⟨_ | first, hfirst, hleast⟩ := e.2.firstKeySorted_least
  · exact absurd hleast (h.index.nonempty he)
  obtain ⟨v, hv, hk, hpk⟩ := (hpks first.1).1 hleast.1
  have hget := get_eq_some_iff.2 (h.mem_entries.2 ⟨v, hv, rfl⟩)
  refine ⟨v, hv, ?_, hk, fun v' hv' hk' => ?_⟩
  · rw [JoinEntryState.firstOf, hfirst, Option.map, ← hpk]
    dsimp only
    rw [JoinEntryState.getByIndexedPk, hget]
  · rw [hpk]
    exact hleast.2 _ ((hpks _).2 ⟨v', hv', hk', rfl⟩)

theorem asOf_of_least
    (hleast : Least le (entry.inequalityIndex.entries.filter fun e => within e.1) found) :
    ∃ r, (match found with | some (_, pkSet) => entry.firstOf build pkSet | none => .ok none) = .ok r ∧
      AsOf d rows within le r := by
  cases found with
  | none =>
    refine ⟨none, rfl, fun v hv k hk => ?_⟩
    obtain ⟨pkSet, he, -⟩ := h.index.mem.2 ⟨v, hv, hk, rfl⟩
    exact List.filter_eq_nil_iff.1 hleast _ he
  | some e =>
    obtain ⟨he, hwithin⟩ := List.mem_filter.1 hleast.1
    obtain ⟨v, hv, hrun, hk, hfirst⟩ := h.firstOf build he
    refine ⟨some v, hrun, hv, e.1, hk, hwithin, fun v' hv' k' hk' hwithin' => ⟨?_, ?_⟩⟩
    · obtain ⟨pkSet, he', -⟩ := h.index.mem.2 ⟨v', hv', hk', rfl⟩
      exact hleast.2 _ (List.mem_filter.2 ⟨he', hwithin'⟩)
    · rintro rfl
      exact hfirst v' hv' hk'

/-- **The lookups of an AS OF join** find the closest row, and do not fail. -/
theorem lookups_asOf (bound : Bound Bytes) :
    (∃ r, entry.lowerBoundByInequality build bound = .ok r ∧ AsOf d rows bound.aboveStart (· ≤ ·) r) ∧
    ∃ r, entry.upperBoundByInequality build bound = .ok r ∧ AsOf d rows bound.belowEnd (· ≥ ·) r :=
  ⟨h.asOf_of_least build (lowerBound_least ..), h.asOf_of_least build (upperBound_least ..)⟩

end

/-- Rows of a primary key and an inequality key. -/
def keyedRows : JoinHashMapDesc U8 2 where
  joinKeyIndices := []
  inputPkIndices := [0]
  pkIndices := [0]
  pkSerializer := List.reduceOption
  tableSerializer := List.reduceOption
  vnodeByPk _ := 0
  vnodes := []
  nodup := .nil
  nullMatched := []
  inequalityKey := some (1, List.reduceOption)
  needDegreeTable := false

/-- Of rows with the inequality keys 2, 3, 3 and 9, the one found up to 5 has the key 3 and the
smaller primary key. -/
theorem lookups_asOf_inserted :
    let row (pk key : U8) : JoinRow (Row U8 2) := ⟨#v[some pk, some key], 0⟩
    ∃ entry, EntryOf keyedRows entry {row 2 3, row 4 9, row 3 3, row 1 2} ∧
      entry.upperBoundByInequality ⟨true, true⟩ (.included [5]) = .ok (some (row 2 3)) := by
  intro row
  obtain ⟨entry₁, -, h₁⟩ :=
    (default : EntryOf keyedRows .default 0).insert (v := row 1 2) ⟨true, true⟩ (by simp)
  obtain ⟨entry₂, -, h₂⟩ := h₁.insert (v := row 3 3) ⟨true, true⟩ (by decide +kernel)
  obtain ⟨entry₃, -, h₃⟩ := h₂.insert (v := row 4 9) ⟨true, true⟩ (by decide +kernel)
  obtain ⟨entry, -, h⟩ := h₃.insert (v := row 2 3) ⟨true, true⟩ (by decide +kernel)
  obtain ⟨r, hrun, hasOf⟩ := (lookups_asOf h ⟨true, true⟩ (.included [5])).2
  refine ⟨entry, h, ?_⟩
  rw [hrun]
  have hmem : row 2 3 ∈ row 2 3 ::ₘ row 4 9 ::ₘ row 3 3 ::ₘ row 1 2 ::ₘ 0 := mem_cons_self _ _
  cases r with
  | none => exact absurd rfl (hasOf _ hmem [3] rfl)
  | some v =>
    obtain ⟨hv, k, hk, hwithin, hclosest⟩ := hasOf
    have hfirst := hclosest _ hmem [3] rfl rfl
    simp only [mem_cons, notMem_zero, or_false] at hv
    rcases hv with rfl | rfl | rfl | rfl <;> cases hk
    · rfl
    · exact absurd hwithin (by decide +kernel)
    · exact absurd (hfirst.2 rfl) (by decide +kernel)
    · exact absurd hfirst.1 (by decide +kernel)

end EntryOf

end Stream
