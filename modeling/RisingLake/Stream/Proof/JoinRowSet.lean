import RisingLake.Stream.JoinRowSet

/-!
# What a `JoinRowSet` holds

The entries are a finite map, up to their order: an insertion adds its entry (`tryInsert_spec`), a
removal takes it away (`remove_spec`), whichever form the set has before and after.
-/

namespace Stream.JoinRowSet

open List SortedMap

variable {K V : Type} [LinearOrder K] {s : JoinRowSet K V} {key : K} {value : V}

theorem nodup (s : JoinRowSet K V) : (s.entries.map (·.1)).Nodup := by
  cases s with
  | btree inner => exact nodup_entries inner
  | vec inner nodup => exact nodup

theorem mem_entries_unique {v v' : V} (h : (key, v) ∈ s.entries) (h' : (key, v') ∈ s.entries) :
    v = v' :=
  (Prod.ext_iff.1 (inj_on_of_nodup_map s.nodup h h' rfl)).2

@[simp] theorem entries_default : (default : JoinRowSet K V).entries = [] := rfl

theorem get_eq_some_iff : s.get key = some value ↔ (key, value) ∈ s.entries := by
  cases s with
  | btree inner => exact get?_eq_some_iff
  | vec inner nodup => exact IterMap.get?_eq_some_iff (m := ⟨inner, nodup⟩)

theorem get_eq_none_iff : s.get key = none ↔ ∀ e ∈ s.entries, e.1 ≠ key := by
  rw [Option.eq_none_iff_forall_ne_some]
  constructor
  · rintro h e he rfl
    exact h e.2 (get_eq_some_iff.2 he)
  · intro h value hget
    exact h _ (get_eq_some_iff.1 hget) rfl

/-! ## Inserting -/

theorem grow_perm (s : JoinRowSet K V) : s.grow.entries.Perm s.entries := by
  cases s with
  | btree inner => exact .refl _
  | vec inner nodup =>
    rw [grow]
    split
    · exact entries_ofList_perm nodup
    · exact .refl _

theorem tryInsert_spec (h : ∀ e ∈ s.entries, e.1 ≠ key) (value : V) :
    ∃ s', s.tryInsert key value = (s', true) ∧ s'.entries.Perm ((key, value) :: s.entries) := by
  have hgrow := s.grow_perm
  have hfresh : ∀ e ∈ s.grow.entries, e.1 ≠ key := fun e he => h e (hgrow.mem_iff.1 he)
  unfold tryInsert
  cases hs : s.grow with
  | btree inner =>
    rw [hs] at hgrow hfresh
    have hnone : inner.get? key = none := lookup_eq_none hfresh
    refine ⟨.btree (inner.insert key value), ?_, ?_⟩
    · dsimp only
      rw [hnone]
      rfl
    · exact (insertEntry_perm hfresh).trans (hgrow.cons _)
  | vec inner nodup =>
    rw [hs] at hgrow hfresh
    have hkey : key ∉ inner.map (·.1) := fun hmem => by
      obtain ⟨e, he, heq⟩ := mem_map.1 hmem
      exact hfresh e he heq
    dsimp only
    rw [push, dif_neg hkey]
    exact ⟨_, rfl, (perm_append_singleton (key, value) inner).trans (hgrow.cons _)⟩

/-! ## Removing -/

theorem eraseKey_perm {es : List (K × V)} (h : SortedMap.Sorted es) (hmem : (key, value) ∈ es) :
    es.Perm ((key, value) :: eraseKey key es) := by
  obtain ⟨es₁, es₂, rfl⟩ := append_of_mem hmem
  obtain ⟨-, h₂, hlt⟩ := sorted_append.1 h
  obtain ⟨hhead, -⟩ := pairwise_cons.1 h₂
  rw [eraseKey_append, eraseKey_of_ne fun e he => (hlt e he _ (.head _)).ne,
    eraseKey_cons_self fun e he => (hhead e he).ne']
  exact perm_middle

variable {e : K × V}

theorem removeAt_spec {inner : List (K × V)} {nodup : (inner.map (·.1)).Nodup} {pos : Nat}
    (h : inner[pos]? = some e) :
    ∃ s', removeAt inner nodup pos = (some e.2, s') ∧ inner.Perm (e :: s'.entries) := by
  unfold removeAt
  split
  · rename_i e' he'
    rw [h, Option.some_inj] at he'
    subst he'
    exact ⟨_, rfl, swapRemove_perm h⟩
  · rename_i hnone
    rw [h] at hnone
    cases hnone

theorem remove_spec (h : (key, value) ∈ s.entries) :
    ∃ s', s.remove key = (some value, s') ∧ s.entries.Perm ((key, value) :: s'.entries) := by
  cases s with
  | btree inner =>
    refine ⟨shrink (inner.erase key), ?_, ?_⟩
    · rw [remove, get?_eq_some_iff.2 h]
    · rw [shrink]
      split <;> exact eraseKey_perm inner.sorted h
  | vec inner nodup =>
    cases hpos : inner.findIdx? (·.1 = key) with
    | none =>
      rw [findIdx?_eq_none_iff] at hpos
      simpa using hpos _ h
    | some pos =>
      obtain ⟨hlt, hkey, -⟩ := findIdx?_eq_some_iff_getElem.1 hpos
      have hentry : inner[pos] = (key, value) :=
        inj_on_of_nodup_map nodup (getElem_mem hlt) h (of_decide_eq_true hkey)
      rw [remove, hpos]
      exact removeAt_spec (List.getElem?_eq_some_iff.2 ⟨hlt, hentry⟩)

theorem remove_fst_of_forall_ne (h : ∀ e ∈ s.entries, e.1 ≠ key) : (s.remove key).1 = none := by
  cases s with
  | btree inner => exact lookup_eq_none h
  | vec inner nodup =>
    have hnone : inner.findIdx? (·.1 = key) = none :=
      findIdx?_eq_none_iff.2 fun e he => decide_eq_false (h e he)
    rw [remove, hnone]

/-! ## Other values -/

theorem entries_withValues {W : Type} (s : JoinRowSet K V) (vs : List W) :
    (s.withValues vs).entries = s.keys.zip vs := by
  cases s <;> rfl

theorem entries_withValues_map {W : Type} (s : JoinRowSet K V) (f : V → W) :
    (s.withValues (s.values.map f)).entries = s.entries.map fun e => (e.1, f e.2) := by
  rw [entries_withValues, keys, values, map_map, zip_map']
  rfl

theorem mem_of_perm_cons {s' : JoinRowSet K V} (h : s.entries.Perm ((key, value) :: s'.entries)) :
    e ∈ s'.entries ↔ e ∈ s.entries ∧ e.1 ≠ key := by
  have hnodup := nodup_cons.1 ((h.map (·.1)).nodup_iff.1 s.nodup)
  rw [h.mem_iff, mem_cons]
  constructor
  · exact fun he => ⟨.inr he, fun hkey => hnodup.1 (mem_map.2 ⟨e, he, hkey⟩)⟩
  · rintro ⟨rfl | he, hne⟩
    · exact absurd rfl hne
    · exact he

theorem mem_replace (h : ∃ v, (key, v) ∈ s.entries) :
    e ∈ (s.replace key value).entries ↔ e = (key, value) ∨ e ∈ s.entries ∧ e.1 ≠ key := by
  have hentries : (s.replace key value).entries =
      s.entries.map fun e => (e.1, if e.1 = key then value else e.2) := by
    rw [replace, entries_withValues, keys, zip_map']
  obtain ⟨v, hv⟩ := h
  rw [hentries, mem_map]
  constructor
  · rintro ⟨e', he', rfl⟩
    by_cases hkey : e'.1 = key
    · rw [if_pos hkey, hkey]
      exact .inl rfl
    · rw [if_neg hkey]
      exact .inr ⟨he', hkey⟩
  · rintro (rfl | ⟨he, hne⟩)
    · exact ⟨(key, v), hv, by rw [if_pos rfl]⟩
    · exact ⟨e, he, by rw [if_neg hne]⟩

/-! ## The closest entry -/

variable {es : List (K × V)}

/-- The entry found has the least key, or there is none. -/
def Least (le : K → K → Prop) (es : List (K × V)) : Option (K × V) → Prop
  | some e => e ∈ es ∧ ∀ e' ∈ es, le e.1 e'.1
  | none => es = []

theorem least_minEntry (es : List (K × V)) : Least (· ≤ ·) es (minEntry es) := by
  cases hmin : minEntry es with
  | none => exact argmin_eq_none.1 hmin
  | some e => exact ⟨argmin_mem hmin, fun e' he' => le_of_mem_argmin he' hmin⟩

theorem least_head? (hs : SortedMap.Sorted es) : Least (· ≤ ·) es es.head? := by
  cases es with
  | nil => rfl
  | cons e es =>
    refine ⟨.head _, forall_mem_cons.2 ⟨le_rfl, fun e' he' => ?_⟩⟩
    exact ((pairwise_cons.1 hs).1 e' he').le

theorem least_getLast? (hs : SortedMap.Sorted es) : Least (· ≥ ·) es es.getLast? := by
  rcases eq_nil_or_concat' es with rfl | ⟨es, e, rfl⟩
  · rfl
  obtain ⟨-, -, hlt⟩ := sorted_append.1 hs
  rw [getLast?_concat]
  exact ⟨by simp, forall_mem_append.2 ⟨fun e' he' => (hlt e' he' e (.head _)).le, by simp⟩⟩

theorem lowerBound_least (s : JoinRowSet K V) (bound : Bound K) :
    Least (· ≤ ·) (s.entries.filter fun e => bound.aboveStart e.1) (s.lowerBound bound) := by
  cases s with
  | btree inner =>
    rw [lowerBound, ← head?_filter]
    exact least_head? (inner.sorted.filter _)
  | vec inner nodup =>
    simp only [lowerBound, Bound.contains, Bound.belowEnd, Bool.and_true]
    exact least_minEntry _

theorem upperBound_least (s : JoinRowSet K V) (bound : Bound K) :
    Least (· ≥ ·) (s.entries.filter fun e => bound.belowEnd e.1) (s.upperBound bound) := by
  cases s with
  | btree inner => exact least_getLast? (inner.sorted.filter _)
  | vec inner nodup =>
    simp only [upperBound, Bound.contains, Bound.aboveStart, Bool.true_and]
    exact least_minEntry (K := Kᵒᵈ) _

theorem firstKeySorted_least (s : JoinRowSet K V) :
    ∃ first, s.firstKeySorted = first.map (·.1) ∧ Least (· ≤ ·) s.entries first := by
  cases s with
  | btree inner => exact ⟨_, rfl, least_head? inner.sorted⟩
  | vec inner nodup => exact ⟨_, rfl, least_minEntry inner⟩

end Stream.JoinRowSet
