import RisingLake.Lib.Runs
import RisingLake.Stream.Proof.TopNRefill

/-!
# The cache of a top-N with ties

Without an offset the middle is followed by `high`, and what is beyond it in the table
(`HoldsTies`). The parts are never cut between two rows of one sort key: the middle ends with all
the ties of its last row, of which fewer than `limit` rows come before, and so does `high`.
-/

namespace Stream.TopNCache

open Res SortedMap List

variable {V : Type} {limit : Nat} {T rest : Rows V} {c : TopNCache V} {cache table : Cache V}

/-! ## Sort keys -/

variable {k : CacheKey} {k' : CacheKey}

theorem sortKey_le_of_lt (h : k < k') : k.sortKey ≤ k'.sortKey := Prod.Lex.monotone_fst _ _ h.le

theorem lt_of_sortKey_lt (h : k.sortKey < k'.sortKey) : k < k' := Prod.Lex.lt_iff.2 (.inl h)

theorem bound_le_iff {sortKey : Bytes} : toLex (sortKey, []) ≤ k ↔ sortKey ≤ k.sortKey := by
  rw [Prod.Lex.le_iff]
  constructor
  · rintro (h | ⟨h, -⟩)
    · exact h.le
    · exact h.le
  · intro h
    rcases h.lt_or_eq with h | h
    · exact .inl h
    · exact .inr ⟨h, not_lt.1 (not_lt_nil _)⟩

/-- Every row of `es` comes before every row of `es'` by the sort key. -/
def Apart (es es' : Rows V) : Prop := ∀ e ∈ es, ∀ e' ∈ es', e.1.sortKey < e'.1.sortKey

variable {es₁ es₂ : Rows V} {es : Rows V}

theorem apart_append_left : Apart (es₁ ++ es₂) es ↔ Apart es₁ es ∧ Apart es₂ es := by
  unfold Apart
  simp only [mem_append, or_imp, forall_and]

theorem apart_append_right : Apart es (es₁ ++ es₂) ↔ Apart es es₁ ∧ Apart es es₂ := by
  unfold Apart
  simp only [mem_append, or_imp, forall_and]

theorem Apart.mono {es₁' es₂' : Rows V} (h : Apart es₁ es₂) (h₁ : ∀ e ∈ es₁', e ∈ es₁)
    (h₂ : ∀ e ∈ es₂', e ∈ es₂) : Apart es₁' es₂' :=
  fun e he e' he' => h e (h₁ e he) e' (h₂ e' he')

theorem apart_nil_right (es : Rows V) : Apart es [] := nofun

/-- Rows that end with the ties of one sort key, after which no row has it. -/
structure EndsWith (es before ties : Rows V) (sortKey : Bytes) : Prop where
  split : es = before ++ ties
  before_lt : ∀ e ∈ before, e.1.sortKey < sortKey
  ties_eq : ∀ e ∈ ties, e.1.sortKey = sortKey

variable {last : CacheKey × V}

theorem exists_endsWith (h : Sorted es) (hlast : es.getLast? = some last) :
    ∃ before ties, EndsWith es before ties last.1.sortKey ∧ ties ≠ [] := by
  obtain ⟨part, rfl⟩ := getLast?_eq_some_iff.1 hlast
  have hsplit :=
    Runs.filter_append_filter_not (q := fun e : CacheKey × V => e.1.sortKey < last.1.sortKey)
    (h.imp fun hlt hy => decide_eq_true ((sortKey_le_of_lt hlt).trans_lt (of_decide_eq_true hy)))
  refine ⟨_, _, ⟨hsplit.symm, fun e he => of_decide_eq_true (mem_filter.1 he).2, fun e he => ?_⟩, ?_⟩
  · obtain ⟨he, hge⟩ := mem_filter.1 he
    exact le_antisymm (Prod.Lex.monotone_fst _ _ (le_last h e he)) (by simpa using hge)
  · exact ne_nil_of_mem (mem_filter.2 ⟨mem_append_right part (.head _), by simp⟩)

variable {es before ties : Rows V} {s : Bytes}

theorem EndsWith.le (h : EndsWith es before ties s) : ∀ e ∈ es, e.1.sortKey ≤ s := by
  rw [h.split]
  exact forall_mem_append.2 ⟨fun e he => (h.before_lt e he).le, fun e he => (h.ties_eq e he).le⟩

theorem EndsWith.sortKey_eq (h : EndsWith es before ties s) (hne : ties ≠ [])
    (hlast : es.getLast? = some last) : last.1.sortKey = s := by
  apply h.ties_eq
  rw [h.split, getLast?_append_of_ne_nil _ hne] at hlast
  exact mem_of_getLast? hlast

/-! ## The parts -/

/-- The parts are the first rows of the table `T`, which ends with `rest`, and no two ties are in
different parts. -/
structure Tied (limit : Nat) (T rest : Rows V) (c : TopNCache V) : Prop where
  limit_pos : 0 < c.limit
  limit_eq : c.limit = limit
  low_none : c.low = none
  offset_eq : c.offset = 0
  capacity_pos : 0 < c.highCacheCapacity
  split : T = c.middle.entries ++ (c.high.entries ++ rest)
  below_nil : c.middle.entries.length < c.limit → c.high.entries = [] ∧ rest = []
  ends : c.limit ≤ c.middle.entries.length →
    ∃ before ties s, EndsWith c.middle.entries before ties s ∧ before.length < c.limit
  middle_apart : Apart c.middle.entries (c.high.entries ++ rest)
  high_apart : Apart c.high.entries rest

/-- And the row count is the one of the table, if it is known. -/
structure HoldsTies (limit : Nat) (T rest : Rows V) (c : TopNCache V) :
    Prop extends Tied limit T rest c where
  count : ∀ n, c.tableRowCount = some n → n = T.length

theorem Tied.lowEntries_nil (h : Tied limit T rest c) : lowEntries c = [] := by
  simp [lowEntries, h.low_none]

theorem Tied.shaped (h : Tied limit T rest c) : Shaped c := by
  refine ⟨h.limit_pos, by simp [h.low_none, h.offset_eq], ?_, ?_, fun hlt => (h.below_nil hlt).1⟩
  · rw [h.lowEntries_nil]
    exact Nat.zero_le _
  · rw [h.offset_eq]
    exact fun hlt => absurd hlt (Nat.not_lt_zero _)

theorem Tied.middleIsFull_eq (h : Tied limit T rest c) :
    c.middleIsFull true = .ok (decide (c.limit ≤ c.middle.entries.length)) :=
  TopNCache.middleIsFull_eq h.shaped (.inl rfl)

theorem Tied.with (h : Tied limit T rest c) {T' rest' : Rows V} {middle high : Cache V}
    {count : Option Nat} (hsplit : T' = middle.entries ++ (high.entries ++ rest'))
    (hbelow : middle.entries.length < c.limit → high.entries = [] ∧ rest' = [])
    (hends : c.limit ≤ middle.entries.length →
      ∃ before ties s, EndsWith middle.entries before ties s ∧ before.length < c.limit)
    (hmiddle : Apart middle.entries (high.entries ++ rest')) (hhigh : Apart high.entries rest') :
    Tied limit T' rest' { c with middle := middle, high := high, tableRowCount := count } :=
  ⟨h.limit_pos, h.limit_eq, h.low_none, h.offset_eq, h.capacity_pos, hsplit, hbelow, hends,
    hmiddle, hhigh⟩

theorem exists_endsWith_of_le {m : Cache V} (hne : m.entries ≠ [])
    (hle : m.entries.length ≤ limit) :
    ∃ before ties s, EndsWith m.entries before ties s ∧ before.length < limit := by
  obtain ⟨part, last, -, hlast, -⟩ := exists_last hne
  obtain ⟨before, ties, hends, hties⟩ := exists_endsWith m.sorted hlast
  refine ⟨before, ties, _, hends, ?_⟩
  have hpos := length_pos_of_ne_nil hties
  rw [hends.split, length_append] at hle
  omega

theorem Tied.exists_ties (h : Tied limit T rest c) (hfull : c.limit ≤ c.middle.entries.length) :
    ∃ before ties last, c.middle.lastKeyValue = some last ∧
      EndsWith c.middle.entries before ties last.1.sortKey ∧ before.length < c.limit ∧
      ∀ e ∈ c.high.entries ++ rest, last.1.sortKey < e.1.sortKey := by
  obtain ⟨before, ties, s, hends, hlen⟩ := h.ends hfull
  obtain ⟨part, last, hpart, hlast, -⟩ :=
    exists_last (m := c.middle) (ne_nil_of_length_pos (by omega))
  have hne : ties ≠ [] := by
    rintro rfl
    rw [hends.split, append_nil] at hfull
    omega
  have hs := hends.sortKey_eq hne hlast
  subst hs
  refine ⟨before, ties, last, hlast, hends, hlen, fun e he => ?_⟩
  exact h.middle_apart last (mem_of_getLast? hlast) e he

/-! ## Inserting -/

theorem evictHigh_spec (hapart : Apart c.high.entries rest) :
    ∃ high rest', c.evictHigh = .ok { c with high := high } ∧
      c.high.entries ++ rest = high.entries ++ rest' ∧ Apart high.entries rest' := by
  unfold evictHigh
  by_cases hlen : c.high.len > c.highCacheCapacity
  · have hne : c.high.entries ≠ [] := by
      unfold SortedMap.len at hlen
      exact ne_nil_of_length_pos (by omega)
    obtain ⟨_, last, -, hlast, -⟩ := exists_last hne
    obtain ⟨before, ties, hends, hties⟩ := exists_endsWith c.high.sorted hlast
    have hkept : (c.high.dropLast.retain fun k => k.sortKey ≠ last.1.sortKey).entries = before := by
      rw [entries_retain, entries_dropLast, hends.split, dropLast_append_of_ne_nil hties,
        filter_append, filter_eq_self.2, filter_eq_nil_iff.2, append_nil]
      · intro e he
        have heq := hends.ties_eq e ((dropLast_sublist _).subset he)
        simp [heq]
      · intro e he
        have hlt := hends.before_lt e he
        simp [hlt.ne]
    rw [if_pos hlen, hlast]
    refine ⟨_, ties ++ rest, rfl, by rw [hkept, hends.split, append_assoc], ?_⟩
    rw [hkept, apart_append_right]
    refine ⟨fun e he e' he' => ?_, hapart.mono (fun e he => ?_) fun e he => he⟩
    · rw [hends.ties_eq e' he']
      exact hends.before_lt e he
    · rw [hends.split]
      exact mem_append_left _ he
  · rw [if_neg hlen]
    exact ⟨c.high, rest, rfl, rfl, hapart⟩

theorem length_filter_bound (h : EndsWith es before ties s) :
    (es.filter fun e => decide (toLex (s, []) ≤ e.1)).length = ties.length := by
  rw [h.split, filter_append, filter_eq_nil_iff.2, filter_eq_self.2, nil_append]
  · intro e he
    rw [decide_eq_true_iff, bound_le_iff, h.ties_eq e he]
  · intro e he
    rw [decide_eq_true_iff, bound_le_iff]
    exact not_le.2 (h.before_lt e he)

variable [DecidableEq V] {base : CacheKey → Option V} {staging : TopNStaging V}

theorem moveTies_spec (hends : EndsWith c.middle.entries before ties s)
    (hsorted : Sorted (ties ++ c.high.entries)) (hnet : staging.Net base c.middle.get?) {fuel : Nat}
    (hfuel : ties.length ≤ fuel) :
    ∃ middle high staging', moveTies s fuel c staging =
      ({ c with middle := middle, high := high }, staging') ∧
      middle.entries = before ∧ high.entries = ties ++ c.high.entries ∧
      staging'.Net base middle.get? := by
  induction fuel generalizing c staging ties with
  | zero =>
    have hnil : ties = [] := eq_nil_of_length_eq_zero (by omega)
    subst hnil
    exact ⟨c.middle, c.high, staging, rfl, by rw [hends.split, append_nil], rfl, hnet⟩
  | succ fuel ih =>
    rcases eq_nil_or_concat ties with rfl | ⟨ties, tie, rfl⟩
    · -- no tie is left
      have hbefore : c.middle.entries = before := by rw [hends.split, append_nil]
      refine ⟨c.middle, c.high, staging, ?_, hbefore, rfl, hnet⟩
      unfold moveTies
      cases hlast : c.middle.lastKeyValue with
      | none => rfl
      | some last =>
        have hmem : last ∈ before := hbefore ▸ mem_of_getLast? hlast
        dsimp only
        rw [if_neg (hends.before_lt last hmem).ne]
    · rw [concat_eq_append] at hends hsorted hfuel ⊢
      have hsplit : c.middle.entries = (before ++ ties) ++ [tie] := by
        rw [hends.split, append_assoc]
      have hlast : c.middle.lastKeyValue = some tie := by
        rw [lastKeyValue, hsplit, getLast?_concat]
      have hdrop : c.middle.dropLast.entries = before ++ ties := by
        rw [entries_dropLast, hsplit, dropLast_concat]
      have hget : c.middle.get? tie.1 = some tie.2 := get?_eq_some_iff.2 (by rw [hsplit]; simp)
      have hnet' := hnet.delete hget
      rw [← dropLast_eq_erase hlast] at hnet'
      rw [append_assoc] at hsorted
      have hhigh : (c.high.insert tie.1 tie.2).entries = tie :: c.high.entries := by
        rw [entries_insert, insertEntry_of_lt]
        exact (pairwise_cons.1 (sorted_append.1 hsorted).2.1).1
      obtain ⟨middle, high, staging', hrun, hmiddle, hhigh', hnet''⟩ := ih
        (c := { c with middle := c.middle.dropLast, high := c.high.insert tie.1 tie.2 })
        ⟨hdrop, hends.before_lt, fun e he => hends.ties_eq e (mem_append_left _ he)⟩
        (by
          rw [hhigh]
          exact hsorted) hnet'
        (by
          rw [length_append, length_singleton] at hfuel
          omega)
      refine ⟨middle, high, staging', ?_, hmiddle, ?_, hnet''⟩
      · unfold moveTies
        rw [hlast]
        dsimp only
        rw [if_pos (hends.ties_eq tie (by simp)), hrun]
      · rw [hhigh', hhigh, append_assoc]
        rfl

theorem insertLess_spec (h : Tied limit T rest c) (hsorted : Sorted T)
    (hfresh : ∀ e ∈ T, e.1 ≠ k) (row : V) (hends : EndsWith c.middle.entries before ties s)
    (hbefore : before.length < c.limit) (hfull : c.limit ≤ c.middle.entries.length)
    (hbelow : ∀ e ∈ c.high.entries ++ rest, s < e.1.sortKey) (hlt : k.sortKey < s)
    (hnet : staging.Net base c.middle.get?) :
    Yields (fun rest' c' => Tied limit (insertEntry k row T) rest' c' ∧
      c'.tableRowCount = c.tableRowCount) base (c.insertLess k row s staging) := by
  have hsplit : T = before ++ (ties ++ (c.high.entries ++ rest)) := by
    rw [h.split, hends.split, append_assoc]
  have hafter : ∀ e ∈ ties ++ (c.high.entries ++ rest), s ≤ e.1.sortKey :=
    forall_mem_append.2 ⟨fun e he => (hends.ties_eq e he).ge, fun e he => (hbelow e he).le⟩
  have hinsert : insertEntry k row T =
      insertEntry k row before ++ (ties ++ (c.high.entries ++ rest)) := by
    rw [hsplit, insertEntry_append_left]
    exact fun e he => lt_of_sortKey_lt (hlt.trans_le (hafter e he))
  have hfreshBefore : ∀ e ∈ before, e.1 ≠ k := fun e he => hfresh e (hsplit ▸ mem_append_left _ he)
  have hlenBefore : (insertEntry k row before).length = before.length + 1 :=
    length_insertEntry hfreshBefore
  have hbeforeLt : ∀ e ∈ insertEntry k row before, e.1.sortKey < s :=
    forall_mem_insertEntry hlt hends.before_lt
  have hties :
      c.middle.len + 1 - (c.middle.entries.filter fun e => decide (toLex (s, []) ≤ e.1)).length =
      before.length + 1 := by
    rw [length_filter_bound hends, SortedMap.len, hends.split, length_append]
    omega
  unfold insertLess
  dsimp only
  rw [hties]
  by_cases hmove : before.length + 1 ≥ c.limit
  · rw [if_pos hmove]
    have hsortedTies : Sorted (ties ++ c.high.entries) := by
      rw [hsplit, ← append_assoc ties] at hsorted
      exact (sorted_append.1 (sorted_append.1 hsorted).2.1).1
    have hfuel : ties.length ≤ c.middle.len := by
      rw [SortedMap.len, hends.split, length_append]
      omega
    obtain ⟨middle, high, staging', hrun, hmiddle, hhigh, hnet'⟩ :=
      moveTies_spec hends hsortedTies hnet hfuel
    have hapart : Apart high.entries rest := by
      rw [hhigh, apart_append_left]
      refine ⟨h.middle_apart.mono (fun e he => ?_) (fun e he => mem_append_right _ he), h.high_apart⟩
      rw [hends.split]
      exact mem_append_right _ he
    obtain ⟨high', rest', hevict, hsame, hapart'⟩ := evictHigh_spec
      (c := { c with middle := middle, high := high }) hapart
    rw [hrun]
    rw [hevict]
    have hentries : (middle.insert k row).entries = insertEntry k row before := by
      rw [entries_insert, hmiddle]
    have hlen : (middle.insert k row).entries.length = c.limit := by
      rw [hentries]
      omega
    have hsame' : ties ++ (c.high.entries ++ rest) = high'.entries ++ rest' := by
      rw [← append_assoc, ← hhigh]
      exact hsame
    refine ⟨_, _, rest', rfl, ⟨h.with ?_ ?_ ?_ ?_ hapart', rfl⟩,
      hnet'.insert (get?_eq_none (hmiddle ▸ hfreshBefore)) row⟩
    · rw [hinsert, hsame', ← hentries]
    · exact fun hlt => absurd hlen hlt.ne
    · exact fun _ => exists_endsWith_of_le (ne_nil_of_length_pos (hlen ▸ h.limit_pos)) hlen.le
    · rw [hentries, ← hsame']
      exact fun e he e' he' => (hbeforeLt e he).trans_le (hafter e' he')
  · rw [if_neg hmove]
    obtain ⟨high', rest', hevict, hsame, hapart'⟩ := evictHigh_spec h.high_apart
    rw [hevict]
    have hentries : (c.middle.insert k row).entries = insertEntry k row before ++ ties := by
      rw [entries_insert, hends.split, insertEntry_append_left]
      intro e he
      rw [← hends.ties_eq e he] at hlt
      exact lt_of_sortKey_lt hlt
    have hends' : EndsWith (c.middle.insert k row).entries (insertEntry k row before) ties s :=
      ⟨hentries, hbeforeLt, hends.ties_eq⟩
    have hfreshMiddle : ∀ e ∈ c.middle.entries, e.1 ≠ k := fun e he =>
      hfresh e (h.split ▸ mem_append_left _ he)
    have hlen : (c.middle.insert k row).entries.length = c.middle.entries.length + 1 :=
      length_insertEntry hfreshMiddle
    refine ⟨_, _, rest', rfl, ⟨h.with ?_ ?_ ?_ ?_ hapart', rfl⟩,
      hnet.insert (get?_eq_none hfreshMiddle) row⟩
    · rw [hinsert, ← hsame, ← append_assoc, ← hentries]
    · exact fun hlt => absurd (hlen.symm.trans_lt hlt) (by omega)
    · exact fun _ => ⟨_, ties, s, hends', by omega⟩
    · rw [← hsame]
      exact fun e he e' he' => (hends'.le e he).trans_lt (hbelow e' he')

omit [DecidableEq V] in
theorem insertGreater_spec (h : Tied limit T rest c) (row : V)
    (hcount : ∀ n, c.tableRowCount = some n → n = T.length + 1)
    (hfull : c.limit ≤ c.middle.entries.length)
    (habove : ∀ e ∈ c.middle.entries, e.1.sortKey < k.sortKey) :
    ∃ c' rest', c.insertGreater k row = .ok c' ∧ Tied limit (insertEntry k row T) rest' c' ∧
      c'.tableRowCount = c.tableRowCount ∧ c'.middle = c.middle := by
  have hinsert : insertEntry k row T =
      c.middle.entries ++ insertEntry k row (c.high.entries ++ rest) := by
    rw [h.split, insertEntry_append_right]
    exact fun e he => lt_of_sortKey_lt (habove e he)
  -- whatever the high cache is, the rest is what is left of the rows below the middle
  have htied : ∀ {high : Cache V} {rest' : Rows V},
      insertEntry k row (c.high.entries ++ rest) = high.entries ++ rest' →
        Apart high.entries rest' →
      Tied limit (insertEntry k row T) rest' { c with high := high } := by
    intro high rest' hbelow hapart
    refine h.with ?_ ?_ h.ends ?_ hapart
    · rw [hinsert, hbelow]
    · exact fun hlt => absurd hfull (not_le.2 hlt)
    · rw [← hbelow]
      exact fun e he => forall_mem_insertEntry (habove e he) (h.middle_apart e he)
  unfold insertGreater
  cases hsynced : c.highIsSynced with
  | false =>
    have hnil := high_eq_nil hsynced
    refine ⟨c, insertEntry k row rest, rfl, @htied c.high _ ?_ ?_, rfl, rfl⟩
    · rw [hnil, nil_append, nil_append]
    · rw [hnil]
      exact nofun
  | true =>
    have hne : c.high.entries ≠ [] := by
      -- with the new row the table has more rows than the middle
      intro hnil
      unfold highIsSynced at hsynced
      rw [SortedMap.isEmpty_iff.2 hnil, Bool.not_true, Bool.false_or, beq_iff_eq] at hsynced
      have hlen := hcount _ hsynced
      rw [len_eq, h.lowEntries_nil, hnil, h.split, hnil] at hlen
      simp only [length_append, length_nil] at hlen
      omega
    have hempty : c.high.isEmpty = false := by
      rw [Bool.eq_false_iff]
      exact fun hempty => hne (SortedMap.isEmpty_iff.1 hempty)
    obtain ⟨_, last, -, hlast, -⟩ := exists_last hne
    obtain ⟨before, ties, hends, -⟩ := exists_endsWith c.high.sorted hlast
    have hlastMem : last ∈ c.high.entries := mem_of_getLast? hlast
    rw [hempty, if_neg Bool.false_ne_true, hlast, unwrap, ok_bind]
    by_cases hle : k.sortKey ≤ last.1.sortKey
    · have hbelow : insertEntry k row (c.high.entries ++ rest) =
          insertEntry k row c.high.entries ++ rest :=
        insertEntry_append_left
          fun e he => lt_of_sortKey_lt (hle.trans_lt (h.high_apart last hlastMem e he))
      have hapart : Apart (c.high.insert k row).entries rest :=
        forall_mem_insertEntry
          (fun e' he' => hle.trans_lt (h.high_apart last hlastMem e' he')) h.high_apart
      obtain ⟨high', rest', hevict, hsame, hapart'⟩ := evictHigh_spec
        (c := { c with high := c.high.insert k row }) hapart
      rw [if_pos hle, hevict]
      exact ⟨_, rest', rfl, htied (hbelow.trans hsame) hapart', rfl, rfl⟩
    · have hhighLt : ∀ e ∈ c.high.entries, e.1.sortKey < k.sortKey := fun e he =>
        (hends.le e he).trans_lt (not_le.1 hle)
      have hbelow : insertEntry k row (c.high.entries ++ rest) =
          c.high.entries ++ insertEntry k row rest :=
        insertEntry_append_right fun e he => lt_of_sortKey_lt (hhighLt e he)
      have hapart : Apart c.high.entries (insertEntry k row rest) :=
        fun e he => forall_mem_insertEntry (hhighLt e he) (h.high_apart e he)
      obtain ⟨high', rest', hevict, hsame, hapart'⟩ := evictHigh_spec hapart
      rw [if_neg hle, hevict]
      exact ⟨_, rest', rfl, htied (hbelow.trans hsame) hapart', rfl, rfl⟩

theorem insertWithTies_spec (h : HoldsTies limit T rest c) (hsorted : Sorted T)
    (hfresh : ∀ e ∈ T, e.1 ≠ k) (row : V) (hnet : staging.Net base c.middle.get?) :
    Yields (HoldsTies limit (insertEntry k row T)) base (c.insertWithTies k row staging) := by
  have hcount := incrementRowCount_eq h.count hfresh row
  have h1 : Tied limit T rest c.incrementRowCount :=
    h.with h.split h.below_nil h.ends h.middle_apart h.high_apart
  have hnet1 : staging.Net base c.incrementRowCount.middle.get? := hnet
  have hnone : c.incrementRowCount.low.isNone = true := by rw [h1.low_none]; rfl
  unfold insertWithTies
  dsimp only
  rw [hnone, assert_true, ok_bind, h1.middleIsFull_eq, ok_bind]
  generalize c.incrementRowCount = c1 at h1 hcount hnet1
  have hfreshMiddle : ∀ e ∈ c1.middle.entries, e.1 ≠ k := fun e he =>
    hfresh e (h1.split ▸ mem_append_left _ he)
  have hnet' := hnet1.insert (get?_eq_none hfreshMiddle) row
  have hlen : (c1.middle.insert k row).entries.length = c1.middle.entries.length + 1 :=
    length_insertEntry hfreshMiddle
  by_cases hfull : c1.limit ≤ c1.middle.entries.length
  · rw [decide_eq_true hfull, Bool.not_true]
    obtain ⟨before, ties, last, hlast, hends, hbefore, hbelow⟩ := h1.exists_ties hfull
    unfold insertFull
    rw [hlast, unwrap, ok_bind]
    rcases lt_trichotomy k.sortKey last.1.sortKey with hlt | heq | hgt
    · obtain ⟨c', staging', rest', hrun, ⟨htied, hsame⟩, hnet''⟩ :=
        insertLess_spec h1 hsorted hfresh row hends hbefore hfull hbelow hlt hnet1
      rw [if_pos hlt]
      exact ⟨c', staging', rest', hrun, ⟨htied, hsame ▸ hcount⟩, hnet''⟩
    · rw [if_neg heq.not_lt, if_pos heq]
      have hinsert : insertEntry k row T = insertEntry k row c1.middle.entries ++
          (c1.high.entries ++ rest) := by
        rw [h1.split, insertEntry_append_left]
        exact fun e he => lt_of_sortKey_lt (heq ▸ hbelow e he)
      have hentries : insertEntry k row c1.middle.entries = before ++ insertEntry k row ties := by
        rw [hends.split, insertEntry_append_right]
        exact fun e he => lt_of_sortKey_lt (heq ▸ hends.before_lt e he)
      have hends' :
          EndsWith (c1.middle.insert k row).entries before (insertEntry k row ties) last.1.sortKey :=
        ⟨hentries, hends.before_lt, forall_mem_insertEntry heq hends.ties_eq⟩
      refine ⟨_, _, rest, rfl, ⟨h1.with hinsert ?_ ?_ ?_ h1.high_apart, hcount⟩, hnet'⟩
      · omega
      · exact fun _ => ⟨before, _, _, hends', hbefore⟩
      · exact fun e he e' he' => (hends'.le e he).trans_lt (hbelow e' he')
    · rw [if_neg hgt.not_gt, if_neg hgt.ne']
      obtain ⟨c', rest', hrun, htied, hsame, hmiddle⟩ := insertGreater_spec h1 row
        (fun n hn => (hcount n hn).trans (length_insertEntry hfresh)) hfull
          fun e he => (hends.le e he).trans_lt hgt
      rw [hrun]
      refine ⟨c', staging, rest', rfl, ⟨htied, hsame ▸ hcount⟩, ?_⟩
      rw [hmiddle]
      exact hnet1
  · rw [decide_eq_false hfull, Bool.not_false]
    obtain ⟨hhigh, hrest⟩ := h1.below_nil (by omega)
    have hT : T = c1.middle.entries := by rw [h1.split, hhigh, hrest, append_nil, append_nil]
    refine ⟨_, _, [], rfl, ⟨h1.with ?_ (fun _ => ⟨hhigh, rfl⟩) ?_ ?_ (apart_nil_right _), hcount⟩,
      hnet'⟩
    · rw [entries_insert, hhigh, ← hT, append_nil, append_nil]
    · -- the row fills the middle
      exact fun _ => exists_endsWith_of_le insertEntry_ne_nil (by omega)
    · rw [hhigh]
      exact apart_nil_right _

end Stream.TopNCache
