import RisingLake.Stream.Proof.TopNStaging

/-!
# The cache of a top-N without ties

The three parts of the cache are the first rows of the table, one after the other (`Holds`). A row
that is inserted is handed down the parts, each of which keeps its length (`insert_spec`); a row
that is deleted is made up for by the first row of the part below, and `high` is refilled from the
table when it has run dry (`delete_spec`).
-/

namespace Stream.TopNCache

open Res SortedMap List

variable {V : Type}

abbrev Rows (V : Type) := List (CacheKey × V)

def lowEntries (c : TopNCache V) : Rows V := (c.low.map SortedMap.entries).getD []

theorem len_eq (c : TopNCache V) :
    c.len = (lowEntries c).length + c.middle.entries.length + c.high.entries.length := by
  unfold len lowEntries
  cases c.low <;> rfl

/-- What the assertions on the parts rely on. -/
structure Shaped (c : TopNCache V) : Prop where
  limit_pos : 0 < c.limit
  low_isSome : c.low.isSome = decide (0 < c.offset)
  low_le : (lowEntries c).length ≤ c.offset
  low_full : (lowEntries c).length < c.offset → c.middle.entries = []
  middle_full : c.middle.entries.length < c.limit → c.high.entries = []

section

variable {c : TopNCache V}

theorem Shaped.high_nil (h : Shaped c) (hlow : (lowEntries c).length < c.offset) :
    c.high.entries = [] := by
  apply h.middle_full
  rw [h.low_full hlow]
  exact h.limit_pos

theorem lowIsFull_eq (h : Shaped c) :
    c.lowIsFull = .ok (decide ((lowEntries c).length = c.offset)) := by
  unfold lowIsFull
  have hle := h.low_le
  cases hlow : c.low with
  | none =>
    have hsome := h.low_isSome
    have hzero : c.offset = 0 := by simpa [hlow] using hsome
    simp [lowEntries, hlow, hzero]
  | some low =>
    have hentries : lowEntries c = low.entries := by simp [lowEntries, hlow]
    rw [hentries] at hle
    by_cases hfull : low.entries.length = c.offset
    · simp [hentries, SortedMap.len, hfull]
    · have hlt : (lowEntries c).length < c.offset := by rw [hentries]; omega
      have hmiddle : c.middle.isEmpty = true := SortedMap.isEmpty_iff.2 (h.low_full hlt)
      have hhigh : c.high.isEmpty = true := SortedMap.isEmpty_iff.2 (h.high_nil hlt)
      simp [hentries, SortedMap.len, hfull, hmiddle, hhigh, hle]

theorem middleIsFull_eq (h : Shaped c) {withTies : Bool}
    (hle : withTies = true ∨ c.middle.entries.length ≤ c.limit) :
    c.middleIsFull withTies = .ok (decide (c.limit ≤ c.middle.entries.length)) := by
  unfold middleIsFull
  have hassert : (withTies || decide (c.middle.len ≤ c.limit)) = true :=
    Bool.or_eq_true_iff.2 (hle.imp_right decide_eq_true)
  rw [hassert, assert_true]
  by_cases hfull : c.limit ≤ c.middle.entries.length
  · have hlow : (lowEntries c).length = c.offset := by
      by_contra hne
      have hle := h.low_le
      have hnil := h.low_full (by omega)
      have hpos := h.limit_pos
      rw [hnil, length_nil] at hfull
      omega
    have hge : c.middle.len ≥ c.limit := hfull
    rw [if_pos hge, lowIsFull_eq h, hlow]
    simp [hfull]
  · have hhigh : c.high.isEmpty = true := SortedMap.isEmpty_iff.2 (h.middle_full (by omega))
    have hge : ¬c.middle.len ≥ c.limit := hfull
    rw [if_neg hge, hhigh]
    simp [hfull]

theorem highIsFull_eq {withTies : Bool}
    (hle : withTies = true ∨ c.high.entries.length ≤ c.highCacheCapacity) :
    c.highIsFull withTies = .ok (decide (c.highCacheCapacity ≤ c.high.entries.length)) := by
  unfold highIsFull
  have hassert : (withTies || decide (c.high.len ≤ c.highCacheCapacity)) = true :=
    Bool.or_eq_true_iff.2 (hle.imp_right decide_eq_true)
  rw [hassert, assert_true]
  rfl

end

/-- The parts are the first rows of the table `T`, which ends with `rest`. -/
structure Holds (offset limit : Nat) (T rest : Rows V) (c : TopNCache V) :
    Prop extends Shaped c where
  offset_eq : c.offset = offset
  limit_eq : c.limit = limit
  capacity_eq : c.highCacheCapacity = highCapacity offset limit
  split : T = lowEntries c ++ (c.middle.entries ++ (c.high.entries ++ rest))
  middle_le : c.middle.entries.length ≤ c.limit
  rest_nil : c.middle.entries.length < c.limit → rest = []
  high_le : c.high.entries.length ≤ c.highCacheCapacity
  count : ∀ n, c.tableRowCount = some n → n = T.length

theorem capacity_pos (offset limit : Nat) : 0 < highCapacity offset limit :=
  Nat.lt_of_lt_of_le (by decide) (Nat.le_max_right _ 10)

/-! ## Inserting -/

variable [DecidableEq V] {offset limit : Nat} {T rest : Rows V} {c : TopNCache V}

/-- A row that is handed down: the table has it among the rows of the parts below. -/
structure Passes (T before after : Rows V) (x : ToInsert V) : Prop where
  split : T = before ++ insertEntry x.key x.row after
  last : x.isLastOfLowerCache = true → ∀ e ∈ after, x.key < e.1
  fresh : ∀ e ∈ after, e.1 ≠ x.key

omit [DecidableEq V] in
theorem Passes.full {before part after : Rows V} {last : CacheKey × V} {x : ToInsert V}
    (h : Passes T before (part ++ last :: after) x) (hsorted : Sorted (part ++ last :: after)) :
    if x.isLastOfLowerCache ∨ x.key < last.1 then
      (insertEntry x.key x.row part).length = part.length + 1 ∧
      Passes T (before ++ insertEntry x.key x.row part) after ⟨last.1, last.2, true⟩
    else Passes T (before ++ (part ++ [last])) after x := by
  have hright := (sorted_append.1 hsorted).2.1
  have hbelow : ∀ e ∈ after, last.1 < e.1 := (pairwise_cons.1 hright).1
  split
  · rename_i hcond
    have hlt : x.key < last.1 := by
      rcases hcond with hlast | hlt
      · exact h.last hlast last (by simp)
      · exact hlt
    refine ⟨length_insertEntry fun e he => h.fresh e (mem_append_left _ he), ?_, fun _ => hbelow,
      fun e he => (hbelow e he).ne'⟩
    rw [h.split, insertEntry_before hsorted hlt, insertEntry_of_lt hbelow, append_assoc]
  · rename_i hcond
    have hlt : last.1 < x.key := by
      refine lt_of_le_of_ne (not_lt.1 fun hlt => hcond (.inr hlt)) ?_
      exact h.fresh last (by simp)
    refine ⟨?_, fun hlast => absurd (.inl hlast) hcond, fun e he => h.fresh e (by simp [he])⟩
    rw [h.split, insertEntry_after hsorted hlt]
    simp

omit [DecidableEq V] in
theorem exists_last {m : Cache V} (h : m.entries ≠ []) :
    ∃ part last, m.entries = part ++ [last] ∧ m.lastKeyValue = some last ∧
      m.dropLast.entries = part := by
  refine ⟨_, _, (dropLast_append_getLast h).symm, getLast?_eq_some_getLast h, rfl⟩

variable {k : CacheKey}

omit [DecidableEq V] in
theorem insertLow_spec (hs : Shaped c)
    (hsplit : T = lowEntries c ++ (c.middle.entries ++ (c.high.entries ++ rest)))
    (hrest : c.middle.entries.length < c.limit → rest = []) (hsorted : Sorted T)
    (hfresh : ∀ e ∈ T, e.1 ≠ k) (row : V) :
    (∃ low, c.insertLow k row = .ok ({ c with low := some low }, none) ∧ c.low.isSome = true ∧
      low.entries = insertEntry k row T ∧ T = lowEntries c ∧ T.length < c.offset) ∨
    ∃ low x, c.insertLow k row = .ok ({ c with low := low }, some x) ∧ low.isSome = c.low.isSome ∧
      ((low.map SortedMap.entries).getD []).length = c.offset ∧
      Passes (insertEntry k row T) ((low.map SortedMap.entries).getD [])
        (c.middle.entries ++ (c.high.entries ++ rest)) x := by
  unfold insertLow
  rw [lowIsFull_eq hs, ok_bind]
  have hle := hs.low_le
  cases hlow : c.low with
  | none =>
    have hzero : c.offset = 0 := by simpa [hlow] using hs.low_isSome
    have hnil : lowEntries c = [] := by simp [lowEntries, hlow]
    rw [hnil, nil_append] at hsplit
    refine .inr ⟨none, ⟨k, row, false⟩, by cases c; cases hlow; rfl, rfl, hzero.symm, ?_, ?_, ?_⟩
    · rw [hsplit]
      rfl
    · exact nofun
    · exact fun e he => hfresh e (hsplit ▸ he)
  | some low =>
    have hentries : lowEntries c = low.entries := by simp [lowEntries, hlow]
    rw [hentries] at hle hsplit ⊢
    dsimp only
    by_cases hfull : low.entries.length = c.offset
    · rw [decide_eq_true hfull, Bool.not_true, if_neg Bool.false_ne_true]
      have hpos : 0 < c.offset := by simpa [hlow] using hs.low_isSome
      obtain ⟨part, last, hpart, hlast, hdrop⟩ :=
        exists_last (m := low) (ne_nil_of_length_pos (by omega))
      rw [hlast, unwrap, ok_bind]
      have hstart : Passes (insertEntry k row T) []
          (part ++ last :: (c.middle.entries ++ (c.high.entries ++ rest))) ⟨k, row, false⟩ := by
        have hT : T = part ++ last :: (c.middle.entries ++ (c.high.entries ++ rest)) := by
          rw [hsplit, hpart, append_assoc]
          rfl
        exact ⟨by rw [nil_append, hT], (by intro h; cases h), fun e he => hfresh e (hT ▸ he)⟩
      have hpass := hstart.full (by
        rw [hsplit, hpart, append_assoc] at hsorted
        exact hsorted)
      rw [hpart, length_append, length_singleton] at hfull
      by_cases hlt : k < last.1
      · rw [if_pos hlt]
        rw [if_pos (.inr hlt)] at hpass
        refine .inr ⟨_, _, rfl, rfl, ?_, ?_⟩
        · change (insertEntry k row low.dropLast.entries).length = _
          rw [hdrop, hpass.1, hfull]
        · change Passes _ (insertEntry k row low.dropLast.entries) _ _
          rw [hdrop]
          exact hpass.2
      · rw [if_neg hlt]
        rw [if_neg (by simpa using hlt)] at hpass
        refine .inr ⟨some low, _, by rw [← hlow], rfl, ?_, ?_⟩
        · change low.entries.length = _
          rw [hpart, length_append, length_singleton, hfull]
        · change Passes _ low.entries _ _
          rw [hpart]
          exact hpass
    · have hlt : (lowEntries c).length < c.offset := by rw [hentries]; omega
      have hmiddle := hs.low_full hlt
      have hT : T = low.entries := by
        rw [hsplit, hmiddle, hs.high_nil hlt, hrest (by rw [hmiddle]; exact hs.limit_pos)]
        simp
      rw [decide_eq_false hfull, Bool.not_false, if_pos rfl]
      refine .inl ⟨_, rfl, rfl, by rw [hT]; rfl, hT, ?_⟩
      rw [hT]
      omega

omit [DecidableEq V] in
theorem get?_eq_none {m : Cache V} (h : ∀ e ∈ m.entries, e.1 ≠ k) : m.get? k = none :=
  lookup_eq_none h

variable {base : CacheKey → Option V} {staging : TopNStaging V} {before : Rows V}

/-- The cache that is returned is one that `P` holds of, and the staging has the changes of its
middle. -/
def Yields (P : Rows V → TopNCache V → Prop) (base : CacheKey → Option V)
    (r : Res (TopNCache V × TopNStaging V)) : Prop :=
  ∃ c staging rest, r = .ok (c, staging) ∧ P rest c ∧ staging.Net base c.middle.get?

theorem insertMiddle_spec (hs : Shaped c) (hle : c.middle.entries.length ≤ c.limit)
    {x : ToInsert V} (hp : Passes T before (c.middle.entries ++ (c.high.entries ++ rest)) x)
    (hsorted : Sorted (c.middle.entries ++ (c.high.entries ++ rest)))
    (hnet : staging.Net base c.middle.get?) :
    ∃ middle staging', TopNStaging.Net base middle.get? staging' ∧
      ((c.middle.entries.length < c.limit ∧ middle.entries = insertEntry x.key x.row c.middle.entries ∧
          middle.entries.length = c.middle.entries.length + 1 ∧
          c.insertMiddle x staging = .ok ({ c with middle := middle }, staging', none)) ∨
        ∃ y, middle.entries.length = c.limit ∧
        Passes T (before ++ middle.entries) (c.high.entries ++ rest) y ∧
          c.insertMiddle x staging = .ok ({ c with middle := middle }, staging', some y)) := by
  unfold insertMiddle
  rw [middleIsFull_eq hs (.inr hle), ok_bind]
  have hkey : c.middle.get? x.key = none :=
    get?_eq_none fun e he => hp.fresh e (mem_append_left _ he)
  by_cases hfull : c.limit ≤ c.middle.entries.length
  · rw [decide_eq_true hfull, Bool.not_true]
    have hpos := hs.limit_pos
    obtain ⟨part, last, hpart, hlast, hdrop⟩ :=
      exists_last (m := c.middle) (ne_nil_of_length_pos (by omega))
    rw [hlast, unwrap, ok_bind]
    rw [hpart, append_assoc] at hp hsorted
    have hpass := hp.full hsorted
    have hlen : part.length + 1 = c.limit := by
      rw [hpart, length_append, length_singleton] at hle hfull
      omega
    by_cases hcond : x.isLastOfLowerCache ∨ x.key < last.1
    · rw [if_pos hcond] at hpass ⊢
      -- the last row leaves the middle before the new one enters it
      have herase := dropLast_eq_erase hlast
      have hget : c.middle.get? last.1 = some last.2 := get?_eq_some_iff.2 (by simp [hpart])
      have hnet1 := hnet.delete hget
      rw [← herase] at hnet1
      have hkey1 : c.middle.dropLast.get? x.key = none :=
        get?_eq_none fun e he => hp.fresh e (mem_append_left _ (hdrop ▸ he))
      refine ⟨_, _, hnet1.insert hkey1 x.row, .inr ⟨_, ?_, ?_, rfl⟩⟩
      · rw [entries_insert, hdrop, hpass.1, hlen]
      · rw [entries_insert, hdrop]
        exact hpass.2
    · rw [if_neg hcond] at hpass ⊢
      refine ⟨c.middle, staging, hnet, .inr ⟨x, ?_, ?_, rfl⟩⟩
      · omega
      · rw [hpart]
        exact hpass
  · rw [decide_eq_false hfull, Bool.not_false]
    exact ⟨_, _, hnet.insert hkey x.row, .inl ⟨by omega, rfl,
      length_insertEntry fun e he => hp.fresh e (mem_append_left _ he), rfl⟩⟩

omit [DecidableEq V] in
theorem insertHigh_spec {x : ToInsert V} (hp : Passes T before (c.high.entries ++ rest) x)
    (hsorted : Sorted (c.high.entries ++ rest)) (hle : c.high.entries.length ≤ c.highCacheCapacity)
    (hpos : 0 < c.highCacheCapacity) (hcount : ∀ n, c.tableRowCount = some n → n = T.length)
    (hbefore : before.length = (lowEntries c).length + c.middle.entries.length) :
    ∃ high rest', c.insertHigh x = .ok { c with high := high } ∧
      T = before ++ (high.entries ++ rest') ∧ high.entries.length ≤ c.highCacheCapacity := by
  unfold insertHigh
  have hstay : c.high.entries = [] → ∃ high rest', (.ok c : Res (TopNCache V)) =
      .ok { c with high := high } ∧
      T = before ++ (high.entries ++ rest') ∧ high.entries.length ≤ c.highCacheCapacity := by
    intro hnil
    refine ⟨c.high, insertEntry x.key x.row rest, rfl, ?_, hle⟩
    rw [hp.split, hnil]
    rfl
  cases hhigh : c.high.entries with
  | nil =>
    have hempty : c.high.isEmpty = true := SortedMap.isEmpty_iff.2 hhigh
    -- with the new row the table is longer than what is cached
    have hunsynced : c.highIsSynced = false := by
      unfold highIsSynced
      rw [hempty, Bool.not_true, Bool.false_or, beq_eq_false_iff_ne]
      intro hn
      have hT := hcount _ hn
      rw [hp.split, hhigh, nil_append, length_append,
        length_insertEntry fun e he => hp.fresh e (mem_append_right _ he), len_eq, hhigh] at hT
      simp only [length_nil] at hT
      omega
    rw [hunsynced, Bool.or_false]
    cases hlast : x.isLastOfLowerCache with
    | false => exact hstay hhigh
    | true =>
      rw [if_pos rfl, if_pos hempty]
      refine ⟨_, rest, rfl, ?_, ?_⟩
      · rw [hp.split, insertEntry_of_lt (hp.last hlast), entries_insert, hhigh]
        rfl
      · rw [entries_insert, hhigh]
        exact hpos
  | cons e es =>
    have hempty : c.high.isEmpty = false := by simp [SortedMap.isEmpty, hhigh]
    have hsynced : c.highIsSynced = true := by simp [highIsSynced, hempty]
    obtain ⟨part, last, hpart, hlast, hdrop⟩ := exists_last (m := c.high) (by simp [hhigh])
    rw [hsynced, Bool.or_true, if_pos rfl, hempty, if_neg Bool.false_ne_true,
      highIsFull_eq (.inr hle), ok_bind, hlast, unwrap, ok_bind]
    rw [hpart, append_assoc, singleton_append] at hp hsorted
    have hpass := hp.full hsorted
    by_cases hcond : x.isLastOfLowerCache ∨ x.key < last.1
    · rw [if_pos hcond] at hpass ⊢
      obtain ⟨hlen, hpass⟩ := hpass
      have hsplit := hpass.split
      by_cases hfull : c.highCacheCapacity ≤ c.high.entries.length
      · refine ⟨_, insertEntry last.1 last.2 rest, rfl, ?_, ?_⟩
        · rw [decide_eq_true hfull, if_pos rfl, entries_insert, hdrop, ← append_assoc]
          exact hsplit
        · rw [decide_eq_true hfull, if_pos rfl, entries_insert, hdrop, hlen]
          rw [hpart, length_append, length_singleton] at hle
          exact hle
      · have hlt : x.key < last.1 := by
          rcases hcond with h | h
          · exact hp.last h last (by simp)
          · exact h
        refine ⟨_, rest, rfl, ?_, ?_⟩
        · rw [decide_eq_false hfull, if_neg Bool.false_ne_true, entries_insert, hp.split,
            insertEntry_before hsorted hlt, hpart,
            insertEntry_before ((sorted_append.1 (by rwa [append_cons] at hsorted)).1) hlt]
          simp
        · rw [decide_eq_false hfull, if_neg Bool.false_ne_true, entries_insert, hpart,
            length_insertEntry fun e he => hp.fresh e (by
              rcases mem_append.1 he with he | he
              · exact mem_append_left _ he
              · exact mem_append_right _ (mem_append_left rest he)), ← hpart]
          omega
    · rw [if_neg hcond] at hpass ⊢
      refine ⟨c.high, insertEntry x.key x.row rest, rfl, ?_, hle⟩
      rw [hpass.split, hpart]
      simp

theorem insertBelow_spec (hs : Shaped c) (hlow : (lowEntries c).length = c.offset)
    (hoffset : c.offset = offset) (hlimit : c.limit = limit)
    (hcap : c.highCacheCapacity = highCapacity offset limit)
    (hmiddle : c.middle.entries.length ≤ c.limit)
    (hrest : c.middle.entries.length < c.limit → rest = [])
    (hhigh : c.high.entries.length ≤ c.highCacheCapacity)
    (hcount : ∀ n, c.tableRowCount = some n → n = T.length) {x : ToInsert V}
    (hp : Passes T (lowEntries c) (c.middle.entries ++ (c.high.entries ++ rest)) x)
    (hsorted : Sorted (c.middle.entries ++ (c.high.entries ++ rest)))
    (hnet : staging.Net base c.middle.get?) :
    Yields (Holds offset limit T) base (c.insertBelow staging (some x)) := by
  unfold insertBelow
  obtain ⟨middle, staging', hnet', ⟨hlt, hm, hlen, hrun⟩ | ⟨y, hlen, hp', hrun⟩⟩ :=
    insertMiddle_spec hs hmiddle hp hsorted hnet
  · dsimp only
    rw [hrun]
    refine ⟨{ c with middle := middle }, staging', [], rfl,
      ⟨⟨hs.limit_pos, hs.low_isSome, hlow.le, ?_, ?_⟩, hoffset, hlimit, hcap, ?_, ?_,
        fun _ => rfl, hhigh, hcount⟩, hnet'⟩
    · exact fun hlt => absurd hlow hlt.ne
    · exact fun _ => hs.middle_full hlt
    · change T = lowEntries c ++ (middle.entries ++ (c.high.entries ++ []))
      rw [hp.split, hs.middle_full hlt, hrest hlt, hm]
      simp
    · exact hlen.trans_le hlt
  · obtain ⟨high, rest', hrun', hsplit, hle⟩ :=
      insertHigh_spec (c := { c with middle := middle }) hp'
      (sorted_append.1 hsorted).2.1 hhigh (hcap ▸ capacity_pos offset limit) hcount (by
        rw [length_append]
        rfl)
    dsimp only
    rw [hrun, ok_bind]
    dsimp only
    rw [hrun']
    refine ⟨{ c with middle := middle, high := high }, staging', rest', rfl,
      ⟨⟨hs.limit_pos, hs.low_isSome, hlow.le, ?_, ?_⟩, hoffset, hlimit, hcap, ?_, hlen.le, ?_,
        hle, hcount⟩,
      hnet'⟩
    · exact fun hlt => absurd hlow hlt.ne
    · exact fun hlt => absurd hlen hlt.ne
    · rw [hsplit, append_assoc]
      rfl
    · exact fun hlt => absurd hlen hlt.ne

omit [DecidableEq V] in
theorem incrementRowCount_eq (hcount : ∀ n, c.tableRowCount = some n → n = T.length)
    (hfresh : ∀ e ∈ T, e.1 ≠ k) (row : V) : ∀ n, c.incrementRowCount.tableRowCount = some n →
      n = (insertEntry k row T).length := by
  intro n hn
  obtain ⟨m, hm, rfl⟩ := Option.map_eq_some_iff.1 hn
  rw [length_insertEntry hfresh, hcount m hm]

theorem insert_spec (h : Holds offset limit T rest c) (hsorted : Sorted T)
    (hfresh : ∀ e ∈ T, e.1 ≠ k) (row : V) (hnet : staging.Net base c.middle.get?) :
    Yields (Holds offset limit (insertEntry k row T)) base (c.insert k row staging) := by
  unfold insert
  have hcount := incrementRowCount_eq h.count hfresh row
  have hshaped : Shaped c.incrementRowCount :=
    ⟨h.limit_pos, h.low_isSome, h.low_le, h.low_full, h.middle_full⟩
  rcases insertLow_spec hshaped h.split h.rest_nil hsorted hfresh row with
    ⟨low, hrun, hsome, hlow, hT, hlt⟩ | ⟨low, x, hrun, hsome, hlow, hpass⟩
  · rw [hrun]
    have hroom : (lowEntries c).length < c.offset := by
      change T = lowEntries c at hT
      rw [← hT]
      exact hlt
    have hmiddle : c.middle.entries = [] := h.low_full hroom
    have hhigh : c.high.entries = [] := h.high_nil hroom
    refine ⟨{ c.incrementRowCount with low := some low }, staging, [], rfl,
      ⟨⟨h.limit_pos, ?_, ?_, fun _ => hmiddle, fun _ => hhigh⟩, h.offset_eq,
      h.limit_eq, h.capacity_eq, ?_, h.middle_le, fun _ => rfl, h.high_le, hcount⟩, hnet⟩
    · exact hsome.symm.trans h.low_isSome
    · change low.entries.length ≤ c.offset
      rw [hlow, length_insertEntry hfresh]
      exact hlt
    · change _ = low.entries ++ (c.middle.entries ++ (c.high.entries ++ []))
      rw [hmiddle, hhigh, hlow]
      simp
  · rw [hrun]
    refine insertBelow_spec (c := { c.incrementRowCount with low := low }) ⟨h.limit_pos,
      ?_, hlow.le, ?_, h.middle_full⟩ hlow h.offset_eq h.limit_eq h.capacity_eq h.middle_le
        h.rest_nil h.high_le hcount hpass
      (sorted_append.1 (h.split ▸ hsorted)).2.1 hnet
    · exact hsome.trans h.low_isSome
    · exact fun hlt => absurd hlow hlt.ne

end Stream.TopNCache
