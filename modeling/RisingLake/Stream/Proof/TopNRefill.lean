import RisingLake.Stream.Proof.TopNCache

/-!
# Filling the cache of a top-N from the table

A scan of the table fills a part with the rows above a key (`fillAbove_eq`). `refill` makes up for a
high cache that has run dry, from which `delete` takes the row that it moves to the middle;
`initTopnCache` fills the three parts.
-/

namespace Stream.TopNCache

open Res SortedMap List SortedMap

variable {V : Type} {offset limit : Nat} {T rest : Rows V} {c : TopNCache V} {cache table : Cache V}
  {start : Option CacheKey}

/-! ## Scans -/

theorem fillAbove_skip {skip : Rows V} (hskip : ∀ e ∈ skip, start.any (e.1 ≤ ·) = true)
    (rows : Rows V) (n : Nat) :
    fillAbove start limit (skip ++ rows) cache n =
      fillAbove start limit rows cache (n + skip.length) := by
  induction skip generalizing n with
  | nil => rfl
  | cons e skip ih =>
    rw [cons_append, fillAbove, if_pos (hskip e (.head _)),
      ih fun e he => hskip e (.tail _ he), length_cons]
    congr 1
    omega

variable {rows : Rows V} {before : Rows V}

theorem entries_insert_last {e : CacheKey × V} (h : Sorted (cache.entries ++ e :: rows)) :
    (cache.insert e.1 e.2).entries = cache.entries ++ [e] := by
  rw [entries_insert, insertEntry_of_gt]
  exact fun x hx => (sorted_append.1 h).2.2 x hx e (.head _)

theorem fillAbove_take (cache : Cache V) (start : Option CacheKey)
    (habove : ∀ e ∈ rows, start.any (e.1 ≤ ·) = false) (hsorted : Sorted (cache.entries ++ rows))
    (hlen : cache.entries.length < limit) (n : Nat) : ∃ cache', fillAbove start limit rows cache n =
        (cache', rows.drop (limit - cache.entries.length),
          n + (rows.take (limit - cache.entries.length)).length) ∧
      cache'.entries = cache.entries ++ rows.take (limit - cache.entries.length) := by
  induction rows generalizing cache n with
  | nil => exact ⟨cache, by simp [fillAbove], by simp⟩
  | cons e rows ih =>
    have hentries := entries_insert_last hsorted
    have hlen' : (cache.insert e.1 e.2).len = cache.entries.length + 1 := by
      rw [SortedMap.len, hentries, length_append, length_singleton]
    obtain ⟨m, hm⟩ : ∃ m, limit - cache.entries.length = m + 1 :=
      ⟨limit - cache.entries.length - 1, by omega⟩
    rw [fillAbove, habove e (.head _), if_neg Bool.false_ne_true]
    dsimp only
    rw [hlen', hm, take_succ_cons]
    by_cases hfull : cache.entries.length + 1 = limit
    · have hm0 : m = 0 := by omega
      refine ⟨cache.insert e.1 e.2, ?_, ?_⟩
      · rw [if_pos hfull, hm0]
        rfl
      · rw [hentries, hm0, take_zero]
    · rw [if_neg hfull]
      obtain ⟨cache', hrun, hcache⟩ := ih (cache.insert e.1 e.2)
        (fun e he => habove e (.tail _ he)) (by rwa [hentries, append_assoc])
          (by unfold SortedMap.len at hlen'; omega) (n + 1)
      have hm' : limit - (cache.insert e.1 e.2).entries.length = m := by
        unfold SortedMap.len at hlen'
        omega
      rw [hm'] at hrun hcache
      refine ⟨cache', ?_, ?_⟩
      · rw [hrun, length_cons]
        congr 2
        omega
      · rw [hcache, hentries, append_assoc]
        rfl

theorem lastCacheKeyBeforeHigh_eq (c : TopNCache V) :
    c.lastCacheKeyBeforeHigh = (lowEntries c ++ c.middle.entries).getLast?.map (·.1) := by
  unfold lastCacheKeyBeforeHigh lowEntries
  rw [getLast?_append]
  cases c.low <;> rfl

theorem any_le_last (h : Sorted before) :
    ∀ e ∈ before, (before.getLast?.map (·.1)).any (e.1 ≤ ·) = true := by
  intro e he
  have hne : before ≠ [] := ne_nil_of_mem he
  rw [getLast?_eq_some_getLast hne, Option.map_some, Option.any_some, decide_eq_true_iff]
  rw [← dropLast_append_getLast hne] at h he
  exact le_last h e he

theorem any_gt_last {after : Rows V} (h : Sorted (before ++ after)) :
    ∀ e ∈ after, (before.getLast?.map (·.1)).any (e.1 ≤ ·) = false := by
  intro e he
  cases hlast : before.getLast? with
  | none => rfl
  | some last =>
    have hlt := (sorted_append.1 h).2.2 last (mem_of_getLast? hlast) e he
    simpa using hlt

theorem fillAbove_before (hsorted : Sorted (before ++ rest)) (hlimit : 0 < limit) :
    ∃ high : Cache V, fillAbove (before.getLast?.map (·.1)) limit (before ++ rest) .empty 0 =
        (high, rest.drop limit, before.length + (rest.take limit).length) ∧
      high.entries = rest.take limit := by
  obtain ⟨hbefore, hrest, -⟩ := sorted_append.1 hsorted
  obtain ⟨high, hrun, hhigh⟩ :=
    fillAbove_take .empty _ (any_gt_last hsorted) hrest hlimit before.length
  refine ⟨high, ?_, hhigh⟩
  rw [fillAbove_skip (any_le_last hbefore), Nat.zero_add, hrun]
  rfl

def countAfter (count : Option Nat) (rows : Rows V) (n : Nat) : Option Nat :=
  if rows.isEmpty then some n else count

theorem updateTableRowCount_eq (c : TopNCache V) (rows : Rows V) (n : Nat) :
    c.updateTableRowCount rows n = { c with tableRowCount := countAfter c.tableRowCount rows n } := by
  unfold updateTableRowCount countAfter
  split <;> rfl

theorem countAfter_eq {count : Option Nat} {n : Nat} (hcount : ∀ m, count = some m → m = T.length)
    (hn : T.length = n + rows.length) : ∀ m, countAfter count rows n = some m → m = T.length := by
  intro m hm
  unfold countAfter at hm
  split at hm
  · rename_i hend
    rw [isEmpty_iff.1 hend] at hn
    exact (Option.some_inj.1 hm).symm.trans hn.symm
  · exact hcount m hm

/-! ## Refilling -/

theorem high_eq_nil (hsynced : c.highIsSynced = false) : c.high.entries = [] :=
  isEmpty_iff.1 (by simpa using (Bool.or_eq_false_iff.1 hsynced).1)

theorem rest_eq_nil (hT : T = before ++ (c.high.entries ++ rest))
    (hbefore : before = lowEntries c ++ c.middle.entries)
    (hcount : ∀ n, c.tableRowCount = some n → n = T.length) (hsynced : c.highIsSynced = true)
    (hnil : c.high.entries = []) : rest = [] := by
  unfold highIsSynced at hsynced
  rw [SortedMap.isEmpty_iff.2 hnil, Bool.not_true, Bool.false_or, beq_iff_eq] at hsynced
  have hlen := hcount _ hsynced
  rw [len_eq, hT, hbefore, hnil] at hlen
  simp only [length_append] at hlen
  exact eq_nil_of_length_eq_zero (by omega)

theorem fillHighCache_eq {withTies : Bool} {high : Cache V} {n : Nat}
    (hempty : c.high = .empty)
    (hscan : fillAbove start limit table.entries .empty 0 = (high, rows, n)) :
    fillHighCache withTies table c start limit = (do
      let (c, rows, n) ← fillHighTies withTies { c with high := high } rows n
      .ok (c.updateTableRowCount rows n)) := by
  unfold fillHighCache
  rw [hempty, isEmpty_empty, assert_true, ok_bind, hscan]

section
variable (hle : c.high.entries.length ≤ c.highCacheCapacity)
  (hcount : ∀ n, c.tableRowCount = some n → n = table.entries.length)
include hle hcount

theorem refill_spec (htable : table.entries = before ++ (c.high.entries ++ rest))
    (hbefore : before = lowEntries c ++ c.middle.entries) (hpos : 0 < c.highCacheCapacity) :
    ∃ high rest' count, c.refill false table = .ok { c with high := high, tableRowCount := count } ∧
      table.entries = before ++ (high.entries ++ rest') ∧ high.entries.length ≤
        c.highCacheCapacity ∧
      (high.entries = [] → rest' = []) ∧ ∀ n, count = some n → n = table.entries.length := by
  unfold refill
  cases hsynced : c.highIsSynced with
  | true =>
    exact ⟨c.high, rest, c.tableRowCount, rfl, htable, hle,
      rest_eq_nil htable hbefore hcount hsynced, hcount⟩
  | false =>
    rw [high_eq_nil hsynced, nil_append] at htable
    obtain ⟨high, hrun, hhigh⟩ := fillAbove_before (htable ▸ table.sorted) hpos
    have hstart : lastCacheKeyBeforeHigh { c with high := .empty } = before.getLast?.map (·.1) := by
      rw [hbefore]
      exact lastCacheKeyBeforeHigh_eq c
    have hsplit : table.entries = before ++ (high.entries ++ rest.drop c.highCacheCapacity) := by
      rw [hhigh, take_append_drop, htable]
    refine ⟨high, rest.drop c.highCacheCapacity,
      countAfter c.tableRowCount (rest.drop c.highCacheCapacity)
        (before.length + high.entries.length), ?_,
      hsplit, ?_, ?_, countAfter_eq hcount ?_⟩
    · rw [if_neg Bool.false_ne_true]
      dsimp only
      rw [if_neg Bool.false_ne_true]
      rw [hstart, fillHighCache_eq rfl (htable ▸ hrun), ← hhigh, fillHighTies,
        if_pos (by rfl), ok_bind]
      dsimp only
      rw [updateTableRowCount_eq]
    · rw [hhigh]
      exact length_take_le _ _
    · intro hnil
      rw [hhigh, take_eq_nil_iff] at hnil
      rcases hnil with hnil | hnil
      · omega
      · rw [hnil, drop_nil]
    · rw [hsplit, length_append, length_append, Nat.add_assoc]

theorem bringFirst_spec [DecidableEq V] (hlimit : 0 < c.limit)
    (hlow : c.low.isSome = decide (0 < c.offset)) (hlowLe : (lowEntries c).length ≤ c.offset)
    (hlowFull : (lowEntries c).length < c.offset → c.middle.entries = [] ∧
    c.high.entries = [] ∧ rest = []) (hoffset : c.offset = offset) (hlimitEq : c.limit = limit)
    (hcap : c.highCacheCapacity = highCapacity offset limit)
    (hmiddle : c.middle.entries.length < c.limit)
    (hbelow : c.high.entries ≠ [] ∨ rest ≠ [] → c.middle.entries.length + 1 = c.limit)
    (htable : table.entries = lowEntries c ++ (c.middle.entries ++ (c.high.entries ++ rest)))
    {base : CacheKey → Option V} {staging : TopNStaging V} (hnet : staging.Net base c.middle.get?) :
    ∃ c' rest', c.refill false table = .ok c' ∧
      Holds offset limit table.entries rest' (c'.bringFirst staging).1 ∧
      (c'.bringFirst staging).2.Net base (c'.bringFirst staging).1.middle.get? ∧
      ((c'.bringFirst staging).1.high.isEmpty ||
        (c'.bringFirst staging).1.middle.len == (c'.bringFirst staging).1.limit) = true := by
  have hsplit := htable
  rw [← append_assoc] at hsplit
  obtain ⟨high, rest', count, hrun, hT, hle', hnil, hcount'⟩ :=
    refill_spec hle hcount hsplit rfl (hcap ▸ capacity_pos offset limit)
  -- the refill has not changed what is below the middle
  have hsame : c.high.entries ++ rest = high.entries ++ rest' :=
    append_cancel_left (hsplit.symm.trans hT)
  rw [append_assoc] at hT
  refine ⟨_, rest', hrun, ?_⟩
  unfold bringFirst
  cases hfirst : high.entries with
  | nil =>
    have hnone : high.firstKeyValue = none := by rw [firstKeyValue, hfirst, head?_nil]
    have hrest : rest' = [] := hnil hfirst
    rw [hnone]
    refine ⟨⟨⟨hlimit, hlow, hlowLe, fun h => (hlowFull h).1, fun _ => hfirst⟩, hoffset,
      hlimitEq, hcap, hT, hmiddle.le, fun _ => hrest, hle', hcount'⟩, hnet, ?_⟩
    exact Bool.or_eq_true_iff.2 (.inl (SortedMap.isEmpty_iff.2 hfirst))
  | cons e es =>
    have hsome : high.firstKeyValue = some e := by rw [firstKeyValue, hfirst, head?_cons]
    have hne : c.high.entries ++ rest ≠ [] := by
      rw [hsame, hfirst]
      simp
    have hfull : c.middle.entries.length + 1 = c.limit := by
      apply hbelow
      by_contra hnot
      rw [not_or, not_ne_iff, not_ne_iff] at hnot
      exact hne (by rw [hnot.1, hnot.2, append_nil])
    have hsorted : Sorted (c.middle.entries ++ e :: (es ++ rest')) := by
      have hall := hT ▸ table.sorted
      rw [hfirst] at hall
      exact (sorted_append.1 hall).2.1
    have hentries := entries_insert_last hsorted
    have hlen : (c.middle.insert e.1 e.2).entries.length = c.limit := by
      rw [hentries, length_append, length_singleton, hfull]
    have hdrop : high.dropFirst.entries = es := by rw [entries_dropFirst, hfirst, tail_cons]
    have hkey : c.middle.get? e.1 = none :=
      get?_eq_none fun x hx => ((sorted_append.1 hsorted).2.2 x hx e (.head _)).ne
    rw [hsome]
    refine ⟨⟨⟨hlimit, hlow, hlowLe, ?_, ?_⟩, hoffset, hlimitEq, hcap, ?_, hlen.le, ?_, ?_, hcount'⟩,
      hnet.insert hkey e.2, ?_⟩
    · intro hlt
      obtain ⟨-, hh, hr⟩ := hlowFull hlt
      exact absurd (by rw [hh, hr, append_nil]) hne
    · exact fun hlt => absurd hlen hlt.ne
    · rw [hT, hfirst, hentries, hdrop, append_assoc]
      rfl
    · exact fun hlt => absurd hlen hlt.ne
    · change high.dropFirst.entries.length ≤ c.highCacheCapacity
      rw [hdrop]
      rw [hfirst, length_cons] at hle'
      omega
    · exact Bool.or_eq_true_iff.2 (.inr (beq_iff_eq.2 hlen))

end

/-! ## Deleting -/

theorem decrementRowCount_spec {T' : Rows V} (hcount : ∀ n, c.tableRowCount = some n → n = T.length)
    (hlen : T'.length + 1 = T.length) (build : Build) :
    ∃ count, c.decrementRowCount build = .ok { c with tableRowCount := count } ∧
      ∀ n, count = some n → n = T'.length := by
  unfold decrementRowCount
  cases hc : c.tableRowCount with
  | none => exact ⟨none, by cases c; cases hc; rfl, nofun⟩
  | some n =>
    have hn := hcount n hc
    cases n with
    | zero => omega
    | succ n =>
      refine ⟨some n, rfl, fun m hm => ?_⟩
      have hmn := Option.some_inj.1 hm
      omega

theorem last_lt_iff {m : Cache V} {last : CacheKey × V} (hlast : m.lastKeyValue = some last)
    (k : CacheKey) : last.1 < k ↔ ∀ e ∈ m.entries, e.1 < k := by
  obtain ⟨part, hpart⟩ := getLast?_eq_some_iff.1 hlast
  have hsorted := m.sorted
  constructor
  · intro hlt e he
    rw [hpart] at hsorted he
    exact (le_last hsorted e he).trans_lt hlt
  · intro hall
    exact hall last (mem_of_getLast? hlast)

theorem aboveMiddle_spec (hs : Shaped c) (hle : c.middle.entries.length ≤ c.limit) (k : CacheKey) :
    ∃ b, c.aboveMiddle k = .ok b ∧
      (b = true ↔ c.limit ≤ c.middle.entries.length ∧ ∀ e ∈ c.middle.entries, e.1 < k) := by
  unfold aboveMiddle
  rw [middleIsFull_eq hs (.inr hle), ok_bind]
  by_cases hfull : c.limit ≤ c.middle.entries.length
  · have hpos := hs.limit_pos
    obtain ⟨part, last, -, hlast, -⟩ :=
      exists_last (m := c.middle) (ne_nil_of_length_pos (by omega))
    rw [decide_eq_true hfull, hlast]
    refine ⟨decide (last.1 < k), rfl, ?_⟩
    rw [decide_eq_true_iff, last_lt_iff hlast, and_iff_right hfull]
  · rw [decide_eq_false hfull]
    exact ⟨false, rfl, by simp [hfull]⟩

theorem aboveLow_spec (hs : Shaped c) (k : CacheKey) : ∃ b, c.aboveLow k = .ok b ∧
      (b = true ↔ (lowEntries c).length = c.offset ∧ ∀ e ∈ lowEntries c, e.1 < k) := by
  unfold aboveLow
  rw [lowIsFull_eq hs, ok_bind]
  by_cases hfull : (lowEntries c).length = c.offset
  · rw [decide_eq_true hfull]
    cases hlow : c.low with
    | none =>
      have hnil : lowEntries c = [] := by simp [lowEntries, hlow]
      refine ⟨true, rfl, fun _ => ⟨hfull, ?_⟩, fun _ => rfl⟩
      rw [hnil]
      intro e he
      cases he
    | some low =>
      have hpos : 0 < c.offset := by simpa [hlow] using hs.low_isSome
      have hentries : lowEntries c = low.entries := by simp [lowEntries, hlow]
      rw [hentries] at hfull ⊢
      obtain ⟨part, last, -, hlast, -⟩ := exists_last (m := low) (ne_nil_of_length_pos (by omega))
      dsimp only
      rw [hlast]
      refine ⟨decide (last.1 < k), rfl, ?_⟩
      rw [decide_eq_true_iff, last_lt_iff hlast, and_iff_right hfull]
  · rw [decide_eq_false hfull]
    exact ⟨false, rfl, by simp [hfull]⟩

theorem Shaped.le_of_below (hs : Shaped c) (hrest : c.middle.entries.length < c.limit → rest = [])
    (hne : c.high.entries ≠ [] ∨ rest ≠ []) : c.limit ≤ c.middle.entries.length := by
  by_contra hlt
  rcases hne with hne | hne
  · exact hne (hs.middle_full (by omega))
  · exact hne (hrest (by omega))

variable [DecidableEq V] {k : CacheKey} {row : V} {base : CacheKey → Option V}
  {staging : TopNStaging V}

section

variable (h : Holds offset limit T rest c) {count : Option Nat}
  (hcount : ∀ n, count = some n → n = table.entries.length) (hnet : staging.Net base c.middle.get?)
  (build : Build)
include h hcount hnet

theorem deleteMiddle_spec (hlow : (lowEntries c).length = c.offset)
    (htable : table.entries = lowEntries c ++
      (eraseKey k c.middle.entries ++ (c.high.entries ++ rest)))
    (hmem : (k, row) ∈ c.middle.entries) : Yields (Holds offset limit table.entries) base
      (deleteMiddle build { c with tableRowCount := count } table k row staging) := by
  have hget : c.middle.get? k = some row := get?_eq_some_iff.2 hmem
  have hlen := length_eraseKey c.middle.sorted hmem
  have hlt : (eraseKey k c.middle.entries).length < c.limit := hlen.trans_le h.middle_le
  have hone : c.high.entries ≠ [] ∨ rest ≠ [] → (eraseKey k c.middle.entries).length + 1 =
      c.limit := by
    intro hne
    have hfull := h.le_of_below h.rest_nil hne
    omega
  obtain ⟨c', rest', hrun, hholds, hnet', hassert⟩ := bringFirst_spec
    (c := { c with middle := c.middle.erase k, tableRowCount := count })
    h.high_le hcount h.limit_pos h.low_isSome hlow.le
      (fun hlt => absurd hlow hlt.ne) h.offset_eq h.limit_eq
    h.capacity_eq hlt hone htable (hnet.delete hget)
  refine ⟨_, _, rest', ?_, hholds, hnet'⟩
  unfold deleteMiddle
  rw [hget]
  dsimp only
  rw [Option.isNone_some, hrun, ok_bind, hassert]
  rfl

theorem deleteLow_spec
    (htable : table.entries = eraseKey k (lowEntries c) ++
      (c.middle.entries ++ (c.high.entries ++ rest))) (hmem : (k, row) ∈ lowEntries c) :
    Yields (Holds offset limit table.entries) base
      (deleteLow build { c with tableRowCount := count } table k staging) := by
  unfold deleteLow
  cases hlow : c.low with
  | none => simp [lowEntries, hlow] at hmem
  | some low =>
    have hentries : lowEntries c = low.entries := by simp [lowEntries, hlow]
    have hle := h.low_le
    have hsome := h.low_isSome
    have hmiddle := h.middle_le
    rw [hentries] at hle htable hmem
    rw [hlow] at hsome
    have hget : low.get? k = some row := get?_eq_some_iff.2 hmem
    have hlen := length_eraseKey low.sorted hmem
    rw [unwrap, ok_bind]
    dsimp only
    rw [hget, Option.isNone_some]
    cases hfirst : c.middle.entries with
    | nil =>
      have hlt : c.middle.entries.length < c.limit := by
        rw [hfirst]
        exact h.limit_pos
      have hnone : c.middle.firstKeyValue = none := by rw [firstKeyValue, hfirst, head?_nil]
      rw [hnone]
      refine ⟨_, staging, [], rfl,
        ⟨⟨h.limit_pos, hsome, ?_, fun _ => hfirst, h.middle_full⟩, h.offset_eq, h.limit_eq,
          h.capacity_eq, ?_, hmiddle, fun _ => rfl, h.high_le, hcount⟩, hnet⟩
      · change (eraseKey k low.entries).length ≤ c.offset
        omega
      · change _ = eraseKey k low.entries ++ (c.middle.entries ++ (c.high.entries ++ []))
        rw [htable, h.rest_nil hlt]
    | cons e es =>
      have hfull : low.entries.length = c.offset := by
        by_contra hne
        have hnil := h.low_full (by rw [hentries]; omega)
        rw [hfirst] at hnil
        cases hnil
      have hsomeFirst : c.middle.firstKeyValue = some e := by
        rw [firstKeyValue, hfirst, head?_cons]
      have hgetFirst : c.middle.get? e.1 = some e.2 :=
        get?_eq_some_iff.2 (by rw [hfirst]; exact .head _)
      have hdrop : c.middle.dropFirst.entries = es := by rw [entries_dropFirst, hfirst, tail_cons]
      have hsorted : Sorted ((low.erase k).entries ++ e :: (es ++ (c.high.entries ++ rest))) := by
        have hall := htable ▸ table.sorted
        rwa [hfirst] at hall
      have hinsert := entries_insert_last hsorted
      have hlowLen : ((low.erase k).insert e.1 e.2).entries.length = c.offset := by
        rw [hinsert, length_append, length_singleton, entries_erase, hlen, hfull]
      have hnet' := hnet.delete hgetFirst
      rw [← dropFirst_eq_erase hsomeFirst] at hnet'
      have hlt : c.middle.dropFirst.entries.length < c.limit := by
        rw [hfirst, length_cons] at hmiddle
        rw [hdrop]
        omega
      have hone : c.high.entries ≠ [] ∨ rest ≠ [] → c.middle.dropFirst.entries.length + 1 =
          c.limit := by
        intro hne
        have hge := h.le_of_below h.rest_nil hne
        rw [hfirst, length_cons] at hmiddle hge
        rw [hdrop]
        omega
      obtain ⟨c', rest', hrun, hholds, hnet'', -⟩ := bringFirst_spec (c := { c with
          low := some ((low.erase k).insert e.1 e.2), middle := c.middle.dropFirst, tableRowCount :=
            count })
        h.high_le hcount h.limit_pos hsome hlowLen.le
          (fun hlt => absurd hlowLen hlt.ne) h.offset_eq h.limit_eq
        h.capacity_eq hlt hone (by
          change _ = ((low.erase k).insert e.1 e.2).entries ++
            (c.middle.dropFirst.entries ++ (c.high.entries ++ rest))
          rw [htable, hfirst, hinsert, hdrop, append_assoc]
          rfl) hnet'
      rw [hsomeFirst]
      dsimp only
      rw [hrun]
      exact ⟨_, _, rest', rfl, hholds, hnet''⟩

end

theorem delete_spec (h : Holds offset limit T rest c) (hsorted : Sorted T) (hmem : (k, row) ∈ T)
    (htable : table.entries = eraseKey k T) (hnet : staging.Net base c.middle.get?)
    (build : Build) :
    Yields (Holds offset limit table.entries) base (c.delete build table k row staging) := by
  have hlen : table.entries.length + 1 = T.length := by
    rw [htable]
    exact length_eraseKey hsorted hmem
  obtain ⟨count, hdec, hcount⟩ := decrementRowCount_spec h.count hlen build
  have hs : Shaped { c with tableRowCount := count } :=
    ⟨h.limit_pos, h.low_isSome, h.low_le, h.low_full, h.middle_full⟩
  obtain ⟨b, hb, hbIff⟩ : ∃ b, aboveMiddle { c with tableRowCount := count } k = .ok b ∧
      (b = true ↔ c.limit ≤ c.middle.entries.length ∧ ∀ e ∈ c.middle.entries, e.1 < k) :=
    aboveMiddle_spec hs h.middle_le k
  obtain ⟨b', hb', hbIff'⟩ : ∃ b, aboveLow { c with tableRowCount := count } k = .ok b ∧
      (b = true ↔ (lowEntries c).length = c.offset ∧ ∀ e ∈ lowEntries c, e.1 < k) :=
    aboveLow_spec hs k
  have hsplit := h.split
  rw [hsplit] at hsorted hmem
  obtain ⟨-, hsortedBelow, hlowLt⟩ := sorted_append.1 hsorted
  obtain ⟨-, -, hmiddleLt⟩ := sorted_append.1 hsortedBelow
  rw [hsplit, eraseKey_append] at htable
  unfold delete
  rw [hdec, ok_bind]
  rw [hb, ok_bind]
  cases b with
  | true =>
    obtain ⟨hfull, habove⟩ := hbIff.1 rfl
    have habove' : ∀ e ∈ lowEntries c, e.1 < k := by
      intro e he
      obtain ⟨x, hx⟩ := exists_mem_of_length_pos (h.limit_pos.trans_le hfull)
      exact (hlowLt e he x (mem_append_left _ hx)).trans (habove x hx)
    rw [eraseKey_of_ne fun e he => (habove' e he).ne, eraseKey_append,
      eraseKey_of_ne fun e he => (habove e he).ne, eraseKey_append] at htable
    refine ⟨_, staging, eraseKey k rest, rfl, ⟨⟨h.limit_pos, h.low_isSome, h.low_le, h.low_full, ?_⟩,
      h.offset_eq, h.limit_eq, h.capacity_eq, htable, h.middle_le, ?_, ?_, hcount⟩, hnet⟩
    · exact fun hlt => absurd hfull (not_le.2 hlt)
    · exact fun hlt => absurd hfull (not_le.2 hlt)
    · exact (length_filter_le _ _).trans h.high_le
  | false =>
    rw [hb']
    cases b' with
    | true =>
      obtain ⟨hlowFull, habove⟩ := hbIff'.1 rfl
      have hmiddle : (k, row) ∈ c.middle.entries := by
        rcases mem_append.1 hmem with hmem | hmem
        · exact absurd (habove _ hmem) (lt_irrefl k)
        rcases mem_append.1 hmem with hmem | hmem
        · exact hmem
        -- below the middle, which is then full
        have hne : c.high.entries ≠ [] ∨ rest ≠ [] := by
          rcases mem_append.1 hmem with hmem | hmem
          · exact .inl (ne_nil_of_mem hmem)
          · exact .inr (ne_nil_of_mem hmem)
        have hfull := h.le_of_below h.rest_nil hne
        exact absurd (hbIff.2 ⟨hfull, fun e he => hmiddleLt e he _ hmem⟩) Bool.false_ne_true
      have hbelow : ∀ e ∈ c.high.entries ++ rest, e.1 ≠ k :=
        fun e he => (hmiddleLt _ hmiddle e he).ne'
      rw [eraseKey_of_ne fun e he => (habove e he).ne, eraseKey_append, eraseKey_of_ne hbelow]
        at htable
      exact deleteMiddle_spec h hcount hnet build hlowFull htable hmiddle
    | false =>
      have hlow : (k, row) ∈ lowEntries c := by
        rcases mem_append.1 hmem with hmem | hmem
        · exact hmem
        have hlowFull : (lowEntries c).length = c.offset := by
          by_contra hne
          have hlt : (lowEntries c).length < c.offset := by
            have := h.low_le
            omega
          have hnil := h.low_full hlt
          rw [hnil, h.high_nil hlt, h.rest_nil (by rw [hnil]; exact h.limit_pos)] at hmem
          cases hmem
        exact absurd (hbIff'.2 ⟨hlowFull, fun e he => hlowLt e he _ hmem⟩) Bool.false_ne_true
      have hbelow : ∀ e ∈ c.middle.entries ++ (c.high.entries ++ rest), e.1 ≠ k := fun e he =>
        (hlowLt _ hlow e he).ne'
      rw [eraseKey_of_ne hbelow] at htable
      exact deleteLow_spec h hcount hnet build htable hlow

/-! ## The first scan -/

omit [DecidableEq V] in
theorem fillLow_spec (hlow : c.low = if 0 < c.offset then some .empty else none)
    (hsorted : Sorted rows) :
    ∃ low, c.fillLow rows = ({ c with low := low }, rows.drop c.offset, (rows.take c.offset).length) ∧
      low.isSome = decide (0 < c.offset) ∧ (low.map entries).getD [] = rows.take c.offset := by
  unfold fillLow
  by_cases hpos : 0 < c.offset
  · rw [if_pos hpos] at hlow
    obtain ⟨low, hrun, hentries⟩ := fillAbove_take .empty none (fun _ _ => rfl) hsorted hpos 0
    refine ⟨some low, ?_, by simp [hpos], hentries⟩
    rw [hlow]
    dsimp only
    rw [hrun, entries_empty, length_nil, Nat.sub_zero, Nat.zero_add]
  · have hzero : c.offset = 0 := by omega
    rw [if_neg hpos] at hlow
    refine ⟨c.low, ?_, by simp [hlow, hzero], by simp [hlow, hzero]⟩
    have hdrop : rows.drop c.offset = rows := by rw [hzero, drop_zero]
    have htake : rows.take c.offset = [] := by rw [hzero, take_zero]
    rw [hdrop, htake]
    split
    · rename_i low hsome
      rw [hlow] at hsome
      cases hsome
    · rfl

omit [DecidableEq V] in
theorem fillHigh_spec (withTies : Bool) (hsorted : Sorted (c.high.entries ++ rows))
    (hle : c.high.entries.length ≤ c.highCacheCapacity) (n : Nat) :
    ∃ high : Cache V, fillHigh withTies rows c n =
        .ok ({ c with high := high }, rows.drop (c.highCacheCapacity - c.high.entries.length),
          n + (rows.take (c.highCacheCapacity - c.high.entries.length)).length) ∧
      high.entries = c.high.entries ++ rows.take (c.highCacheCapacity - c.high.entries.length) := by
  induction rows generalizing c n with
  | nil =>
    refine ⟨c.high, ?_, by simp⟩
    unfold fillHigh
    rw [highIsFull_eq (.inr hle), ok_bind, drop_nil, take_nil]
    split <;> rfl
  | cons e rows ih =>
    unfold fillHigh
    rw [highIsFull_eq (.inr hle), ok_bind]
    by_cases hfull : c.highCacheCapacity ≤ c.high.entries.length
    · have hzero : c.highCacheCapacity - c.high.entries.length = 0 := by omega
      refine ⟨c.high, ?_, by simp [hzero]⟩
      rw [decide_eq_true hfull, hzero]
      rfl
    obtain ⟨m, hm⟩ : ∃ m, c.highCacheCapacity - c.high.entries.length = m + 1 :=
      ⟨c.highCacheCapacity - c.high.entries.length - 1, by omega⟩
    have hentries := entries_insert_last hsorted
    have hlen : (c.high.insert e.1 e.2).entries.length = c.high.entries.length + 1 := by
      rw [hentries, length_append, length_singleton]
    obtain ⟨high, hrun, hhigh⟩ := ih (c := { c with high := c.high.insert e.1 e.2 })
      (by rw [hentries, append_assoc]; exact hsorted)
      (by
        change (c.high.insert e.1 e.2).entries.length ≤ c.highCacheCapacity
        omega) (n + 1)
    have hm' : c.highCacheCapacity - (c.high.insert e.1 e.2).entries.length = m := by omega
    rw [hm'] at hrun hhigh
    refine ⟨high, ?_, ?_⟩
    · rw [decide_eq_false hfull, if_neg Bool.false_ne_true]
      dsimp only
      rw [hrun, hm, drop_succ_cons, take_succ_cons, length_cons, Nat.add_right_comm, Nat.add_assoc]
    · rw [hhigh, hentries, hm, append_assoc]
      rfl

def unfilled (V : Type) (offset limit : Nat) : TopNCache V where
  low := if 0 < offset then some .empty else none
  middle := .empty
  high := .empty
  highCacheCapacity := highCapacity offset limit
  offset := offset
  limit := limit
  tableRowCount := none

omit [DecidableEq V] in
theorem new_eq {withTies : Bool} (hlimit : 0 < limit) (hoffset : withTies = true → offset = 0) :
    new withTies offset limit = .ok (unfilled V offset limit) := by
  unfold new
  have hties : (!withTies || offset == 0) = true := by
    cases withTies with
    | false => rfl
    | true => simp [hoffset rfl]
  rw [decide_eq_true hlimit, hties]
  rfl

omit [DecidableEq V] in
theorem initTopnCache_eq (withTies : Bool) (table : Cache V) (offset : Nat) (hlimit : 0 < limit) :
    ∃ low middle, low.isSome = decide (0 < offset) ∧
      (low.map SortedMap.entries).getD [] = table.entries.take offset ∧
      middle.entries = (table.entries.drop offset).take limit ∧
      (unfilled V offset limit).initTopnCache withTies table = (do
        let (c, rows, n) ← fillMiddleTies withTies
          { unfilled V offset limit with low := low, middle := middle }
          ((table.entries.drop offset).drop limit)
          ((table.entries.take offset).length + ((table.entries.drop offset).take limit).length)
        assert (0 < c.highCacheCapacity) "topn cache high_capacity should always > 0"
        let (c, rows, n) ← fillHigh withTies rows c n
        let (c, rows, n) ← fillHighTies withTies c rows n
        .ok (c.updateTableRowCount rows n)) := by
  obtain ⟨low, hlowRun, hsome, hlow⟩ := fillLow_spec (c := unfilled V offset limit) rfl table.sorted
  have hsorted : Sorted (table.entries.drop offset) := table.sorted.drop
  obtain ⟨middle, hmiddleRun, hmiddle⟩ := fillAbove_take .empty none (fun _ _ => rfl) hsorted hlimit
    (table.entries.take offset).length
  rw [entries_empty, length_nil, Nat.sub_zero] at hmiddleRun hmiddle
  refine ⟨low, middle, hsome, hlow, hmiddle, ?_⟩
  have hempty : ((unfilled V offset limit).low.map SortedMap.isEmpty).getD true = true := by
    unfold unfilled
    split <;> rfl
  unfold initTopnCache
  rw [hempty, assert_true, ok_bind, hlowRun]
  dsimp only [unfilled, isEmpty_empty]
  rw [assert_true, ok_bind, assert_true, ok_bind, hmiddleRun, decide_eq_true hlimit,
    assert_true, ok_bind]

omit [DecidableEq V] in
theorem init_spec (table : Cache V) (offset : Nat) (hlimit : 0 < limit) :
    ∃ c rest, (unfilled V offset limit).initTopnCache false table = .ok c ∧
      Holds offset limit table.entries rest c := by
  obtain ⟨low, middle, hsome, hlow, hmiddle, hrun⟩ := initTopnCache_eq false table offset hlimit
  have hsorted : Sorted ((table.entries.drop offset).drop limit) := table.sorted.drop.drop
  obtain ⟨high, hhighRun, hhigh⟩ := fillHigh_spec
    (c := { unfilled V offset limit with low := low, middle := middle }) false hsorted (Nat.zero_le _)
    ((table.entries.take offset).length + ((table.entries.drop offset).take limit).length)
  dsimp only [unfilled, entries_empty] at hhighRun hhigh
  rw [length_nil, Nat.sub_zero] at hhighRun hhigh
  set rows := (table.entries.drop offset).drop limit with hrows
  set n := (table.entries.take offset).length + ((table.entries.drop offset).take limit).length with hn
  set cap := highCapacity offset limit
  have hsplit : table.entries = table.entries.take offset ++
      (middle.entries ++ (high.entries ++ rows.drop cap)) := by
    rw [hhigh, nil_append, hmiddle, take_append_drop, take_append_drop, take_append_drop]
  have hcount : table.entries.length = n + (rows.take cap).length + (rows.drop cap).length := by
    rw [Nat.add_assoc, ← length_append, take_append_drop, hn, hrows, Nat.add_assoc,
      ← length_append, take_append_drop, ← length_append, take_append_drop]
  have hmiddleFull : middle.entries.length < limit → rows = [] := by
    intro hlt
    rw [hmiddle, length_take] at hlt
    exact drop_of_length_le (by omega)
  have hcountAfter := countAfter_eq (fun m (h : none = some m) => by cases h) hcount
  refine ⟨{ unfilled V offset limit with
      low := low, middle := middle, high := high
      tableRowCount := countAfter none (rows.drop cap) (n + (rows.take cap).length) },
        rows.drop cap, ?_,
    ⟨⟨hlimit, hsome, ?_, ?_, ?_⟩, rfl, rfl, rfl, ?_, ?_, ?_, ?_, hcountAfter⟩⟩
  · have hpos : decide (0 < highCapacity offset limit) = true :=
      decide_eq_true (capacity_pos offset limit)
    rw [hrun, fillMiddleTies, if_pos (by rfl), ok_bind]
    dsimp only [unfilled]
    rw [hpos, assert_true, ok_bind, hhighRun, ok_bind]
    rw [fillHighTies, if_pos (by rfl), ok_bind]
    rw [updateTableRowCount_eq]
  · change ((low.map entries).getD []).length ≤ offset
    rw [hlow]
    exact length_take_le _ _
  · change ((low.map entries).getD []).length < offset → middle.entries = []
    intro hlt
    rw [hlow, length_take] at hlt
    rw [hmiddle, drop_of_length_le (by omega), take_nil]
  · intro hlt
    rw [hhigh, hmiddleFull hlt]
    simp
  · change _ = (low.map entries).getD [] ++ _
    rw [hlow]
    exact hsplit
  · rw [hmiddle]
    exact length_take_le _ _
  · intro hlt
    rw [hmiddleFull hlt, drop_nil]
  · rw [hhigh]
    exact length_take_le _ _

end Stream.TopNCache
