import RisingLake.Stream.Proof.TopNTies

/-!
# Filling the cache of a top-N with ties from the table

A scan that fills a part goes on through the ties of its last row (`fillTies_spec`), so that the
parts are cut between sort keys. `deleteWithTies` brings the first row of the high cache to the
middle with its ties.
-/

namespace Stream.TopNCache

open Res SortedMap List SortedMap

variable {V : Type} {limit : Nat} {T rest : Rows V} {c : TopNCache V}
  {cache table : Cache V} {s : Bytes} {rows : Rows V}

theorem fillTies_spec (cache : Cache V) (hsorted : Sorted (cache.entries ++ rows)) (n : Nat) :
    ∃ cache' next rows' m ties, fillTies s rows cache n = (cache', next, rows', m) ∧
      cache'.entries = cache.entries ++ ties ∧ rows = ties ++ (next.toList ++ rows') ∧
      (∀ e ∈ ties, e.1.sortKey = s) ∧ (∀ e, next = some e → e.1.sortKey ≠ s) ∧
      (next = none → rows' = []) ∧ m + rows'.length = n + rows.length := by
  induction rows generalizing cache n with
  | nil =>
    exact ⟨cache, none, [], n, [], rfl, by simp, rfl, nofun, nofun, fun _ => rfl, rfl⟩
  | cons e rows ih =>
    unfold fillTies
    by_cases htie : e.1.sortKey = s
    · rw [if_pos htie]
      have hentries := entries_insert_last hsorted
      obtain ⟨cache', next, rows', m, ties, hrun, hcache, hrows, hties, hnext, hnone, hm⟩ :=
        ih (cache.insert e.1 e.2) (by rwa [hentries, append_assoc]) (n + 1)
      refine ⟨cache', next, rows', m, e :: ties, hrun, ?_, by rw [hrows]; rfl, ?_, hnext, hnone, ?_⟩
      · rw [hcache, hentries, append_assoc]
        rfl
      · exact forall_mem_cons.2 ⟨htie, hties⟩
      · rw [length_cons]
        omega
    · rw [if_neg htie]
      refine ⟨cache, some e, rows, n + 1, [], rfl, by simp, rfl, nofun, ?_, nofun, ?_⟩
      · intro x hx
        cases hx
        exact htie
      · rw [length_cons]
        omega

variable {es : Rows V}

theorem apart_of_ties {ties after : Rows V} {next : Option (CacheKey × V)}
    (hsorted : Sorted (es ++ (ties ++ (next.toList ++ after)))) (hes : ∀ e ∈ es, e.1.sortKey ≤ s)
    (hlast : ∃ e ∈ es, e.1.sortKey = s) (hties : ∀ e ∈ ties, e.1.sortKey = s)
    (hnext : ∀ e, next = some e → e.1.sortKey ≠ s) (hnone : next = none → after = []) :
    Apart (es ++ ties) (next.toList ++ after) := by
  have hle : ∀ e ∈ es ++ ties, e.1.sortKey ≤ s :=
    forall_mem_append.2 ⟨hes, fun e he => (hties e he).le⟩
  cases next with
  | none =>
    rw [hnone rfl]
    exact apart_nil_right _
  | some e =>
    obtain ⟨last, hmem, hlast⟩ := hlast
    rw [← append_assoc] at hsorted
    obtain ⟨-, hafter, hlt⟩ := sorted_append.1 hsorted
    have hgt : s < e.1.sortKey := by
      refine lt_of_le_of_ne (hlast ▸ sortKey_le_of_lt ?_) (hnext e rfl).symm
      exact hlt last (mem_append_left _ hmem) e (.head _)
    intro x hx x' hx'
    refine (hle x hx).trans_lt ?_
    rcases mem_cons.1 hx' with rfl | hx'
    · exact hgt
    · exact hgt.trans_le (sortKey_le_of_lt ((pairwise_cons.1 hafter).1 x' hx'))

variable {last : CacheKey × V}

theorem fillTies_last (hlast : cache.lastKeyValue = some last)
    (hsorted : Sorted (cache.entries ++ rows)) (n : Nat) :
    ∃ cache' next rows' m ties, fillTies last.1.sortKey rows cache n = (cache', next, rows', m) ∧
      cache'.entries = cache.entries ++ ties ∧ (∀ e ∈ ties, e.1.sortKey = last.1.sortKey) ∧
      cache.entries ++ rows = cache'.entries ++ (next.toList ++ rows') ∧
      Apart cache'.entries (next.toList ++ rows') ∧ (next = none → rows' = []) ∧
      m + rows'.length = n + rows.length := by
  obtain ⟨cache', next, rows', m, ties, hrun, hcache, hrows, hties, hnext, hnone, hm⟩ :=
    fillTies_spec cache hsorted n
  obtain ⟨before, ends, hends, -⟩ := exists_endsWith cache.sorted hlast
  refine ⟨cache', next, rows', m, ties, hrun, hcache, hties, ?_, ?_, hnone, hm⟩
  · rw [hcache, append_assoc, ← hrows]
  · rw [hcache]
    exact apart_of_ties (hrows ▸ hsorted) hends.le ⟨last, mem_of_getLast? hlast, rfl⟩ hties hnext hnone

theorem fillHighTies_spec (hsorted : Sorted (c.high.entries ++ rows))
    (hpos : 0 < c.highCacheCapacity)
    (hend : c.high.entries.length < c.highCacheCapacity → rows = []) (n : Nat) :
    ∃ high rest' rows' m, c.fillHighTies true rows n = .ok ({ c with high := high }, rows', m) ∧
      c.high.entries ++ rows = high.entries ++ rest' ∧ Apart high.entries rest' ∧
      (high.entries = [] → rest' = []) ∧ m + rows'.length = n + rows.length := by
  unfold fillHighTies
  rw [Bool.not_true, highIsFull_eq (.inl rfl), ok_bind]
  by_cases hfull : c.highCacheCapacity ≤ c.high.entries.length
  · obtain ⟨part, last, -, hlast, -⟩ := exists_last (m := c.high) (ne_nil_of_length_pos (by omega))
    obtain ⟨high, next, rows', m, ties, hrun, hhigh, -, hsame, hapart, -, hm⟩ :=
      fillTies_last hlast hsorted n
    rw [decide_eq_true hfull, hlast, unwrap, ok_bind]
    rw [hrun]
    refine ⟨high, _, rows', m, rfl, hsame, hapart, fun hnil => ?_, hm⟩
    rw [hhigh, append_eq_nil_iff] at hnil
    rw [hnil.1, length_nil] at hfull
    omega
  · rw [decide_eq_false hfull]
    have hnil := hend (by omega)
    exact ⟨c.high, [], rows, n, rfl, by rw [hnil], apart_nil_right _, fun _ => rfl, rfl⟩

theorem refillTies_spec {before : Rows V}
    (htable : table.entries = before ++ (c.high.entries ++ rest))
    (hbefore : before = lowEntries c ++ c.middle.entries) (hpos : 0 < c.highCacheCapacity)
    (hapart : Apart c.high.entries rest)
    (hcount : ∀ n, c.tableRowCount = some n → n = table.entries.length) :
    ∃ high rest' count, c.refill true table = .ok { c with high := high, tableRowCount := count } ∧
      c.high.entries ++ rest = high.entries ++ rest' ∧ Apart high.entries rest' ∧
      (high.entries = [] → rest' = []) ∧ ∀ n, count = some n → n = table.entries.length := by
  unfold refill
  cases hsynced : c.highIsSynced with
  | true =>
    exact ⟨c.high, rest, c.tableRowCount, rfl, rfl, hapart,
      rest_eq_nil htable hbefore hcount hsynced, hcount⟩
  | false =>
    have hnil := high_eq_nil hsynced
    have hempty : c.high = .empty := ext hnil
    rw [hnil, nil_append] at htable
    obtain ⟨high, hrun, hhigh⟩ := fillAbove_before (htable ▸ table.sorted) hpos
    have hstart : c.lastCacheKeyBeforeHigh = before.getLast?.map (·.1) := by
      rw [hbefore]
      exact lastCacheKeyBeforeHigh_eq c
    have hsorted : Sorted (high.entries ++ rest.drop c.highCacheCapacity) := by
      rw [hhigh, take_append_drop]
      exact (sorted_append.1 (htable ▸ table.sorted)).2.1
    have hend : high.entries.length < c.highCacheCapacity → rest.drop c.highCacheCapacity = [] := by
      rw [hhigh, length_take]
      exact fun hlt => drop_of_length_le (by omega)
    obtain ⟨high', rest', rows', m, hrun', hsame, hapart', hnil', hm⟩ := fillHighTies_spec
      (c := { c with high := high }) hsorted hpos hend
      (before.length + (rest.take c.highCacheCapacity).length)
    refine ⟨high', rest', countAfter c.tableRowCount rows' m, ?_, ?_, hapart', hnil',
      countAfter_eq hcount ?_⟩
    · rw [if_neg Bool.false_ne_true]
      dsimp only
      rw [if_pos rfl, hstart, fillHighCache_eq hempty (htable ▸ hrun), hrun', ok_bind]
      dsimp only
      rw [updateTableRowCount_eq]
    · rw [← hsame, hnil, hhigh, take_append_drop, nil_append]
    · rw [hm, Nat.add_assoc, ← length_append, take_append_drop, htable, length_append]

/-! ## Deleting -/

theorem filter_ties {e : CacheKey × V} (h : Sorted (e :: es)) :
    es = (es.filter fun x => x.1.sortKey = e.1.sortKey) ++
      (es.filter fun x => x.1.sortKey ≠ e.1.sortKey) ∧
      ∀ x ∈ es.filter fun x => x.1.sortKey ≠ e.1.sortKey, e.1.sortKey < x.1.sortKey := by
  obtain ⟨hlt, hes⟩ := pairwise_cons.1 h
  have hle : ∀ x ∈ es, e.1.sortKey ≤ x.1.sortKey := fun x hx => sortKey_le_of_lt (hlt x hx)
  refine ⟨?_, fun x hx => ?_⟩
  · have hmono : es.Pairwise fun x y =>
        decide (y.1.sortKey = e.1.sortKey) = true → decide (x.1.sortKey = e.1.sortKey) = true :=
      hes.imp_of_mem fun hx _ hxy hy => decide_eq_true
        (le_antisymm ((sortKey_le_of_lt hxy).trans (of_decide_eq_true hy).le) (hle _ hx))
    simpa only [decide_not] using (Runs.filter_append_filter_not hmono).symm
  · obtain ⟨hmem, hne⟩ := mem_filter.1 hx
    exact lt_of_le_of_ne (hle x hmem) (Ne.symm (by simpa using hne))

variable [DecidableEq V] {base : CacheKey → Option V} {staging : TopNStaging V}
  {k : CacheKey} {row : V}

section
variable (hnet : staging.Net base c.middle.get?)
include hnet

theorem foldl_bring (hsorted : Sorted (c.middle.entries ++ es)) :
    ∃ middle staging', es.foldl (fun (c, staging) e =>
        ({ c with middle := c.middle.insert e.1 e.2 }, staging.insert e.1 e.2)) (c, staging) =
        ({ c with middle := middle }, staging') ∧
      middle.entries = c.middle.entries ++ es ∧ staging'.Net base middle.get? := by
  induction es generalizing c staging with
  | nil => exact ⟨c.middle, staging, rfl, (append_nil _).symm, hnet⟩
  | cons e es ih =>
    have hentries := entries_insert_last hsorted
    have hkey : c.middle.get? e.1 = none :=
      get?_eq_none fun x hx => ((sorted_append.1 hsorted).2.2 x hx e (.head _)).ne
    obtain ⟨middle, staging', hrun, hmiddle, hnet'⟩ :=
      ih (c := { c with middle := c.middle.insert e.1 e.2 }) (hnet.insert hkey e.2)
        (by rwa [hentries, append_assoc])
    refine ⟨middle, staging', hrun, ?_, hnet'⟩
    rw [hmiddle]
    rw [hentries, append_assoc]
    rfl

theorem bringTies_spec (hlimit : 0 < c.limit) (hlimitEq : c.limit = limit) (hlow : c.low = none)
    (hoffset : c.offset = 0) (hpos : 0 < c.highCacheCapacity)
    (hT : T = c.middle.entries ++ (c.high.entries ++ rest)) (hsorted : Sorted T)
    (hlt : c.middle.entries.length < c.limit)
    (hone : c.high.entries ≠ [] → c.middle.entries.length + 1 = c.limit)
    (hnil : c.high.entries = [] → rest = []) (hle : ∀ e ∈ c.middle.entries, e.1.sortKey ≤ s)
    (hbelow : ∀ e ∈ c.high.entries ++ rest, s < e.1.sortKey) (hapart : Apart c.high.entries rest) :
    ∃ c' staging', c.bringTies s staging = .ok (c', staging') ∧ Tied limit T rest c' ∧
      c'.tableRowCount = c.tableRowCount ∧ staging'.Net base c'.middle.get? := by
  unfold bringTies
  cases hhigh : c.high.entries with
  | nil =>
    have hnone : c.high.firstKeyValue = none := by rw [firstKeyValue, hhigh, head?_nil]
    rw [hnone]
    refine ⟨c, staging, rfl, ⟨hlimit, hlimitEq, hlow, hoffset, hpos, hT, fun _ => ⟨hhigh, hnil hhigh⟩,
      fun hfull => absurd hlt (not_lt.2 hfull), ?_, hapart⟩, rfl, hnet⟩
    exact fun e he e' he' => (hle e he).trans_lt (hbelow e' he')
  | cons first es =>
    have hfirst : c.high.firstKeyValue = some first := by rw [firstKeyValue, hhigh, head?_cons]
    have hsortedHigh := c.high.sorted
    rw [hhigh] at hsortedHigh
    obtain ⟨hes, hgt⟩ := filter_ties hsortedHigh
    have hmem : first ∈ c.high.entries := by rw [hhigh]; exact .head _
    have hlt' : s < first.1.sortKey := hbelow first (mem_append_left _ hmem)
    set ties := es.filter fun x => x.1.sortKey = first.1.sortKey with hties
    set after := es.filter fun x => x.1.sortKey ≠ first.1.sortKey with hafter
    have hdrop : c.high.dropFirst.entries = es := by rw [entries_dropFirst, hhigh, tail_cons]
    have hkept : (c.high.dropFirst.retain fun k => k.sortKey ≠ first.1.sortKey).entries = after := by
      rw [entries_retain, hdrop]
    have hsplit : T = (c.middle.entries ++ (first :: ties)) ++ (after ++ rest) := by
      rw [hT, hhigh, hes]
      simp only [append_assoc, cons_append]
    have hsortedMiddle : Sorted (c.middle.entries ++ (first :: ties)) :=
      (sorted_append.1 (hsplit ▸ hsorted)).1
    obtain ⟨middle, staging', hrun, hmiddle, hnet'⟩ := foldl_bring
      (c := { c with high := c.high.dropFirst.retain fun k => k.sortKey ≠ first.1.sortKey }) hnet
        hsortedMiddle
    have hends : EndsWith middle.entries c.middle.entries (first :: ties) first.1.sortKey := by
      refine ⟨hmiddle, fun e he => (hle e he).trans_lt hlt', fun e he => ?_⟩
      rcases mem_cons.1 he with rfl | he
      · rfl
      · simpa using (mem_filter.1 he).2
    have hone' := hone (by rw [hhigh]; exact cons_ne_nil _ _)
    refine ⟨{ c with
        middle := middle
        high := c.high.dropFirst.retain fun k => k.sortKey ≠ first.1.sortKey }, staging', ?_,
      ⟨hlimit, hlimitEq, hlow, hoffset, hpos, ?_, ?_, ?_, ?_, ?_⟩, rfl, hnet'⟩
    · rw [hfirst]
      dsimp only
      rw [decide_eq_true hlt', assert_true, ok_bind, hdrop, hrun]
    · rw [hkept, hmiddle]
      exact hsplit
    · intro hlt
      rw [hmiddle, length_append, length_cons] at hlt
      change c.middle.entries.length + _ < c.limit at hlt
      omega
    · exact fun _ => ⟨c.middle.entries, first :: ties, _, hends, hlt⟩
    · rw [hkept]
      exact fun e he e' he' =>
        (hends.le e he).trans_lt (forall_mem_append.2 ⟨hgt, hapart first hmem⟩ e' he')
    · rw [hkept]
      refine hapart.mono (fun e he => ?_) fun e he => he
      rw [hhigh]
      exact .tail _ (mem_filter.1 he).1

theorem deleteMiddleWithTies_spec (h : Tied limit T rest c) (hsorted : Sorted T)
    (hmem : (k, row) ∈ c.middle.entries) (htable : table.entries = eraseKey k T)
    (hlast : c.middle.lastKeyValue = some last)
    (hcount : ∀ n, c.tableRowCount = some n → n = table.entries.length) :
    Yields (HoldsTies limit table.entries) base
      (c.deleteMiddleWithTies table k row last.1.sortKey staging) := by
  have hlen := length_eraseKey c.middle.sorted hmem
  have hnet' := hnet.delete (get?_eq_some_iff.2 hmem)
  have hbelow : ∀ e ∈ c.high.entries ++ rest, last.1.sortKey < e.1.sortKey := fun e he =>
    h.middle_apart last (mem_of_getLast? hlast) e he
  have hsplit : table.entries = eraseKey k c.middle.entries ++ (c.high.entries ++ rest) := by
    rw [h.split] at hsorted htable
    rw [htable, eraseKey_append]
    congr 1
    exact eraseKey_of_ne fun e he => ((sorted_append.1 hsorted).2.2 _ hmem e he).ne'
  have herased : ∀ e ∈ eraseKey k c.middle.entries, e ∈ c.middle.entries :=
    fun e he => (mem_filter.1 he).1
  unfold deleteMiddleWithTies
  by_cases hfull : (c.middle.erase k).len ≥ c.limit
  · rw [if_pos hfull]
    change c.limit ≤ (eraseKey k c.middle.entries).length at hfull
    obtain ⟨before, ties, s, hends, hbefore⟩ := h.ends (by omega)
    refine ⟨_, _, rest, rfl,
      ⟨h.with hsplit ?_ ?_ (h.middle_apart.mono herased fun e he => he) h.high_apart, hcount⟩, hnet'⟩
    · exact fun hlt => absurd hfull (not_le.2 hlt)
    · intro _
      refine ⟨eraseKey k before, eraseKey k ties, s, ⟨?_, ?_, ?_⟩, ?_⟩
      · rw [entries_erase, hends.split, eraseKey_append]
      · exact fun e he => hends.before_lt e (mem_filter.1 he).1
      · exact fun e he => hends.ties_eq e (mem_filter.1 he).1
      · exact (length_filter_le _ _).trans_lt hbefore
  · rw [if_neg hfull]
    have hlt : (eraseKey k c.middle.entries).length < c.limit := not_le.1 hfull
    obtain ⟨high, rest', count, hrun, hsame, hapart, hnil, hcount'⟩ := refillTies_spec
      (c := { c with middle := c.middle.erase k }) hsplit
      (by
        change _ = lowEntries c ++ _
        rw [h.lowEntries_nil]
        rfl) h.capacity_pos h.high_apart hcount
    have hone : high.entries ≠ [] → (eraseKey k c.middle.entries).length + 1 = c.limit := by
      intro hne
      by_contra hne'
      obtain ⟨hh, hr⟩ := h.below_nil (by omega)
      rw [hh, hr] at hsame
      exact hne (append_eq_nil_iff.1 hsame.symm).1
    obtain ⟨before, ties, hends, -⟩ := exists_endsWith c.middle.sorted hlast
    obtain ⟨c', staging', hrun', htied, hsameCount, hnet''⟩ := bringTies_spec
      (c := { c with middle := c.middle.erase k, high := high, tableRowCount := count })
      hnet' h.limit_pos h.limit_eq h.low_none h.offset_eq h.capacity_pos
        (hsame ▸ hsplit) table.sorted hlt hone
      hnil (fun e he => hends.le e (herased e he)) (hsame ▸ hbelow) hapart
    rw [hrun]
    refine ⟨c', staging', rest', hrun', ⟨htied, fun n hn => ?_⟩, hnet''⟩
    rw [hsameCount] at hn
    exact hcount' n hn

theorem deleteWithTies_spec (h : HoldsTies limit T rest c) (hsorted : Sorted T)
    (hmem : (k, row) ∈ T) (htable : table.entries = eraseKey k T) (build : Build) :
    Yields (HoldsTies limit table.entries) base (c.deleteWithTies build table k row staging) := by
  have hlen : table.entries.length + 1 = T.length := by
    rw [htable]
    exact length_eraseKey hsorted hmem
  obtain ⟨count, hdec, hcount⟩ := decrementRowCount_spec h.count hlen build
  have h1 : Tied limit T rest { c with tableRowCount := count } :=
    h.with h.split h.below_nil h.ends h.middle_apart h.high_apart
  have hne : c.middle.entries ≠ [] := by
    intro hnil
    obtain ⟨hhigh, hrest⟩ := h.below_nil (by rw [hnil]; exact h.limit_pos)
    rw [h.split, hnil, hhigh, hrest] at hmem
    cases hmem
  obtain ⟨part, last, -, hlast, -⟩ := exists_last hne
  obtain ⟨before, ties, hends, -⟩ := exists_endsWith c.middle.sorted hlast
  have hnone : c.low.isNone = true := by
    rw [h.low_none]
    rfl
  unfold deleteWithTies
  rw [hdec, ok_bind]
  rw [hnone, assert_true, hlast]
  dsimp only
  by_cases hlt : last.1.sortKey < k.sortKey
  · rw [if_pos hlt]
    have hsplit :
        table.entries = c.middle.entries ++ (eraseKey k c.high.entries ++ eraseKey k rest) := by
      rw [htable, h.split, eraseKey_append, eraseKey_append,
        eraseKey_of_ne fun e he => (lt_of_sortKey_lt ((hends.le e he).trans_lt hlt)).ne]
    have hhigh : ∀ e ∈ eraseKey k c.high.entries, e ∈ c.high.entries :=
      fun e he => (mem_filter.1 he).1
    have hrest : ∀ e ∈ eraseKey k rest, e ∈ rest := fun e he => (mem_filter.1 he).1
    refine ⟨_, staging, eraseKey k rest, rfl,
      ⟨h.with hsplit ?_ h.ends ?_ (h.high_apart.mono hhigh hrest), hcount⟩, hnet⟩
    · intro hlt
      obtain ⟨hh, hr⟩ := h.below_nil hlt
      rw [entries_erase, hh, hr]
      exact ⟨rfl, rfl⟩
    · refine h.middle_apart.mono (fun e he => he) fun e he => ?_
      rcases mem_append.1 he with he | he
      · exact mem_append_left _ (hhigh e he)
      · exact mem_append_right _ (hrest e he)
  · rw [if_neg hlt]
    have hmiddle : (k, row) ∈ c.middle.entries := by
      rw [h.split] at hmem
      rcases mem_append.1 hmem with hmem | hmem
      · exact hmem
      · exact absurd (h.middle_apart last (mem_of_getLast? hlast) _ hmem) hlt
    exact deleteMiddleWithTies_spec hnet h1 hsorted hmiddle htable hlast hcount

end

/-! ## The first scan -/

omit [DecidableEq V] in
theorem fillBelow_spec (hsorted : Sorted (c.high.entries ++ rows)) (hpos : 0 < c.highCacheCapacity)
    (hle : c.high.entries.length ≤ c.highCacheCapacity) (hcount : c.tableRowCount = none) {n : Nat}
    (hn : T.length = n + rows.length) : ∃ high rest' count, (do
        assert (0 < c.highCacheCapacity) "topn cache high_capacity should always > 0"
        let (c, rows, n) ← fillHigh true rows c n
        let (c, rows, n) ← fillHighTies true c rows n
        (.ok (c.updateTableRowCount rows n) : Res (TopNCache V))) =
        .ok { c with high := high, tableRowCount := count } ∧
      c.high.entries ++ rows = high.entries ++ rest' ∧ Apart high.entries rest' ∧
      ∀ n, count = some n → n = T.length := by
  set room := c.highCacheCapacity - c.high.entries.length
  obtain ⟨high, hrun, hhigh⟩ := fillHigh_spec true hsorted hle n
  have hsame : c.high.entries ++ rows = high.entries ++ rows.drop room := by
    rw [hhigh, append_assoc, take_append_drop]
  have hend : high.entries.length < c.highCacheCapacity → rows.drop room = [] := by
    rw [hhigh, length_append, length_take]
    exact fun hlt => drop_of_length_le (by omega)
  obtain ⟨high', rest', rows', m, hrun', hsame', hapart, -, hm⟩ :=
    fillHighTies_spec (c := { c with high := high }) (hsame ▸ hsorted) hpos hend
      (n + (rows.take room).length)
  refine ⟨high', rest', countAfter c.tableRowCount rows' m, ?_, hsame.trans hsame', hapart,
    countAfter_eq ?_ ?_⟩
  · rw [decide_eq_true hpos, assert_true, ok_bind, hrun, ok_bind]
    dsimp only
    rw [hrun', ok_bind]
    rw [updateTableRowCount_eq]
  · rw [hcount]
    exact nofun
  · rw [hm, hn, Nat.add_assoc, ← length_append, take_append_drop]

omit [DecidableEq V] in
theorem initTies_spec (table : Cache V) (hlimit : 0 < limit) :
    ∃ c rest, (unfilled V 0 limit).initTopnCache true table = .ok c ∧
      HoldsTies limit table.entries rest c := by
  obtain ⟨low, middle, hlow, -, hmiddle, hrun⟩ := initTopnCache_eq true table 0 hlimit
  have hnone : low = none := by simpa using hlow
  subst hnone
  rw [drop_zero] at hmiddle hrun
  set c0 : TopNCache V := { unfilled V 0 limit with low := none, middle := middle }
  have hshaped : Shaped c0 := by
    refine ⟨hlimit, rfl, Nat.le_refl _, ?_, fun _ => rfl⟩
    exact fun hlt => absurd hlt (Nat.not_lt_zero _)
  have hsplit : table.entries = middle.entries ++ table.entries.drop limit := by
    rw [hmiddle, take_append_drop]
  rw [hrun, fillMiddleTies, Bool.not_true, if_neg Bool.false_ne_true,
    middleIsFull_eq hshaped (.inl rfl), ok_bind]
  by_cases hfull : c0.limit ≤ c0.middle.entries.length
  · change limit ≤ middle.entries.length at hfull
    obtain ⟨part, last, -, hlast, -⟩ := exists_last (m := middle) (ne_nil_of_length_pos (by omega))
    obtain ⟨middle', next, rows, m, ties, hties, hmiddle', htiesEq, hsame, hapart, -, hm⟩ :=
      fillTies_last hlast (hsplit ▸ table.sorted)
        ((table.entries.take 0).length + (table.entries.take limit).length)
    rw [← hsplit] at hsame
    have hlenLe : middle.entries.length ≤ limit := by
      rw [hmiddle]
      exact length_take_le _ _
    have hhigh : (next.elim (empty : Cache V) fun e => empty.insert e.1 e.2).entries =
        next.toList := by
      cases next <;> rfl
    set high := next.elim (empty : Cache V) fun e => empty.insert e.1 e.2 with hhighDef
    have hsorted : Sorted (high.entries ++ rows) := by
      rw [hhigh]
      exact (sorted_append.1 (hsame ▸ table.sorted)).2.1
    have hle : high.entries.length ≤ highCapacity 0 limit := by
      have hpos := capacity_pos 0 limit
      cases next with
      | none => exact Nat.zero_le _
      | some e => exact hpos
    have hn : table.entries.length = m + rows.length := by
      rw [hm, take_zero, length_nil, Nat.zero_add, ← length_append, take_append_drop]
    obtain ⟨high', rest', count, hrun', hsame', hapart', hcount⟩ := fillBelow_spec
      (c := { c0 with middle := middle', high := high }) hsorted (capacity_pos 0 limit) hle rfl hn
    rw [hhigh] at hsame'
    obtain ⟨before, ends, hends, hne⟩ := exists_endsWith middle.sorted hlast
    have hpos := length_pos_of_ne_nil hne
    have hlen : before.length + ends.length = middle.entries.length := by
      rw [hends.split, length_append]
    have hends' : EndsWith middle'.entries before (ends ++ ties) last.1.sortKey := by
      refine ⟨?_, hends.before_lt, forall_mem_append.2 ⟨hends.ties_eq, htiesEq⟩⟩
      rw [hmiddle', hends.split, append_assoc]
    refine ⟨{ c0 with middle := middle', high := high', tableRowCount := count }, rest', ?_,
      ⟨⟨hlimit, rfl, rfl, rfl, capacity_pos 0 limit, ?_, ?_, ?_, ?_, hapart'⟩, hcount⟩⟩
    · have hlast' : c0.middle.lastKeyValue = some last := hlast
      rw [show decide (c0.limit ≤ c0.middle.entries.length) = true from decide_eq_true hfull,
        if_pos rfl, hlast', unwrap, ok_bind]
      rw [show fillTies last.1.sortKey _ c0.middle _ = _ from hties, ok_bind]
      exact hrun'
    · rw [hsame, hsame']
    · intro hlt
      change middle'.entries.length < limit at hlt
      rw [hmiddle', length_append] at hlt
      omega
    · intro _
      refine ⟨before, _, _, hends', ?_⟩
      change before.length < limit
      omega
    · rw [← hsame']
      exact hapart
  · change ¬limit ≤ middle.entries.length at hfull
    have hdrop : table.entries.drop limit = [] := by
      rw [hmiddle, length_take] at hfull
      exact drop_of_length_le (by omega)
    rw [hdrop, append_nil] at hsplit
    have hn : table.entries.length = (table.entries.take 0).length +
        (table.entries.take limit).length +
        (table.entries.drop limit).length := by
      rw [take_zero, length_nil, Nat.zero_add, ← length_append, take_append_drop]
    obtain ⟨high', rest', count, hrun', hsame', hapart', hcount⟩ := fillBelow_spec (c := c0)
      (by rw [hdrop]; exact .nil) (capacity_pos 0 limit) (Nat.zero_le _) rfl hn
    rw [hdrop] at hsame'
    obtain ⟨hhigh, hrest⟩ := append_eq_nil_iff.1 hsame'.symm
    refine ⟨{ c0 with high := high', tableRowCount := count }, rest', ?_,
      ⟨⟨hlimit, rfl, rfl, rfl, capacity_pos 0 limit, ?_, fun _ => ⟨hhigh, hrest⟩, ?_, ?_, hapart'⟩,
        hcount⟩⟩
    · rw [show decide (c0.limit ≤ c0.middle.entries.length) = false from decide_eq_false hfull,
        if_neg Bool.false_ne_true, ok_bind]
      exact hrun'
    · rw [hhigh, hrest, append_nil, append_nil]
      exact hsplit
    · exact fun hge => absurd hge hfull
    · rw [hhigh, hrest]
      exact apart_nil_right _

end Stream.TopNCache
