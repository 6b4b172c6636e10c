import RisingLake.Delta.RowTracking

/-!
# Row ids are given out once

A transaction's files are copies of committed ones, or continue the row ids from the watermark it
has read (`Continues`). Giving ids out anew when another commit wins keeps this for the winner's
watermark (`reassignOverlappingRowIds_pends`), so that a commit adds ids above all committed ones.
This needs that all records together are fewer than 2 ^ 63: beyond, the watermark wraps.
-/

namespace Delta.RowTracking

open Res List

variable {P : Type} {files files' : List (AddFile P)} {actions : List (Action P)}
  {commits : List (List (Action P))} {mark mark' n total : Int} {a : AddFile P}

def committed (commits : List (List (Action P))) : List (AddFile P) :=
  commits.flatten.filterMap Action.add?

def highWaterMark (commits : List (List (Action P))) : Int :=
  (extractHighWatermark commits).getD missingHighWaterMark

def AddFile.rowIds (a : AddFile P) : Set Int :=
  {i | ∃ b n, a.baseRowId = some b ∧ a.numPhysicalRecords = some n ∧ b ≤ i ∧ i < b + n}

/-! ## Files and their row ids -/

/-- The files have row ids up to the mark, those of different paths different ones. -/
structure Tracked (files : List (AddFile P)) (mark : Int) : Prop where
  known : ∀ a ∈ files, ∃ b n, a.baseRowId = some b ∧ a.numPhysicalRecords = some n ∧ 0 ≤ n ∧
    b + n - 1 ≤ mark
  apart : ∀ a ∈ files, ∀ a' ∈ files, a.path ≠ a'.path → Disjoint a.rowIds a'.rowIds

/-- New files after `files`: copies of them, or with the ids from `mark` up to `mark'`. -/
inductive Continues (files : List (AddFile P)) (mark : Int) : List (AddFile P) → Int → Prop
  | nil : Continues files mark [] mark
  | copy {new : List (AddFile P)} {mark' : Int} {a : AddFile P} :
    Continues files mark new mark' → a ∈ files → Continues files mark (new ++ [a]) mark'
  | fresh {new : List (AddFile P)} {mark' n : Int} (path : P) : Continues files mark new mark' →
    0 ≤ n →
    Continues files mark (new ++ [⟨path, some (mark' + 1), some n⟩]) (mark' + n)

theorem Tracked.rowIds_le (h : Tracked files mark) (ha : a ∈ files) {i : Int} (hi : i ∈ a.rowIds) :
    i ≤ mark := by
  obtain ⟨b, n, hb, hn, -, hle⟩ := h.known a ha
  obtain ⟨b', n', hb', hn', -, hlt⟩ := hi
  simp only [hb, hn, Option.some.injEq] at hb' hn'
  omega

theorem Tracked.fresh (h : Tracked files mark) (path : P) (hn : 0 ≤ n) :
    Tracked (files ++ [⟨path, some (mark + 1), some n⟩]) (mark + n) := by
  have hlt : ∀ i ∈ (⟨path, some (mark + 1), some n⟩ : AddFile P).rowIds, mark < i := by
    rintro i ⟨b, n', hb, -, hle, -⟩
    cases hb
    omega
  have hnew : ∀ a ∈ files, Disjoint a.rowIds (⟨path, some (mark + 1), some n⟩ : AddFile P).rowIds :=
    fun a ha => Set.disjoint_left.2 fun i hi hi' => (h.rowIds_le ha hi).not_gt (hlt i hi')
  constructor
  · simp only [forall_mem_append, forall_mem_singleton]
    refine ⟨fun a ha => ?_, _, _, rfl, rfl, hn, by omega⟩
    obtain ⟨b, n', hb, hn', hpos, hle⟩ := h.known a ha
    exact ⟨b, n', hb, hn', hpos, by omega⟩
  · simp only [forall_mem_append, forall_mem_singleton]
    refine ⟨fun a ha => ⟨h.apart a ha, fun _ => hnew a ha⟩, fun a ha _ => (hnew a ha).symm, ?_⟩
    exact fun hne => absurd rfl hne

theorem Tracked.continues (h : Tracked files mark) (hnew : Continues files mark files' mark') :
    Tracked (files ++ files') mark' ∧ mark ≤ mark' := by
  induction hnew with
  | nil => simpa using h
  | @copy new _ a _ ha ih =>
    have hmem : ∀ x ∈ files ++ (new ++ [a]), x ∈ files ++ new := by simp +contextual [or_imp, ha]
    refine ⟨⟨fun x hx => ih.1.known x (hmem x hx), fun x hx y hy => ?_⟩, ih.2⟩
    exact ih.1.apart x (hmem x hx) y (hmem y hy)
  | fresh path _ hn ih =>
    rw [← append_assoc]
    exact ⟨ih.1.fresh path hn, by omega⟩

theorem Continues.mono {files₁ : List (AddFile P)} (h : Continues files mark files' mark')
    (hsub : files ⊆ files₁) : Continues files₁ mark files' mark' := by
  induction h with
  | nil => exact .nil
  | copy _ ha ih => exact .copy ih (hsub ha)
  | fresh path _ hn ih => exact .fresh path ih hn

theorem Continues.own (h : Continues files mark files' mark') :
    mark ≤ mark' ∧ ∀ a ∈ files', a ∈ files ∨
    ∃ b n, a.baseRowId = some b ∧ a.numPhysicalRecords = some n ∧ 0 ≤ n ∧ mark < b := by
  induction h with
  | nil => simp
  | copy _ ha ih =>
    simp only [forall_mem_append, forall_mem_singleton]
    exact ⟨ih.1, ih.2, .inl ha⟩
  | fresh path _ hn ih =>
    simp only [forall_mem_append, forall_mem_singleton]
    exact ⟨by omega, ih.2, .inr ⟨_, _, rfl, rfl, hn, by omega⟩⟩

/-! ## Records -/

def records (p : AddFile P → Bool) (files : List (AddFile P)) : Int :=
  ((files.filter p).map fun a => a.numPhysicalRecords.getD 0).sum

theorem records_append (p : AddFile P → Bool) (files files' : List (AddFile P)) :
    records p (files ++ files') = records p files + records p files' := by
  rw [records, filter_append, map_append, sum_append]
  rfl

theorem records_singleton (p : AddFile P → Bool) (hn : a.numPhysicalRecords = some n) :
    records p [a] = if p a then n else 0 := by
  cases hp : p a <;> simp [records, hp, hn]

theorem records_nonneg (p : AddFile P → Bool)
    (h : ∀ a ∈ files, ∃ n, a.numPhysicalRecords = some n ∧ 0 ≤ n) : 0 ≤ records p files := by
  refine sum_nonneg fun m hm => ?_
  obtain ⟨a, ha, rfl⟩ := mem_map.1 hm
  obtain ⟨n, hn, hpos⟩ := h a (mem_filter.1 ha).1
  simpa [hn] using hpos

def freshRecords (actions : List (Action P)) : Int :=
  records (·.baseRowId.isNone) (actions.filterMap Action.add?)

/-- The files that get row ids anew when another commit wins have all the records above the mark: a
copy above it has none. -/
theorem Continues.records_eq (htracked : Tracked files mark)
    (h : Continues files mark files' mark') :
    records (fun a => !a.baseRowId.any (· ≤ mark)) files' = mark' - mark := by
  induction h with
  | nil => simp [records]
  | @copy new mark' a _ ha ih =>
    obtain ⟨b, n, hb, hn, hpos, hle⟩ := htracked.known a ha
    rw [records_append, ih, records_singleton _ hn, hb]
    by_cases hbm : b ≤ mark
    · simp [hbm]
    · obtain rfl : n = 0 := by omega
      simp
  | @fresh new mark' n path hnew hn ih =>
    have hlt : ¬mark' + 1 ≤ mark := by have := hnew.own.1; omega
    rw [records_append, ih, records_singleton (a := ⟨path, some (mark' + 1), some n⟩) _ rfl]
    simp [hlt]
    omega

/-! ## What a transaction holds -/

theorem long_eq {x : Int} (hlow : -1 ≤ x) (hfit : x < 2 ^ 63) : long x = x :=
  Int.bmod_eq_of_le (by omega) (by omega)

/-- The actions add files with `total` records after `files`, and record the new mark if it is
another. -/
def Pends (files : List (AddFile P)) (mark total : Int) (actions : List (Action P)) : Prop :=
  ∃ o, Continues files mark (actions.filterMap Action.add?) (mark + total) ∧
    actions.filterMap Action.rowIdHighWaterMark? = Option.toList o ∧ o.getD mark = mark + total

/-- What an action becomes: a copy of a file, a file with the next ids, or no file. -/
inductive Given (files : List (AddFile P)) (mark : Int) : List (Action P) × Int → Prop
  | copy {a : AddFile P} : a ∈ files → Given files mark ([.add a], mark)
  | fresh (path : P) {n : Int} : 0 ≤ n →
    Given files mark ([.add ⟨path, some (mark + 1), some n⟩], mark + n)
  | none : Given files mark ([], mark)
  | other : Given files mark ([.other], mark)

theorem mapAccumM_given (files : List (AddFile P)) (p : AddFile P → Bool)
    {f : Int → Action P → Res (List (Action P) × Int)}
    (hknown : ∀ a, .add a ∈ actions → ∃ n, a.numPhysicalRecords = some n ∧ 0 ≤ n)
    (hlow : -1 ≤ mark) (hfit : mark + records p (actions.filterMap Action.add?) < 2 ^ 63 - 1)
    (hf : ∀ m, ∀ x ∈ actions, -1 ≤ m → m + records p x.add?.toList < 2 ^ 63 - 1 →
      ReturnsOr (fun _ => True) (f m x) fun r =>
        Given files m r ∧ r.2 = m + records p x.add?.toList) :
    ReturnsOr (fun _ => True) (mapAccumM f mark actions) fun r =>
      Continues files mark (r.1.flatten.filterMap Action.add?) r.2 ∧
      r.1.flatten.filterMap Action.rowIdHighWaterMark? = [] ∧
      r.2 = mark + records p (actions.filterMap Action.add?) := by
  have hnonneg (xs : List (Action P)) (hxs : ∀ x ∈ xs, x ∈ actions) :
      0 ≤ records p (xs.filterMap Action.add?) := by
    refine records_nonneg p fun a ha => ?_
    obtain ⟨x, hx, hadd⟩ := mem_filterMap.1 ha
    cases x <;> cases hadd
    exact hknown a (hxs _ hx)
  refine (ReturnsOr.mapAccumM (fun ys m xs => (∀ x ∈ xs, x ∈ actions) ∧
    (Continues files mark (ys.flatten.filterMap Action.add?) m ∧
      ys.flatten.filterMap Action.rowIdHighWaterMark? = []) ∧ -1 ≤ m ∧
    m + records p (xs.filterMap Action.add?) = mark + records p (actions.filterMap Action.add?))
    (fun ys m x xs ⟨hxs, ⟨hys, hmarks⟩, hm, hsum⟩ => ?_)
    (l := []) ⟨fun _ => id, ⟨.nil, rfl⟩, hlow, rfl⟩).mono fun r hr => ?_
  · have hxs' : ∀ y ∈ xs, y ∈ actions := fun y hy => hxs y (.tail _ hy)
    have hrest := hnonneg xs hxs'
    have hfirst := hnonneg [x] fun y hy => hxs y (mem_singleton.1 hy ▸ .head _)
    have hcons : (x :: xs).filterMap Action.add? = x.add?.toList ++ xs.filterMap Action.add? := by
      cases x <;> rfl
    have hsingle : [x].filterMap Action.add? = x.add?.toList := by cases x <;> rfl
    rw [hsingle] at hfirst
    rw [hcons, records_append] at hsum
    refine (hf m x (hxs x (.head _)) hm (by omega)).mono fun r ⟨hr, hmark⟩ => ⟨hxs', ?_, ?_⟩
    · cases hr with
      | copy ha => simpa [hmarks] using hys.copy ha
      | fresh path hn => simpa [hmarks] using hys.fresh path hn
      | none | other => simpa [filterMap_cons, hmarks] using hys
    · omega
  · obtain ⟨-, ⟨hys, hmarks⟩, -, hsum⟩ := hr
    exact ⟨hys, hmarks, by simpa [records] using hsum⟩

theorem assignNext_given (hn : a.numPhysicalRecords = some n) (hpos : 0 ≤ n) (hlow : -1 ≤ mark)
    (hfit : mark + n < 2 ^ 63 - 1) :
    ReturnsOr (fun _ => True) (assignNext mark a) fun r => Given files mark r ∧ r.2 = mark + n := by
  rw [assignNext, hn, unwrap, ok_bind, long_eq (by omega) (by omega), long_eq (by omega) (by omega)]
  exact ⟨.fresh a.path hpos, rfl⟩

/-- The actions that enter a transaction: a file has no row ids, or it is a file of the snapshot. -/
def Enters (commits : List (List (Action P))) (actions : List (Action P)) : Prop :=
  ∀ a, .add a ∈ actions → (∃ n, a.numPhysicalRecords = some n ∧ 0 ≤ n) ∧
    (a.baseRowId = none ∨ a ∈ committed commits)

theorem Enters.freshRecords_nonneg (h : Enters commits actions) : 0 ≤ freshRecords actions := by
  refine records_nonneg _ fun a ha => ?_
  obtain ⟨x, hx, hadd⟩ := mem_filterMap.1 ha
  cases x <;> cases hadd
  exact (h a hx).1

theorem assignFreshRowIds_pends (h : Enters commits actions) (hlow : -1 ≤ highWaterMark commits)
    (hfit : highWaterMark commits + freshRecords actions < 2 ^ 63 - 1) :
    ReturnsOr (fun _ => True) (assignFreshRowIds commits actions)
      (Pends (committed commits) (highWaterMark commits) (freshRecords actions)) := by
  refine (mapAccumM_given (committed commits) (·.baseRowId.isNone) (fun a ha => (h a ha).1) hlow hfit
    fun m x hx hm hmfit => ?_).bind fun ⟨ys, m⟩ ⟨hys, hmarks, hmark⟩ => ?_
  · cases x with
    | add a =>
      obtain ⟨⟨n, hn, hpos⟩, hbase⟩ := h a hx
      simp only [Action.add?, Option.toList_some, records_singleton _ hn] at hmfit ⊢
      split
      · rename_i hnone
        rw [if_pos hnone] at hmfit
        exact assignNext_given hn hpos hm hmfit
      · exact ⟨.copy (hbase.resolve_left fun hnone => by simp_all), (Int.add_zero m).symm⟩
    | rowTrackingDomain m => trivial
    | other => exact ⟨.other, (Int.add_zero m).symm⟩
  · change Continues _ (highWaterMark commits) _ m at hys
    obtain rfl : m = highWaterMark commits + freshRecords actions := hmark
    dsimp only
    split
    · exact ⟨some _, by simpa [filterMap_cons] using hys, by simp [hmarks], rfl⟩
    · rename_i heq
      exact ⟨none, by simpa using hys, by simpa using hmarks, (not_not.1 heq).symm⟩

theorem reassignOverlappingRowIds_pends {winning : List (Action P)} {winningMark : Int}
    (hwinning : (winning.findSome? Action.rowIdHighWaterMark?).getD mark = winningMark)
    (htracked : Tracked files mark) (h : Pends files mark total actions)
    (hlow : -1 ≤ winningMark) (hfit : winningMark + total < 2 ^ 63 - 1) :
    ReturnsOr (fun _ => True) (reassignOverlappingRowIds ⟨actions, mark⟩ winning) fun info =>
      info.readRowIdHighWatermark = winningMark ∧ Pends files winningMark total info.actions := by
  obtain ⟨o, hnew, -⟩ := h
  have htotal := hnew.records_eq htracked
  rw [add_sub_cancel_left] at htotal
  have hknown (a : AddFile P) (ha : a ∈ actions.filterMap Action.add?) :
      ∃ n, a.numPhysicalRecords = some n ∧ 0 ≤ n := by
    rcases hnew.own.2 a ha with ha | ⟨b, n, -, hn, hpos, -⟩
    · obtain ⟨b, n, -, hn, hpos, -⟩ := htracked.known a ha
      exact ⟨n, hn, hpos⟩
    · exact ⟨n, hn, hpos⟩
  have hadd (a : AddFile P) (ha : .add a ∈ actions) : a ∈ actions.filterMap Action.add? :=
    mem_filterMap.2 ⟨_, ha, rfl⟩
  rw [reassignOverlappingRowIds, hwinning]
  refine (mapAccumM_given files (fun a => !a.baseRowId.any (· ≤ mark))
    (fun a ha => hknown a (hadd a ha)) hlow (htotal.symm ▸ hfit) fun m x hx hm hmfit => ?_).bind
    fun ⟨ys, m⟩ ⟨hys, hmarks, hmark⟩ => ?_
  · cases x with
    | add a =>
      obtain ⟨n, hn, hpos⟩ := hknown a (hadd a hx)
      simp only [Action.add?, Option.toList_some, records_singleton _ hn] at hmfit ⊢
      split
      · rename_i hfresh
        rw [if_pos hfresh] at hmfit
        exact assignNext_given hn hpos hm hmfit
      · rename_i hle
        refine ⟨.copy ((hnew.own.2 a (hadd a hx)).resolve_right fun ⟨b, n, hb, _, _, hlt⟩ => ?_),
          (Int.add_zero m).symm⟩
        simp [hb] at hle
        omega
    | rowTrackingDomain m => exact ⟨.none, (Int.add_zero _).symm⟩
    | other => exact ⟨.other, (Int.add_zero m).symm⟩
  · rw [htotal] at hmark
    obtain rfl : m = winningMark + total := hmark
    exact ⟨rfl, some _, by simpa [filterMap_cons] using hys, by simp [hmarks], rfl⟩

/-! ## Runs -/

theorem committed_concat (commits : List (List (Action P))) (c : List (Action P)) :
    committed (commits ++ [c]) = committed commits ++ c.filterMap Action.add? := by simp [committed]

theorem highWaterMark_concat (commits : List (List (Action P))) {c : List (Action P)}
    {o : Option Int} (h : c.filterMap Action.rowIdHighWaterMark? = o.toList) :
    highWaterMark (commits ++ [c]) = o.getD (highWaterMark commits) := by
  rw [highWaterMark, extractHighWatermark, flatten_append, flatten_singleton, filterMap_append, h]
  cases o <;> simp [highWaterMark, extractHighWatermark]

/-- Transactions commit one after another, each with any version that it has read. `total` counts
the records of the files that enter without row ids. -/
inductive Run : List (List (Action P)) → (total : Int) → Prop
  | nil : Run [] 0
  | commit {commits : List (List (Action P))} {version : Nat} {actions c : List (Action P)}
      {total : Int} :
    Run commits total → Enters (commits.take version) actions →
    commit commits version actions = .ok c → Run (commits ++ [c]) (total + freshRecords actions)

/-- What holds of every prefix of the log. -/
structure Sound (commits : List (List (Action P))) : Prop where
  tracked : ∀ pre, pre <+: commits → Tracked (committed pre) (highWaterMark pre)
  low : ∀ pre, pre <+: commits → -1 ≤ highWaterMark pre
  single : ∀ c ∈ commits, ∃ o : Option Int, c.filterMap Action.rowIdHighWaterMark? = o.toList
  mono : ∀ pre, pre <+: commits → highWaterMark pre ≤ highWaterMark commits

theorem commit_pends {version : Nat} (h : Sound commits)
    (henters : Enters (commits.take version) actions)
    (hfit : highWaterMark commits + freshRecords actions < 2 ^ 63 - 1) :
    ReturnsOr (fun _ => True) (commit commits version actions)
      (Pends (committed commits) (highWaterMark commits) (freshRecords actions)) := by
  have hfits (pre : List (List (Action P))) (hpre : pre <+: commits) :
      highWaterMark pre + freshRecords actions < 2 ^ 63 - 1 := by
    have := h.mono pre hpre
    omega
  have hread : commits.take version <+: commits := take_prefix ..
  refine (assignFreshRowIds_pends henters (h.low _ hread) (hfits _ hread)).bind
    fun actions₁ h₁ => ?_
  refine (ReturnsOr.foldlM (fun xs info => ∃ pre, pre ++ xs = commits ∧
    info.readRowIdHighWatermark = highWaterMark pre ∧
    Pends (committed pre) (highWaterMark pre) (freshRecords actions) info.actions)
    (fun w xs info ⟨pre, hpre, hread, hpends⟩ => ?_)
    ⟨commits.take version, take_append_drop .., rfl, h₁⟩).bind fun info ⟨pre, hpre, _, hpends⟩ => ?_
  · rw [append_nil] at hpre
    exact hpre ▸ hpends
  · obtain ⟨acts, read⟩ := info
    obtain rfl : read = highWaterMark pre := hread
    obtain ⟨o, ho⟩ := h.single w (by simp [← hpre])
    have hpre' : pre ++ [w] <+: commits := ⟨xs, by simpa using hpre⟩
    have hwinning : (w.findSome? Action.rowIdHighWaterMark?).getD (highWaterMark pre) =
        highWaterMark (pre ++ [w]) := by
      rw [← head?_filterMap, ho, Option.head?_toList, highWaterMark_concat pre ho]
    refine (reassignOverlappingRowIds_pends hwinning (h.tracked pre ⟨_, hpre⟩) hpends
      (h.low _ hpre') (hfits _ hpre')).mono fun info ⟨hread, o', hnew, hmarks⟩ => ?_
    refine ⟨pre ++ [w], by simpa using hpre, hread, o', ?_, hmarks⟩
    rw [committed_concat]
    exact hnew.mono (subset_append_left ..)

/-- The records have all got row ids, from 0 on. -/
theorem Run.sound (h : Run commits total) (hfit : total < 2 ^ 63) :
    Sound commits ∧ highWaterMark commits + 1 = total := by
  induction h with
  | nil =>
    refine ⟨⟨fun pre hpre => ?_, fun pre hpre => ?_, by simp, fun pre hpre => by simp_all⟩, rfl⟩
    · rw [prefix_nil.1 hpre]
      exact ⟨by simp [committed], by simp [committed]⟩
    · rw [prefix_nil.1 hpre]
      exact Int.le_refl _
  | @commit commits version actions c total _ henters hc ih =>
    have hnonneg := henters.freshRecords_nonneg
    obtain ⟨ih, htotal⟩ := ih (by omega)
    have hpends := commit_pends ih henters (by omega)
    rw [hc] at hpends
    obtain ⟨o, hnew, ho, hm⟩ := hpends
    obtain ⟨htracked, hle⟩ := (ih.tracked commits (prefix_refl _)).continues hnew
    have hmark := highWaterMark_concat commits ho
    rw [hm] at hmark
    refine ⟨⟨fun pre hpre => ?_, fun pre hpre => ?_, ?_, fun pre hpre => ?_⟩, by omega⟩
    · rcases prefix_concat_iff.1 hpre with rfl | hpre
      · rwa [committed_concat, hmark]
      · exact ih.tracked pre hpre
    · rcases prefix_concat_iff.1 hpre with rfl | hpre
      · have := ih.low commits (prefix_refl _)
        omega
      · exact ih.low pre hpre
    · simp only [forall_mem_append, forall_mem_singleton]
      exact ⟨ih.single, o, ho⟩
    · rcases prefix_concat_iff.1 hpre with rfl | hpre
      · exact le_rfl
      · exact (ih.mono pre hpre).trans (hmark ▸ hle)

/-- No row id is given out twice, as long as fewer than 2 ^ 63 records get one: the committed files
of different paths have disjoint row ids, all of them up to the high watermark, which never goes
back. -/
theorem row_ids_unique (h : Run commits total) (hfit : total < 2 ^ 63) :
    (∀ a ∈ committed commits, ∀ a' ∈ committed commits, a.path ≠ a'.path →
      Disjoint a.rowIds a'.rowIds) ∧
    (∀ a ∈ committed commits, ∃ b n, a.baseRowId = some b ∧ a.numPhysicalRecords = some n ∧
      b + n - 1 ≤ highWaterMark commits) ∧
    ∀ pre, pre <+: commits → highWaterMark pre ≤ highWaterMark commits := by
  obtain ⟨hsound, -⟩ := h.sound hfit
  have htracked := hsound.tracked commits (prefix_refl _)
  refine ⟨htracked.apart, fun a ha => ?_, hsound.mono⟩
  obtain ⟨b, n, hb, hn, -, hle⟩ := htracked.known a ha
  exact ⟨b, n, hb, hn, hle⟩

/-- Two transactions that have read the empty table, and one that copies a file. -/
theorem row_ids_unique_retried : ∃ c c₁ c₂ : List (Action Nat), Run [c, c₁, c₂] 18 ∧
    c₂ = [.rowTrackingDomain 17, .add ⟨0, some 0, some 10⟩, .add ⟨2, some 15, some 3⟩] ∧
    (∀ pre, pre <+: [c, c₁, c₂] → highWaterMark pre ≤ 17) := by
  have h : Run [[.add ⟨0, some 0, some 10⟩, .rowTrackingDomain 9]] 10 :=
    .commit .nil (by simp [Enters]) (rfl : commit [] 0 [.add ⟨0, none, some 10⟩] = .ok _)
  have h₁ := Run.commit h (by simp [Enters]) (rfl : commit _ 0 [.add ⟨1, none, some 5⟩] = .ok _)
  have h₂ := Run.commit h₁ (by simp [Enters, committed])
    (rfl : commit _ 1 [.add ⟨0, some 0, some 10⟩, .add ⟨2, none, some 3⟩] = .ok _)
  exact ⟨_, _, _, h₂, rfl, (row_ids_unique h₂ (by decide)).2.2⟩

/-- A file of 5 records after one of 2 ^ 63 - 1: the watermark goes back, below the file's row ids.
-/
theorem row_ids_wrap : ∃ c c₁ : List (Action Nat), ∃ total, Run [c, c₁] total ∧
    c₁ = [.add ⟨1, some (2 ^ 63 - 1), some 5⟩, .rowTrackingDomain (-2 ^ 63 + 3)] ∧
    highWaterMark [c, c₁] < highWaterMark [c] := by
  have h : Run [[.add ⟨0, some 0, some (2 ^ 63 - 1)⟩, .rowTrackingDomain (2 ^ 63 - 2)]] _ :=
    .commit .nil (by simp [Enters]) (rfl : commit [] 0 [.add ⟨0, none, some (2 ^ 63 - 1)⟩] = .ok _)
  have h₁ := Run.commit h (by simp [Enters]) (rfl : commit _ 1 [.add ⟨1, none, some 5⟩] = .ok _)
  exact ⟨_, _, _, h₁, rfl, by decide⟩

end Delta.RowTracking
