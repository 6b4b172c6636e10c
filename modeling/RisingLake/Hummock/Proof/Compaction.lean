import RisingLake.Hummock.Proof.Compactor

/-!
# Splitting a compaction, and reading its result

The output of a compaction is the same whether the range is compacted at once or split at user keys
(`output_split`): the versions of a user key lie on one side of a split. A read that is not older
than the newest version of a key finds the same in the output as in the input (`readAt_output`),
where the values of tables with a schema have lost their stale columns.
-/

namespace Hummock

open Res ValueEncoding List

variable {F : Type} {env : CapacitySplitEnv F} {config : TaskConfig}
  {partition : HashMap TableId Nat} {watermarks : BTreeMap TableId ReadTableWatermark}
  {decides : FullKey → Bool} {all : List InputEntry}

/-! ## The merged input -/

/-- The sorted inputs of a compaction: no two entries have the same full key, keys start with a
vnode, and the blocks of an object are in the order of their keys. -/
structure CompactionInput where
  runs : List (List InputEntry)
  sorted : ∀ run ∈ runs, run.Pairwise fun x y => x.key < y.key
  distinct : (runs.flatten.map (·.key)).Nodup
  vnodes : ∀ e ∈ runs.flatten, HasVnode e.key.userKey
  blocks : BlocksAscend runs.flatten

namespace CompactionInput

def mergeRuns (runs : List (List InputEntry)) : List InputEntry :=
  runs.foldr (fun run merged => run.merge merged fun x y => x.key ≤ y.key) []

def merged (input : CompactionInput) : List InputEntry := mergeRuns input.runs

theorem mergeRuns_perm : ∀ runs : List (List InputEntry), (mergeRuns runs).Perm runs.flatten
  | [] => .nil
  | run :: runs => (merge_perm_append _).trans ((mergeRuns_perm runs).append_left run)

theorem mergeRuns_sorted : ∀ runs : List (List InputEntry),
    (∀ run ∈ runs, run.Pairwise fun x y => x.key ≤ y.key) →
      (mergeRuns runs).Pairwise fun x y => x.key ≤ y.key
  | [], _ => .nil
  | run :: runs, h => by
    rw [forall_mem_cons] at h
    refine (pairwise_merge (fun x y z hxy hyz => ?_) (fun x y => ?_) run (mergeRuns runs)
      (h.1.imp decide_eq_true) ((mergeRuns_sorted runs h.2).imp decide_eq_true)).imp of_decide_eq_true
    · rw [decide_eq_true_eq] at hxy hyz ⊢
      exact hxy.trans hyz
    · simpa using le_total x.key y.key

theorem mem_merged {input : CompactionInput} {e : InputEntry} :
    e ∈ input.merged ↔ e ∈ input.runs.flatten := (mergeRuns_perm input.runs).mem_iff

theorem merged_ascending (input : CompactionInput) : Ascending input.merged := by
  have hsorted := mergeRuns_sorted input.runs fun run hrun => (input.sorted run hrun).imp le_of_lt
  have hdistinct : (input.merged.map (·.key)).Nodup :=
    ((mergeRuns_perm input.runs).map _).nodup_iff.2 input.distinct
  refine ⟨?_, fun e he => input.vnodes e (mem_merged.1 he)⟩
  exact (pairwise_map.1 hdistinct).imp₂ (fun _ _ hne hle => lt_of_le_of_ne hle hne) hsorted

/-- The entries that neither the watermarks nor the filters drop. -/
def kept (input : CompactionInput) (watermarks : BTreeMap TableId ReadTableWatermark)
    (filters : MultiCompactionFilter) : List InputEntry :=
  keptBy watermarks filters.decides input.merged

def ofRun (run : List InputEntry) (hsorted : run.Pairwise fun x y => x.key < y.key)
    (hvnodes : ∀ e ∈ run, HasVnode e.key.userKey) (hblocks : BlocksAscend run) :
    CompactionInput where
  runs := [run]
  sorted := by simpa using hsorted
  distinct := by
    rw [flatten_singleton]
    exact pairwise_map.2 (hsorted.imp fun h => h.ne)
  vnodes := by simpa using hvnodes
  blocks := by simpa using hblocks

theorem merged_ofRun {run : List InputEntry} (hsorted : run.Pairwise fun x y => x.key < y.key)
    (hvnodes : ∀ e ∈ run, HasVnode e.key.userKey) (hblocks : BlocksAscend run) :
    (ofRun run hsorted hvnodes hblocks).merged = run := merge_right run

end CompactionInput

/-! ## Splits -/

def splitRanges : Option UserKey → List UserKey → Option UserKey →
    List (Option UserKey × Option UserKey)
  | start, [], stop => [(start, stop)]
  | start, c :: cuts, stop => (start, some c) :: splitRanges (some c) cuts stop

/-- The cuts are user keys in order, within the range. -/
def CutsOk : Option UserKey → List UserKey → Option UserKey → Prop
  | _, [], _ => True
  | start, c :: cuts, stop => (∀ a, start = some a → a ≤ c) ∧ (∀ b, stop = some b → c ≤ b) ∧
    c.tableKey ≠ [] ∧ CutsOk (some c) cuts stop

variable {start stop : Option UserKey} {es : List InputEntry}

theorem within_split {c : UserKey} (hstart : ∀ a, start = some a → a ≤ c)
    (hstop : ∀ b, stop = some b → c ≤ b) (h : Ascending es) :
    within start stop es = within start (some c) es ++ within (some c) stop es := by
  have hbefore : ∀ e, isBefore (some c) e = true → isBefore stop e = true := by
    intro e he
    cases stop with
    | none => rfl
    | some b =>
      simp only [isBefore, Option.all_some, decide_eq_true_eq] at he ⊢
      exact he.trans_le (hstop b rfl)
  have hfrom : ∀ e, isFrom (some c) e = true → isFrom start e = true := by
    intro e he
    cases start with
    | none => rfl
    | some a =>
      simp only [isFrom, Option.all_some, decide_eq_true_eq] at he ⊢
      exact (hstart a rfl).trans he
  have hnot : ∀ e, isFrom (some c) e = !isBefore (some c) e := by
    intro e
    simp [isFrom, isBefore, ← not_lt]
  -- the entries before the cut come first
  have hsplit : es = es.filter (isBefore (some c)) ++ es.filter (isFrom (some c)) := by
    conv_lhs => rw [← takeWhile_append_dropWhile (p := isBefore (some c)) (l := es)]
    rw [takeWhile_isBefore h, Runs.dropWhile_eq_filter (h.rising.sorted.imp fun hle hy => by
      simp only [isBefore, Option.all_some, decide_eq_true_eq] at hy ⊢
      exact hle.trans_lt hy)]
    congr 1
    exact filter_congr fun e _ => (hnot e).symm
  unfold within
  conv_lhs => rw [hsplit]
  rw [filter_append, filter_filter, filter_filter]
  congr 1
  · refine filter_congr fun e _ => ?_
    cases he : isBefore (some c) e with
    | true => simp [hbefore e he]
    | false => simp
  · refine filter_congr fun e _ => ?_
    cases he : isFrom (some c) e with
    | true => simp [hfrom e he]
    | false => simp

theorem emitted_congr {last last' : Option FullKey} (h : ∀ e ∈ es, isNewKey last e.key = true)
    (h' : ∀ e ∈ es, isNewKey last' e.key = true) :
    emitted config decides last es = emitted config decides last' es := by
  cases es with
  | nil => rfl
  | cons e es =>
    rw [emitted, emitted, emits, emits, isDropped, isDropped, h e (.head _), h' e (.head _)]

def lastOf (last : Option FullKey) (es : List InputEntry) : Option FullKey :=
  (es.getLast?.map (·.key)).or last

theorem emitted_append (es es' : List InputEntry) :
    ∀ last, emitted config decides last (es ++ es') =
    emitted config decides last es ++ emitted config decides (lastOf last es) es' := by
  induction es with
  | nil => exact fun _ => rfl
  | cons e es ih =>
    intro last
    rw [cons_append, emitted, emitted, ih, append_assoc]
    congr 3
    cases es with
    | nil => rfl
    | cons e' es => simp [lastOf, getLast?_eq_some_getLast]

theorem isNewKey_lastOf {key : FullKey} (h : ∀ e ∈ es, e.key.userKey ≠ key.userKey) :
    isNewKey (lastOf none es) key = true := by
  rw [lastOf]
  cases hlast : es.getLast? with
  | none => rfl
  | some e => simp [isNewKey, h e (mem_of_getLast? hlast)]

theorem output_split (h : Ascending all) : ∀ (cuts : List UserKey) {start stop : Option UserKey},
    CutsOk start cuts stop → output config watermarks decides start stop all =
      (splitRanges start cuts stop).flatMap fun r => output config watermarks decides r.1 r.2 all
  | [], start, stop, _ => by simp [splitRanges]
  | c :: cuts, start, stop, ⟨hstart, hstop, _, hcuts⟩ => by
    have hasc : Ascending (unskipped watermarks all) := h.of_sublist filter_sublist
    rw [splitRanges, flatMap_cons, ← output_split h cuts hcuts, output,
      within_split hstart hstop hasc, emitted_append]
    congr 1
    refine emitted_congr (fun e he => isNewKey_lastOf fun x hx => ?_) fun e _ => rfl
    -- an entry before the cut has another user key than one behind it
    obtain ⟨-, hx⟩ := mem_filter.1 hx
    obtain ⟨-, he⟩ := mem_filter.1 he
    simp only [isFrom, isBefore, Option.all_some, Bool.and_eq_true, decide_eq_true_eq] at hx he
    exact (hx.2.trans_le he.1).ne

/-! ## Reads -/

/-- The value of the newest version of a key that a read at the epoch sees. -/
def readAt (es : List Entry) (key : UserKey) (epoch : HummockEpoch) : Option Bytes :=
  match es.find?
      fun e => decide (e.1.userKey = key) && decide (e.1.epochWithGap.pureEpoch ≤ epoch) with
  | some (_, .put v) => some v
  | _ => none

def IsNewest (all : List InputEntry) (x : InputEntry) : Prop :=
  x ∈ all ∧ ∀ y ∈ all, y.key.userKey = x.key.userKey → x.key ≤ y.key

variable {key : UserKey}

theorem readAt_append {es es' : List Entry} (h : ∀ e ∈ es, e.1.userKey ≠ key)
    (epoch : HummockEpoch) : readAt (es ++ es') key epoch = readAt es' key epoch := by
  have hnone : es.find? (fun e => decide (e.1.userKey = key) &&
      decide (e.1.epochWithGap.pureEpoch ≤ epoch)) = none := by
    rw [find?_eq_none]
    intro e he
    simp [h e he]
  rw [readAt, readAt, find?_append, hnone, Option.none_or]

theorem readAt_of_absent {es : List Entry} (h : ∀ e ∈ es, e.1.userKey ≠ key)
    (epoch : HummockEpoch) : readAt es key epoch = none := by
  rw [← append_nil es, readAt_append h]
  rfl

variable {epoch : HummockEpoch}

theorem readAt_cons_self {e : Entry} (es : List Entry)
    (h : e.1.epochWithGap.pureEpoch ≤ epoch) :
    readAt (e :: es) e.1.userKey epoch = e.2.intoUserValue := by
  rw [readAt, find?_cons_of_pos (by simp [h])]
  obtain ⟨key, value⟩ := e
  cases value <;> rfl

theorem mem_emitted {e : Entry} : ∀ {es : List InputEntry} {last : Option FullKey},
    e ∈ emitted config decides last es → ∃ x ∈ es, e = rewriteOf config x ∧
      (config.retainMultipleVersion = false → config.gcDeleteKeys = true → x.value.isDelete = false)
  | [], _, h => nomatch h
  | x :: es, last, h => by
    rcases mem_append.1 h with h | h
    · rw [emits] at h
      split at h
      · cases h
      · rename_i hkept
        refine ⟨x, .head _, mem_singleton.1 h, fun hretain hgc => ?_⟩
        cases hdelete : x.value.isDelete with
        | false => rfl
        | true => simp [isDropped, CompactState.isObsolete, hretain, hgc, hdelete] at hkept
    · obtain ⟨y, hy, hrest⟩ := mem_emitted h
      exact ⟨y, .tail _ hy, hrest⟩

theorem emitted_old (hretain : config.retainMultipleVersion = false) :
    ∀ {es : List InputEntry} {k : FullKey}, es.Pairwise (fun x y => x.key.userKey ≤ y.key.userKey) →
      (∀ e ∈ es, k.userKey ≤ e.key.userKey) →
    ∀ e ∈ emitted config decides (some k) es, e.1.userKey ≠ k.userKey
  | [], _, _, _, _, he => nomatch he
  | x :: es, k, hsorted, hle, e, he => by
    obtain ⟨hx, hes⟩ := pairwise_cons.1 hsorted
    by_cases heq : x.key.userKey = k.userKey
    · -- another version of the key is dropped
      have hdropped : emits config decides (some k) x = [] := by
        rw [emits]
        simp [isDropped, CompactState.isObsolete, hretain, isNewKey, heq]
      rw [emitted, hdropped] at he
      rw [← heq]
      exact emitted_old hretain hes hx e he
    · have hlt : k.userKey < x.key.userKey := lt_of_le_of_ne (hle x (.head _)) (Ne.symm heq)
      obtain ⟨y, hy, rfl, -⟩ := mem_emitted he
      have hle' : x.key.userKey ≤ y.key.userKey := by
        rcases mem_cons.1 hy with rfl | hy
        · exact le_rfl
        · exact hx y hy
      exact (hlt.trans_le hle').ne'

variable {x : InputEntry}

theorem rewriteOf_delete (h : x.value.isDelete = true) : rewriteOf config x = (x.key, .delete) := by
  obtain ⟨key, value, objectId, blockId⟩ := x
  cases value with
  | put v => cases h
  | delete => rfl

theorem readAt_emitted {before after : List InputEntry}
    (hsorted : (before ++ x :: after).Pairwise fun y z => y.key.userKey ≤ z.key.userKey)
    (hbefore : ∀ y ∈ before, y.key.userKey ≠ x.key.userKey) (hdecides : decides x.key = false)
    (hepoch : x.key.epochWithGap.pureEpoch ≤ epoch) :
    readAt (emitted config decides none (before ++ x :: after)) x.key.userKey epoch =
      (rewriteOf config x).2.intoUserValue := by
  have hnone : ∀ e ∈ emitted config decides none before, e.1.userKey ≠ x.key.userKey := by
    intro e he
    obtain ⟨y, hy, rfl, -⟩ := mem_emitted he
    exact hbefore y hy
  rw [emitted_append, readAt_append hnone, emitted, emits]
  have hnew : isNewKey (lastOf none before) x.key = true := isNewKey_lastOf hbefore
  split
  · -- a delete that is dropped, and the older versions with it
    rename_i hdropped
    obtain ⟨⟨hretain, -⟩, hdelete⟩ :
        (config.retainMultipleVersion = false ∧ config.gcDeleteKeys = true) ∧
        x.value.isDelete = true := by
      simpa [isDropped, CompactState.isObsolete, hnew, hdecides] using hdropped
    obtain ⟨-, hafter, -⟩ := pairwise_append.1 hsorted
    obtain ⟨hx, hes⟩ := pairwise_cons.1 hafter
    rw [nil_append, readAt_of_absent (emitted_old hretain hes hx), rewriteOf_delete hdelete]
    rfl
  · exact readAt_cons_self _ hepoch

/-! ## The whole -/

def InputEntry.entry (e : InputEntry) : Entry := (e.key, e.value)

/-- What a read finds in the output, and what it finds in the input: a row of a table with a schema
may have lost the columns that are not in it. -/
def ReadsAs (config : TaskConfig) (key : UserKey) (read input : Option Bytes) : Prop :=
  read = input ∨ ∃ schema row, config.tableSchemas[key.tableId]? = some schema ∧
    input = some (encodeRow row) ∧ read = some (encodeRow (row.filter fun c => schema.contains c.1))

theorem readsAs_rewriteOf (hrow : RowOk config x) :
    ReadsAs config x.key.userKey (rewriteOf config x).2.intoUserValue x.value.intoUserValue := by
  rw [rewriteOf]
  rcases rewritten_cases hrow with hnone | ⟨schema, row, hschema, hvalue, hsome⟩
  · rw [hnone]
    exact .inl rfl
  · rw [hsome, hvalue]
    exact .inr ⟨schema, row, hschema, rfl, rfl⟩

/-- A read that is not older than the newest version of the key, which the filters keep. -/
structure ReadsNewest (decides : FullKey → Bool) (all : List InputEntry) (key : UserKey)
    (epoch : HummockEpoch) : Prop where
  kept : ∀ x, IsNewest all x → x.key.userKey = key → decides x.key = false
  seen : ∀ x, IsNewest all x → x.key.userKey = key → x.key.epochWithGap.pureEpoch ≤ epoch

theorem readAt_output (h : Ascending all)
    (hrows : ∀ e ∈ keptBy watermarks decides all, RowOk config e)
    (hstart : ∀ a, start = some a → a ≤ key)
    (hstop : ∀ b, stop = some b → key < b) (hkey : isFiltered watermarks key = false)
    (hread : ReadsNewest decides all key epoch) :
    ReadsAs config key (readAt (output config watermarks decides start stop all) key epoch)
      (readAt (all.map InputEntry.entry) key epoch) := by
  have hsub : (within start stop (unskipped watermarks all)).Sublist all :=
    filter_sublist.trans filter_sublist
  cases hfind : all.find? fun e => decide (e.key.userKey = key) with
  | none =>
    have habsent : ∀ e ∈ all, e.key.userKey ≠ key := by simpa using find?_eq_none.1 hfind
    rw [readAt_of_absent, readAt_of_absent]
    · exact .inl rfl
    · intro e he
      obtain ⟨x, hx, rfl⟩ := mem_map.1 he
      exact habsent x hx
    · intro e he
      obtain ⟨x, hx, rfl, -⟩ := mem_emitted he
      exact habsent x (hsub.subset hx)
  | some x =>
    obtain ⟨hx, before, after, rfl, hbefore⟩ := find?_eq_some_iff_append.1 hfind
    obtain rfl : x.key.userKey = key := of_decide_eq_true hx
    replace hbefore : ∀ y ∈ before, y.key.userKey ≠ x.key.userKey := by simpa using hbefore
    have hnewest : IsNewest (before ++ x :: after) x := by
      refine ⟨by simp, fun y hy heq => ?_⟩
      obtain ⟨-, hsorted, -⟩ := pairwise_append.1 h.sorted
      rcases mem_append.1 hy with hy | hy
      · exact absurd heq (hbefore y hy)
      · rcases mem_cons.1 hy with rfl | hy
        · exact le_rfl
        · exact ((pairwise_cons.1 hsorted).1 y hy).le
    have hepoch := hread.seen x hnewest rfl
    -- the newest version is read
    have hin : isSkipped watermarks x = false ∧ isFrom start x = true ∧ isBefore stop x = true := by
      refine ⟨hkey, ?_, ?_⟩
      · cases start with
        | none => rfl
        | some a => exact decide_eq_true (hstart a rfl)
      · cases stop with
        | none => rfl
        | some b => exact decide_eq_true (hstop b rfl)
    have hwithin : within start stop (unskipped watermarks (before ++ x :: after)) =
        within start stop (unskipped watermarks before) ++
          x :: within start stop (unskipped watermarks after) := by
      simp [within, unskipped, hin]
    have hout :
        readAt (output config watermarks decides start stop (before ++ x :: after)) x.key.userKey
          epoch = (rewriteOf config x).2.intoUserValue := by
      rw [output, hwithin]
      refine readAt_emitted ?_ (fun y hy => ?_) (hread.kept x hnewest rfl) hepoch
      · rw [← hwithin]
        exact (h.of_sublist hsub).rising.sorted
      · exact hbefore y ((filter_sublist.trans filter_sublist).subset hy)
    have hall : readAt ((before ++ x :: after).map InputEntry.entry) x.key.userKey epoch =
        x.value.intoUserValue := by
      rw [map_append, readAt_append]
      · exact readAt_cons_self _ hepoch
      · intro e he
        obtain ⟨y, hy, rfl⟩ := mem_map.1 he
        exact hbefore y hy
    rw [hout, hall]
    refine readsAs_rewriteOf (hrows x (mem_filter.2 ⟨mem_filter.2 ⟨hnewest.1, ?_⟩, ?_⟩))
    · rw [hin.1, Bool.not_false]
    · rw [hread.kept x hnewest rfl, Bool.not_false]

/-- Running the compaction on each range and concatenating the outputs. -/
def compactSplits (env : CapacitySplitEnv F) (nextSstId : Option UserKey × Option UserKey → Nat)
    (partition : HashMap TableId Nat) (config : TaskConfig)
    (watermarks : BTreeMap TableId ReadTableWatermark) (filters : MultiCompactionFilter)
    (all : List InputEntry) (ranges : List (Option UserKey × Option UserKey)) :
    Res (List SstableBuilderOutput) := do
  let outs ← ranges.mapM
    fun r => compactKeyRange env (nextSstId r) partition (config.withRange r.1 r.2)
      (.new all watermarks) filters
  .ok (outs.flatMap (·.1))

theorem splitRanges_stop : ∀ {cuts : List UserKey} {start stop : Option UserKey},
    CutsOk start cuts stop →
    (∀ c, stop = some c → c.tableKey ≠ []) →
    ∀ r ∈ splitRanges start cuts stop, ∀ c, r.2 = some c → c.tableKey ≠ []
  | [], start, stop, _, hstop, r, hr, c, hc => by
    obtain rfl := mem_singleton.1 hr
    exact hstop c hc
  | cut :: cuts, start, stop, ⟨_, _, hcut, hcuts⟩, hstop, r, hr, c, hc => by
    rcases mem_cons.1 hr with rfl | hr
    · cases hc
      exact hcut
    · exact splitRanges_stop hcuts hstop r hr c hc

theorem readSsts_flatMap {codec : Codec} {σ τ : Type} {outs : τ → List SstableBuilderOutput}
    {es : σ → List Entry} {rs : List σ} {xs : List τ}
    (h : List.Forall₂ (fun r x => readSsts codec (outs x) = .ok (es r)) rs xs) :
    readSsts codec (xs.flatMap outs) = .ok (rs.flatMap es) := by
  induction h with
  | nil => rfl
  | cons hx _ ih => exact readSsts_append hx ih

theorem compactSplits_reads
    (hok : CompactionOk env config partition all (keptBy watermarks decides all))
    (hstop : ∀ c, stop = some c → c.tableKey ≠ []) {filters : MultiCompactionFilter}
    (hfilters : filters.Decides decides) (nextSstId : Option UserKey × Option UserKey → Nat)
    {cuts : List UserKey} (hcuts : CutsOk start cuts stop) : ReturnsOr (· ∈ sstLimits)
      (compactSplits env nextSstId partition config watermarks filters all
        (splitRanges start cuts stop))
      fun outs => readSsts env.sst.codec outs =
        .ok (output config watermarks decides start stop all) := by
  refine (ReturnsOr.mapM
    fun r hr => compactKeyRange_reads hok (splitRanges_stop hcuts hstop r hr) hfilters
      (nextSstId r)).bind fun outs houts => ?_
  rw [output_split hok.ascending cuts hcuts]
  exact readSsts_flatMap houts

/-- Unless a size exceeds `u32`, the SSTs of the splits hold the entries of the compaction at once.
A read that is not older than the newest version of its key finds what it finds in the input, where
a row may have lost the columns that its table has no more. Without older versions, `gc_delete_keys`
leaves no deletes. -/
theorem compaction_split_reads (env : CapacitySplitEnv F) (config : TaskConfig)
    (partition : HashMap TableId Nat) (watermarks : BTreeMap TableId ReadTableWatermark)
    (filters : MultiCompactionFilter) (input : CompactionInput) (hoptions : env.options.Ok)
    (hfilters : ∀ f ∈ filters, f.Consistent)
    (hvnodes : ∀ e ∈ input.kept watermarks filters, VnodesOk env partition e.key.userKey.tableId)
    (hrows : ∀ e ∈ input.kept watermarks filters, RowOk config e)
    (huniform : config.disableDropColumnOptimization = true ∨
      BlocksUniform config (input.kept watermarks filters))
    {start stop : Option UserKey} (hstop : ∀ c, stop = some c → c.tableKey ≠ [])
    {cuts : List UserKey} (hcuts : CutsOk start cuts stop)
    (nextSstId : Option UserKey × Option UserKey → Nat) : ∃ es : List Entry,
      ReturnsOr (· ∈ sstLimits)
        (compactSplits env nextSstId partition config watermarks filters input.merged
        (splitRanges start cuts stop)) (fun outs => readSsts env.sst.codec outs = .ok es) ∧
      ReturnsOr (· ∈ sstLimits) (compactKeyRange env (nextSstId (start, stop)) partition
        (config.withRange start stop) (.new input.merged watermarks) filters)
        (fun r => readSsts env.sst.codec r.1 = .ok es) ∧
      (∀ key epoch, (∀ a, start = some a → a ≤ key) → (∀ b, stop = some b → key < b) →
        isFiltered watermarks key = false →
        ReadsNewest filters.decides input.merged key epoch →
        ReadsAs config key (readAt es key epoch)
          (readAt (input.merged.map InputEntry.entry) key epoch)) ∧
      (config.gcDeleteKeys = true → config.retainMultipleVersion = false → ∀ e ∈ es,
        e.2.isDelete = false) := by
  have hok : CompactionOk env config partition input.merged _ :=
    ⟨hoptions, input.merged_ascending,
      input.blocks.of_subset fun e he => CompactionInput.mem_merged.1 he, hvnodes, huniform, hrows⟩
  have hdecides : filters.Decides filters.decides := ⟨hfilters, fun _ => rfl⟩
  refine ⟨output config watermarks filters.decides start stop input.merged,
    compactSplits_reads hok hstop hdecides nextSstId hcuts,
    compactKeyRange_reads hok hstop hdecides _,
    fun key epoch hfrom hto hkey hread => readAt_output hok.ascending hok.rows hfrom hto hkey hread,
      ?_⟩
  intro hgc hretain e he
  obtain ⟨x, -, rfl, hdelete⟩ := mem_emitted he
  have hput := hdelete hretain hgc
  rw [rewriteOf]
  cases rewritten config x with
  | none => exact hput
  | some value => rfl

/-- Small SSTs of tables with one vnode. -/
def bareSplitEnv : CapacitySplitEnv Unit where
  sst := bareEnv
  options := ⟨4096, 1024, 16, false, .none⟩
  filterBuilder := ()
  tableIdToVnode := (∅ : HashMap TableId Nat).insert 1 1

def versionOf (key : U8) (epoch : U64) (value : HummockValue) : InputEntry :=
  ⟨⟨vnodeKey 1 0 [key], epoch⟩, value, some 1, some 0⟩

/-- Two versions of a key, a deleted key, and a third key. -/
def versions : List InputEntry :=
  [versionOf 1 131072 (.put [8]), versionOf 1 65536 (.put [7]), versionOf 2 65536 .delete,
    versionOf 3 65536 (.put [9])]

theorem versionOf_hasVnode (key : U8) (epoch : U64) (value : HummockValue) :
    HasVnode (versionOf key epoch value).key.userKey :=
  ⟨0, [key], by decide, rfl⟩

theorem blocksAscend_of_forall {n : Nat} (h : ∀ e ∈ es, e.blockId = some n) : BlocksAscend es := by
  intro x hx y hy _ _ b b' hb hb'
  rw [h x hx] at hb
  rw [h y hy] at hb'
  cases hb
  cases hb'
  exact le_rfl

/-- The table `2` is dropped, and the catalog does not know it any more. -/
theorem compaction_split_reads_versions :
    let config : TaskConfig := ⟨⟨[], [], true⟩, true, false, none, ∅, true⟩
    let filters : MultiCompactionFilter :=
      [.newStateCleanUp ((∅ : BTreeSet TableId).insert 1), .newTtl ∅ 131072]
    let input := versions ++ [⟨⟨vnodeKey 2 0 [1], 65536⟩, .put [6], some 1, some 0⟩]
    ∃ es outs, compactSplits bareSplitEnv (fun _ => 1) ∅ config ∅ filters input
        (splitRanges none [vnodeKey 1 0 [2]] none) = .ok outs ∧
      readSsts plain outs = .ok es ∧ readAt es (vnodeKey 1 0 [1]) 131072 = some [8] ∧
      ∀ e ∈ es, e.2.isDelete = false := by
  intro config filters input
  have hvnodes : ∀ e ∈ input, HasVnode e.key.userKey := by
    simp only [input, forall_mem_append, forall_mem_singleton]
    exact ⟨by simp [versions, versionOf_hasVnode], 0, [1], by decide, rfl⟩
  have hblocks : BlocksAscend input :=
    blocksAscend_of_forall (show ∀ e ∈ input, e.blockId = some 0 by decide)
  have hsorted : input.Pairwise fun x y => x.key < y.key := by decide
  have hcounts : ∀ e ∈ (CompactionInput.ofRun input hsorted hvnodes hblocks).kept ∅ filters,
      VnodesOk bareSplitEnv ∅ e.key.userKey.tableId := by
    intro e he
    rw [CompactionInput.kept, CompactionInput.merged_ofRun] at he
    have htable : e.key.userKey.tableId = 1 :=
      (show ∀ e ∈ keptBy ∅ filters.decides input, e.key.userKey.tableId = 1 by decide +kernel) e he
    rw [htable]
    exact ⟨1, by decide +kernel, by decide, by simp⟩
  obtain ⟨es, hsplits, -, hreads, hdeletes⟩ :=
    compaction_split_reads bareSplitEnv config ∅ ∅ filters (.ofRun input hsorted hvnodes hblocks)
      ⟨by decide, by decide⟩
    (by simp [filters, CompactionFilter.newStateCleanUp, CompactionFilter.newTtl,
      CompactionFilter.Consistent]) hcounts
    (fun e _ v schema _ hschema => by simp [config] at hschema) (.inl rfl)
    (show ∀ c : UserKey, none = some c → c.tableKey ≠ [] by simp)
    (show CutsOk none [vnodeKey 1 0 [2]] none from ⟨by simp, by simp, by decide, trivial⟩) fun _ => 1
  rw [CompactionInput.merged_ofRun] at hsplits hreads
  cases hrun : compactSplits bareSplitEnv (fun _ => 1) ∅ config ∅ filters input
      (splitRanges none [vnodeKey 1 0 [2]] none) with
  | error e =>
    have hok : (compactSplits bareSplitEnv (fun _ => 1) ∅ config ∅ filters input
      (splitRanges none [vnodeKey 1 0 [2]] none)).isOk = true := by decide +kernel
    rw [hrun] at hok
    cases hok
  | ok outs =>
    rw [hrun] at hsplits
    refine ⟨es, outs, rfl, hsplits, ?_, hdeletes rfl rfl⟩
    have hread : ReadsNewest filters.decides input (vnodeKey 1 0 [1]) 131072 :=
      ⟨fun x hx hkey => (show ∀ x ∈ input, x.key.userKey = vnodeKey 1 0 [1] →
        filters.decides x.key = false by decide +kernel) x hx.1 hkey,
      fun x hx hkey => (show ∀ x ∈ input, x.key.userKey = vnodeKey 1 0 [1] →
        x.key.epochWithGap.pureEpoch ≤ 131072 by decide +kernel) x hx.1 hkey⟩
    rcases hreads (vnodeKey 1 0 [1]) 131072 (by simp) (by simp) (by decide +kernel) hread with
      hsame | ⟨schema, row, hschema, -⟩
    · exact hsame.trans (by decide +kernel)
    · simp [config] at hschema

/-- A row, and behind it one with a column that the table has no more. -/
def staleRows : List InputEntry :=
  [versionOf 1 65536 (.put (encodeRow [(1, [7])])),
    versionOf 2 65536 (.put (encodeRow [(1, [8]), (2, [9])]))]

def splitEntries (config : TaskConfig) (all : List InputEntry) (cuts : List UserKey) :
    Option (List Entry) :=
  match compactSplits bareSplitEnv (fun _ => 1) ∅ config ∅ [] all (splitRanges none cuts none) with
  | .ok outs => (readSsts plain outs).toOption
  | .error _ => none

/-- The panic of the compaction of a key of table `1` with an empty value. -/
def panicOf (env : CapacitySplitEnv Unit) (partition : HashMap TableId Nat) (config : TaskConfig) :
    Option Panic :=
  match compactSplits env (fun _ => 1) partition config ∅ [] [versionOf 1 65536 (.put [])]
      [(none, none)] with
  | .ok _ => none
  | .error e => some e

/-- A split within a block rewrites a row that the compaction at once leaves as it is; a rewritten
row is not the one of the input; and the task that keeps all versions keeps the deletes. A value
that is kept panics if it is no row of its schema, if the catalog does not know its table, or if
this has fewer vnodes than partitions. -/
theorem compaction_split_differs : let config : TaskConfig := ⟨⟨[], [], true⟩, true, false, none,
      (∅ : HashMap TableId (BTreeSet ColumnId)).insert 1 ((∅ : BTreeSet ColumnId).insert 1), false⟩
    let whole := splitEntries config staleRows []
    let split := splitEntries config staleRows [vnodeKey 1 0 [2]]
    whole = some (staleRows.map InputEntry.entry) ∧ split ≠ whole ∧
    split.map (readAt · (vnodeKey 1 0 [2]) 65536) = some (some (encodeRow [(1, [8])])) ∧
    readAt (staleRows.map InputEntry.entry) (vnodeKey 1 0 [2]) 65536 =
      some (encodeRow [(1, [8]), (2, [9])]) ∧
    splitEntries ⟨⟨[], [], true⟩, true, true, none, ∅, false⟩ versions [] =
      some (versions.map InputEntry.entry) ∧
    panicOf bareSplitEnv ∅ config = some .index ∧
    panicOf { bareSplitEnv with tableIdToVnode := ∅ } ∅ { config with tableSchemas := ∅ } =
      some (.unwrap "table_id not found") ∧
    panicOf bareSplitEnv ((∅ : HashMap TableId Nat).insert 1 2) { config with tableSchemas := ∅ } =
      some .underflow := by
  decide +kernel

end Hummock
