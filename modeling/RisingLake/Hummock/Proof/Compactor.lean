import RisingLake.Hummock.Compactor
import RisingLake.Hummock.Proof.ColumnAware
import RisingLake.Hummock.Proof.MultiBuilder

/-!
# What a compaction writes

The filters decide about a key whatever they were asked before (`CompactionFilter.decides`), so the
entries that a compaction hands on are given by the entries it reads (`emitted`): each depends on
the user key before it and on itself, as long as the values of a block lose columns together. The
loop writes them (`compactKeyRange_reads`).
-/

namespace Hummock

open Res List ValueEncoding CompactState FullKeyTracker
open CompactionFilter (ttl stateCleanUp)

/-! ## Filters -/

namespace CompactionFilter

def decides : CompactionFilter → FullKey → Bool
  | .stateCleanUp existing _, key => !existing.contains key.userKey.tableId
  | .ttl ttls expire _, key =>
    match ttls[key.userKey.tableId]? with
    | some secs => isExpired expire (secs.val * 1000) key.epochWithGap.pureEpoch
    | none => false

/-- What is remembered about the last table is right, and the times to live are positive. -/
def Consistent : CompactionFilter → Prop
  | .stateCleanUp existing last =>
    ∀ t removed, last = some (t, removed) → removed = !existing.contains t
  | .ttl ttls _ last => (∀ (t : TableId) (secs : U32), ttls[t]? = some secs → 0 < secs.val) ∧
    ∀ t mill, last = some (t, mill) → ∃ secs, ttls[t]? = some secs ∧ mill = secs.val * 1000

def Same (f f' : CompactionFilter) : Prop := f'.Consistent ∧ ∀ key, f'.decides key = f.decides key

theorem stateCleanUp_eq {existing : BTreeSet TableId} {last : Option (TableId × Bool)}
    (h : (stateCleanUp existing last).Consistent) (t : TableId) : ∃ last',
    stateCleanUpShouldDelete existing last t = (!existing.contains t, .stateCleanUp existing last') ∧
      (stateCleanUp existing last').Consistent := by
  have hnew : (stateCleanUp existing (some (t, !existing.contains t))).Consistent := by
    rintro _ _ ⟨⟩
    rfl
  unfold stateCleanUpShouldDelete
  split
  · rename_i t' removed
    split
    · rename_i heq
      subst heq
      exact ⟨_, by rw [h t' removed rfl], h⟩
    · exact ⟨_, rfl, hnew⟩
  · exact ⟨_, rfl, hnew⟩

theorem ttlOfTable_eq {ttls : HashMap TableId U32} {expire : HummockEpoch}
    {last : Option (TableId × Nat)} (h : (ttl ttls expire last).Consistent) (key : FullKey) : ∃ last',
    ttlOfTable ttls expire last key.userKey.tableId key.epochWithGap.pureEpoch =
        .ok ((ttl ttls expire last).decides key, .ttl ttls expire last') ∧
      (ttl ttls expire last').Consistent := by
  unfold ttlOfTable
  cases hsecs : ttls[key.userKey.tableId]? with
  | some secs =>
    have hdecides : (ttl ttls expire last).decides key =
        isExpired expire (secs.val * 1000) key.epochWithGap.pureEpoch := by rw [decides, hsecs]
    dsimp only
    rw [decide_eq_true (h.1 _ secs hsecs), assert_true, hdecides]
    refine ⟨_, rfl, h.1, ?_⟩
    rintro _ _ ⟨⟩
    exact ⟨secs, hsecs, rfl⟩
  | none =>
    have hdecides : (ttl ttls expire last).decides key = false := by rw [decides, hsecs]
    rw [hdecides]
    exact ⟨_, rfl, h⟩

theorem shouldDelete_decides {f : CompactionFilter} (h : f.Consistent) (key : FullKey) :
    ∃ f', f.shouldDelete key = .ok (f.decides key, f') ∧ f.Same f' := by
  cases f with
  | stateCleanUp existing last =>
    obtain ⟨last', hrun, h'⟩ := stateCleanUp_eq h key.userKey.tableId
    exact ⟨_, congrArg Except.ok hrun, h', fun _ => rfl⟩
  | ttl ttls expire last =>
    have hlater : ∃ f', ttlOfTable ttls expire last key.userKey.tableId key.epochWithGap.pureEpoch =
        .ok ((ttl ttls expire last).decides key, f') ∧
        (ttl ttls expire last).Same f' := by
      obtain ⟨last', hrun, h'⟩ := ttlOfTable_eq h key
      exact ⟨_, hrun, h', fun _ => rfl⟩
    unfold shouldDelete ttlShouldDelete
    dsimp only
    split
    · rename_i t mill
      split
      · rename_i heq
        obtain ⟨secs, hsecs, rfl⟩ := h.2 t mill rfl
        refine ⟨_, ?_, h, fun _ => rfl⟩
        rw [decides, ← heq, hsecs]
      · exact hlater
    · exact hlater

end CompactionFilter

/-- One of the filters drops the key. -/
def MultiCompactionFilter.decides (filters : MultiCompactionFilter) (key : FullKey) : Bool :=
  filters.any fun f => f.decides key

/-- The filters decide about keys as `decides` says. -/
structure MultiCompactionFilter.Decides (filters : MultiCompactionFilter)
    (decides : FullKey → Bool) : Prop where
  consistent : ∀ f ∈ filters, f.Consistent
  decides_eq : ∀ key, filters.decides key = decides key

variable {filters : MultiCompactionFilter}

namespace MultiCompactionFilter

theorem shouldDelete_any (key : FullKey) : ∀ filters : MultiCompactionFilter,
    (∀ f ∈ filters, f.Consistent) → ∃ filters',
      shouldDelete key filters = .ok (filters.decides key, filters') ∧
      (∀ f ∈ filters', f.Consistent) ∧ ∀ k, decides filters' k = filters.decides k
  | [], h => ⟨[], rfl, h, fun _ => rfl⟩
  | f :: filters, h => by
    rw [forall_mem_cons] at h
    obtain ⟨f', hf, hsame⟩ := CompactionFilter.shouldDelete_decides h.1 key
    rw [shouldDelete, hf, ok_bind, decides, any_cons]
    dsimp only
    cases f.decides key with
    | true =>
      refine ⟨f' :: filters, rfl, forall_mem_cons.2 ⟨hsame.1, h.2⟩, fun k => ?_⟩
      rw [decides, decides, any_cons, any_cons, hsame.2]
    | false =>
      obtain ⟨filters', hrun, hcons, hany⟩ := shouldDelete_any key filters h.2
      rw [hrun, ok_bind]
      refine ⟨f' :: filters', rfl, forall_mem_cons.2 ⟨hsame.1, hcons⟩, fun k => ?_⟩
      rw [decides, decides, any_cons, any_cons, hsame.2]
      exact congrArg _ (hany k)

theorem Decides.shouldDelete_eq {decides : FullKey → Bool}
    (h : filters.Decides decides) (key : FullKey) : ∃ filters',
    shouldDelete key filters = .ok (decides key, filters') ∧ Decides filters' decides := by
  obtain ⟨filters', hrun, hcons, hany⟩ := shouldDelete_any key filters h.consistent
  rw [h.decides_eq] at hrun
  exact ⟨filters', hrun, hcons, fun k => (hany k).trans (h.decides_eq k)⟩

end MultiCompactionFilter

/-! ## The last key -/

def Observed (tracker : FullKeyTracker) : Option FullKey → Prop
  | none => tracker = .new .default
  | some key => tracker.latestFullKey.userKey = key.userKey ∧ tracker.lastObservedEpochWithGap =
    key.epochWithGap

def isNewKey (last : Option FullKey) (key : FullKey) : Bool :=
  decide (last.map (·.userKey) ≠ some key.userKey)

theorem UserKey.default_lt {key : UserKey} (h : key.tableKey ≠ []) : UserKey.default < key := by
  rw [UserKey.lt_iff]
  rcases Fin.eq_zero_or_eq_succ key.tableId with h0 | ⟨t, ht⟩
  · refine .inr ⟨h0.symm, ?_⟩
    obtain ⟨b, bs, hkey⟩ := exists_cons_of_ne_nil h
    rw [hkey]
    exact nil_lt_cons b bs
  · refine .inl ?_
    rw [ht]
    exact Fin.succ_pos t

theorem HasVnode.ne_nil {key : UserKey} (h : HasVnode key) : key.tableKey ≠ [] := by
  obtain ⟨v, inner, -, hkey⟩ := h
  rw [hkey]
  intro hnil
  have := congrArg length hnil
  simp [vnodeKey, VirtualNode.length_toBeBytes, VirtualNode.size] at this

variable {last : Option FullKey} {key : FullKey}

theorem observe_eq {tracker : FullKeyTracker} (h : Observed tracker last)
    (hlt : ∀ k, last = some k → k < key) (hkey : HasVnode key.userKey) : ∃ tracker',
    tracker.observe false key = .ok (isNewKey last key, tracker') ∧
      Observed tracker' (some key) := by
  have hnew : ∀ k : UserKey, tracker.latestFullKey.userKey = k → k < key.userKey → ∃ tracker',
      tracker.observe false key = .ok (true, tracker') ∧ Observed tracker' (some key) := by
    intro k hk hlt
    refine ⟨⟨key, key.epochWithGap⟩, ?_, rfl, rfl⟩
    simp [observe, observeMultiVersion, unwrap, hk, (cmp_eq_lt_iff _ _).2 hlt]
  cases last with
  | none =>
    obtain rfl : tracker = .new .default := h
    exact hnew _ rfl (UserKey.default_lt hkey.ne_nil)
  | some k =>
    obtain ⟨huser, hepoch⟩ := h
    rcases FullKey.lt_iff.1 (hlt k rfl) with hlt | ⟨heq, hgt⟩
    · obtain ⟨tracker', hrun, hobs⟩ := hnew _ huser hlt
      have hisNew : isNewKey (some k) key = true := by simp [isNewKey, hlt.ne]
      rw [hisNew]
      exact ⟨tracker', hrun, hobs⟩
    · refine ⟨{ tracker with lastObservedEpochWithGap := key.epochWithGap }, ?_, huser.trans heq, rfl⟩
      have hisNew : isNewKey (some k) key = false := by simp [isNewKey, heq]
      rw [hisNew]
      simp [observe, observeMultiVersion, unwrap, huser, heq, hepoch, hgt.le, hgt.ne]

/-! ## What is handed on -/

section
variable (config : TaskConfig) (decides : FullKey → Bool)

/-- The value without the columns that its table has no more, if it has such columns. -/
def rewritten (e : InputEntry) : Option Bytes :=
  match rewriteValue config ∅ e with
  | .ok (value, _) => value
  | .error _ => none

/-- The entry as it is written. -/
def rewriteOf (e : InputEntry) : Entry :=
  (e.key, match rewritten config e with
    | some value => .put value
    | none => e.value)

/-- Whether the entry is dropped, if `last` is the key before it. -/
def isDropped (last : Option FullKey) (e : InputEntry) : Bool :=
  isObsolete config (isNewKey last e.key) e.value || decides e.key

def emits (last : Option FullKey) (e : InputEntry) : List Entry :=
  if isDropped config decides last e then [] else [rewriteOf config e]

def emitted : Option FullKey → List InputEntry → List Entry
  | _, [] => []
  | last, e :: es => emits config decides last e ++ emitted (some e.key) es

end

/-- The values of tables with a schema are rows. -/
def RowOk (config : TaskConfig) (e : InputEntry) : Prop :=
  ∀ v schema, e.value = .put v → config.tableSchemas[e.key.userKey.tableId]? = some schema →
    ∃ row : Row, v = encodeRow row ∧ row.length < 2 ^ 32 ∧ lastOffset row < 2 ^ 32

/-- Behind a value that loses no columns, no value of its block does. -/
def BlocksUniform (config : TaskConfig) (es : List InputEntry) : Prop :=
  ∀ x ∈ es, ∀ y ∈ es, x.objectId = y.objectId → x.blockId = y.blockId → x.key < y.key →
    x.value.isDelete = false → rewritten config x = none → rewritten config y = none

/-- The blocks of an object come in the order of their keys. -/
def BlocksAscend (es : List InputEntry) : Prop :=
  ∀ x ∈ es, ∀ y ∈ es, x.objectId = y.objectId → x.key < y.key →
    ∀ b b', x.blockId = some b → y.blockId = some b' → b ≤ b'

theorem BlocksAscend.of_subset {es es' : List InputEntry} (h : BlocksAscend es) (hsub : es' ⊆ es) :
    BlocksAscend es' := fun x hx y hy => h x (hsub hx) y (hsub hy)

/-- The blocks recorded for the schema check are not behind the entry, and say that it loses
nothing. -/
def SkipOk (config : TaskConfig) (skip : HashMap Nat Nat) (e : InputEntry) : Prop :=
  ∀ o b b', e.objectId = some o → e.blockId = some b → skip[o]? = some b' →
    b' ≤ b ∧ (b' = b → rewritten config e = none)

/-- What a kept entry adds to the blocks recorded. -/
def SkipStep (config : TaskConfig) (e : InputEntry) (skip skip' : HashMap Nat Nat) : Prop :=
  skip' = skip ∨ ∃ o b, skip' = skip.insert o b ∧ e.objectId = some o ∧ e.blockId = some b ∧
    e.value.isDelete = false ∧ rewritten config e = none ∧
    config.disableDropColumnOptimization = false

variable {config : TaskConfig} {schema : BTreeSet ColumnId} {e : InputEntry} {row : Row}

theorem rewriteUnder_eq (skip : HashMap Nat Nat) (o b : Nat) {v : Bytes}
    (hv : v = encodeRow row) (hlen : row.length < 2 ^ 32) (hoffset : lastOffset row < 2 ^ 32) :
    rewriteUnder config skip o b v schema =
      .ok ((dropInvalid schema row).map encodeRow,
        if (dropInvalid schema row).isNone &&
          !config.disableDropColumnOptimization then skip.insert o b
        else skip) := by
  rw [rewriteUnder, hv, tryDropInvalidColumns_encodeRow schema hlen hoffset]
  cases dropInvalid schema row with
  | none => cases config.disableDropColumnOptimization <;> rfl
  | some row' => rfl

variable {skip : HashMap Nat Nat} {o b : Nat}

theorem isSchemaChecked_eq (hskip : SkipOk config skip e) (ho : e.objectId = some o)
    (hb : e.blockId = some b) : isSchemaChecked skip o b = .ok (decide (skip[o]? = some b)) := by
  unfold isSchemaChecked
  cases hprev : skip[o]? with
  | none => rfl
  | some b' =>
    dsimp only
    rw [decide_eq_true (hskip o b b' ho hb hprev).1, assert_true]
    simp [BEq.beq]

/-- A value with a known block, in a table with a schema. -/
structure SchemaRow (config : TaskConfig) (e : InputEntry) (o b : Nat) (schema : BTreeSet ColumnId)
    (row : Row) : Prop where
  value : e.value = .put (encodeRow row)
  object : e.objectId = some o
  block : e.blockId = some b
  schema_eq : config.tableSchemas[e.key.userKey.tableId]? = some schema
  length : row.length < 2 ^ 32
  offset : lastOffset row < 2 ^ 32

theorem rewriteValue_cases (hrow : RowOk config e) :
    (∀ skip, SkipOk config skip e → rewriteValue config skip e = .ok (none, skip)) ∨
      ∃ o b schema row, SchemaRow config e o b schema row := by
  cases hv : e.value with
  | delete => exact .inl fun skip _ => by rw [rewriteValue, hv]
  | put v =>
    cases ho : e.objectId with
    | none => exact .inl fun skip _ => by rw [rewriteValue, hv, ho]
    | some o =>
    cases hb : e.blockId with
    | none => exact .inl fun skip _ => by rw [rewriteValue, hv, ho, hb]
    | some b =>
    cases hschema : config.tableSchemas[e.key.userKey.tableId]? with
    | none =>
      refine .inl fun skip hskip => ?_
      rw [rewriteValue, hv, ho, hb]
      dsimp only
      rw [isSchemaChecked_eq hskip ho hb, ok_bind, hschema]
      split <;> rfl
    | some schema =>
      obtain ⟨row, rfl, hlen, hoffset⟩ := hrow v schema hv hschema
      exact .inr ⟨o, b, schema, row, hv, ho, hb, hschema, hlen, hoffset⟩

theorem SchemaRow.rewriteValue_eq (h : SchemaRow config e o b schema row)
    (hskip : SkipOk config skip e) :
    rewriteValue config skip e = if skip[o]? = some b then .ok (none, skip)
      else rewriteUnder config skip o b (encodeRow row) schema := by
  rw [rewriteValue, h.value, h.object, h.block]
  dsimp only
  rw [isSchemaChecked_eq hskip h.object h.block, ok_bind, h.schema_eq]
  simp only [decide_eq_true_eq]

theorem skipOk_empty (config : TaskConfig) (e : InputEntry) : SkipOk config ∅ e := by
  intro o b b' _ _ hprev
  simp at hprev

theorem SchemaRow.rewritten_eq (h : SchemaRow config e o b schema row) :
    rewritten config e = (dropInvalid schema row).map encodeRow := by
  rw [rewritten, h.rewriteValue_eq (skipOk_empty config e), if_neg (by simp),
    rewriteUnder_eq _ o b rfl h.length h.offset]

theorem rewritten_cases (hrow : RowOk config e) :
    rewritten config e = none ∨ ∃ schema row, config.tableSchemas[e.key.userKey.tableId]? =
      some schema ∧
      e.value = .put (encodeRow row) ∧
      rewritten config e = some (encodeRow (row.filter fun c => schema.contains c.1)) := by
  rcases rewriteValue_cases hrow with hnone | ⟨o, b, schema, row, h⟩
  · rw [rewritten, hnone ∅ (skipOk_empty config e)]
    exact .inl rfl
  · rw [h.rewritten_eq, dropInvalid]
    split
    · exact .inl rfl
    · exact .inr ⟨schema, row, h.schema_eq, h.value, rfl⟩

theorem length_rewritten_le (hrow : RowOk config e) {value : Bytes}
    (h : rewritten config e = some value) : value.length ≤ valueLen e.value := by
  rcases rewritten_cases hrow with hnone | ⟨schema, row, -, hv, hsome⟩
  · rw [hnone] at h
    cases h
  · rw [hsome] at h
    cases h
    rw [hv]
    exact length_encodeRow_filter_le _ row

theorem rewriteValue_eq (hskip : SkipOk config skip e) (hrow : RowOk config e) : ∃ skip',
    rewriteValue config skip e = .ok (rewritten config e, skip') ∧
      SkipStep config e skip skip' := by
  rcases rewriteValue_cases hrow with hnone | ⟨o, b, schema, row, h⟩
  · have hrewritten : rewritten config e = none := by
      rw [rewritten, hnone ∅ (skipOk_empty config e)]
    rw [hrewritten]
    exact ⟨skip, hnone skip hskip, .inl rfl⟩
  rw [h.rewriteValue_eq hskip]
  by_cases hprev : skip[o]? = some b
  · rw [if_pos hprev, (hskip o b b h.object h.block hprev).2 rfl]
    exact ⟨skip, rfl, .inl rfl⟩
  rw [if_neg hprev, rewriteUnder_eq _ o b rfl h.length h.offset, ← h.rewritten_eq]
  refine ⟨_, rfl, ?_⟩
  split
  · rename_i hinsert
    rw [Bool.and_eq_true, Bool.not_eq_true', Option.isNone_iff_eq_none] at hinsert
    refine .inr ⟨o, b, rfl, h.object, h.block, by rw [h.value]; rfl, ?_, hinsert.2⟩
    rw [h.rewritten_eq, hinsert.1]
    rfl
  · exact .inl rfl

theorem SkipStep.skipOk {all : List InputEntry} {y : InputEntry} {skip' : HashMap Nat Nat}
    (h : SkipStep config e skip skip') (hskip : SkipOk config skip y) (he : e ∈ all) (hy : y ∈ all)
    (hlt : e.key < y.key) (hascend : BlocksAscend all)
    (huniform : config.disableDropColumnOptimization = true ∨ BlocksUniform config all) :
    SkipOk config skip' y := by
  rcases h with rfl | ⟨o, b, rfl, ho, hb, hput, hnone, henabled⟩
  · exact hskip
  have huniform : BlocksUniform config all := by
    rcases huniform with hdisabled | huniform
    · rw [hdisabled] at henabled
      cases henabled
    · exact huniform
  intro o' b' c ho' hb' hprev
  rw [HashMap.getElem?_insert_eq] at hprev
  split at hprev
  · rename_i heq
    subst heq
    cases hprev
    have hobject : e.objectId = y.objectId := ho.trans ho'.symm
    refine ⟨hascend e he y hy hobject hlt b b' hb hb', fun hblock => ?_⟩
    exact huniform e he y hy hobject (by rw [hb, hb', hblock]) hlt hput hnone
  · exact hskip o' b' c ho' hb' hprev

/-! ## The loop -/

def keptBy (watermarks : BTreeMap TableId ReadTableWatermark) (decides : FullKey → Bool)
    (es : List InputEntry) : List InputEntry :=
  (unskipped watermarks es).filter fun e => !decides e.key

/-- What the input and the task promise: keys and blocks in order, and of the entries that are not
dropped known vnodes, rows in tables with a schema, and values of a block that lose columns
together. -/
structure CompactionOk {F : Type} (env : CapacitySplitEnv F) (config : TaskConfig)
    (partition : HashMap TableId Nat) (all kept : List InputEntry) : Prop where
  options : env.options.Ok
  ascending : Ascending all
  blocks : BlocksAscend all
  vnodes : ∀ e ∈ kept, VnodesOk env partition e.key.userKey.tableId
  uniform : config.disableDropColumnOptimization = true ∨ BlocksUniform config kept
  rows : ∀ e ∈ kept, RowOk config e

theorem keptBy_subset {watermarks : BTreeMap TableId ReadTableWatermark} {decides : FullKey → Bool}
    {all : List InputEntry} : keptBy watermarks decides all ⊆ all :=
  (filter_sublist.trans filter_sublist).subset

/-- The compaction has written `es`, and the entries `rest` are left to read. -/
structure Running {F : Type} (env : CapacitySplitEnv F) (config : TaskConfig)
    (partition : HashMap TableId Nat) (watermarks : BTreeMap TableId ReadTableWatermark)
    (decides : FullKey → Bool) (all : List InputEntry) (s : CompactState F) (rest : List InputEntry)
    (es : List Entry) : Prop where
  stands : ∃ r, Stands watermarks s.iter r ∧ unskipped watermarks r = rest
  filter : MultiCompactionFilter.Decides s.compactionFilter decides
  fills : Fills env s.sstBuilder es
  partition_eq : s.sstBuilder.tableVnodePartition = partition
  skip : ∀ e ∈ rest, decides e.key = false → SkipOk config s.skipSchemaCheck e
  sublist : rest.Sublist (unskipped watermarks all)
  above : ∀ x ∈ es, ∀ e ∈ rest, x.1 < e.key

variable {F : Type} {env : CapacitySplitEnv F} {partition : HashMap TableId Nat}
  {watermarks : BTreeMap TableId ReadTableWatermark} {decides : FullKey → Bool}
  {all : List InputEntry} {s : CompactState F} {rest : List InputEntry} {es : List Entry}

theorem Running.sublist_all (h : Running env config partition watermarks decides all s rest es) :
    rest.Sublist all := h.sublist.trans filter_sublist

theorem Running.mem_keptBy (h : Running env config partition watermarks decides all s rest es)
    (he : e ∈ rest) (hkept : decides e.key = false) : e ∈ keptBy watermarks decides all :=
  mem_filter.2 ⟨h.sublist.subset he, by rw [hkept]; rfl⟩

theorem Running.enterTable (h : Running env config partition watermarks decides all s rest es)
    (t : TableId) : Running env config partition watermarks decides all (s.enterTable t) rest es ∧
      (s.enterTable t).fullKeyTracker = s.fullKeyTracker := by
  unfold CompactState.enterTable
  split
  · split <;>
      exact ⟨⟨h.stands, h.filter, h.fills, h.partition_eq, h.skip, h.sublist, h.above⟩, rfl⟩
  · exact ⟨h, rfl⟩

theorem Running.shouldDrop (h : Running env config partition watermarks decides all s rest es)
    (last : Option FullKey) (e : InputEntry) : ∃ s', s.shouldDrop config (isNewKey last e.key) e =
        .ok (isDropped config decides last e, s') ∧
      Running env config partition watermarks decides all s' rest es ∧
      s'.fullKeyTracker = s.fullKeyTracker := by
  unfold CompactState.shouldDrop isDropped
  split
  · rename_i hobsolete
    rw [hobsolete]
    exact ⟨s, rfl, h, rfl⟩
  · rename_i hobsolete
    obtain ⟨filter, hrun, hfilter⟩ := h.filter.shouldDelete_eq e.key
    rw [hrun, Bool.eq_false_iff.2 hobsolete]
    exact ⟨_, rfl, ⟨h.stands, hfilter, h.fills, h.partition_eq, h.skip, h.sublist, h.above⟩, rfl⟩

/-- What a round does besides moving the iterator: the entries `new` are written. -/
structure Handled (env : CapacitySplitEnv F) (config : TaskConfig) (partition : HashMap TableId Nat)
    (e : InputEntry) (es : List Entry) (s s' : CompactState F) : Prop where
  iter : s'.iter = s.iter
  filter : s'.compactionFilter = s.compactionFilter
  tracker : s'.fullKeyTracker = s.fullKeyTracker
  fills : Fills env s'.sstBuilder es
  partition_eq : s'.sstBuilder.tableVnodePartition = partition
  skip : SkipStep config e s.skipSchemaCheck s'.skipSchemaCheck

section

variable (hok : CompactionOk env config partition all (keptBy watermarks decides all))
  (h : Running env config partition watermarks decides all s (e :: rest) es)
include hok h

theorem keep_returnsOr (isNew : Bool) (hkept : decides e.key = false) :
    ReturnsOr (· ∈ sstLimits) (s.keep env config isNew e)
      (Handled env config partition e (es ++ [rewriteOf config e]) s) := by
  have he := h.mem_keptBy (.head _) hkept
  obtain ⟨skip, hrewrite, hstep⟩ := rewriteValue_eq (h.skip e (.head _) hkept) (hok.rows e he)
  have hvnodes : VnodesOk env s.sstBuilder.tableVnodePartition e.key.userKey.tableId :=
    h.partition_eq.symm ▸ hok.vnodes e he
  have hadd := fun value : HummockValue => addFullKey_fills hok.options (e := (e.key, value))
    (hok.ascending.vnodes e (h.sublist_all.subset (.head _))) hvnodes isNew h.fills
    fun x hx => h.above x hx e (.head _)
  unfold keep
  rw [hrewrite]
  dsimp only
  cases hvalue : rewritten config e with
  | none =>
    refine (hadd e.value).bind fun b ⟨hfills, hpart⟩ => ?_
    refine ⟨rfl, rfl, rfl, ?_, hpart.trans h.partition_eq, hstep⟩
    rw [rewriteOf, hvalue]
    exact hfills
  | some value =>
    refine (hadd (.put value)).bind fun b ⟨hfills, hpart⟩ => ?_
    have hle := length_rewritten_le (hok.rows e he) hvalue
    rw [decide_eq_true (by omega), assert_true]
    refine ⟨rfl, rfl, rfl, ?_, hpart.trans h.partition_eq, hstep⟩
    rw [rewriteOf, hvalue]
    exact hfills

theorem dropOrKeep_returnsOr (last : Option FullKey) : ReturnsOr (· ∈ sstLimits)
      (s.dropOrKeep env config (isDropped config decides last e) (isNewKey last e.key) e)
      (fun s' => Handled env config partition e (es ++ emits config decides last e) s s' ∧
        (s'.skipSchemaCheck = s.skipSchemaCheck ∨ decides e.key = false)) := by
  unfold dropOrKeep emits
  split
  · rw [append_nil]
    exact ⟨⟨rfl, rfl, rfl, h.fills, h.partition_eq, .inl rfl⟩, .inl rfl⟩
  · rename_i hdropped
    rw [isDropped, Bool.or_eq_true, not_or] at hdropped
    have hkept : decides e.key = false := Bool.eq_false_iff.2 hdropped.2
    exact (keep_returnsOr hok h (isNewKey last e.key) hkept).mono fun s' hs' => ⟨hs', .inr hkept⟩

end

theorem Running.next
    (h : Running env config partition watermarks decides all s (e :: rest) es) (dbg : Bool) : ∃ iter r,
    s.iter.next dbg = .ok iter ∧ Stands watermarks iter r ∧ unskipped watermarks r = rest := by
  obtain ⟨r, hstands, hr⟩ := h.stands
  cases r with
  | nil => cases hr
  | cons e' r =>
    obtain ⟨iter, r', hrun, hstands', -, hr'⟩ := hstands.next dbg
    rw [hstands.unskipped_cons] at hr
    exact ⟨iter, r', hrun, hstands', hr'.trans (cons.inj hr).2⟩

theorem processEntry_returnsOr
    (hok : CompactionOk env config partition all (keptBy watermarks decides all))
    (h : Running env config partition watermarks decides all s (e :: rest) es)
    (last : Option FullKey) :
    ReturnsOr (· ∈ sstLimits) (s.processEntry env config (isNewKey last e.key) e) fun s' =>
      Running env config partition watermarks decides all s' rest (es ++ emits config decides last e) ∧
      s'.fullKeyTracker = s.fullKeyTracker := by
  have hlt := (pairwise_cons.1 (hok.ascending.of_sublist h.sublist_all).sorted).1
  have hsub := (sublist_cons_self e rest).trans h.sublist
  obtain ⟨h₁, htracker₁⟩ := h.enterTable e.key.userKey.tableId
  obtain ⟨s₂, hdrop, h₂, htracker₂⟩ := h₁.shouldDrop last e
  unfold processEntry
  dsimp only
  rw [hdrop]
  refine (dropOrKeep_returnsOr hok h₂ last).bind fun s₃ ⟨h₃, hskip⟩ => ?_
  obtain ⟨iter, r, hiter, hstands, hr⟩ := h₂.next env.sst.dbg
  rw [h₃.iter, hiter]
  refine ⟨⟨⟨r, hstands, hr⟩, h₃.filter ▸ h₂.filter, h₃.fills, h₃.partition_eq,
    fun y hy hy' => ?_, hsub, fun x hx y hy => ?_⟩, h₃.tracker.trans (htracker₂.trans htracker₁)⟩
  · have hskipOk := h₂.skip y (.tail _ hy) hy'
    rcases hskip with hskip | hkept
    · exact hskip ▸ hskipOk
    · exact h₃.skip.skipOk hskipOk (h.mem_keptBy (.head _) hkept) (h.mem_keptBy (.tail _ hy) hy')
        (hlt y hy) (hok.blocks.of_subset keptBy_subset) hok.uniform
  · rcases mem_append.1 hx with hx | hx
    · exact h.above x hx y (.tail _ hy)
    · unfold emits at hx
      split at hx
      · cases hx
      · rw [mem_singleton.1 hx]
        exact hlt y hy

def isBefore (stop : Option UserKey) (e : InputEntry) : Bool := stop.all fun c => e.key.userKey < c

def stopKey : Option UserKey → FullKey
  | none => .default
  | some c => ⟨c, U64.max⟩

theorem lt_maxEpoch_iff {c : UserKey} : key < ⟨c, U64.max⟩ ↔ key.userKey < c := by
  rw [FullKey.lt_iff]
  refine ⟨fun h => ?_, .inl⟩
  rcases h with h | ⟨-, h⟩
  · exact h
  · exact absurd h (not_lt.2 (U64.le_max _))

variable {stop : Option UserKey}

theorem breaks_iff (hstop : ∀ c, stop = some c → c.tableKey ≠ [])
    (hlast : ∀ k c, last = some k → stop = some c → k.userKey < c)
    (e : InputEntry) : (isNewKey last e.key && !(stopKey stop).userKey.tableKey.isEmpty &&
      decide (stopKey stop ≤ e.key)) = !isBefore stop e := by
  cases stop with
  | none => simp [stopKey, FullKey.default, UserKey.default, isBefore]
  | some c =>
    have hne : c.tableKey.isEmpty = false := isEmpty_eq_false_iff.2 (hstop c rfl)
    have hle : decide (stopKey (some c) ≤ e.key) = !isBefore (some c) e := by
      rw [isBefore, Option.all_some, ← decide_not, decide_eq_decide, ← not_lt]
      exact not_congr lt_maxEpoch_iff
    rw [show (stopKey (some c)).userKey.tableKey = c.tableKey from rfl, hne, hle]
    cases hbefore : isBefore (some c) e with
    | true => simp
    | false =>
      have hnew : isNewKey last e.key = true := by
        cases last with
        | none => rfl
        | some k =>
          have hk := hlast k c rfl rfl
          have hge : ¬e.key.userKey < c := by simpa [isBefore] using hbefore
          have hne' : k.userKey ≠ e.key.userKey := fun heq => hge (heq ▸ hk)
          simp [isNewKey, hne']
      rw [hnew]
      rfl

theorem loop_returnsOr (hok : CompactionOk env config partition all (keptBy watermarks decides all))
    (hstop : ∀ c, stop = some c → c.tableKey ≠ []) : ∀ (rest : List InputEntry) {fuel : Nat}
      {s : CompactState F} {last : Option FullKey} {es : List Entry}, rest.length < fuel →
      Running env config partition watermarks decides all s rest es →
      Observed s.fullKeyTracker last →
      (∀ k, last = some k → ∀ e ∈ rest, k < e.key) →
      (∀ k c, last = some k → stop = some c → k.userKey < c) →
      ReturnsOr (· ∈ sstLimits) (loop env config (stopKey stop) fuel s) fun s' =>
        Fills env s'.sstBuilder (es ++ emitted config decides last (rest.takeWhile (isBefore stop)))
  | [], fuel, s, last, es, hfuel, h, _, _, _ => by
    obtain ⟨fuel, rfl⟩ : ∃ k, fuel = k + 1 := ⟨fuel - 1, by omega⟩
    have hrest : s.iter.inner.rest = [] := by
      obtain ⟨r, hstands, hr⟩ := h.stands
      cases r with
      | nil => exact hstands.rest_eq
      | cons e r =>
        rw [hstands.unskipped_cons] at hr
        cases hr
    rw [loop, hrest]
    show Fills env s.sstBuilder (es ++ [])
    rw [append_nil]
    exact h.fills
  | e :: rest, fuel, s, last, es, hfuel, h, hobs, hlt, hlast => by
    obtain ⟨fuel, rfl⟩ : ∃ k, fuel = k + 1 := ⟨fuel - 1, by omega⟩
    obtain ⟨r, hrest⟩ : ∃ r, s.iter.inner.rest = e :: r := by
      obtain ⟨r, hstands, hr⟩ := h.stands
      cases r with
      | nil => cases hr
      | cons e' r =>
        rw [hstands.unskipped_cons] at hr
        obtain ⟨rfl, -⟩ := cons.inj hr
        exact ⟨r, hstands.rest_eq⟩
    have hvnode := hok.ascending.vnodes e (h.sublist_all.subset (.head _))
    obtain ⟨tracker, hobserve, hobs'⟩ := observe_eq hobs (fun k hk => hlt k hk e (.head _)) hvnode
    rw [loop, hrest]
    dsimp only
    rw [CompactState.round, hobserve, ok_bind]
    dsimp only
    rw [breaks_iff hstop hlast e]
    cases hbefore : isBefore stop e with
    | false =>
      rw [takeWhile_cons_of_neg (by simp [hbefore]), Bool.not_false, if_pos rfl]
      show Fills env s.sstBuilder (es ++ [])
      rw [append_nil]
      exact h.fills
    | true =>
      rw [takeWhile_cons_of_pos hbefore, Bool.not_true, emitted,
        ← append_assoc]
      have hs : Running env config partition watermarks decides all
          { s with fullKeyTracker := tracker, iterTotalKeyCounts := s.iterTotalKeyCounts + 1 }
          (e :: rest) es :=
        ⟨h.stands, h.filter, h.fills, h.partition_eq, h.skip, h.sublist, h.above⟩
      have hsorted := (hok.ascending.of_sublist h.sublist_all).sorted
      refine ReturnsOr.bind (Q :=
        fun r => r.1 = true ∧ Running env config partition watermarks decides all
        r.2 rest (es ++ emits config decides last e) ∧ Observed r.2.fullKeyTracker (some e.key))
        ?_ fun r hr => ?_
      · refine (processEntry_returnsOr hok hs last).bind fun s' ⟨hs', htracker⟩ => ?_
        exact ⟨rfl, hs', htracker.symm ▸ hobs'⟩
      · obtain ⟨hgo, hs', hobs''⟩ := hr
        rw [hgo]
        refine loop_returnsOr hok hstop rest (by simpa using hfuel) hs' hobs'' ?_ ?_
        · rintro _ ⟨⟩
          exact (pairwise_cons.1 hsorted).1
        · rintro _ c ⟨⟩ rfl
          simpa [isBefore] using hbefore

/-! ## Key ranges -/

def boundOf : Option UserKey → Bytes
  | none => []
  | some c => (⟨c, U64.max⟩ : FullKey).encode

def rangeOf (start stop : Option UserKey) : KeyRange := ⟨boundOf start, boundOf stop, true⟩

/-- The task for a part of the keys. -/
def TaskConfig.withRange (config : TaskConfig) (start stop : Option UserKey) : TaskConfig :=
  { config with keyRange := rangeOf start stop }

def isFrom (start : Option UserKey) (e : InputEntry) : Bool := start.all fun c => c ≤ e.key.userKey

def within (start stop : Option UserKey) (es : List InputEntry) : List InputEntry :=
  es.filter fun e => isFrom start e && isBefore stop e

theorem endKeyOf_rangeOf (start stop : Option UserKey) :
    endKeyOf (rangeOf start stop) = .ok (stopKey stop) := by
  cases stop with
  | none => rfl
  | some c =>
    exact FullKey.decode_encode _

variable {es : List InputEntry}

theorem dropWhile_isFrom {c : UserKey} (h : Ascending es) :
    es.dropWhile (fun e => e.key < ⟨c, U64.max⟩) = es.filter (isFrom (some c)) := by
  rw [Runs.dropWhile_eq_filter (h.sorted.imp fun hlt hy => by
    simp only [decide_eq_true_eq] at hy ⊢
    exact hlt.trans hy)]
  refine filter_congr fun e _ => ?_
  rw [isFrom, Option.all_some, ← decide_not, decide_eq_decide, lt_maxEpoch_iff, not_lt]

theorem takeWhile_isBefore (h : Ascending es) :
    es.takeWhile (isBefore stop) = es.filter (isBefore stop) := by
  refine Runs.takeWhile_eq_filter (h.rising.sorted.imp fun hle hy => ?_)
  cases stop with
  | none => rfl
  | some c =>
    simp only [isBefore, Option.all_some, decide_eq_true_eq] at hy ⊢
    exact hle.trans_lt hy

theorem seekKeyRange_stands (dbg : Bool) (h : Ascending all) (start stop : Option UserKey) : ∃ it r,
    seekKeyRange dbg (.new all watermarks) (rangeOf start stop) = .ok it ∧ Stands watermarks it r ∧
      unskipped watermarks r = (unskipped watermarks all).filter (isFrom start) := by
  unfold seekKeyRange
  cases start with
  | none =>
    obtain ⟨it, r, hrun, hstands, hr⟩ := restart_stands dbg
      (show (SkipWatermarkIterator.new all watermarks).state.watermarks = watermarks from rfl) h.rising
    refine ⟨it, r, hrun, hstands, hr.trans ?_⟩
    exact (filter_eq_self.2 fun e _ => rfl).symm
  | some c =>
    have hne : (boundOf (some c)).isEmpty = false :=
      isEmpty_eq_false_iff.2 (FullKey.encode_ne_nil ⟨c, U64.max⟩)
    obtain ⟨it, r, hrun, hstands, hr⟩ := restart_stands dbg
      (show (SkipWatermarkIterator.new all watermarks).state.watermarks = watermarks from rfl)
      (h.rising.of_sublist (dropWhile_sublist fun e => e.key < ⟨c, U64.max⟩))
    rw [rangeOf, hne, boundOf, FullKey.decode_encode]
    refine ⟨it, r, hrun, hstands, hr.trans ?_⟩
    rw [dropWhile_isFrom h, unskipped, unskipped, filter_filter, filter_filter]
    exact filter_congr fun e _ => Bool.and_comm _ _

def output (config : TaskConfig) (watermarks : BTreeMap TableId ReadTableWatermark)
    (decides : FullKey → Bool) (start stop : Option UserKey) (all : List InputEntry) : List Entry :=
  emitted config decides none (within start stop (unskipped watermarks all))

theorem emitted_withRange (start stop : Option UserKey) (es : List InputEntry) :
    ∀ last, emitted (config.withRange start stop) decides last es =
      emitted config decides last es := by
  induction es with
  | nil => exact fun _ => rfl
  | cons e es ih =>
    intro last
    rw [emitted, ih]
    rfl

theorem compactKeyRange_reads
    (hok : CompactionOk env config partition all (keptBy watermarks decides all))
    {start : Option UserKey} (hstop : ∀ c, stop = some c → c.tableKey ≠ [])
    (hfilters : filters.Decides decides) (nextSstId : Nat) :
    ReturnsOr (· ∈ sstLimits) (compactKeyRange env nextSstId partition (config.withRange start stop)
      (.new all watermarks) filters) fun r =>
        readSsts env.sst.codec r.1 = .ok (output config watermarks decides start stop all) := by
  have hok' : CompactionOk env (config.withRange start stop) partition all
      (keptBy watermarks decides all) :=
    ⟨hok.options, hok.ascending, hok.blocks, hok.vnodes, hok.uniform, hok.rows⟩
  obtain ⟨it, r, hseek, hstands, hr⟩ :=
    seekKeyRange_stands env.sst.dbg hok.ascending start stop
  have hsub : (unskipped watermarks r).Sublist (unskipped watermarks all) := by
    rw [hr]
    exact filter_sublist
  have hfuel : (unskipped watermarks r).length < it.inner.rest.length + 1 := by
    rw [hstands.rest_eq]
    exact Nat.lt_succ_of_le (length_filter_le _ _)
  have hrunning : Running env (config.withRange start stop) partition watermarks decides all
      ⟨it, .new nextSstId partition, filters, .new .default, ∅, .default, none, 0, 0, ∅⟩
      (unskipped watermarks r) [] :=
    ⟨⟨r, hstands, rfl⟩, hfilters, fills_new nextSstId partition, rfl,
      fun e _ _ => skipOk_empty _ e, hsub, by simp⟩
  unfold compactKeyRange compactAndBuildSst
  rw [show (config.withRange start stop).keyRange = rangeOf start stop from rfl, hseek,
    endKeyOf_rangeOf]
  refine ReturnsOr.bind (Q := fun p => Fills env p.2 (output config watermarks decides start stop all))
    ?_ fun p hp => ?_
  · refine (loop_returnsOr hok' hstop _ hfuel hrunning (show Observed (.new .default) none from rfl)
      (by simp) (by simp)).bind fun s hs => ?_
    rw [emitted_withRange,
      takeWhile_isBefore (hok.ascending.of_sublist (hsub.trans filter_sublist)), hr,
        filter_filter] at hs
    have hwithin : within start stop (unskipped watermarks all) =
        (unskipped watermarks all).filter fun e => isBefore stop e && isFrom start e :=
      filter_congr fun e _ => Bool.and_comm _ _
    rw [← hwithin] at hs
    exact hs
  · refine (finish_fills hp).bind fun outs ⟨done, houts, hdone⟩ => ?_
    rw [← hdone]
    exact readSsts_eq houts

end Hummock
