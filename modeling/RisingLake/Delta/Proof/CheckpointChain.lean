import RisingLake.Delta.Proof.Checkpoint
import RisingLake.Delta.Proof.ProtocolMetadata

/-!
# Replaying a checkpoint in place of its history

A checkpoint is written from a segment that may itself start with an earlier checkpoint
(`Checkpointed`). What a replay reads from it stands for the history before it (`Represents`): its
adds are those of the newest file actions that are adds, and its transactions and domain metadata
are the newest ones. `represents_of_checkpointed` carries this through a chain of checkpoints, and
`replay_checkpoint_eq` compares the replay of a checkpoint and later commits with the replay of all
commits.
-/

namespace Delta

open Newest CreateCheckpointIterator ActionsIterator LogReplay List ActiveAddFilesIterator

/-- The contents of a checkpoint of the commits before version `n`: nothing before version 0, else
what is selected from a segment that starts with such a checkpoint. -/
inductive Checkpointed {Uri : Type} [DecidableEq Uri] (pathToUri : String → Res Uri)
    (commit : Nat → List Action) : Nat → List Action → Prop
  | none : Checkpointed pathToUri commit 0 []
  | write {base : Nat} {rows : List Action} {engine : Engine} {segment : LogSegment}
      {assertions : Bool} {retention : Int} {batches : List FilteredColumnarBatch} :
    Checkpointed pathToUri commit base rows → SegmentOf engine commit base segment →
    checkpointRows engine segment = rows →
    createCheckpoint pathToUri assertions engine segment retention = .ok batches →
    Checkpointed pathToUri commit (segment.version + 1) (batches.flatMap FilteredColumnarBatch.rows)

section Represents

variable {Uri : Type} [DecidableEq Uri] {uri : String → Uri}

/-- The active files of a log: the newest actions of their files that are adds. -/
def activeFiles (uri : String → Uri) (log : List Action) : List Action :=
  (newest (fileKey? uri) log).filter fun a => a.add?.isSome

/-- The rows of a checkpoint stand for the log before it. -/
structure Represents (uri : String → Uri) (rows log : List Action) : Prop where
  adds : rows.filter (fun a => a.add?.isSome) = activeFiles uri log
  txns : newest appId? rows = newest appId? log
  domains : newest domain? rows = newest domain? log
  sidecars : ∀ a ∈ rows, a.sidecar? = none
  subset : ∀ a ∈ rows, a ∈ log

theorem kept_addRule (commits rows : List Action) :
    (kept (addRule uri) [] (commits.map (Prod.mk false) ++ rows.map (Prod.mk true))).map Prod.snd =
      activeFiles uri commits ++ (rows.filter fun a => a.add?.isSome).filter
        (fresh (fileKey? uri) commits) := by
  rw [kept_append, append_nil, map_append, kept_map, kept_map, map_snd_mk, map_snd_mk,
    activeFiles, newest, filter_kept]
  congr 1
  · -- in a commit the rule asks for the newest action of a file
    congr 1
    funext seen a
    cases a with
    | add f =>
      rw [append_nil, addRule_eq_isNewest]
      · simp [Action.add?]
      · intro y hy hck
        obtain ⟨b, -, rfl⟩ := mem_map.1 hy
        cases hck
    | _ => simp [addRule, Action.add?]
  · rw [filter_filter]
    apply kept_eq_filter
    intro pre a post _
    rw [Bool.eq_iff_iff, addRule_eq_true_iff, Bool.and_eq_true, and_comm, fresh_iff]
    refine and_congr_left fun hadd => ?_
    obtain ⟨f, hf⟩ := Option.isSome_iff_exists.1 hadd
    obtain rfl := eq_add_of_add? hf
    simp only [mem_append, mem_map, mem_reverse]
    constructor
    · intro h y hy
      exact h (false, y) (.inr ⟨y, hy, rfl⟩)
    · intro h y hy
      rcases hy with ⟨b, -, rfl⟩ | ⟨b, hb, rfl⟩
      · intro hck
        cases hck
      · exact h b hb

variable {commits rows log : List Action}

theorem activeFiles_append (h : Represents uri rows log) :
    activeFiles uri commits ++ (rows.filter fun a => a.add?.isSome).filter
      (fresh (fileKey? uri) commits) =
      activeFiles uri (commits ++ log) := by
  rw [h.adds, activeFiles, activeFiles, activeFiles, newest_append, filter_append, filter_filter,
    filter_filter]
  congr 2
  funext a
  exact Bool.and_comm _ _

theorem newest_of_kept {κ : Type} [DecidableEq κ] {key : Action → Option κ} {retention : Int}
    {rows : List LogRow} (hkey : ∀ seen x, (key x.2).isSome →
      checkpointRule uri retention seen x = newestRule key seen x) :
    newest key ((kept (checkpointRule uri retention) [] rows).map Prod.snd) =
      newest key (rows.map Prod.snd) := by
  have hfilter : ((kept (checkpointRule uri retention) [] rows).map Prod.snd).filter
      (fun a => (key a).isSome) =
      newest key (rows.map Prod.snd) := by
    rw [filter_map, filter_kept, newest, kept_map]
    congr 2
    funext seen x
    rw [append_nil, ← isNewest_map]
    cases hk : (key x.2).isSome with
    | true => simp [hkey seen x hk, hk]
    | false => simp [newestRule, isNewest, hk]
  rw [← newest_filter_isSome, hfilter, newest_newest]

/-- **One checkpoint more**: what is selected from commits and a checkpoint represents both. -/
theorem Represents.kept {retention : Int} (h : Represents uri rows log) :
    Represents uri ((kept (checkpointRule uri retention) []
      (commits.map (Prod.mk false) ++ rows.map (Prod.mk true))).map Prod.snd) (commits ++ log) := by
  have hsnd : (commits.map (Prod.mk false) ++ rows.map (Prod.mk true)).map Prod.snd =
      commits ++ rows := by
    rw [map_append, map_snd_mk, map_snd_mk]
  refine ⟨?_, ?_, ?_, ?_, ?_⟩
  · rw [← activeFiles_append h, ← kept_addRule, filter_map, filter_kept]
    congr 2
    funext seen x
    cases hadd : x.2.add? with
    | none => simp [addRule, hadd]
    | some f =>
      rw [checkpointRule_eq_passRule, eq_add_of_add? hadd]
      simp [passRule, Action.pass, hadd]
  · rw [newest_of_kept, hsnd, newest_append_congr h.txns]
    intro seen x hx
    rw [checkpointRule_eq_passRule]
    cases hxa : x.2 <;> simp_all [appId?, Action.txn?, Action.pass, passRule]
  · rw [newest_of_kept, hsnd, newest_append_congr h.domains]
    intro seen x hx
    rw [checkpointRule_eq_passRule]
    cases hxa : x.2 <;> simp_all [domain?, Action.domainMetadata?, Action.pass, passRule]
  · intro a ha
    obtain ⟨x, hx, rfl⟩ := mem_map.1 ha
    obtain ⟨seen, hrule⟩ := exists_of_mem_kept hx
    rw [checkpointRule_eq_passRule] at hrule
    cases hxa : x.2 with
    | sidecar => simp [hxa, Action.pass, passRule, newestRule, isNewest, domain?,
      Action.domainMetadata?] at hrule
    | _ => rfl
  · intro a ha
    have := ((kept_sublist _ _ _).map Prod.snd).subset ha
    rw [hsnd] at this
    exact mem_append.2 ((mem_append.1 this).imp_right (h.subset a))

end Represents

/-! ## Segments with a checkpoint that stands for the log before it -/

section Replay

variable {Uri : Type} [DecidableEq Uri] {pathToUri : String → Res Uri} {uri : String → Uri}
  {engine : Engine} {commit : Nat → List Action} {base : Nat} {segment : LogSegment}

section
variable {withFiles : Bool} {f : DeltaLogFile}
  (h : ∀ a ∈ (engine.read f.file).flatten, a.sidecar? = none)
include h

theorem sidecarsOfFile_eq_nil : sidecarsOfFile engine withFiles f = [] := by
  have hnone : sidecarFiles f.version (engine.read f.file) = [] := by
    rw [sidecarFiles, filterMap_eq_nil_iff.2 h]
    rfl
  rw [sidecarsOfFile, hnone]
  split
  · exact ite_self _
  · exact ite_self _
  · rfl

theorem rowsOf_fileWrappers :
    rowsOf (fileWrappers engine withFiles f) = (engine.read f.file).flatten := by
  have hbatch : ∀ batch ∈ engine.read f.file,
      (if searched withFiles f then batch.map Action.withoutSidecar else batch) = batch := by
    intro batch hb
    split
    · refine (map_congr_left fun a ha => ?_).trans (map_id batch)
      have hside := h a (mem_flatten.2 ⟨batch, hb, ha⟩)
      cases a <;> first | rfl | cases hside
    · rfl
  rw [rowsOf, fileWrappers, flatMap_map, flatten_eq_flatMap]
  exact flatMap_congr hbatch

end

theorem checkpointActions_eq (h : ∀ a ∈ checkpointRows engine segment, a.sidecar? = none) :
    checkpointActions engine segment = checkpointRows engine segment := by
  have hfile : ∀ f ∈ segment.checkpoints, ∀ a ∈ (engine.read f.file).flatten, a.sidecar? = none :=
    fun f hf a ha => h a (mem_flatMap.2 ⟨f, hf, ha⟩)
  have hnone : segment.checkpoints.flatMap (sidecarsOfFile engine true) = [] :=
    flatMap_eq_nil_iff.2 fun f hf => sidecarsOfFile_eq_nil (hfile f hf)
  rw [checkpointActions, checkpointWrappers, hnone, flatMap_nil, append_nil, rowsOf, flatMap_assoc]
  exact flatMap_congr fun f hf => rowsOf_fileWrappers (hfile f hf)

theorem commitRows_append_before (h : SegmentOf engine commit base segment) :
    commitRows engine segment ++ before commit base = before commit (segment.version + 1) := by
  rw [← rowsOf_deltas true h.deltas.isCommit]
  exact rowsOf_commitFiles h.deltas

/-- The paths of a history are URIs, and no commit both adds and removes a logical file. -/
structure HistoryOk (pathToUri : String → Res Uri) (uri : String → Uri)
    (commit : Nat → List Action) : Prop where
  parses : ∀ n, ∀ a ∈ commit n, Parses pathToUri uri a
  apart : ∀ n, AddsApartFromRemoves uri (commit n)

omit [DecidableEq Uri] in
theorem HistoryOk.parses_before (hok : HistoryOk pathToUri uri commit) :
    ∀ n, ∀ a ∈ before commit n, Parses pathToUri uri a
  | n + 1, a, ha => by
    rcases mem_append.1 ha with ha | ha
    · exact hok.parses n a ha
    · exact hok.parses_before n a ha

section Segment

variable (hok : HistoryOk pathToUri uri commit) (hseg : SegmentOf engine commit base segment)
  (hrows : Represents uri (checkpointRows engine segment) (before commit base))
include hok hseg hrows

theorem logOk_of_represents : LogOk pathToUri uri engine segment where
  deltas := hseg.deltas.isCommit
  checkpoints f hf := by
    obtain ⟨_, -, hck⟩ := hseg.checkpoints f hf
    exact hck.not_commit
  named f hf := by
    refine ⟨named_of_segmentOf hseg f hf, fun g hg => ?_⟩
    rcases mem_append.1 hf with hf | hf
    · rw [sidecarsOfFile, hseg.deltas.isCommit f hf] at hg
      cases hg
    · rw [sidecarsOfFile_eq_nil fun a ha => hrows.sidecars a (mem_flatMap.2 ⟨f, hf, ha⟩)] at hg
      cases hg
  parses a ha := by
    rw [checkpointActions_eq hrows.sidecars] at ha
    apply hok.parses_before (segment.version + 1)
    rw [← commitRows_append_before hseg]
    exact mem_append.2 ((mem_append.1 ha).imp_right (hrows.subset a))
  apart f hf := by
    rw [(hseg.deltas.of_mem f hf).1.rows]
    exact hok.apart _

/-- **The active files of a segment** are those of the log up to its version. -/
theorem getAddFiles_eq : ∃ batches, getAddFilesAsColumnarBatches pathToUri engine segment =
    .ok batches ∧
      batches.flatMap FilteredColumnarBatch.rows =
        activeFiles uri (before commit (segment.version + 1)) := by
  have hlog := logOk_of_represents hok hseg hrows
  obtain ⟨batches, hrun, hkept⟩ := active_drain_spec none filesOf_nil hlog.batchOk
  refine ⟨batches, ?_, ?_⟩
  · rw [getAddFilesAsColumnarBatches, actions_eq hlog.named, Res.ok_bind, hrun]
  · rw [hkept, hlog.taggedRows, checkpointActions_eq hrows.sidecars, kept_addRule,
      activeFiles_append hrows, commitRows_append_before hseg]

end Segment

theorem represents_of_checkpointed (hok : HistoryOk pathToUri uri commit) {rows : List Action}
    (h : Checkpointed pathToUri commit base rows) : Represents uri rows (before commit base) := by
  induction h with
  | none => exact ⟨rfl, rfl, rfl, by simp, by simp⟩
  | write _ hseg hrows hrun ih =>
    subst hrows
    obtain ⟨_, hrun', -, -, hkept⟩ := createCheckpoint_spec _ _ (logOk_of_represents hok hseg ih)
    cases hrun.symm.trans hrun'
    rw [hkept, checkpointActions_eq ih.sidecars, ← commitRows_append_before hseg]
    exact ih.kept

/-! ## Transactions and domains -/

theorem findSome?_segment {κ β : Type} [DecidableEq κ] (key : Action → Option κ) {k : κ}
    {g : Action → Option β} (hg : ∀ a, (g a).isSome ↔ key a = some k)
    (hseg : SegmentOf engine commit base segment)
    (hrows : newest key (checkpointRows engine segment) = newest key (before commit base)) :
    (rowsOf (logWrappers engine false segment.allLogFilesReversed)).findSome? g =
      (before commit (segment.version + 1)).findSome? g := by
  rw [logWrappers_false, LogSegment.allLogFilesReversed, flatMap_append, rowsOf_append,
    rowsOf_checkpoints, rowsOf_deltas false hseg.deltas.isCommit, ← commitRows_append_before hseg,
    ← findSome?_newest hg,
    newest_append_congr hrows, findSome?_newest hg]

theorem loadLatestTransactionVersion_eq (hseg : SegmentOf engine commit base segment)
    (hrows : Represents uri (checkpointRows engine segment) (before commit base)) (app : String) :
    loadLatestTransactionVersion engine segment app =
      .ok ((before commit (segment.version + 1)).findSome? (txnVersion? app)) := by
  have hloop : ∀ ws : List ActionWrapper,
      ws.findSome? (fun w => w.columnarBatch.findSome? (txnVersion? app)) =
      (rowsOf ws).findSome? (txnVersion? app) := by
    intro ws
    induction ws with
    | nil => rfl
    | cons w ws ih =>
      rw [rowsOf_cons, findSome?_append, ← ih, findSome?_cons]
      cases w.columnarBatch.findSome? (txnVersion? app) <;> rfl
  rw [loadLatestTransactionVersion, actions_eq (wellNamed_of_segmentOf hseg), Res.ok_bind, hloop]
  refine congrArg Except.ok (findSome?_segment appId? (k := app) (fun a => ?_) hseg hrows.txns)
  cases h : a.txn? <;> simp [txnVersion?, appId?, h, eq_comm (a := app)]

theorem getElem?_populateDomainMetadataMap (domain : String) : ∀ rows map,
    (populateDomainMetadataMap rows map)[domain]? =
      map[domain]?.or (rows.findSome? fun a => a.domainMetadata?.filter fun dm => dm.domain = domain)
  | [], map => by simp [populateDomainMetadataMap]
  | a :: rows, map => by
    have ih := getElem?_populateDomainMetadataMap domain rows
    rw [populateDomainMetadataMap, foldl_cons, ← populateDomainMetadataMap, ih, findSome?_cons]
    cases a.domainMetadata? with
    | none => rfl
    | some dm =>
      dsimp only
      rw [Std.ExtTreeMap.contains_eq_isSome_getElem?]
      by_cases hd : dm.domain = domain
      · subst hd
        cases hm : map[dm.domain]? <;> simp [hm, Option.filter]
      · cases map[dm.domain]? <;> simp [HashMap.getElem?_insert_eq, hd, Option.filter]

theorem loadDomainMetadataMap_eq (hseg : SegmentOf engine commit base segment)
    (hrows : Represents uri (checkpointRows engine segment) (before commit base)) :
    loadDomainMetadataMap engine segment =
      .ok (populateDomainMetadataMap (before commit (segment.version + 1)) ∅) := by
  have hloop : ∀ ws map,
      ws.foldl (fun map wrapper => populateDomainMetadataMap wrapper.columnarBatch map) map =
      populateDomainMetadataMap (rowsOf ws) map := by
    intro ws map
    rw [populateDomainMetadataMap, rowsOf, foldl_flatMap]
    rfl
  rw [loadDomainMetadataMap, actions_eq (wellNamed_of_segmentOf hseg), Res.ok_bind, hloop]
  refine congrArg Except.ok (Std.ExtTreeMap.ext_getElem? fun domain => ?_)
  rw [getElem?_populateDomainMetadataMap, getElem?_populateDomainMetadataMap,
    findSome?_segment domain? (k := domain) (fun a => ?_) hseg hrows.domains]
  cases h : a.domainMetadata? <;> simp [domain?, h]

/-! ## The replay of a checkpoint and the replay of its history -/

/-- **Replaying a checkpoint and the later commits is replaying all commits**: the same active
files, each logical file once and with its newest add, the same transaction versions and the same
domain metadata. -/
theorem replay_checkpoint_eq {engine₀ : Engine} {segment₀ : LogSegment}
    (hok : HistoryOk pathToUri uri commit)
    (hck : Checkpointed pathToUri commit base (checkpointRows engine segment))
    (hseg : SegmentOf engine commit base segment) (hseg₀ : SegmentOf engine₀ commit 0 segment₀)
    (hversion : segment₀.version = segment.version) : (∃ batches batches₀,
      getAddFilesAsColumnarBatches pathToUri engine segment = .ok batches ∧
      getAddFilesAsColumnarBatches pathToUri engine₀ segment₀ = .ok batches₀ ∧
      batches.flatMap FilteredColumnarBatch.rows = batches₀.flatMap FilteredColumnarBatch.rows ∧
      ((batches.flatMap FilteredColumnarBatch.rows).Pairwise
        fun a b => fileKey? uri a ≠ fileKey? uri b) ∧
      ∀ a, a ∈ batches.flatMap FilteredColumnarBatch.rows ↔ a.add?.isSome ∧
        (before commit (segment.version + 1)).find? (fun b => fileKey? uri b = fileKey? uri a) =
          some a) ∧
    (∀ app, loadLatestTransactionVersion engine segment app =
        .ok ((before commit (segment.version + 1)).findSome? (txnVersion? app)) ∧
      loadLatestTransactionVersion engine₀ segment₀ app =
        loadLatestTransactionVersion engine segment app) ∧
    ∃ map, loadDomainMetadataMap engine segment = .ok map ∧
      loadDomainMetadataMap engine₀ segment₀ = .ok map ∧ ∀ domain, map[domain]? =
        (before commit (segment.version + 1)).findSome? fun a =>
          a.domainMetadata?.filter fun dm => dm.domain = domain := by
  have hrows := represents_of_checkpointed hok hck
  have hnone : segment₀.checkpoints = [] := by
    refine eq_nil_iff_forall_not_mem.2 fun f hf => ?_
    obtain ⟨_, hbase, -⟩ := hseg₀.checkpoints f hf
    cases hbase
  have hrows₀ : Represents uri (checkpointRows engine₀ segment₀) (before commit 0) := by
    rw [checkpointRows, hnone]
    exact represents_of_checkpointed hok .none
  obtain ⟨batches, hrun, hadds⟩ := getAddFiles_eq hok hseg hrows
  obtain ⟨batches₀, hrun₀, hadds₀⟩ := getAddFiles_eq hok hseg₀ hrows₀
  rw [hversion] at hadds₀
  refine ⟨⟨batches, batches₀, hrun, hrun₀, hadds.trans hadds₀.symm, ?_, fun a => ?_⟩,
    fun app => ⟨?_, ?_⟩, _, loadDomainMetadataMap_eq hseg hrows, ?_, fun domain => ?_⟩
  · rw [hadds]
    exact (newest_pairwise _ _).filter _
  · rw [hadds, activeFiles, mem_filter, and_comm]
    refine and_congr_right fun hadd => ?_
    obtain ⟨f, hf⟩ := Option.isSome_iff_exists.1 hadd
    obtain rfl := eq_add_of_add? hf
    exact mem_newest_iff rfl
  · exact loadLatestTransactionVersion_eq hseg hrows app
  · rw [loadLatestTransactionVersion_eq hseg hrows, loadLatestTransactionVersion_eq hseg₀ hrows₀,
      hversion]
  · rw [loadDomainMetadataMap_eq hseg₀ hrows₀, hversion]
  · rw [getElem?_populateDomainMetadataMap, Std.ExtTreeMap.getElem?_empty, Option.none_or]

end Replay

/-! ## A chain of two checkpoints -/

/-- A file that stays, and metadata of a domain. -/
private def keptAdd : Action := .add ⟨"kept", [], 1, 0, true, none, none, none⟩

private def limit : DomainMetadata := ⟨"limit", "9", false⟩

/-- Commit 0 adds two files, and commit 1 removes one of them and sets the metadata of a domain. -/
private def chainCommit : Nat → List Action
  | 0 => [dataAdd, keptAdd]
  | 1 => [dataRemove, .domainMetadata limit]
  | _ => [.other]

/-- Checkpoint 1 is written from checkpoint 0 and commit 1. -/
private def chainEngine : Engine where
  read f := [match f.path with
    | "0.parquet" => [dataAdd, keptAdd]
    | "1.parquet" => [dataRemove, .domainMetadata limit, keptAdd]
    | _ => chainCommit (f.nameVersion.getD 0)]

private def commitFile (n : Nat) : DeltaLogFile := ⟨⟨"json", some n⟩, .commit, n⟩

private theorem commitFile_ok (n : Nat) : IsCommitFile chainEngine chainCommit n (commitFile n) :=
  ⟨rfl, rfl, rfl, List.append_nil _⟩

/-- Replaying checkpoint 1 and commit 2 is replaying the three commits: the file that was removed is
not active, and the metadata is found. -/
theorem replay_checkpoint_data :
    let ck (n : Nat) (path : String) : DeltaLogFile := ⟨⟨path, some n⟩, .checkpointClassic, n⟩
    let segment : LogSegment := ⟨2, [commitFile 2], [ck 1 "1.parquet"]⟩
    let segment₀ : LogSegment := ⟨2, [commitFile 2, commitFile 1, commitFile 0], []⟩
    ∃ batches batches₀ map, getAddFilesAsColumnarBatches Except.ok chainEngine segment =
      .ok batches ∧
      getAddFilesAsColumnarBatches Except.ok chainEngine segment₀ = .ok batches₀ ∧
      batches.flatMap FilteredColumnarBatch.rows = batches₀.flatMap FilteredColumnarBatch.rows ∧
      keptAdd ∈ batches.flatMap FilteredColumnarBatch.rows ∧
      dataAdd ∉ batches.flatMap FilteredColumnarBatch.rows ∧
      loadDomainMetadataMap chainEngine segment = .ok map ∧
      loadDomainMetadataMap chainEngine segment₀ = .ok map ∧ map["limit"]? = some limit := by
  intro ck segment segment₀
  have hok : HistoryOk Except.ok id chainCommit := by
    refine ⟨fun _ _ _ => ⟨fun _ _ => rfl, fun _ _ => rfl⟩, fun n a ha b hb k hadd hremove => ?_⟩
    rcases n with _ | _ | n <;>
      simp only [chainCommit, mem_cons, not_mem_nil, or_false] at ha hb <;>
      rcases ha with rfl | rfl <;> rcases hb with rfl | rfl <;>
        simp_all [addKey?, removeKey?, Action.add?, Action.remove?, dataAdd, dataRemove, keptAdd]
  have hcommits : SegmentOf chainEngine chainCommit 0 segment₀ :=
    ⟨.cons (commitFile_ok 2) (.cons (commitFile_ok 1) (.cons (commitFile_ok 0) .nil)),
      forall_mem_nil _, fun _ => rfl⟩
  have hover : ∀ n path, SegmentOf chainEngine chainCommit (n + 1)
      ⟨n + 1, [commitFile (n + 1)], [ck n path]⟩ := by
    refine fun n path => ⟨.cons (commitFile_ok (n + 1)) .nil, fun f hf => ⟨n, rfl, ?_⟩, by simp⟩
    rw [mem_singleton.1 hf]
    exact ⟨by simp [ck], by simp [ck], rfl, rfl⟩
  have hck₀ : Checkpointed Except.ok chainCommit 1 [dataAdd, keptAdd] :=
    @Checkpointed.write String _ Except.ok chainCommit 0 [] chainEngine ⟨0, [commitFile 0], []⟩ true 5
      [⟨[dataAdd, keptAdd], some [true, true]⟩] .none
      ⟨.cons (commitFile_ok 0) .nil, forall_mem_nil _, fun _ => rfl⟩ rfl (by decide +kernel)
  have hck₁ : Checkpointed Except.ok chainCommit 2 [dataRemove, .domainMetadata limit, keptAdd] :=
    @Checkpointed.write String _ Except.ok chainCommit 1 _ chainEngine _ true 5
      [⟨[dataRemove, .domainMetadata limit], some [true, true]⟩,
        ⟨[dataAdd, keptAdd], some [false, true]⟩] hck₀ (hover 0 "0.parquet") rfl (by decide +kernel)
  obtain ⟨⟨batches, batches₀, hrun, hrun₀, heq, -, hactive⟩, -, map, hmap, hmap₀, hdomain⟩ :=
    replay_checkpoint_eq hok hck₁ (hover 1 "1.parquet") hcommits rfl
  refine ⟨batches, batches₀, map, hrun, hrun₀, heq, (hactive _).2 ?_, ?_, hmap, hmap₀,
    (hdomain _).trans (by decide +kernel)⟩
  · decide +kernel
  · rw [hactive]
    decide +kernel

end Delta
