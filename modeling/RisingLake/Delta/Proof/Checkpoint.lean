import RisingLake.Delta.Proof.FileReplay

/-!
# The actions of a checkpoint

`reconciled` is the protocol's rule for the actions of a checkpoint: the newest protocol, metadata,
transaction of each application and domain metadata of each domain, and of each logical file its
newest action, if that is an add or an unexpired remove. `createCheckpoint_eq_reconciled_iff`
compares the rows `CreateCheckpointIterator` selects with it: they are the same unless an unexpired
remove of a commit is older than another action of its file, or an unexpired remove of the
checkpoint is the newest one.
-/

namespace Delta

open Newest CreateCheckpointIterator ActionsIterator List FilteredColumnarBatch

/-! ## The rows of a segment -/

def checkpointWrappers (engine : Engine) (segment : LogSegment) : List ActionWrapper :=
  segment.checkpoints.flatMap (fileWrappers engine true) ++
    (segment.checkpoints.flatMap (sidecarsOfFile engine true)).flatMap (fileWrappers engine true)

def commitRows (engine : Engine) (segment : LogSegment) : List Action :=
  segment.deltas.flatMap fun f => (engine.read f.file).flatten
def checkpointActions (engine : Engine) (segment : LogSegment) : List Action :=
  rowsOf (checkpointWrappers engine segment)

/-- A segment of commits and a checkpoint. The names of its files and of the sidecar files start
with their versions, without which the iterator throws; paths are URIs, and no commit both adds and
removes a logical file. -/
structure LogOk {Uri : Type} (pathToUri : String → Res Uri) (uri : String → Uri) (engine : Engine)
    (segment : LogSegment) : Prop where
  deltas : ∀ f ∈ segment.deltas, f.logType = .commit
  checkpoints : ∀ f ∈ segment.checkpoints, f.logType ≠ .commit
  named : WellNamed engine true segment.allLogFilesReversed
  parses : ∀ a ∈ commitRows engine segment ++ checkpointActions engine segment,
    Parses pathToUri uri a
  apart : ∀ f ∈ segment.deltas, AddsApartFromRemoves uri (engine.read f.file).flatten

section Segment

variable {engine : Engine} {segment : LogSegment} {w : ActionWrapper} {withFiles : Bool}

theorem isFromCheckpoint_of_mem_fileWrappers {f : DeltaLogFile}
    (h : w ∈ fileWrappers engine withFiles f) :
    w.isFromCheckpoint = decide (f.logType ≠ .commit) := by
  obtain ⟨batch, -, rfl⟩ := mem_map.1 h
  rfl

theorem logType_of_mem_sidecarsOfFile {f g : DeltaLogFile}
    (h : g ∈ sidecarsOfFile engine withFiles f) : g.logType = .sidecar := by
  rw [sidecarsOfFile] at h
  cases withFiles <;> split at h <;> first | exact logType_of_mem_sidecarFiles h | cases h

theorem isFromCheckpoint_of_mem_checkpointWrappers
    (hck : ∀ f ∈ segment.checkpoints, f.logType ≠ .commit)
    (h : w ∈ checkpointWrappers engine segment) : w.isFromCheckpoint = true := by
  rcases mem_append.1 h with hw | hw
  · obtain ⟨f, hf, hw⟩ := mem_flatMap.1 hw
    rw [isFromCheckpoint_of_mem_fileWrappers hw]
    exact decide_eq_true (hck f hf)
  · obtain ⟨g, hg, hw⟩ := mem_flatMap.1 hw
    obtain ⟨f, -, hg⟩ := mem_flatMap.1 hg
    rw [isFromCheckpoint_of_mem_fileWrappers hw, logType_of_mem_sidecarsOfFile hg]
    rfl

theorem logWrappers_eq (hdeltas : ∀ f ∈ segment.deltas, f.logType = .commit) :
    logWrappers engine true segment.allLogFilesReversed =
      segment.deltas.flatMap (fileWrappers engine true) ++ checkpointWrappers engine segment := by
  have hnone : segment.deltas.flatMap (sidecarsOfFile engine true) = [] := by
    rw [flatMap_eq_nil_iff]
    intro f hf
    rw [sidecarsOfFile, hdeltas f hf]
  rw [logWrappers, LogSegment.allLogFilesReversed, flatMap_append, flatMap_append, hnone,
    nil_append, append_assoc, checkpointWrappers]

theorem rowsOf_deltas (withFiles : Bool) (hdeltas : ∀ f ∈ segment.deltas, f.logType = .commit) :
    rowsOf (segment.deltas.flatMap (fileWrappers engine withFiles)) =
      commitRows engine segment := by
  rw [rowsOf, flatMap_assoc]
  apply flatMap_congr
  intro f hf
  exact rowsOf_fileWrappers_commit (hdeltas f hf)

theorem taggedRows_eq_map {ws : List ActionWrapper} {b : Bool}
    (h : ∀ w ∈ ws, w.isFromCheckpoint = b) : taggedRows ws = (rowsOf ws).map (Prod.mk b) := by
  induction ws with
  | nil => rfl
  | cons w ws ih =>
    rw [taggedRows_cons, ih fun v hv => h v (.tail _ hv), tagged, h w (.head _),
      rowsOf_cons, map_append]

variable {Uri : Type} {pathToUri : String → Res Uri} {uri : String → Uri}

theorem LogOk.taggedRows (h : LogOk pathToUri uri engine segment) :
    taggedRows (logWrappers engine true segment.allLogFilesReversed) =
      (commitRows engine segment).map (Prod.mk false) ++
        (checkpointActions engine segment).map (Prod.mk true) := by
  rw [logWrappers_eq h.deltas, Delta.taggedRows, flatMap_append]
  congr 1
  · rw [← rowsOf_deltas true h.deltas]
    apply taggedRows_eq_map
    intro w hw
    obtain ⟨f, hf, hw⟩ := mem_flatMap.1 hw
    simp [isFromCheckpoint_of_mem_fileWrappers hw, h.deltas f hf]
  · exact taggedRows_eq_map fun w hw => isFromCheckpoint_of_mem_checkpointWrappers h.checkpoints hw

theorem LogOk.batchOk (h : LogOk pathToUri uri engine segment) :
    ∀ w ∈ logWrappers engine true segment.allLogFilesReversed, BatchOk pathToUri uri w := by
  intro w hw
  rw [logWrappers_eq h.deltas] at hw
  refine ⟨?_, ?_⟩
  · intro a ha
    apply h.parses
    rw [← rowsOf_deltas true h.deltas, checkpointActions, ← rowsOf_append]
    exact mem_flatMap.2 ⟨w, hw, ha⟩
  · intro hck
    rcases mem_append.1 hw with hw | hw
    · -- a batch of a commit: its rows are rows of the commit
      obtain ⟨f, hf, hw⟩ := mem_flatMap.1 hw
      have hsub : ∀ a ∈ w.columnarBatch, a ∈ (engine.read f.file).flatten := by
        intro a ha
        rw [← rowsOf_fileWrappers_commit (h.deltas f hf)]
        exact mem_flatMap.2 ⟨w, hw, ha⟩
      intro a ha b hb k
      exact h.apart f hf a (hsub a ha) b (hsub b hb) k
    · rw [isFromCheckpoint_of_mem_checkpointWrappers h.checkpoints hw] at hck
      cases hck

variable [DecidableEq Uri]

/-- **What a checkpoint is written from**: the rows of the segment, with the marks of the rule. -/
theorem createCheckpoint_spec (assertions : Bool) (retention : Int)
    (h : LogOk pathToUri uri engine segment) :
    ∃ batches, createCheckpoint pathToUri assertions engine segment retention = .ok batches ∧
      batches.flatMap data = commitRows engine segment ++ checkpointActions engine segment ∧
      batches.flatMap flags = marks (checkpointRule uri retention) []
        ((commitRows engine segment).map (Prod.mk false) ++ (checkpointActions engine segment).map
          (Prod.mk true)) ∧
      batches.flatMap rows = (kept (checkpointRule uri retention) []
        ((commitRows engine segment).map (Prod.mk false) ++
          (checkpointActions engine segment).map (Prod.mk true))).map Prod.snd := by
  obtain ⟨batches, hrun, hdata, hflags, hrows⟩ :=
    drain_spec assertions (iteratorOf_new retention) h.batchOk
  refine ⟨batches, ?_, ?_, ?_, ?_⟩
  · rw [createCheckpoint, actions_eq h.named, Res.ok_bind, hrun]
  · rw [flatMap_def, hdata]
    exact (congrArg rowsOf (logWrappers_eq h.deltas)).trans
      (by rw [rowsOf_append, rowsOf_deltas true h.deltas]; rfl)
  · rw [hflags, h.taggedRows]
    rfl
  · rw [hrows, h.taggedRows]
    rfl

end Segment

/-! ## The reconciled state -/

section Reconciled

variable {Uri : Type} [DecidableEq Uri]

/-- Whether an action belongs to the reconciled state of a log, given the newer actions. -/
def reconciled (uri : String → Uri) (retention : Int) (newer : List Action) (a : Action) : Bool :=
  match a with
  | .add _ => isNewest (fileKey? uri) newer a
  | .remove r => isNewest (fileKey? uri) newer a && isUnexpired retention r
  | .protocol _ => isNewest protocolKey? newer a
  | .metaData _ => isNewest metadataKey? newer a
  | .txn _ => isNewest appId? newer a
  | .domainMetadata _ => isNewest domain? newer a
  | .sidecar _ | .other => false

variable {uri : String → Uri} {retention : Int}

/-- **One action per logical file**: no file is in the reconciled state twice, or both added and
removed. -/
theorem reconciled_pairwise (uri : String → Uri) (retention : Int) (rows : List Action) :
    ((kept (reconciled uri retention) [] rows).filter fun a => (fileKey? uri a).isSome).Pairwise
      fun a b => fileKey? uri a ≠ fileKey? uri b := by
  rw [filter_kept]
  refine (newest_pairwise (fileKey? uri) rows).sublist (kept_sublist_kept ?_ [] rows)
  intro seen a h
  obtain ⟨hrec, hfile⟩ := Bool.and_eq_true_iff.1 h
  cases a with
  | add f => exact hrec
  | remove r => exact (Bool.and_eq_true_iff.1 hrec).1
  | _ => cases hfile

theorem map_snd_mk (b : Bool) (rows : List Action) :
    (rows.map (Prod.mk b)).map Prod.snd = rows := by
  rw [map_map]
  exact map_id rows

theorem isNewest_map {κ : Type} [DecidableEq κ] (key : Action → Option κ) (seen : List LogRow)
    (x : LogRow) : newestRule key seen x = isNewest key (seen.map Prod.snd) x.2 := by
  rw [newestRule, isNewest, isNewest, all_map]
  rfl

/-- What the replay selects of each kind; it is reconciled but for the file actions. -/
theorem checkpointRule_eq (seen : List LogRow) (ck : Bool) (a : Action) :
    checkpointRule uri retention seen (ck, a) =
      match a with
      | .add _ => addRule uri seen (ck, a)
      | .remove r => !ck && isUnexpired retention r
      | a => reconciled uri retention (seen.map Prod.snd) a := by
  rw [checkpointRule_eq_passRule]
  cases a with
  | protocol | metaData | txn | domainMetadata => exact isNewest_map _ _ _
  | add | remove | sidecar | other => rfl

theorem addRule_eq_isNewest {seen : List LogRow} {ck : Bool} {f : AddFile}
    (h : ∀ y ∈ seen, y.1 = true → fileKey? uri y.2 ≠ fileKey? uri (.add f)) :
    addRule uri seen (ck, .add f) = isNewest (fileKey? uri) (seen.map Prod.snd) (.add f) := by
  rw [Bool.eq_iff_iff, addRule_eq_true_iff, isNewest_iff]
  refine and_congr Iff.rfl ?_
  rw [forall_mem_map]
  apply forall₂_congr
  intro y hy
  have hy := h y hy
  rw [ofCommit]
  cases hck : y.1 with
  | false => rfl
  | true => exact iff_of_true (Option.some_ne_none _).symm (hy hck)

theorem commit_rule_iff (newer : List Action) (a : Action) :
    checkpointRule uri retention (newer.map (Prod.mk false)) (false, a) =
      reconciled uri retention newer a ↔
      ∀ r, a = .remove r → isUnexpired retention r = true → ∀ b ∈ newer, fileKey? uri b ≠
        fileKey? uri a := by
  rw [checkpointRule_eq, map_snd_mk]
  cases a with
  | add f =>
    refine iff_of_true ?_ (by simp)
    refine (addRule_eq_isNewest ?_).trans (by rw [map_snd_mk]; rfl)
    intro y hy hck
    obtain ⟨b, -, rfl⟩ := mem_map.1 hy
    cases hck
  | remove r =>
    have hnewest : isNewest (fileKey? uri) newer (.remove r) = true ↔ _ := isNewest_iff
    dsimp only
    rw [Bool.not_false, reconciled]
    cases hr : isUnexpired retention r <;> simp_all [fileKey?, removeKey?, addKey?, Action.remove?]
  | _ => exact iff_of_true rfl (by simp)

theorem checkpoint_rule_iff (commits newer : List Action) (a : Action)
    (hdistinct : (fileKey? uri a).isSome → ∀ b ∈ newer, fileKey? uri b ≠ fileKey? uri a) :
    checkpointRule uri retention (newer.map (Prod.mk true) ++ commits.map (Prod.mk false)) (true, a) =
        reconciled uri retention (newer ++ commits) a ↔
      ∀ r, a = .remove r → isUnexpired retention r = true → ∃ b ∈ commits, fileKey? uri b =
        fileKey? uri a := by
  have hmap : (newer.map (Prod.mk true) ++ commits.map (Prod.mk false)).map Prod.snd =
      newer ++ commits := by
    rw [map_append, map_snd_mk, map_snd_mk]
  rw [checkpointRule_eq, hmap]
  cases a with
  | add f =>
    refine iff_of_true ?_ (by simp)
    refine (addRule_eq_isNewest ?_).trans (by rw [hmap]; rfl)
    intro y hy hck
    rcases mem_append.1 hy with hy | hy
    · obtain ⟨b, hb, rfl⟩ := mem_map.1 hy
      exact hdistinct rfl b hb
    · obtain ⟨b, -, rfl⟩ := mem_map.1 hy
      cases hck
  | remove r =>
    have hnewer := hdistinct rfl
    have hnewest : isNewest (fileKey? uri) (newer ++ commits) (.remove r) = true ↔
        ∀ b ∈ commits, fileKey? uri b ≠ fileKey? uri (.remove r) := by
      rw [isNewest_iff]
      constructor
      · intro ⟨_, h⟩ b hb
        exact h b (mem_append_right _ hb)
      · intro h
        exact ⟨rfl, fun b hb => (mem_append.1 hb).elim (hnewer b) (h b)⟩
    dsimp only
    rw [Bool.not_true, Bool.false_and, reconciled]
    constructor
    · intro h r' hr' hunexpired
      cases hr'
      rw [hunexpired, Bool.and_true, eq_comm, ← Bool.not_eq_true, hnewest] at h
      push Not at h
      exact h
    · intro h
      cases hr : isUnexpired retention r with
      | false => rw [Bool.and_false]
      | true =>
        obtain ⟨b, hb, hk⟩ := h r rfl hr
        rw [Bool.and_true, eq_comm, ← Bool.not_eq_true, hnewest]
        exact fun hc => hc b hb hk
  | _ => exact iff_of_true rfl (by simp)

/-- **A checkpoint is the reconciled state** iff no unexpired remove of a commit is followed by a
newer action of its file, and every unexpired remove of the old checkpoint is. In that state no file
is there twice, or both added and removed. -/
theorem createCheckpoint_eq_reconciled_iff {pathToUri : String → Res Uri} {engine : Engine}
    {segment : LogSegment} (assertions : Bool) (h : LogOk pathToUri uri engine segment)
    (hdistinct : (checkpointActions engine segment).Pairwise fun a b =>
      (fileKey? uri b).isSome → fileKey? uri a ≠ fileKey? uri b) :
    ((kept (reconciled uri retention) []
        (commitRows engine segment ++ checkpointActions engine segment) |>.filter
          fun a => (fileKey? uri a).isSome).Pairwise fun a b =>
      fileKey? uri a ≠ fileKey? uri b) ∧
    ((∃ batches, createCheckpoint pathToUri assertions engine segment retention = .ok batches ∧
      batches.flatMap data = commitRows engine segment ++ checkpointActions engine segment ∧
      batches.flatMap flags = marks (reconciled uri retention) []
        (commitRows engine segment ++ checkpointActions engine segment)) ↔
      (∀ newer r older, commitRows engine segment = newer ++ .remove r :: older →
        isUnexpired retention r = true →
        ∀ a ∈ newer, fileKey? uri a ≠ fileKey? uri (.remove r)) ∧
      ∀ r, .remove r ∈ checkpointActions engine segment → isUnexpired retention r = true →
        ∃ a ∈ commitRows engine segment, fileKey? uri a = fileKey? uri (.remove r)) := by
  refine ⟨reconciled_pairwise uri retention _, ?_⟩
  obtain ⟨batches, hrun, hdata, hflags, -⟩ := createCheckpoint_spec assertions retention h
  generalize commitRows engine segment = commits at hdata hflags ⊢
  generalize checkpointActions engine segment = rows at hdata hflags hdistinct ⊢
  simp only [hrun, Except.ok.injEq, exists_eq_left', hdata, true_and, hflags, marks_append, append_nil,
    ← map_reverse, marks_map]
  rw [marks_append_inj, marks_eq_iff, marks_eq_iff]
  refine and_congr ?_ ?_
  · constructor
    · intro hrule newer r older hcommits hunexpired a ha
      have hrule := hrule newer (.remove r) older hcommits
      rw [append_nil, commit_rule_iff] at hrule
      exact hrule r rfl hunexpired a (mem_reverse.2 ha)
    · intro hcond newer a older hcommits
      rw [append_nil]
      refine (commit_rule_iff _ _).2 fun r hr hunexpired b hb => ?_
      subst hr
      exact hcond newer r older hcommits hunexpired b (mem_reverse.1 hb)
  · have hrule : ∀ newer a older, rows = newer ++ a :: older →
        (checkpointRule uri retention ((newer.reverse ++ []).map (Prod.mk true) ++
          commits.reverse.map (Prod.mk false)) (true, a) =
            reconciled uri retention (newer.reverse ++ commits.reverse) a ↔
        ∀ r, a = .remove r → isUnexpired retention r = true → ∃ b ∈ commits,
          fileKey? uri b = fileKey? uri a) := by
      intro newer a older hrows
      rw [append_nil, checkpoint_rule_iff]
      · simp only [mem_reverse]
      · intro hk b hb
        rw [hrows] at hdistinct
        exact (pairwise_append.1 hdistinct).2.2 b (mem_reverse.1 hb) a (.head _) hk
    constructor
    · intro hall r hr hunexpired
      obtain ⟨newer, older, hrows⟩ := append_of_mem hr
      exact (hrule newer _ older hrows).1 (hall newer _ older hrows) r rfl hunexpired
    · intro hcond newer a older hrows
      refine (hrule newer a older hrows).2 fun r hr hunexpired => ?_
      subst hr
      exact hcond r (by rw [hrows]; exact mem_append_right _ (.head _)) hunexpired

end Reconciled

/-! ## A file that is removed and added -/

/-- A file at version 1 and one at version 0, each read as one batch. -/
def pairEngine (newer older : List Action) : Engine where
  read f := if f.nameVersion = some 1 then [newer] else [older]

/-- Commit 1 over commit 0, or over a checkpoint at version 0. -/
def pairSegment (checkpoint : Bool) : LogSegment where
  version := 1
  deltas := ⟨⟨"1.json", some 1⟩, .commit, 1⟩ :: if checkpoint then []
    else [⟨⟨"0.json", some 0⟩, .commit, 0⟩]
  checkpoints := if checkpoint then [⟨⟨"0.checkpoint.parquet", some 0⟩, .checkpointClassic, 0⟩] else []

/-- An add of the file `data`, and a remove of it at time 10. -/
def dataAdd : Action := .add ⟨"data", [], 1, 0, true, none, none, none⟩
def dataRemove : Action := .remove ⟨"data", some 10, true, none⟩

theorem addsApart_singleton (a : Action) : AddsApartFromRemoves (id : String → String) [a] := by
  intro b hb c hc k hadd hremove
  obtain rfl := mem_singleton.1 hc
  cases c <;> simp_all [addKey?, removeKey?, Action.add?, Action.remove?]

theorem pair_logOk {newer older : Action} (holder : older.sidecar? = none) (checkpoint : Bool) :
    LogOk Except.ok id (pairEngine [newer] [older]) (pairSegment checkpoint) where
  deltas := by cases checkpoint <;> simp [pairSegment]
  checkpoints := by cases checkpoint <;> simp [pairSegment]
  named := by
    cases checkpoint <;> simp [WellNamed, pairSegment, LogSegment.allLogFilesReversed,
      sidecarsOfFile, sidecarFiles, pairEngine, holder]
  parses := fun _ _ => ⟨fun _ _ => rfl, fun _ _ => rfl⟩
  apart := by
    intro f hf
    rw [pairEngine]
    dsimp only
    split <;> exact addsApart_singleton _

/-- **A file that is removed and added again** is selected as both, and the tombstone of a file that
only the old checkpoint holds is lost. -/
theorem createCheckpoint_tombstones :
    (LogOk Except.ok id (pairEngine [dataAdd] [dataRemove]) (pairSegment false) ∧
      createCheckpoint Except.ok true (pairEngine [dataAdd] [dataRemove]) (pairSegment false) 5 =
        .ok [⟨[dataAdd], some [true]⟩, ⟨[dataRemove], some [true]⟩] ∧
      marks (reconciled id 5) [] [dataAdd, dataRemove] = [true, false]) ∧
    (LogOk Except.ok id (pairEngine [.other] [dataRemove]) (pairSegment true) ∧
      createCheckpoint Except.ok true (pairEngine [.other] [dataRemove]) (pairSegment true) 5 =
        .ok [⟨[.other], some [false]⟩, ⟨[dataRemove], some [false]⟩] ∧
      marks (reconciled id 5) [] [.other, dataRemove] = [false, true]) :=
  ⟨⟨pair_logOk rfl false, by decide +kernel, by decide +kernel⟩,
    pair_logOk rfl true, by decide +kernel, by decide +kernel⟩

/-- A removed file of which the old checkpoint holds the add: the remove is kept and the add is not.
-/
theorem createCheckpoint_removed :
    ∃ batches, createCheckpoint Except.ok true (pairEngine [dataRemove] [dataAdd])
      (pairSegment true) 5 = .ok batches ∧
      batches.flatMap data = [dataRemove, dataAdd] ∧
      batches.flatMap flags = marks (reconciled id 5) [] [dataRemove, dataAdd] := by
  refine (createCheckpoint_eq_reconciled_iff true (pair_logOk rfl true) ?_).2.2 ⟨?_, ?_⟩
  · exact pairwise_singleton _ _
  · intro newer r older hcommits hunexpired a ha
    have hlen := congrArg length hcommits
    have : newer = [] := by
      cases newer with
      | nil => rfl
      | cons b newer =>
        simp only [length_append, length_cons] at hlen
        have : (commitRows (pairEngine [dataRemove] [dataAdd]) (pairSegment true)).length = 1 := rfl
        omega
    subst this
    cases ha
  · intro r hr
    have hrows : checkpointActions (pairEngine [dataRemove] [dataAdd]) (pairSegment true) =
      [dataAdd] := rfl
    rw [hrows, mem_singleton] at hr
    cases hr

end Delta
