import RisingLake.Delta.History

/-!
# The protocol and metadata of a snapshot

The loop of `loadTableProtocolAndMetadata` reads batches up to the first one of the file at the
hint's version plus one (`readPart`). What it returns is described by what these batches hold
(`findProtocolAndMetadata_eq`). Compared with the table's history, the result is the newest protocol
and metadata unless a later batch of that file holds what the first one lacks, or the reader check,
which is made on one of the ways to return, refuses the table
(`loadTableProtocolAndMetadata_eq_newest_iff`).
-/

namespace Delta

open List

namespace LogReplay

open ActionsIterator

variable {dataPath : String} {version : Nat} {hint : Option SnapshotHint}

def hintAt (hint : Option SnapshotHint) (w : ActionWrapper) : Option SnapshotHint :=
  hint.filter fun h => w.version = h.version + 1

/-- The batches the loop reads, unless it finds both actions earlier. -/
def readPart (hint : Option SnapshotHint) : List ActionWrapper → List ActionWrapper
  | [] => []
  | w :: ws => if (hintAt hint w).isSome then [w] else w :: readPart hint ws

/-- Whether the first batch that holds a protocol or a metadata action holds a protocol. -/
def protocolFirst : List ActionWrapper → Bool
  | [] => false
  | w :: ws =>
    match w.columnarBatch.findSome? Action.protocol?,
        w.columnarBatch.findSome? Action.metaData? with
    | some _, _ => true
    | none, some _ => false
    | none, none => protocolFirst ws

/-- What the loop returns where one of the actions is missing from the batches read. -/
def withHint (version : Nat) (hint : Option SnapshotHint) (ws : List ActionWrapper)
    (p : Option Protocol) (m : Option Metadata) : Res (Protocol × Metadata) :=
  match ws.findSome? (hintAt hint), p with
  | some h, _ => .ok (p.getD h.protocol, m.getD h.metadata)
  | none, none => .error (.explicit ("No protocol found at version " ++ toString version))
  | none, some _ => .error (.explicit ("No metadata found at version " ++ toString version))

/-- The newest protocol and metadata of a log, as the loop finds them. -/
def newestProtocol (rows : List Action) : Option Protocol := rows.findSome? Action.protocol?
def newestMetadata (rows : List Action) : Option Metadata := rows.findSome? Action.metaData?

variable {w : ActionWrapper} {ws : List ActionWrapper} {h : SnapshotHint}

theorem withHint_cons_of_some (hw : hintAt hint w = some h) (p : Option Protocol)
    (m : Option Metadata) :
    withHint version hint (w :: ws) p m = .ok (p.getD h.protocol, m.getD h.metadata) := by
  unfold withHint
  rw [findSome?_cons, hw]

theorem withHint_cons_of_none (hw : hintAt hint w = none) (p : Option Protocol)
    (m : Option Metadata) : withHint version hint (w :: ws) p m = withHint version hint ws p m := by
  unfold withHint
  rw [findSome?_cons, hw]

theorem readPart_cons_of_some (hw : hintAt hint w = some h) : readPart hint (w :: ws) = [w] := by
  rw [readPart, hw]
  rfl

theorem readPart_cons_of_none (hw : hintAt hint w = none) :
    readPart hint (w :: ws) = w :: readPart hint ws := by
  rw [readPart, hw]
  rfl

/-! ## The loop -/

theorem findSome?_readPart_cons {α : Type} {k : Action → Option α} (found : Option α)
    (w : ActionWrapper) (ws : List ActionWrapper) :
    found.or ((rowsOf (readPart hint (w :: ws))).findSome? k) =
      (found.or (w.columnarBatch.findSome? k)).or
        ((rowsOf (if (hintAt hint w).isSome then [] else readPart hint ws)).findSome? k) := by
  rw [readPart]
  split
  · rw [rowsOf_cons, findSome?_append, Option.or_assoc]
  · rw [rowsOf_cons, findSome?_append, Option.or_assoc]

/-- **The result of the loop**, from what it knows and the batches it may read. -/
theorem findProtocolAndMetadata_eq : ∀ (ws : List ActionWrapper) (protocol : Option Protocol)
    (metadata : Option Metadata), protocol = none ∨ metadata = none →
    findProtocolAndMetadata dataPath version hint protocol metadata ws =
      match protocol.or (newestProtocol (rowsOf (readPart hint ws))),
        metadata.or (newestMetadata (rowsOf (readPart hint ws))) with
      | some p, some m =>
        if metadata.isNone && (protocol.isSome || protocolFirst (readPart hint ws)) then do
          validateReadSupportedTable p dataPath m
          .ok (p, m)
        else .ok (p, m)
      | p, m => withHint version hint ws p m
  | [], none, none, _ | [], none, some _, _ | [], some _, none, _ => rfl
  | [], some _, some _, h => by simp at h
  | w :: ws, protocol, metadata, hknown => by
    have hfirst : protocolFirst (readPart hint (w :: ws)) =
        protocolFirst (w :: if (hintAt hint w).isSome then [] else readPart hint ws) := by
      rw [readPart]
      split <;> rfl
    rw [findProtocolAndMetadata.eq_def, newestProtocol, newestMetadata, findSome?_readPart_cons,
      findSome?_readPart_cons, hfirst, protocolFirst]
    cases hw : hintAt hint w with
    | some h =>
      simp only [withHint_cons_of_some hw]
      rw [hintAt] at hw
      cases protocol <;> cases metadata <;> first | (simp at hknown; done) | skip
      all_goals cases w.columnarBatch.findSome? Action.protocol? <;>
        cases w.columnarBatch.findSome? Action.metaData? <;> simp [hw]
    | none =>
      have ih :=
        findProtocolAndMetadata_eq ws (protocol.or (w.columnarBatch.findSome? Action.protocol?))
          (metadata.or (w.columnarBatch.findSome? Action.metaData?))
      simp only [withHint_cons_of_none hw]
      rw [hintAt] at hw
      generalize w.columnarBatch.findSome? Action.protocol? = p at ih ⊢
      generalize w.columnarBatch.findSome? Action.metaData? = m at ih ⊢
      cases protocol <;> cases metadata <;> first | (simp at hknown; done) | skip
      all_goals cases p <;> cases m <;> simp [hw] at ih ⊢ <;> exact ih

/-! ## The batches read and the history -/

theorem readPart_prefix (hint : Option SnapshotHint) : ∀ ws : List ActionWrapper,
    ∃ rest, ws = readPart hint ws ++ rest
  | [] => ⟨[], rfl⟩
  | w :: ws => by
    cases hw : hintAt hint w with
    | some h => exact ⟨ws, by rw [readPart_cons_of_some hw, singleton_append]⟩
    | none =>
      obtain ⟨rest, hrest⟩ := readPart_prefix hint ws
      exact ⟨rest, by rw [readPart_cons_of_none hw, cons_append, ← hrest]⟩

theorem readPart_append {newer : List ActionWrapper} (h : ∀ w ∈ newer, hintAt hint w = none)
    (ws : List ActionWrapper) : readPart hint (newer ++ ws) = newer ++ readPart hint ws := by
  induction newer with
  | nil => rfl
  | cons w newer ih =>
    rw [cons_append, readPart_cons_of_none (h w (.head _)),
      ih fun v hv => h v (.tail _ hv), cons_append]

theorem hintAt_some_iff : hintAt (some h) w = some h ↔ w.version = h.version + 1 := by
  simp [hintAt]

def checkpointRows (engine : Engine) (segment : LogSegment) : List Action :=
  segment.checkpoints.flatMap fun f => (engine.read f.file).flatten

/-- The batches of the file at the hint's version plus one, but for the first. -/
def unread (h : SnapshotHint) (ws : List ActionWrapper) : List ActionWrapper :=
  (ws.filter fun w => w.version = h.version + 1).tail

section Segment

variable {engine : Engine} {commit : Nat → List Action} {base : Nat} {segment : LogSegment}

theorem sidecarsOfFile_false (f : DeltaLogFile) : sidecarsOfFile engine false f = [] := by
  rw [sidecarsOfFile]
  split <;> rfl

theorem logWrappers_false (files : List DeltaLogFile) :
    logWrappers engine false files = files.flatMap (fileWrappers engine false) := by
  have hnone : files.flatMap (sidecarsOfFile engine false) = [] :=
    flatMap_eq_nil_iff.2 fun f _ => sidecarsOfFile_false f
  rw [logWrappers, hnone]
  exact append_nil _

theorem named_of_segmentOf (h : SegmentOf engine commit base segment) :
    ∀ f ∈ segment.allLogFilesReversed, f.file.nameVersion = some f.version := by
  intro f hf
  rcases mem_append.1 hf with hf | hf
  · exact h.deltas.named f hf
  · obtain ⟨version, -, hck⟩ := h.checkpoints f hf
    rw [hck.name, hck.version_eq]

theorem wellNamed_of_segmentOf (h : SegmentOf engine commit base segment) :
    WellNamed engine false segment.allLogFilesReversed := by
  intro f hf
  refine ⟨named_of_segmentOf h f hf, fun g hg => ?_⟩
  rw [sidecarsOfFile_false] at hg
  cases hg

theorem rowsOf_checkpoints :
    rowsOf (segment.checkpoints.flatMap (fileWrappers engine false)) =
      checkpointRows engine segment := by
  rw [rowsOf, flatMap_assoc]
  apply flatMap_congr
  intro f _
  rw [fileWrappers, flatMap_map]
  exact flatMap_id

variable {α : Type} {k : Action → Option α}

theorem findSome?_of_mem_iff {mk : α → Action} {rows older : List Action}
    (hk : ∀ a x, k a = some x ↔ a = mk x) (h : ∀ x, mk x ∈ rows ↔ older.findSome? k = some x) :
    rows.findSome? k = older.findSome? k := by
  cases hx : rows.findSome? k with
  | some x =>
    obtain ⟨a, ha, hax⟩ := exists_of_findSome?_eq_some hx
    rw [(hk a x).1 hax] at ha
    exact ((h x).1 ha).symm
  | none =>
    cases hy : older.findSome? k with
    | none => rfl
    | some y =>
      have hmem := (h y).2 hy
      have := findSome?_eq_none_iff.1 hx _ hmem
      rw [(hk (mk y) y).2 rfl] at this
      cases this

section

variable (hseg : SegmentOf engine commit base segment)
  (hck : (checkpointRows engine segment).findSome? k = (before commit base).findSome? k)
  (hws : ws = logWrappers engine false segment.allLogFilesReversed)
include hseg hck hws

theorem split_at_version (u : Nat) :
    ∃ newer same older, ws = newer ++ (same ++ older) ∧ (∀ w ∈ newer, w.version ≠ u + 1) ∧
      (∀ w ∈ same, w.version = u + 1) ∧ (∀ w ∈ older, w.version ≠ u + 1) ∧
      ∀ x, (rowsOf older).findSome? k = some x → (before commit (u + 1)).findSome? k = some x := by
  rw [hws, logWrappers_false, LogSegment.allLogFilesReversed, flatMap_append]
  have hckversion : ∀ w ∈ segment.checkpoints.flatMap (fileWrappers engine false),
      w.version + 1 = base := by
    intro w hw
    obtain ⟨f, hf, hwf⟩ := version_of_mem_flatMap hw
    obtain ⟨version, hbase, hck⟩ := hseg.checkpoints f hf
    rw [hwf, hck.version_eq, hbase]
  by_cases hcommit : base ≤ u + 1 ∧ u + 1 ≤ segment.version
  · -- a commit of the segment: its file and the older ones follow the newer ones
    obtain ⟨hi, lo, hfiles, hhi, hlo⟩ := hseg.deltas.split (m := u + 2) (by omega) (by omega)
    cases hlo with
    | nil => omega
    | @cons _ f lo hf hlo =>
      refine ⟨hi.flatMap (fileWrappers engine false), fileWrappers engine false f,
        lo.flatMap (fileWrappers engine false) ++ segment.checkpoints.flatMap
          (fileWrappers engine false),
        ?_, ?_, ?_, ?_, ?_⟩
      · rw [hfiles, flatMap_append, flatMap_cons, append_assoc, append_assoc]
      · intro w hw
        have := versions_of_commitFiles hhi hw
        omega
      · intro w hw
        rw [version_of_mem_fileWrappers hw, hf.version_eq]
      · intro w hw
        rcases mem_append.1 hw with hw | hw
        · have := versions_of_commitFiles hlo hw
          omega
        · have := hckversion w hw
          omega
      · intro x hx
        rw [rowsOf_append, findSome?_append, rowsOf_checkpoints, hck, ← findSome?_append,
          rowsOf_commitFiles hlo] at hx
        exact hx
  · by_cases hbase : u + 2 = base
    · -- the checkpoint itself: nothing older is in the segment
      refine ⟨segment.deltas.flatMap (fileWrappers engine false),
        segment.checkpoints.flatMap (fileWrappers engine false), [], by rw [append_nil], ?_, ?_,
          nofun, nofun⟩
      · intro w hw
        have := versions_of_commitFiles hseg.deltas hw
        omega
      · intro w hw
        have := hckversion w hw
        omega
    · refine ⟨segment.deltas.flatMap (fileWrappers engine false) ++
        segment.checkpoints.flatMap (fileWrappers engine false), [],
        [], by rw [append_nil, append_nil], ?_, nofun,
        nofun, nofun⟩
      intro w hw
      rcases mem_append.1 hw with hw | hw
      · have := versions_of_commitFiles hseg.deltas hw
        omega
      · have := hckversion w hw
        omega

theorem findSome?_logWrappers :
    (rowsOf ws).findSome? k = (before commit (segment.version + 1)).findSome? k := by
  rw [hws, logWrappers_false, LogSegment.allLogFilesReversed, flatMap_append, rowsOf_append,
    findSome?_append, rowsOf_checkpoints, hck, ← findSome?_append, rowsOf_commitFiles hseg.deltas]

theorem newest_of_unread {x : α} (hread : (rowsOf (readPart (some h) ws)).findSome? k = none)
    (hunread : (rowsOf (unread h ws)).findSome? k = none)
    (hx : (before commit (segment.version + 1)).findSome? k = some x) :
    (before commit (h.version + 1)).findSome? k = some x := by
  rw [← findSome?_logWrappers hseg hck hws] at hx
  obtain ⟨newer, same, older, rfl, hnewer, hsame, holder, hhist⟩ :=
    split_at_version hseg hck hws h.version
  rw [readPart_append fun w hw => by simp [hintAt, hnewer w hw], rowsOf_append, findSome?_append,
    Option.or_eq_none_iff] at hread
  apply hhist
  have hfilter : ∀ ws : List ActionWrapper, (∀ w ∈ ws, w.version ≠ h.version + 1) →
      (ws.filter fun w => w.version = h.version + 1) = [] := by
    intro ws hne
    rw [filter_eq_nil_iff]
    intro w hw
    simpa using hne w hw
  have hfilterSame : (same.filter fun w => w.version = h.version + 1) = same :=
    filter_eq_self.2 fun w hw => by simpa using hsame w hw
  rw [unread, filter_append, filter_append, hfilter newer hnewer, hfilter older holder,
    hfilterSame, nil_append, append_nil] at hunread
  rw [rowsOf_append, rowsOf_append, findSome?_append, findSome?_append, hread.1] at hx
  cases same with
  | nil => exact hx
  | cons b later =>
    have hb : (rowsOf [b]).findSome? k = none := by
      have := hread.2
      rw [cons_append, readPart_cons_of_some (hintAt_some_iff.2 (hsame b (.head _)))] at this
      exact this
    rw [← singleton_append, rowsOf_append, findSome?_append, hb] at hx
    rw [tail_cons] at hunread
    rw [hunread] at hx
    exact hx

end

/-- The batches read hold an action of the kind, or the rest of the file at the hint's version plus
one holds none either, or the hint's is the newest anyway. -/
def HintCovers {α : Type} (k : Action → Option α) (ws : List ActionWrapper) (h : SnapshotHint)
    (hintValue newest : α) : Prop :=
  ((rowsOf (readPart (some h) ws)).findSome? k).isSome ∨ (rowsOf (unread h ws)).findSome? k = none ∨
    hintValue = newest

/-- Whether the loop returns through the reader check: both actions are read, and the metadata not
in an earlier batch than the protocol. -/
def checksReader (hint : Option SnapshotHint) (ws : List ActionWrapper) : Bool :=
  (newestProtocol (rowsOf (readPart hint ws))).isSome &&
    (newestMetadata (rowsOf (readPart hint ws))).isSome &&
    protocolFirst (readPart hint ws)

theorem findSome?_readPart {x y : α} (hx : (rowsOf ws).findSome? k = some x)
    (hy : (rowsOf (readPart hint ws)).findSome? k = some y) : y = x := by
  obtain ⟨rest, hrest⟩ := readPart_prefix hint ws
  rw [hrest, rowsOf_append, findSome?_append, hy] at hx
  exact Option.some.inj hx

theorem hintAt_of_findSome?_readPart : ∀ {ws : List ActionWrapper} {x : α},
    (rowsOf ws).findSome? k = some x → (rowsOf (readPart hint ws)).findSome? k = none →
    ∃ h, hint = some h ∧ ws.findSome? (hintAt hint) = some h
  | [], _, hx, _ => by cases hx
  | w :: ws, x, hx, hnone => by
    cases hw : hintAt hint w with
    | some h =>
      refine ⟨h, ?_, by rw [findSome?_cons, hw]⟩
      exact (Option.filter_eq_some_iff.1 hw).1
    | none =>
      rw [readPart_cons_of_none hw, rowsOf_cons, findSome?_append, Option.or_eq_none_iff] at hnone
      rw [rowsOf_cons, findSome?_append, hnone.1] at hx
      obtain ⟨h, hhint, hfind⟩ := hintAt_of_findSome?_readPart hx hnone.2
      exact ⟨h, hhint, by rw [findSome?_cons, hw]; exact hfind⟩

theorem findProtocolAndMetadata_eq_ok_iff {protocol : Protocol} {metadata : Metadata}
    (hprotocol : newestProtocol (rowsOf ws) = some protocol)
    (hmetadata : newestMetadata (rowsOf ws) = some metadata) :
    findProtocolAndMetadata dataPath version hint none none ws = .ok (protocol, metadata) ↔
      (∀ h, hint = some h →
        (newestProtocol (rowsOf (readPart (some h) ws))).getD h.protocol = protocol ∧
        (newestMetadata (rowsOf (readPart (some h) ws))).getD h.metadata = metadata) ∧
      (checksReader hint ws = true → validateReadSupportedTable protocol dataPath metadata =
        .ok ()) := by
  have hmissing : ∀ p m, newestProtocol (rowsOf (readPart hint ws)) = p →
      newestMetadata (rowsOf (readPart hint ws)) = m → p = none ∨ m = none →
      (withHint version hint ws p m = .ok (protocol, metadata) ↔ (∀ h, hint = some h →
          (newestProtocol (rowsOf (readPart (some h) ws))).getD h.protocol = protocol ∧
          (newestMetadata (rowsOf (readPart (some h) ws))).getD h.metadata = metadata) ∧
        (checksReader hint ws = true → validateReadSupportedTable protocol dataPath metadata =
          .ok ())) := by
    intro p m hp hm hnone
    have hreader : checksReader hint ws = false := by
      rw [checksReader, hp, hm]
      rcases hnone with rfl | rfl
      · rfl
      · rw [Option.isSome_none, Bool.and_false, Bool.false_and]
    -- a missing action means that the hint has been used
    obtain ⟨h, rfl, hfind⟩ : ∃ h, hint = some h ∧ ws.findSome? (hintAt hint) = some h := by
      rcases hnone with rfl | rfl
      · exact hintAt_of_findSome?_readPart hprotocol hp
      · exact hintAt_of_findSome?_readPart hmetadata hm
    unfold withHint
    rw [hfind, hreader]
    simp only [Except.ok.injEq, Prod.mk.injEq, Bool.false_eq_true, false_implies, and_true,
      Option.some.injEq, forall_eq', hp, hm]
  rw [findProtocolAndMetadata_eq ws none none (.inl rfl), Option.none_or, Option.none_or]
  cases hp : newestProtocol (rowsOf (readPart hint ws)) with
  | none => exact hmissing none _ hp rfl (.inl rfl)
  | some p =>
    cases hm : newestMetadata (rowsOf (readPart hint ws)) with
    | none => exact hmissing (some p) none hp hm (.inr rfl)
    | some m =>
      -- both are found: they are the newest, and only the check can fail
      obtain rfl := findSome?_readPart hprotocol hp
      obtain rfl := findSome?_readPart hmetadata hm
      have hfound : ∀ h, hint = some h →
          (newestProtocol (rowsOf (readPart (some h) ws))).getD h.protocol = p ∧
          (newestMetadata (rowsOf (readPart (some h) ws))).getD h.metadata = m := by
        intro h hh
        subst hh
        rw [hp, hm]
        exact ⟨rfl, rfl⟩
      have hreader : checksReader hint ws = protocolFirst (readPart hint ws) := by
        rw [checksReader, hp, hm]
        rfl
      rw [hreader, Option.isNone_none, Option.isSome_none, Bool.true_and, Bool.false_or]
      cases protocolFirst (readPart hint ws) with
      | false =>
        simp only [Bool.false_eq_true, if_false, false_implies, and_true]
        exact iff_of_true trivial hfound
      | true =>
        simp only [true_implies]
        cases validateReadSupportedTable p dataPath m with
        | ok u => exact iff_of_true rfl ⟨hfound, rfl⟩
        | error e =>
          refine iff_of_false ?_ ?_
          · nofun
          · intro hc
            cases hc.2

theorem getD_eq_iff_hintCovers (hseg : SegmentOf engine commit base segment)
    (hck : (checkpointRows engine segment).findSome? k = (before commit base).findSome? k)
    (hws : ws = logWrappers engine false segment.allLogFilesReversed) {x y : α}
    (hx : (before commit (segment.version + 1)).findSome? k = some x)
    (hy : (before commit (h.version + 1)).findSome? k = some y) :
    ((rowsOf (readPart (some h) ws)).findSome? k).getD y = x ↔ HintCovers k ws h y x := by
  have hrows := (findSome?_logWrappers hseg hck hws).trans hx
  cases hread : (rowsOf (readPart (some h) ws)).findSome? k with
  | some z =>
    have hz := findSome?_readPart hrows hread
    subst hz
    simp [HintCovers, hread]
  | none =>
    simp only [HintCovers, hread, Option.isSome_none, Bool.false_eq_true, false_or]
    refine ⟨.inr, ?_⟩
    intro hcov
    rcases hcov with hunread | heq
    · have := newest_of_unread hseg hck hws hread hunread hx
      rw [hy] at this
      exact Option.some.inj this
    · exact heq

/-- **Protocol and metadata of a snapshot.** The newest ones of the history are returned iff the
hint is at the snapshot's version, or every action the hint stands in for is covered by it and the
table passes the reader check wherever that check is made. -/
theorem loadTableProtocolAndMetadata_eq_newest_iff (hseg : SegmentOf engine commit base segment)
    (hckProtocol : ∀ p, .protocol p ∈ checkpointRows engine segment ↔
    newestProtocol (before commit base) = some p)
    (hckMetadata : ∀ m, .metaData m ∈ checkpointRows engine segment ↔
    newestMetadata (before commit base) = some m) {protocol : Protocol}
    (hprotocol : newestProtocol (before commit (segment.version + 1)) = some protocol)
    {metadata : Metadata}
    (hmetadata : newestMetadata (before commit (segment.version + 1)) = some metadata)
    (hhint : ∀ h, hint = some h → newestProtocol (before commit (h.version + 1)) = some h.protocol ∧
      newestMetadata (before commit (h.version + 1)) = some h.metadata) :
    loadTableProtocolAndMetadata engine dataPath segment hint segment.version =
      .ok (protocol, metadata) ↔
      (∃ h, hint = some h ∧ h.version = segment.version) ∨ (∀ h, hint = some h →
          HintCovers Action.protocol?
            (logWrappers engine false segment.allLogFilesReversed) h h.protocol protocol ∧
          HintCovers Action.metaData?
            (logWrappers engine false segment.allLogFilesReversed) h h.metadata metadata) ∧
        (checksReader hint (logWrappers engine false segment.allLogFilesReversed) = true →
          validateReadSupportedTable protocol dataPath metadata = .ok ()) := by
  have hckP := findSome?_of_mem_iff
    (fun a x => by cases a <;> simp [Action.protocol?]) hckProtocol
  have hckM := findSome?_of_mem_iff
    (fun a x => by cases a <;> simp [Action.metaData?]) hckMetadata
  rw [loadTableProtocolAndMetadata]
  cases hearly : hint.filter fun h => h.version = segment.version with
  | some h =>
    -- the hint is at the version asked for
    obtain ⟨rfl, hversion⟩ := Option.filter_eq_some_iff.1 hearly
    have hversion : h.version = segment.version := by simpa using hversion
    obtain ⟨hp, hm⟩ := hhint h rfl
    rw [hversion, hprotocol] at hp
    rw [hversion, hmetadata] at hm
    cases hp
    cases hm
    exact iff_of_true rfl (.inl ⟨h, rfl, hversion⟩)
  | none =>
    have hlate : ¬∃ h, hint = some h ∧ h.version = segment.version := by
      intro ⟨h, hh, hversion⟩
      subst hh
      simp [hversion] at hearly
    rw [actions_eq (wellNamed_of_segmentOf hseg), Res.ok_bind, or_iff_right hlate,
      findProtocolAndMetadata_eq_ok_iff ((findSome?_logWrappers hseg hckP rfl).trans hprotocol)
        ((findSome?_logWrappers hseg hckM rfl).trans hmetadata)]
    apply and_congr_left'
    apply forall₂_congr
    intro h hh
    exact and_congr (getD_eq_iff_hintCovers hseg hckP rfl hprotocol (hhint h hh).1)
      (getD_eq_iff_hintCovers hseg hckM rfl hmetadata (hhint h hh).2)

end Segment

/-! ## A table whose second commit changes its metadata -/

/-- The metadata of the example, told apart by its id. -/
def tableMetadata (id : String) : Metadata :=
  { id, name := none, description := none, format := ⟨"parquet", []⟩,
    schemaString := "", partitionColumns := [], createdTime := none, configuration := [] }

variable (minReaderVersion : Int)

/-- The first commit sets protocol and metadata, the second one new metadata behind its
`commitInfo`. -/
def tableCommit : Nat → List Action
  | 0 => [.protocol ⟨minReaderVersion, 2, [], []⟩, .metaData (tableMetadata "first")]
  | 1 => [.other, .metaData (tableMetadata "second")]
  | _ => []

/-- A reader that returns the second commit in one batch, or in a batch for each row. -/
def tableEngine (split : Bool) : Engine where
  read f :=
    if f.nameVersion = some 0 then [tableCommit minReaderVersion 0]
    else if split then (tableCommit minReaderVersion 1).map fun a => [a]
    else [tableCommit minReaderVersion 1]

def tableFile (version : Nat) : DeltaLogFile := ⟨⟨"_delta_log", some version⟩, .commit, version⟩

def firstSegment : LogSegment := ⟨0, [tableFile 0], []⟩
def secondSegment : LogSegment := ⟨1, [tableFile 1, tableFile 0], []⟩

theorem firstSegment_segmentOf (split : Bool) :
    SegmentOf (tableEngine minReaderVersion split) (tableCommit minReaderVersion) 0 firstSegment where
  deltas := .cons ⟨rfl, rfl, rfl, rfl⟩ .nil
  checkpoints := nofun
  whole := fun _ => rfl

theorem secondSegment_segmentOf (split : Bool) :
    SegmentOf (tableEngine minReaderVersion split) (tableCommit minReaderVersion) 0 secondSegment where
  deltas := .cons ⟨rfl, rfl, rfl, by cases split <;> rfl⟩ (.cons ⟨rfl, rfl, rfl, rfl⟩ .nil)
  checkpoints := nofun
  whole := fun _ => rfl

def firstHint : SnapshotHint := ⟨0, ⟨1, 2, [], []⟩, tableMetadata "first"⟩

/-- **The hint hides a commit** whose metadata is not in its first batch: the metadata of version 0
is returned at version 1. And a table that the reader does not support is refused where no hint is
given, although the function is to find its protocol and metadata without checking them. -/
theorem loadTableProtocolAndMetadata_stale :
    (SegmentOf (tableEngine 1 true) (tableCommit 1) 0 secondSegment ∧
      newestMetadata (before (tableCommit 1) 2) = some (tableMetadata "second") ∧
      newestMetadata (before (tableCommit 1) (firstHint.version + 1)) = some firstHint.metadata ∧
      newestProtocol (before (tableCommit 1) (firstHint.version + 1)) = some firstHint.protocol ∧
      loadTableProtocolAndMetadata (tableEngine 1 true) "table" secondSegment (some firstHint) 1 =
        .ok (⟨1, 2, [], []⟩, tableMetadata "first")) ∧
    (SegmentOf (tableEngine 4 true) (tableCommit 4) 0 firstSegment ∧
      newestProtocol (before (tableCommit 4) 1) = some ⟨4, 2, [], []⟩ ∧
      loadTableProtocolAndMetadata (tableEngine 4 true) "table" firstSegment none 0 =
        .error (.explicit
          ("Unsupported Delta protocol reader version: table `table` requires reader version 4 " ++
          "which is unsupported by this version of Delta Kernel."))) := by
  refine ⟨⟨secondSegment_segmentOf 1 true, rfl, rfl, rfl, rfl⟩, firstSegment_segmentOf 4 true, rfl, ?_⟩
  decide +kernel

/-- With the second commit in one batch the hint does no harm. -/
theorem loadTableProtocolAndMetadata_one_batch :
    loadTableProtocolAndMetadata (tableEngine 1 false) "table" secondSegment (some firstHint) 1 =
      .ok (⟨1, 2, [], []⟩, tableMetadata "second") := by
  refine (loadTableProtocolAndMetadata_eq_newest_iff
    (secondSegment_segmentOf 1 false) ?_ ?_ rfl rfl ?_).2 (.inr ⟨?_, fun _ => rfl⟩)
  · intro p
    exact iff_of_false (by intro h; cases h) (by intro h; cases h)
  · intro m
    exact iff_of_false (by intro h; cases h) (by intro h; cases h)
  · intro h hh
    cases hh
    exact ⟨rfl, rfl⟩
  · intro h hh
    cases hh
    exact ⟨.inr (.inl rfl), .inl rfl⟩

end LogReplay

end Delta
