import RisingLake.Delta.Checkpoint
import RisingLake.Delta.History

/-!
# What a replay selects

Both file replays are described by rules on the rows of the log, newest first, each row tagged with
whether it comes from a checkpoint (`LogRow`). `checkpointRule` says which rows
`CreateCheckpointIterator` selects and `addRule` which ones `ActiveAddFilesIterator` does, given the
rows before; neither depends on how the files are split into batches.

The state of an iterator stands for the rows it has seen (`FilesOf`, `IteratorOf`); each pass over a
batch keeps this and marks the rows of its kind (`processRemove_pass`, `add_pass`, `pass_newest`).
-/

namespace Delta

open Newest List CreateCheckpointIterator FilteredColumnarBatch
open ActiveAddFilesIterator (selectAdd addTombstone)

/-! ## Keys and rules -/

abbrev LogRow := Bool × Action

section Keys

variable {Uri : Type} (uri : String → Uri)

def logicalFile (path : String) (dv : Option DeletionVectorDescriptor) :
    UniqueFileActionTuple Uri :=
  (uri path, dv.map DeletionVectorDescriptor.getUniqueId)

def addKey? (a : Action) : Option (UniqueFileActionTuple Uri) :=
  a.add?.map fun f => logicalFile uri f.path f.deletionVector
def removeKey? (a : Action) : Option (UniqueFileActionTuple Uri) :=
  a.remove?.map fun r => logicalFile uri r.path r.deletionVector
def fileKey? (a : Action) : Option (UniqueFileActionTuple Uri) :=
  (addKey? uri a).or (removeKey? uri a)

end Keys

/-- The key of a row of a commit; rows of a checkpoint have none. -/
def ofCommit {κ : Type} (key : Action → Option κ) (x : LogRow) : Option κ :=
  if x.1 then none else key x.2

/-- The keys of the other actions: the application of a transaction, the domain of a domain
metadata, and one key for all protocols and all metadata. -/
def appId? (a : Action) : Option String := a.txn?.map SetTransaction.appId
def domain? (a : Action) : Option String := a.domainMetadata?.map DomainMetadata.domain
def protocolKey? (a : Action) : Option Unit := a.protocol?.map fun _ => ()
def metadataKey? (a : Action) : Option Unit := a.metaData?.map fun _ => ()

section Rules

variable {Uri : Type} [DecidableEq Uri] (uri : String → Uri)

/-- Removes of commits are selected while they have not expired. -/
def removeRule (retention : Int) (x : LogRow) :
    Bool := !x.1 && x.2.remove?.any (isUnexpired retention)

/-- Adds are selected where no commit seen has a file action of the same logical file. -/
def addRule (seen : List LogRow) (x : LogRow) : Bool :=
  x.2.add?.isSome && seen.all fun y => ofCommit (fileKey? uri) y ≠ fileKey? uri x.2

/-- The newest row of each key. -/
def newestRule {κ : Type} [DecidableEq κ] (key : Action → Option κ) : List LogRow → LogRow → Bool :=
  isNewest fun x => key x.2

/-- The rules of the six passes over a batch. -/
def passRule (retention : Int) : Nat → List LogRow → LogRow → Bool
  | 0 => fun _ x => removeRule retention x
  | 1 => addRule uri
  | 2 => newestRule protocolKey?
  | 3 => newestRule metadataKey?
  | 4 => newestRule appId?
  | _ => newestRule domain?

/-- What the first passes mark together. -/
def passRules (retention : Int) : Nat → List LogRow → LogRow → Bool
  | 0 => fun _ _ => false
  | i + 1 => fun seen x => passRules retention i seen x || passRule uri retention i seen x

/-- What `CreateCheckpointIterator` selects. -/
def checkpointRule (retention : Int) : List LogRow → LogRow → Bool := passRules uri retention 6

end Rules

/-- The pass that decides about an action. -/
def Action.pass : Action → Nat
  | .remove _ => 0
  | .add _ => 1
  | .protocol _ => 2
  | .metaData _ => 3
  | .txn _ => 4
  | _ => 5

variable {Uri : Type} {uri : String → Uri} {retention : Int} {x : LogRow}

theorem pass_of_passRule [DecidableEq Uri] {i : Nat} (hi : i < 6) {seen : List LogRow}
    (h : passRule uri retention i seen x = true) : x.2.pass = i := by
  obtain ⟨ck, a⟩ := x
  -- the other rules reduce to false on a row of another kind
  match i, hi with
  | 0, _ | 1, _ | 2, _ | 3, _ | 4, _ | 5, _ =>
    cases ck <;> cases a <;> first | rfl | exact absurd h Bool.false_ne_true

theorem passRules_eq [DecidableEq Uri] {seen : List LogRow} : ∀ {i : Nat}, i ≤ 6 →
    passRules uri retention i seen x =
      (decide (x.2.pass < i) && passRule uri retention x.2.pass seen x)
  | 0, _ => by simp [passRules]
  | i + 1, hi => by
    change (passRules uri retention i seen x || passRule uri retention i seen x) = _
    rw [passRules_eq (by omega)]
    by_cases hx : x.2.pass = i
    · simp [hx]
    · have hrule : passRule uri retention i seen x = false := by
        rw [← Bool.not_eq_true]
        exact fun h => hx (pass_of_passRule (by omega) h)
      have hlt : x.2.pass < i ↔ x.2.pass < i + 1 := by omega
      simp [hrule, hlt]

theorem passRules_eq_false [DecidableEq Uri] {seen : List LogRow} {i : Nat} (hi : i ≤ 6)
    (hx : x.2.pass = i) : passRules uri retention i seen x = false := by
  rw [passRules_eq hi]
  simp [hx]

theorem checkpointRule_eq_passRule [DecidableEq Uri] (seen : List LogRow) (x : LogRow) :
    checkpointRule uri retention seen x = passRule uri retention x.2.pass seen x := by
  have hlt : x.2.pass < 6 := by cases x.2 <;> simp [Action.pass]
  rw [checkpointRule, passRules_eq (Nat.le_refl 6)]
  simp [hlt]

/-! ## Paths -/

/-- The paths of an action's file parse to the given URIs. -/
def Parses {Uri : Type} (pathToUri : String → Res Uri) (uri : String → Uri) (a : Action) : Prop :=
  (∀ f, a = .add f → pathToUri f.path = .ok (uri f.path)) ∧
    ∀ r, a = .remove r → pathToUri r.path = .ok (uri r.path)

/-- No logical file is both added and removed. -/
def AddsApartFromRemoves {Uri : Type} (uri : String → Uri) (rows : List Action) : Prop :=
  ∀ a ∈ rows, ∀ b ∈ rows, ∀ k, addKey? uri a = some k → removeKey? uri b ≠ some k

theorem getUniqueFileAction_eq {pathToUri : String → Res Uri} {path : String}
    (h : pathToUri path = .ok (uri path)) (dv : Option DeletionVectorDescriptor) :
    getUniqueFileAction pathToUri path dv = .ok (logicalFile uri path dv) := by
  rw [getUniqueFileAction, h]
  rfl

section Keys

theorem eq_add_of_add? {a : Action} {f : AddFile} (h : a.add? = some f) : a = .add f := by
  cases a <;> simp_all [Action.add?]

theorem fileKey?_eq_some_iff {a : Action} {k : UniqueFileActionTuple Uri} :
    fileKey? uri a = some k ↔ addKey? uri a = some k ∨ removeKey? uri a = some k := by
  cases a <;> simp [fileKey?, addKey?, removeKey?, Action.add?, Action.remove?]

theorem ofCommit_eq_some_iff {κ : Type} {key : Action → Option κ} {k : κ} :
    ofCommit key x = some k ↔ x.1 = false ∧ key x.2 = some k := by
  rw [ofCommit]
  cases x.1 <;> simp

/-- The sets of a replay stand for the rows seen. -/
structure FilesOf (uri : String → Uri) (seen : List LogRow) (files : FilesFromJson Uri) : Prop where
  tombstones : Knows (ofCommit (removeKey? uri)) seen (· ∈ files.tombstones)
  addFiles : Knows (ofCommit (addKey? uri)) seen (· ∈ files.addFiles)

abbrev TombstonesOf (uri : String → Uri) (seen : List LogRow)
    (tombstones : List (UniqueFileActionTuple Uri)) : Prop :=
  Knows (ofCommit (removeKey? uri)) seen (· ∈ tombstones)
abbrev AddsOf (uri : String → Uri) (seen : List LogRow) (adds : List (UniqueFileActionTuple Uri)) :
    Prop :=
  Knows (ofCommit (addKey? uri)) seen (· ∈ adds)

theorem filesOf_nil : FilesOf uri [] ⟨[], []⟩ := ⟨fun k => by simp, fun k => by simp⟩

variable [DecidableEq Uri]

theorem addRule_eq_true_iff {seen : List LogRow} :
    addRule uri seen x = true ↔ x.2.add?.isSome ∧ ∀ y ∈ seen, ofCommit (fileKey? uri) y ≠
      fileKey? uri x.2 := by
  simp [addRule]

/-- **Whether an add is selected**: its logical file is in neither set. The tombstones may already
hold those of the rest of its batch, which cannot name it. -/
theorem addRule_iff {seen : List LogRow} {f : AddFile} {ck : Bool}
    {tombstones addFiles : List (UniqueFileActionTuple Uri)}
    (hadds : AddsOf uri seen addFiles)
    (htombstones : logicalFile uri f.path f.deletionVector ∈ tombstones ↔
      ∃ y ∈ seen, ofCommit (removeKey? uri) y = some (logicalFile uri f.path f.deletionVector)) :
    addRule uri seen (ck, .add f) = (!addFiles.contains (logicalFile uri f.path f.deletionVector) &&
        !tombstones.contains (logicalFile uri f.path f.deletionVector)) := by
  have hkey : fileKey? uri (.add f) = some (logicalFile uri f.path f.deletionVector) := rfl
  have hadds : logicalFile uri f.path f.deletionVector ∈ addFiles ↔ _ := hadds _
  rw [Bool.eq_iff_iff, addRule_eq_true_iff]
  simp only [Bool.and_eq_true, Bool.not_eq_true', contains_eq_mem, decide_eq_false_iff_not]
  rw [htombstones, hadds, hkey]
  simp only [ne_eq, ofCommit_eq_some_iff, fileKey?_eq_some_iff]
  constructor
  · intro ⟨_, h⟩
    exact ⟨fun ⟨y, hy, hck, hk⟩ => h y hy ⟨hck, .inl hk⟩,
      fun ⟨y, hy, hck, hk⟩ => h y hy ⟨hck, .inr hk⟩⟩
  · intro ⟨hadd, hremove⟩
    refine ⟨rfl, ?_⟩
    intro y hy ⟨hck, hk⟩
    rcases hk with hk | hk
    · exact hadd ⟨y, hy, hck, hk⟩
    · exact hremove ⟨y, hy, hck, hk⟩

end Keys

/-! ## The passes over a batch -/

def tagged (w : ActionWrapper) : List LogRow := w.columnarBatch.map fun a => (w.isFromCheckpoint, a)

variable {w : ActionWrapper}

theorem mem_tagged (h : x ∈ tagged w) : x.1 = w.isFromCheckpoint ∧ x.2 ∈ w.columnarBatch := by
  obtain ⟨a, ha, rfl⟩ := mem_map.1 h
  exact ⟨rfl, ha⟩

variable {post pre : List LogRow}

theorem mem_tagged_of_split (h : tagged w = pre ++ x :: post) :
    x.1 = w.isFromCheckpoint ∧ x.2 ∈ w.columnarBatch :=
  mem_tagged (by rw [h]; exact mem_append_right _ (.head _))

theorem map_snd_tagged (w : ActionWrapper) : (tagged w).map Prod.snd = w.columnarBatch := by
  rw [tagged, map_map]
  exact map_id _

theorem eachRow_tagged {σ : Type} (f : σ → Action → Bool → Res (σ × Bool)) (s : σ)
    (w : ActionWrapper) (flags : List Bool) :
    eachRow f s w.columnarBatch flags = eachRow (fun s (x : LogRow) b => f s x.2 b) s
      (tagged w) flags := by
  rw [← map_snd_tagged, eachRow_map]

/-- What is asked of a batch: its paths are URIs, and a commit's adds and removes name distinct
files. -/
structure BatchOk {Uri : Type} (pathToUri : String → Res Uri) (uri : String → Uri)
    (w : ActionWrapper) : Prop where
  parses : ∀ a ∈ w.columnarBatch, Parses pathToUri uri a
  apart : w.isFromCheckpoint = false → AddsApartFromRemoves uri w.columnarBatch

variable {q p : List LogRow → LogRow → Bool}

section Batch

variable [DecidableEq Uri] {pathToUri : String → Res Uri} {w : ActionWrapper}
  {newer : List LogRow} (rest : List Bool) {tombstones : List (UniqueFileActionTuple Uri)}

omit [DecidableEq Uri] in
theorem tombstones_checkpoint (hck : w.isFromCheckpoint = true)
    (h : TombstonesOf uri newer tombstones) :
    TombstonesOf uri ((tagged w).reverse ++ newer) tombstones := by
  intro k
  rw [h k]
  constructor
  · intro ⟨y, hy, hk⟩
    exact ⟨y, mem_append_right _ hy, hk⟩
  · intro ⟨y, hy, hk⟩
    rcases mem_append.1 hy with hy | hy
    · have hfrom := (mem_tagged (mem_reverse.1 hy)).1
      rw [ofCommit, hfrom, hck] at hk
      cases hk
    · exact ⟨y, hy, hk⟩

theorem processRemoves_spec (retention : Int) (hw : BatchOk pathToUri uri w)
    (h : TombstonesOf uri newer tombstones) :
    ∃ tombstones', processRemoves pathToUri retention w.isFromCheckpoint tombstones
        w.columnarBatch (marks (passRules uri retention 0) newer (tagged w) ++ rest) =
          .ok (tombstones', marks (passRules uri retention 1) newer (tagged w) ++ rest) ∧
      TombstonesOf uri ((tagged w).reverse ++ newer) tombstones' := by
  cases hck : w.isFromCheckpoint with
  | true =>
    refine ⟨tombstones, ?_, tombstones_checkpoint hck h⟩
    have hmarks : marks (passRules uri retention 0) newer (tagged w) =
        marks (passRules uri retention 1) newer (tagged w) := by
      apply marks_congr
      intro pre x post hrows
      simp [passRules, passRule, removeRule, (mem_tagged_of_split hrows).1, hck]
    rw [processRemoves, if_pos rfl, hmarks]
  | false =>
    rw [processRemoves, eachRow_tagged]
    apply eachRow_marks (TombstonesOf uri) ?_ h
    intro pre x post hrows s hs
    obtain ⟨hfrom, hmem⟩ := mem_tagged_of_split hrows
    obtain ⟨ck, a⟩ := x
    obtain rfl : ck = false := hfrom.trans hck
    cases a with
    | remove r =>
      refine ⟨_, ?_, hs.add rfl fun k => mem_insert_iff⟩
      rw [processRemove]
      dsimp only [Action.remove?]
      rw [getUniqueFileAction_eq ((hw.parses _ hmem).2 r rfl)]
      cases hr : isUnexpired retention r <;>
        simp [passRules, passRule, removeRule, Action.remove?, hr, select]
    | _ => exact ⟨s, rfl, hs.skip nofun⟩

omit [DecidableEq Uri] in
theorem tombstones_of_batch (hw : BatchOk pathToUri uri w)
    (h : TombstonesOf uri ((tagged w).reverse ++ newer) tombstones)
    {ck : Bool} {f : AddFile} (hrows : tagged w = pre ++ (ck, .add f) :: post) :
    logicalFile uri f.path f.deletionVector ∈ tombstones ↔ ∃ y ∈ pre.reverse ++ newer,
      ofCommit (removeKey? uri) y = some (logicalFile uri f.path f.deletionVector) := by
  -- a row of the batch never is a commit's remove of the same file
  have hbatch : ∀ y ∈ tagged w, ofCommit (removeKey? uri) y ≠
      some (logicalFile uri f.path f.deletionVector) := by
    intro y hy hk
    obtain ⟨hck, hk⟩ := ofCommit_eq_some_iff.1 hk
    obtain ⟨hfrom, hmem⟩ := mem_tagged hy
    exact hw.apart (hfrom.symm.trans hck) _ (mem_tagged_of_split hrows).2 _ hmem _ rfl hk
  have hpre : ∀ y ∈ pre, y ∈ tagged w := fun y hy => by rw [hrows]; exact mem_append_left _ hy
  refine (h _).trans ?_
  simp only [mem_append, mem_reverse]
  constructor
  · intro ⟨y, hy, hk⟩
    exact ⟨y, .inr (hy.resolve_left fun hy => hbatch y hy hk), hk⟩
  · intro ⟨y, hy, hk⟩
    exact ⟨y, hy.imp_left (hpre y), hk⟩

section
variable (hw : BatchOk pathToUri uri w)
  (htombstones : TombstonesOf uri ((tagged w).reverse ++ newer) tombstones)
include hw htombstones

theorem decideAdd_spec {adds : List (UniqueFileActionTuple Uri)} {f : AddFile}
    (hrows : tagged w = pre ++ (w.isFromCheckpoint, .add f) :: post)
    (hs : AddsOf uri (pre.reverse ++ newer) adds) :
    ∃ adds', decideAdd pathToUri w.isFromCheckpoint tombstones adds f =
        .ok (adds', addRule uri (pre.reverse ++ newer) (w.isFromCheckpoint, .add f)) ∧
      AddsOf uri ((w.isFromCheckpoint, .add f) :: (pre.reverse ++ newer)) adds' := by
  have hparse := (hw.parses _ (mem_tagged_of_split hrows).2).1 f rfl
  rw [decideAdd, getUniqueFileAction_eq hparse, Res.ok_bind,
    addRule_iff hs (tombstones_of_batch hw htombstones hrows)]
  cases hreturned : adds.contains (logicalFile uri f.path f.deletionVector) with
  | true =>
    refine ⟨adds, rfl, hs.skip ?_⟩
    intro k hk
    rw [ofCommit_eq_some_iff] at hk
    cases hk.2
    simpa using hreturned
  | false =>
    refine ⟨_, rfl, ?_⟩
    cases hck : w.isFromCheckpoint with
    | true => exact hs.skip nofun
    | false => exact hs.add rfl fun k => mem_insert_iff

/-- **A pass over the adds** with any state that has the adds remembered in it. -/
theorem add_pass {σ : Type} {f : σ → Action → Bool → Res (σ × Bool)}
    {adds : σ → List (UniqueFileActionTuple Uri)}
    (hnone : ∀ s a b, a.add? = none → ∃ s', f s a b = .ok (s', b) ∧ adds s' = adds s)
    (hsome : ∀ s add adds' b, decideAdd pathToUri w.isFromCheckpoint tombstones (adds s) add =
      .ok (adds', b) →
      ∃ s', f s (.add add) false = .ok (s', b) ∧ adds s' = adds')
    (hq : ∀ seen x, x.2.pass = 1 → q seen x = false)
    (hp : ∀ seen x, p seen x = (q seen x || addRule uri seen x)) {s : σ}
    (h : AddsOf uri newer (adds s)) :
    ∃ s', eachRow f s w.columnarBatch (marks q newer (tagged w) ++ rest) =
        .ok (s', marks p newer (tagged w) ++ rest) ∧
      AddsOf uri ((tagged w).reverse ++ newer) (adds s') := by
  rw [eachRow_tagged]
  apply eachRow_marks (fun seen s => AddsOf uri seen (adds s)) ?_ h
  intro pre x post hrows s hs
  have hfrom := (mem_tagged_of_split hrows).1
  obtain ⟨ck, a⟩ := x
  subst hfrom
  rw [hp]
  cases hadd : a.add? with
  | some g =>
    obtain rfl := eq_add_of_add? hadd
    obtain ⟨adds', hdecide, hs'⟩ := decideAdd_spec hw htombstones hrows hs
    obtain ⟨s', hrun, hadds⟩ := hsome _ _ _ _ hdecide
    exact ⟨s', by rw [hq _ _ rfl, Bool.false_or, hrun], by rwa [hadds]⟩
  | none =>
    obtain ⟨s', hrun, hadds⟩ := hnone s a (q (pre.reverse ++ newer) (w.isFromCheckpoint, a)) hadd
    refine ⟨s', by rw [hrun, addRule, hadd]; simp, ?_⟩
    rw [hadds]
    refine hs.skip fun k hk => ?_
    have hk := (ofCommit_eq_some_iff.1 hk).2
    rw [addKey?, hadd] at hk
    cases hk

end

end Batch

/-! ## Passes that keep the first row of each key -/

section FirstOfKey

variable {σ κ : Type} [DecidableEq κ] {w : ActionWrapper} {newer : List LogRow} (rest : List Bool)

/-- The rounds of a pass that selects the first row of each key: `known` tells the keys of a state.
-/
structure SelectsFirst (f : σ → Action → Bool → Res (σ × Bool)) (key : Action → Option κ)
    (known : σ → κ → Bool) : Prop where
  none : ∀ s a b, key a = none → f s a b = .ok (s, b)
  again : ∀ s a k, key a = some k → known s k = true → f s a false = .ok (s, false)
  first : ∀ s a k, key a = some k → known s k = false →
    ∃ s', f s a false = .ok (s', true) ∧ ∀ k', known s' k' = true ↔ k' = k ∨ known s k' = true

/-- **Such a pass** marks the newest row of each key. -/
theorem pass_newest [DecidableEq Uri] (uri : String → Uri) (retention : Int)
    {f : σ → Action → Bool → Res (σ × Bool)} {key : Action → Option κ} {known : σ → κ → Bool}
    (hf : SelectsFirst f key known) {i : Nat} (hi : i < 6)
    (hrule : passRule uri retention i = newestRule key) {s : σ}
    (h : Knows (fun x : LogRow => key x.2) newer (known s · = true)) :
    ∃ s', eachRow f s w.columnarBatch (marks (passRules uri retention i) newer (tagged w) ++ rest) =
        .ok (s', marks (passRules uri retention (i + 1)) newer (tagged w) ++ rest) ∧
      Knows (fun x : LogRow => key x.2) ((tagged w).reverse ++ newer) (known s' · = true) := by
  rw [eachRow_tagged]
  apply eachRow_marks (fun seen s => Knows (fun x : LogRow => key x.2) seen (known s · = true)) ?_ h
  intro pre x post _ s hs
  rw [passRules, hrule]
  dsimp only
  cases hk : key x.2 with
  | none =>
    refine ⟨s, ?_, hs.skip fun k hx => by rw [hk] at hx; cases hx⟩
    rw [hf.none s x.2 _ hk, newestRule, isNewest, hk]
    simp
  | some k =>
    have hnewest := hs.isNewest_iff hk
    -- where no row was seen, the row is the newest of its key, so that this is its own pass
    have hpass : x.2.pass = i := @pass_of_passRule Uri uri retention x _ i hi [] (by
      rw [hrule]
      simp [newestRule, isNewest, hk])
    rw [passRules_eq_false hi.le hpass, Bool.false_or, newestRule]
    cases hknown : known s k with
    | true =>
      have hflag : isNewest (fun x : LogRow => key x.2) (pre.reverse ++ newer) x = false := by
        rw [← Bool.not_eq_true, hnewest, not_not]
        exact hknown
      refine ⟨s, by rw [hflag, hf.again s x.2 k hk hknown], hs.skip fun k' hx => ?_⟩
      rw [hk] at hx
      cases hx
      exact hknown
    | false =>
      obtain ⟨s', hrun, hs'⟩ := hf.first s x.2 k hk hknown
      refine ⟨s', by rw [hrun, hnewest.2 (by simp [hknown])], hs.add hk hs'⟩

end FirstOfKey

open CreateCheckpointIterator

variable (assertions : Bool)

theorem unselect_false : unselect assertions false = .ok false := by
  cases assertions <;> rfl

theorem processSingle_selectsFirst {α : Type} (column : Action → Option α) :
    SelectsFirst (processSingle assertions column) (fun a => (column a).map fun _ => ())
      (fun seen _ => seen) where
  none := by
    intro s a b hk
    rw [processSingle, Option.map_eq_none_iff.1 hk]
  again := by
    intro s a k hk hs
    obtain ⟨x, hx, -⟩ := Option.map_eq_some_iff.1 hk
    simp [processSingle, hx, hs, unselect_false]
  first := by
    intro s a k hk hs
    obtain ⟨x, hx, -⟩ := Option.map_eq_some_iff.1 hk
    exact ⟨true, by simp [processSingle, hx, hs, select], by simp⟩

theorem processTxn_selectsFirst :
    SelectsFirst (processTxn assertions) appId? (fun txns appId => (txns.lookup appId).isSome) where
  none := by
    intro s a b hk
    rw [processTxn, Option.map_eq_none_iff.1 hk]
  again := by
    intro s a k hk hs
    obtain ⟨x, hx, rfl⟩ := Option.map_eq_some_iff.1 hk
    simp [processTxn, hx, hs, unselect_false]
  first := by
    intro s a k hk hs
    obtain ⟨x, hx, rfl⟩ := Option.map_eq_some_iff.1 hk
    refine ⟨(x.appId, x.version) :: s, by simp [processTxn, hx, hs, select], ?_⟩
    intro k'
    by_cases hk' : k' = x.appId <;> simp

theorem processDomainMetadata_selectsFirst :
    SelectsFirst (processDomainMetadata assertions) domain?
      (fun seen domain => seen.contains domain) where
  none := by
    intro s a b hk
    rw [processDomainMetadata, Option.map_eq_none_iff.1 hk]
  again := by
    intro s a k hk hs
    obtain ⟨x, hx, rfl⟩ := Option.map_eq_some_iff.1 hk
    rw [processDomainMetadata, hx]
    simp only [hs]
    rw [unselect_false]
    rfl
  first := by
    intro s a k hk hs
    obtain ⟨x, hx, rfl⟩ := Option.map_eq_some_iff.1 hk
    refine ⟨s.insert x.domain, ?_, by simp⟩
    rw [processDomainMetadata, hx]
    simp only [hs, Bool.false_eq_true]
    rfl

/-! ## Whole runs of `CreateCheckpointIterator` -/

theorem prepareSelectionVectorBuffer_eq (hq : ∀ seen x, q seen x = false)
    (current : Option (List Bool)) (w : ActionWrapper) (newer : List LogRow) :
    ∃ rest, prepareSelectionVectorBuffer current w.columnarBatch.length =
      marks q newer (tagged w) ++ rest := by
  have hmarks : marks q newer (tagged w) = replicate w.columnarBatch.length false := by
    rw [eq_replicate_iff, length_marks, tagged, length_map]
    exact ⟨rfl, fun b hb => eq_of_mem_marks hq hb⟩
  rw [prepareSelectionVectorBuffer, hmarks]
  cases hc : current.filter fun buffer => w.columnarBatch.length ≤ buffer.length with
  | none => exact ⟨[], by rw [append_nil]⟩
  | some buffer =>
    have hle : w.columnarBatch.length ≤ buffer.length := by
      simpa using (Option.filter_eq_some_iff.1 hc).2
    refine ⟨replicate (buffer.length - w.columnarBatch.length) false, ?_⟩
    rw [replicate_append_replicate, Nat.add_sub_cancel' hle]

variable (p : List LogRow → LogRow → Bool) (newer : List LogRow)

theorem take_marks (w : ActionWrapper) (rest : List Bool) :
    (marks p newer (tagged w) ++ rest).take w.columnarBatch.length = marks p newer (tagged w) :=
  take_left' (by rw [length_marks, tagged, length_map])

variable {newer : List LogRow}

section CheckpointRun

variable [DecidableEq Uri] {pathToUri : String → Res Uri} (assertions : Bool)

/-- The state of the iterator stands for the rows seen. -/
structure IteratorOf (uri : String → Uri) (seen : List LogRow) (it : CreateCheckpointIterator Uri) :
    Prop where
  files : FilesOf uri seen it.files
  protocol : Knows (fun x : LogRow => protocolKey? x.2) seen fun _ => it.isProtocolAlreadySeen = true
  metadata : Knows (fun x : LogRow => metadataKey? x.2) seen fun _ => it.isMetadataAlreadySeen = true
  txn : Knows (fun x : LogRow => appId? x.2) seen
    fun appId => (it.txnAppIdToVersion.lookup appId).isSome = true
  domain : Knows (fun x : LogRow => domain? x.2) seen fun domain => it.domainSeen.contains domain =
    true

omit [DecidableEq Uri] in
theorem iteratorOf_new (retention : Int) : IteratorOf uri [] (new retention) where
  files := filesOf_nil
  protocol := fun k => by simp [new]
  metadata := fun k => by simp [new]
  txn := fun k => by simp [new]
  domain := fun k => by simp [new]

theorem processAdd_some (isFromCheckpoint : Bool) (tombstones : List (UniqueFileActionTuple Uri))
    (s : List (UniqueFileActionTuple Uri) × Nat) (add : AddFile)
    (adds' : List (UniqueFileActionTuple Uri)) (b : Bool)
    (h : decideAdd pathToUri isFromCheckpoint tombstones s.1 add = .ok (adds', b)) :
    ∃ s', processAdd pathToUri isFromCheckpoint tombstones s (.add add) false = .ok (s', b) ∧
      s'.1 = adds' := by
  rw [processAdd]
  dsimp only [Action.add?]
  rw [h]
  cases b with
  | true => exact ⟨(adds', s.2 + 1), rfl, rfl⟩
  | false => exact ⟨(adds', s.2), rfl, rfl⟩

/-- **One batch**: the rows it selects and the rows its state stands for. -/
theorem prepareNext_spec {it : CreateCheckpointIterator Uri}
    (h : IteratorOf uri newer it) (hw : BatchOk pathToUri uri w) :
    ∃ it', prepareNext pathToUri assertions it w =
        .ok (⟨w.columnarBatch,
          some (marks (checkpointRule uri it.minFileRetentionTimestampMillis) newer (tagged w))⟩,
            it') ∧
      IteratorOf uri ((tagged w).reverse ++ newer) it' ∧
      it'.minFileRetentionTimestampMillis = it.minFileRetentionTimestampMillis := by
  obtain ⟨t, ht⟩ : ∃ t, t = it.minFileRetentionTimestampMillis := ⟨_, rfl⟩
  rw [← ht]
  obtain ⟨rest, hbuffer⟩ :=
    prepareSelectionVectorBuffer_eq (q :=
      passRules uri t 0) (fun _ _ => rfl) it.selectionVectorBuffer w newer
  obtain ⟨tombstones, hremoves, htombstones⟩ := processRemoves_spec rest t hw h.files.tombstones
  obtain ⟨⟨addFiles, count⟩, hadds, haddFiles⟩ :=
    add_pass rest hw htombstones (p := passRules uri t 2) (s :=
      (it.files.addFiles, it.numberOfAddActions))
    (fun s a b ha => ⟨s, by rw [processAdd, ha], rfl⟩) (processAdd_some w.isFromCheckpoint tombstones)
    (fun _ x hx => passRules_eq_false (by omega) hx) (fun _ _ => rfl) h.files.addFiles
  obtain ⟨protocolSeen, hprotocol, hprotocolSeen⟩ := pass_newest rest uri t
    (processSingle_selectsFirst assertions Action.protocol?) (by decide : 2 < 6) rfl h.protocol
  obtain ⟨metadataSeen, hmetadata, hmetadataSeen⟩ := pass_newest rest uri t
    (processSingle_selectsFirst assertions Action.metaData?) (by decide : 3 < 6) rfl h.metadata
  obtain ⟨txns, htxn, htxnSeen⟩ := pass_newest rest uri t
    (processTxn_selectsFirst assertions) (by decide : 4 < 6) rfl h.txn
  obtain ⟨domains, hdomain, hdomainSeen⟩ := pass_newest rest uri t
    (processDomainMetadata_selectsFirst assertions) (by decide : 5 < 6) rfl h.domain
  refine ⟨{ it with
    selectionVectorBuffer := some (marks (checkpointRule uri t) newer (tagged w) ++ rest)
    files := ⟨tombstones, addFiles⟩
    isProtocolAlreadySeen := protocolSeen, isMetadataAlreadySeen := metadataSeen
    txnAppIdToVersion := txns, domainSeen := domains, numberOfAddActions := count }, ?_,
    ⟨⟨htombstones, haddFiles⟩, hprotocolSeen, hmetadataSeen, htxnSeen, hdomainSeen⟩, ht.symm⟩
  rw [prepareNext, hbuffer, ← ht]
  simp only [hremoves, hadds, hprotocol, hmetadata, htxn, hdomain, Res.ok_bind]
  exact congrArg (fun flags => Except.ok (mk w.columnarBatch (some flags), _))
    (take_marks _ newer w rest)

def taggedRows (ws : List ActionWrapper) : List LogRow := ws.flatMap tagged

theorem taggedRows_cons (w : ActionWrapper) (ws : List ActionWrapper) :
    taggedRows (w :: ws) = tagged w ++ taggedRows ws := flatMap_cons

theorem selected_tagged (w : ActionWrapper) :
    selected w.columnarBatch (marks p newer (tagged w)) =
      (kept p newer (tagged w)).map Prod.snd := by
  rw [← selected_marks, ← selected_map, map_snd_tagged]

/-- The flags of a batch, all true where it has no selection vector. -/
def FilteredColumnarBatch.flags (batch : FilteredColumnarBatch) : List Bool :=
  batch.selectionVector.getD (replicate batch.data.length true)

/-- **A run of the iterator**: the batches of the log, with the rows the rule marks. -/
theorem drain_spec :
    ∀ {ws : List ActionWrapper} {it : CreateCheckpointIterator Uri} {newer : List LogRow},
      IteratorOf uri newer it → (∀ w ∈ ws, BatchOk pathToUri uri w) →
    ∃ batches, drain pathToUri assertions it ws = .ok batches ∧
      batches.map data = ws.map ActionWrapper.columnarBatch ∧
      batches.flatMap flags = marks (checkpointRule uri it.minFileRetentionTimestampMillis) newer
        (taggedRows ws) ∧
      batches.flatMap rows =
        (kept (checkpointRule uri it.minFileRetentionTimestampMillis) newer (taggedRows ws)).map
          Prod.snd
  | [], it, newer, _, _ => ⟨[], rfl, rfl, rfl, rfl⟩
  | w :: ws, it, newer, h, hws => by
    obtain ⟨it', hnext, h', hretention⟩ := prepareNext_spec assertions h (hws w (.head _))
    obtain ⟨batches, hrun, hdata, hflags, hrows⟩ := drain_spec h' fun v hv => hws v (.tail _ hv)
    rw [hretention] at hflags hrows
    refine ⟨_, by rw [drain, hnext, Res.ok_bind]; dsimp only; rw [hrun]; rfl, ?_, ?_, ?_⟩
    · rw [map_cons, map_cons, hdata]
    · rw [flatMap_cons, hflags, taggedRows_cons, marks_append]
      rfl
    · rw [flatMap_cons, hrows, taggedRows_cons, kept_append, map_append, ← selected_tagged]
      rfl

end CheckpointRun

/-! ## Whole runs of `ActiveAddFilesIterator` -/

section ActiveRun

variable [DecidableEq Uri] {pathToUri : String → Res Uri}

theorem foldlM_addTombstone : ∀ {rows : List Action} {newer : List LogRow}
    {tombstones : List (UniqueFileActionTuple Uri)}, (∀ a ∈ rows, Parses pathToUri uri a) →
    TombstonesOf uri newer tombstones →
    ∃ tombstones', rows.foldlM (addTombstone pathToUri) tombstones = .ok tombstones' ∧
      TombstonesOf uri ((rows.map fun a => (false, a)).reverse ++ newer) tombstones'
  | [], newer, tombstones, _, h => ⟨tombstones, rfl, h⟩
  | a :: rows, newer, tombstones, hparse, h => by
    obtain ⟨t1, h1, ht1⟩ : ∃ t1, addTombstone pathToUri tombstones a = .ok t1 ∧
        TombstonesOf uri ((false, a) :: newer) t1 := by
      cases a with
      | remove r =>
        refine ⟨_, ?_, h.add rfl fun k => mem_insert_iff⟩
        rw [addTombstone]
        dsimp only [Action.remove?]
        rw [getUniqueFileAction_eq ((hparse _ (.head _)).2 r rfl)]
        rfl
      | _ => exact ⟨tombstones, rfl, h.skip nofun⟩
    obtain ⟨t2, h2, ht2⟩ := foldlM_addTombstone (fun b hb => hparse b (.tail _ hb)) ht1
    refine ⟨t2, by rw [foldlM_cons, h1, Res.ok_bind, h2], ?_⟩
    rw [map_cons, reverse_cons, append_assoc]
    exact ht2

variable {tombstones : List (UniqueFileActionTuple Uri)}

theorem addTombstones_spec (hw : BatchOk pathToUri uri w)
    (h : TombstonesOf uri newer tombstones) :
    ∃ tombstones',
      ActiveAddFilesIterator.addTombstones pathToUri w.isFromCheckpoint tombstones w.columnarBatch =
        .ok tombstones' ∧
      TombstonesOf uri ((tagged w).reverse ++ newer) tombstones' := by
  cases hck : w.isFromCheckpoint with
  | true => exact ⟨tombstones, rfl, tombstones_checkpoint hck h⟩
  | false =>
    obtain ⟨t, hrun, ht⟩ := foldlM_addTombstone hw.parses h
    exact ⟨t, hrun, by rw [tagged, hck]; exact ht⟩

theorem selectAdd_unselected {isFromCheckpoint : Bool}
    (state : List (UniqueFileActionTuple Uri) × Bool) (row : Action) (flag : Bool)
    (state' : List (UniqueFileActionTuple Uri) × Bool) (flag' : Bool)
    (h : selectAdd pathToUri isFromCheckpoint tombstones state row flag = .ok (state', flag'))
    (hs : state'.2 = false) : state.2 = false ∧ flag' = true := by
  rw [selectAdd] at h
  cases hadd : row.add? with
  | none =>
    rw [hadd] at h
    cases h
    cases hs
  | some f =>
    rw [hadd] at h
    obtain ⟨⟨adds, doSelect⟩, -, h⟩ := Res.bind_eq_ok.1 h
    cases doSelect with
    | true =>
      cases h
      exact ⟨hs, rfl⟩
    | false =>
      cases h
      cases hs

/-- **One batch** of active files. -/
theorem active_prepareNext_spec {files : FilesFromJson Uri} (buffer : Option (List Bool))
    (h : FilesOf uri newer files) (hw : BatchOk pathToUri uri w) :
    ∃ batch files' buffer', ActiveAddFilesIterator.prepareNext pathToUri files buffer w =
        .ok (batch, files', buffer') ∧
      batch.rows = (kept (addRule uri) newer (tagged w)).map Prod.snd ∧
      FilesOf uri ((tagged w).reverse ++ newer) files' := by
  obtain ⟨rest, hbuffer⟩ := prepareSelectionVectorBuffer_eq (fun _ _ => rfl) buffer w newer
  obtain ⟨tombstones, htomb, htombstones⟩ := addTombstones_spec hw h.tombstones
  obtain ⟨⟨addFiles, unselected⟩, hadds, haddFiles⟩ := add_pass rest hw htombstones
    (f := selectAdd pathToUri w.isFromCheckpoint tombstones) (s := (files.addFiles, false))
    (fun s a b ha => ⟨(s.1, true), by rw [selectAdd, ha], rfl⟩)
    (fun s add adds' b hd => by
      rw [selectAdd]
      dsimp only [Action.add?]
      rw [hd]
      cases b with
      | true => exact ⟨(adds', s.2), rfl, rfl⟩
      | false => exact ⟨(adds', true), rfl, rfl⟩)
    (p := addRule uri) (fun _ _ _ => rfl) (fun _ _ => rfl) h.addFiles
  refine ⟨⟨w.columnarBatch, if unselected then
      some ((marks (addRule uri) newer (tagged w) ++ rest).take w.columnarBatch.length) else none⟩,
    ⟨tombstones, addFiles⟩, some (marks (addRule uri) newer (tagged w) ++ rest), ?_, ?_,
      htombstones, haddFiles⟩
  · rw [ActiveAddFilesIterator.prepareNext]
    dsimp only
    rw [htomb, Res.ok_bind, hbuffer, hadds]
    rfl
  · rw [rows]
    cases hu : unselected with
    | true =>
      rw [if_pos rfl]
      dsimp only
      rw [take_marks, selected_tagged]
    | false =>
      subst hu
      have hall := (eachRow_all selectAdd_unselected hadds rfl).2
      rw [take_marks] at hall
      rw [if_neg (by simp)]
      rw [← selected_tagged, hall, selected_replicate_true]

theorem active_drain_spec :
    ∀ {ws : List ActionWrapper} {files : FilesFromJson Uri} (buffer : Option (List Bool))
    {newer : List LogRow}, FilesOf uri newer files → (∀ w ∈ ws, BatchOk pathToUri uri w) →
    ∃ batches, ActiveAddFilesIterator.drain pathToUri files buffer ws = .ok batches ∧
      batches.flatMap rows = (kept (addRule uri) newer (taggedRows ws)).map Prod.snd
  | [], files, buffer, newer, _, _ => ⟨[], rfl, rfl⟩
  | w :: ws, files, buffer, newer, h, hws => by
    obtain ⟨batch, files', buffer', hnext, hbatch, h'⟩ :=
      active_prepareNext_spec buffer h (hws w (.head _))
    obtain ⟨batches, hrun, hrows⟩ := active_drain_spec buffer' h' fun v hv => hws v (.tail _ hv)
    refine ⟨batch :: batches, ?_, ?_⟩
    · rw [ActiveAddFilesIterator.drain, hnext, Res.ok_bind]
      dsimp only
      rw [hrun]
      rfl
    · rw [flatMap_cons, hbatch, hrows, taggedRows_cons, kept_append, map_append]

end ActiveRun

end Delta
