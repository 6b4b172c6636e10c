import RisingLake.Delta.ActionsIterator

/-!
# The batches of a log segment

`actions_eq`: the iterator hands out the batches of the files in the order of the list, followed by
those of the sidecar files their checkpoints name (`logWrappers`). The proof follows what is still
to be handed out (`pending`): a call of `next` takes its first batch (`next_spec`), whichever file
it has to open for that (`getNextActionsIter_spec`, `searchFiles_spec`).
-/

namespace Delta

open List

namespace ActionsIterator

variable (engine : Engine) (withFiles : Bool)

def searched (f : DeltaLogFile) : Bool :=
  withFiles && (f.logType = .checkpointClassic || f.logType = .v2CheckpointManifest)

def fileWrappers (f : DeltaLogFile) : List ActionWrapper :=
  (engine.read f.file).map fun batch =>
    ⟨if searched withFiles f then batch.map Action.withoutSidecar else batch,
      f.logType ≠ .commit, f.version⟩

variable (files : List DeltaLogFile)

/-- The batches of a segment: those of its files, then those of their sidecar files. -/
def logWrappers : List ActionWrapper :=
  files.flatMap (fileWrappers engine withFiles) ++
    (files.flatMap (sidecarsOfFile engine withFiles)).flatMap (fileWrappers engine withFiles)

/-- The names of the files, and those of the sidecar files they name, start with their versions. -/
def WellNamed : Prop :=
  ∀ f ∈ files, f.file.nameVersion = some f.version ∧
    ∀ g ∈ sidecarsOfFile engine withFiles f, g.file.nameVersion = some g.version

def FileIterator.wrappers (cur : FileIterator) : List ActionWrapper :=
  cur.batches.map fun batch =>
    ⟨if cur.sidecarsOf.isSome then batch.map Action.withoutSidecar else batch,
      cur.isFromCheckpoint, cur.version⟩

def FileIterator.sidecars (cur : FileIterator) : List DeltaLogFile :=
  match cur.sidecarsOf with
  | some version => sidecarFiles version cur.batches
  | none => []

def pending (it : ActionsIterator) : List ActionWrapper :=
  (it.actionsIter.elim [] FileIterator.wrappers ++
      it.filesList.flatMap (fileWrappers engine it.schemaContainsAddOrRemoveFiles)) ++
    ((it.actionsIter.elim [] FileIterator.sidecars).flatMap
        (fileWrappers engine it.schemaContainsAddOrRemoveFiles) ++
      (it.filesList.flatMap (sidecarsOfFile engine it.schemaContainsAddOrRemoveFiles)).flatMap
        (fileWrappers engine it.schemaContainsAddOrRemoveFiles))

theorem pending_of_nil {files : List DeltaLogFile} {cur : FileIterator} {withFiles : Bool}
    (h : cur.batches = []) :
    pending engine ⟨files, some cur, withFiles⟩ = pending engine ⟨files, none, withFiles⟩ := by
  have hsidecars : FileIterator.sidecars cur = [] := by
    rw [FileIterator.sidecars, h]
    split <;> rfl
  simp only [pending, Option.elim, FileIterator.wrappers, h, hsidecars, map_nil]

/-- The files left and the sidecar files still to be found are well named. -/
structure Named (it : ActionsIterator) : Prop where
  files : WellNamed engine it.schemaContainsAddOrRemoveFiles it.filesList
  sidecars : ∀ cur, it.actionsIter = some cur → ∀ g ∈ FileIterator.sidecars cur,
    g.file.nameVersion = some g.version

variable {engine withFiles} (version : Nat)

theorem sidecarFiles_cons (batch : List Action) (batches : List (List Action)) :
    sidecarFiles version (batch :: batches) = sidecarFiles version [batch] ++
      sidecarFiles version batches := by
  simp [sidecarFiles]

theorem logType_of_mem_sidecarFiles {version : Nat} {batches : List (List Action)}
    {g : DeltaLogFile} (h : g ∈ sidecarFiles version batches) : g.logType = .sidecar := by
  obtain ⟨s, -, rfl⟩ := mem_map.1 h
  rfl

theorem flatMap_sidecarsOfFile_sidecarFiles (batches : List (List Action)) :
    (sidecarFiles version batches).flatMap (sidecarsOfFile engine withFiles) = [] := by
  rw [flatMap_eq_nil_iff]
  intro g hg
  rw [sidecarsOfFile, logType_of_mem_sidecarFiles hg]

/-! ## Opening a file -/

theorem isSameCheckpoint_iff {f g : DeltaLogFile} :
    isSameCheckpoint f g = true ↔ f.logType = g.logType ∧ f.version = g.version := by
  simp [isSameCheckpoint]

theorem fileWrappers_of_isSameCheckpoint {f g : DeltaLogFile} (h : isSameCheckpoint f g = true) :
    fileWrappers engine withFiles g = (engine.read g.file).map fun batch =>
      ⟨if searched withFiles f then batch.map Action.withoutSidecar else batch, f.logType ≠ .commit,
        f.version⟩ := by
  obtain ⟨htype, hversion⟩ := isSameCheckpoint_iff.1 h
  rw [fileWrappers, searched, searched, htype, hversion]

theorem flatMap_takeWhile_append {α β : Type} (f : α → List β) (p : α → Bool) (xs : List α) :
    xs.flatMap f = (xs.takeWhile p).flatMap f ++ (xs.dropWhile p).flatMap f := by
  rw [← flatMap_append, takeWhile_append_dropWhile]

/-- What opening the next file leaves to hand out. -/
structure Opened (engine : Engine) (withFiles : Bool) (f : DeltaLogFile) (files : List DeltaLogFile)
    (cur : FileIterator) (rest : List DeltaLogFile) : Prop where
  wrappers : FileIterator.wrappers cur ++ rest.flatMap (fileWrappers engine withFiles) =
    (f :: files).flatMap (fileWrappers engine withFiles)
  sidecars : FileIterator.sidecars cur ++ rest.flatMap (sidecarsOfFile engine withFiles) =
    (f :: files).flatMap (sidecarsOfFile engine withFiles)
  shorter : rest.length ≤ files.length
  subset : ∀ g ∈ rest, g ∈ files

variable {files : List DeltaLogFile} {f : DeltaLogFile}

theorem opened_single (sidecarsOf : Option Nat)
    (hsearched : sidecarsOf.isSome = searched withFiles f)
    (hsidecars : FileIterator.sidecars ⟨engine.read f.file, f.logType ≠ .commit, f.version,
      sidecarsOf⟩ =
      sidecarsOfFile engine withFiles f) :
    Opened engine withFiles f files ⟨engine.read f.file, f.logType ≠ .commit, f.version,
      sidecarsOf⟩ files where
  wrappers := by
    rw [flatMap_cons, FileIterator.wrappers, fileWrappers]
    rw [hsearched]
  sidecars := by rw [hsidecars, flatMap_cons]
  shorter := Nat.le_refl _
  subset := fun _ h => h

theorem opened_parts (htype : f.logType = .multipartCheckpoint ∨ f.logType = .sidecar)
    : Opened engine withFiles f files
      ⟨(f :: files.takeWhile (isSameCheckpoint f)).flatMap fun g => engine.read g.file,
        f.logType ≠ .commit, f.version, none⟩ (files.dropWhile (isSameCheckpoint f)) where
  wrappers := by
    have hsearched : searched withFiles f = false := by
      rcases htype with h | h <;> simp [searched, h]
    have hparts : (files.takeWhile (isSameCheckpoint f)).flatMap (fileWrappers engine withFiles) =
        ((files.takeWhile (isSameCheckpoint f)).flatMap fun g => engine.read g.file).map fun batch =>
          ⟨batch, f.logType ≠ .commit, f.version⟩ := by
      rw [map_flatMap]
      apply flatMap_congr
      intro g hg
      rw [fileWrappers_of_isSameCheckpoint (mem_takeWhile_imp hg), hsearched]
      rfl
    rw [FileIterator.wrappers, flatMap_cons, map_append, flatMap_cons,
      flatMap_takeWhile_append _ (isSameCheckpoint f) files, hparts, fileWrappers, hsearched,
      append_assoc]
    rfl
  sidecars := by
    have hnone : ∀ g, g.logType = f.logType → sidecarsOfFile engine withFiles g = [] := by
      intro g hg
      rcases htype with h | h <;> rw [sidecarsOfFile, hg, h]
    have hparts : (files.takeWhile (isSameCheckpoint f)).flatMap (sidecarsOfFile engine withFiles) =
        [] := by
      rw [flatMap_eq_nil_iff]
      intro g hg
      exact hnone g (isSameCheckpoint_iff.1 (mem_takeWhile_imp hg)).1.symm
    have hcons : (f :: files).flatMap (sidecarsOfFile engine withFiles) = _ ++ _ := flatMap_cons
    rw [hcons, hnone f rfl, flatMap_takeWhile_append _ (isSameCheckpoint f) files, hparts]
    rfl
  shorter := (dropWhile_sublist _).length_le
  subset := fun _ h => (dropWhile_sublist _).subset h

theorem getNextActionsIter_spec (hname : f.file.nameVersion = some f.version) :
    ∃ cur rest, getNextActionsIter engine withFiles f files = .ok (cur, rest) ∧
      Opened engine withFiles f files cur rest := by
  have hversion : f.file.getVersion = .ok f.version := by rw [FileStatus.getVersion, hname]; rfl
  cases htype : f.logType with
  | commit =>
    refine ⟨_, _, ?_, opened_single none ?_ ?_⟩
    · rw [getNextActionsIter, htype, hversion]
      rfl
    · simp [searched, htype]
    · rw [sidecarsOfFile, htype]
      rfl
  | checkpointClassic | v2CheckpointManifest =>
    refine ⟨_, _, ?_, opened_single (if withFiles then some f.version else none) ?_ ?_⟩
    · rw [getNextActionsIter, htype, hversion]
      rfl
    · cases withFiles <;> simp [searched, htype]
    · rw [sidecarsOfFile, htype]
      cases withFiles <;> rfl
  | multipartCheckpoint | sidecar =>
    refine ⟨_, _, ?_, opened_parts (by simp [htype])⟩
    rw [getNextActionsIter, htype, hversion]
    rfl

/-! ## Handing out a batch -/

/-- An iterator between two batches of its current file, or at its end. -/
theorem searchFiles_spec : ∀ {fuel : Nat} {files : List DeltaLogFile}, files.length ≤ fuel →
    WellNamed engine withFiles files → ∃ cur rest, searchFiles engine withFiles fuel files =
      .ok (cur, rest) ∧
      (cur = none → rest = []) ∧ (∀ c, cur = some c → c.batches ≠ []) ∧
      pending engine ⟨rest, cur, withFiles⟩ = pending engine ⟨files, none, withFiles⟩ ∧
      Named engine ⟨rest, cur, withFiles⟩
  | fuel, [], _, h => by
    refine ⟨none, [], ?_, fun _ => rfl, fun c hc => (by cases hc), rfl, ⟨h, fun c hc => (by cases hc)⟩⟩
    cases fuel <;> rfl
  | 0, f :: files, hlen, _ => by simp at hlen
  | fuel + 1, f :: files, hlen, h => by
    obtain ⟨cur, rest, hopen, hopened⟩ : ∃ cur rest, getNextActionsIter engine withFiles f files =
        .ok (cur, rest) ∧
        Opened engine withFiles f files cur rest := getNextActionsIter_spec (h f (.head _)).1
    have hrest : WellNamed engine withFiles rest := fun g hg => h g (.tail _ (hopened.subset g hg))
    have hpending : pending engine ⟨rest, some cur, withFiles⟩ =
        pending engine ⟨f :: files, none, withFiles⟩ := by
      simp only [pending, Option.elim]
      rw [hopened.wrappers, ← flatMap_append, hopened.sidecars]
      rfl
    rw [searchFiles, hopen, Res.ok_bind]
    dsimp only
    cases hbatches : cur.batches with
    | nil =>
      -- an empty file: the search goes on with the files behind it
      have hlen' : rest.length ≤ fuel := by
        have := hopened.shorter
        simp only [length_cons] at hlen
        omega
      obtain ⟨cur', rest', hrun, hend, hne, hpend, hnamed⟩ := searchFiles_spec hlen' hrest
      refine ⟨cur', rest', by rw [if_pos (by rfl), hrun], hend, hne, ?_, hnamed⟩
      rw [hpend, ← hpending, pending_of_nil engine hbatches]
    | cons batch batches =>
      refine ⟨some cur, rest, by rw [if_neg (by simp)],
        fun hc => (by cases hc), ?_, hpending, hrest, ?_⟩
      · intro c hc
        cases hc
        rw [hbatches]
        exact cons_ne_nil _ _
      · intro c hc g hg
        cases hc
        have hmem : g ∈ (f :: files).flatMap (sidecarsOfFile engine withFiles) := by
          rw [← hopened.sidecars]
          exact mem_append_left _ hg
        obtain ⟨f', hf', hg⟩ := mem_flatMap.1 hmem
        exact (h f' hf').2 g hg

variable {it : ActionsIterator}

theorem tryEnsureNextActionsIterIsReady_spec (h : Named engine it) :
    ∃ it', tryEnsureNextActionsIterIsReady engine it = .ok it' ∧ pending engine it' =
      pending engine it ∧
      it'.schemaContainsAddOrRemoveFiles = it.schemaContainsAddOrRemoveFiles ∧
      (it'.actionsIter = none → it'.filesList = []) ∧
      (∀ c, it'.actionsIter = some c → c.batches ≠ []) ∧
      Named engine it' := by
  obtain ⟨filesList, actionsIter, flag⟩ := it
  obtain ⟨cur, rest, hrun, hend, hne, hpend, hnamed⟩ :=
    searchFiles_spec (Nat.le_refl filesList.length) h.files
  cases actionsIter with
  | none =>
    refine ⟨⟨rest, cur, flag⟩, ?_, hpend, rfl, hend, hne, hnamed⟩
    rw [tryEnsureNextActionsIterIsReady]
    simp only [hrun, Res.ok_bind]
  | some c =>
    cases hbatches : c.batches with
    | nil =>
      refine ⟨⟨rest, cur, flag⟩, ?_, ?_, rfl, hend, hne, hnamed⟩
      · rw [tryEnsureNextActionsIterIsReady]
        simp only [hbatches, isEmpty_nil, if_true, hrun, Res.ok_bind]
      · rw [hpend, pending_of_nil engine hbatches]
    | cons batch batches =>
      refine ⟨_, ?_, rfl, rfl, fun hc => (Option.some_ne_none c hc).elim, ?_, h⟩
      · rw [tryEnsureNextActionsIterIsReady]
        simp only [hbatches, isEmpty_cons, Bool.false_eq_true, if_false]
      · intro c' hc
        cases hc
        rw [hbatches]
        exact cons_ne_nil _ _

/-- **One call of `next`** hands out the first of the batches still to come. -/
theorem next_spec (h : Named engine it) : (next engine it = .ok none ∧ pending engine it = []) ∨
      ∃ w it', next engine it = .ok (some (w, it')) ∧ pending engine it = w :: pending engine it' ∧
        Named engine it' := by
  obtain ⟨⟨files, cur, flag⟩, hready, hpend, -, hend, hne, hnamed⟩ :=
    tryEnsureNextActionsIterIsReady_spec h
  rw [← hpend, next, hready]
  cases cur with
  | none =>
    cases hend rfl
    exact .inl ⟨rfl, rfl⟩
  | some cur =>
    obtain ⟨batches, ck, version, sidecarsOf⟩ := cur
    cases batches with
    | nil => exact absurd rfl (hne _ rfl)
    | cons batch batches =>
      right
      cases sidecarsOf with
      | none =>
        refine ⟨_, _, rfl, rfl, hnamed.files, ?_⟩
        intro c hc g hg
        cases hc
        cases hg
      | some v =>
        have hsidecars : ∀ g, g ∈ sidecarFiles v [batch] ++ sidecarFiles v batches →
            g.file.nameVersion = some g.version := by
          rw [← sidecarFiles_cons]
          exact hnamed.sidecars _ rfl
        refine ⟨_, _, rfl, ?_, ?_, ?_⟩
        · -- the batch's sidecar files move from the current file to the end of the list
          simp only [pending, Option.elim, FileIterator.wrappers, FileIterator.sidecars, map_cons,
            flatMap_append, flatMap_sidecarsOfFile_sidecarFiles, append_nil, Option.isSome_some,
            if_true]
          rw [sidecarFiles_cons, flatMap_append]
          simp only [cons_append, append_assoc]
        · intro f hf
          rcases mem_append.1 hf with hf | hf
          · exact hnamed.files f hf
          · refine ⟨hsidecars f (mem_append_left _ hf), ?_⟩
            rw [sidecarsOfFile, logType_of_mem_sidecarFiles hf]
            nofun
        · intro c hc g hg
          cases hc
          exact hsidecars g (mem_append_right _ hg)

theorem drain_eq : ∀ {fuel : Nat} {it : ActionsIterator}, Named engine it →
    (pending engine it).length < fuel → drain engine fuel it = .ok (pending engine it)
  | 0, _, _, hlt => absurd hlt (Nat.not_lt_zero _)
  | fuel + 1, it, h, hlt => by
    rcases next_spec h with ⟨hnext, hpend⟩ | ⟨w, it', hnext, hpend, h'⟩
    · rw [drain, hnext, hpend]
      rfl
    have hlt' : (pending engine it').length < fuel := by
      rw [hpend, length_cons] at hlt
      omega
    rw [drain, hnext, hpend, Res.ok_bind]
    dsimp only
    rw [drain_eq h' hlt']
    rfl

theorem length_flatMap_fileWrappers :
    (files.flatMap (fileWrappers engine withFiles)).length = countBatches engine files := by
  rw [length_flatMap]
  congr 1
  apply map_congr_left
  intro f _
  rw [fileWrappers, length_map]

/-- **The batches of a segment**, whichever way the engine splits its files. -/
theorem actions_eq (h : WellNamed engine withFiles files) :
    actions engine withFiles files = .ok (logWrappers engine withFiles files) := by
  have hnamed : Named engine ⟨files, none, withFiles⟩ := ⟨h, nofun⟩
  have hpend : pending engine ⟨files, none, withFiles⟩ = logWrappers engine withFiles files := rfl
  rw [actions, drain_eq hnamed, hpend]
  rw [hpend, logWrappers, length_append, length_flatMap_fileWrappers, length_flatMap_fileWrappers]
  exact Nat.lt_succ_self _

end ActionsIterator

end Delta
