import RisingLake.Delta.Actions

/-!
# Reading the files of a log segment

`ActionsIterator` of `kernel-api`: the files of a log segment, newest first, are read one after
another and their batches handed out with the file's version and whether it is a checkpoint. The
parts of a multi-part checkpoint are read together, and so are the sidecar files; these are found in
the batches of a top-level checkpoint file and queued behind the files still to be read.

An `Engine` stands for the JSON and Parquet handlers: how it splits the rows of a file into batches
is its own affair.
-/

namespace Delta

/-- The file handlers of an engine: the batches in which the rows of a file are returned. -/
structure Engine where
  read : FileStatus → List (List Action)

inductive LogType where
  | commit
  | checkpointClassic
  | multipartCheckpoint
  | v2CheckpointManifest
  | sidecar
  deriving DecidableEq, Repr

structure DeltaLogFile where
  file : FileStatus
  logType : LogType
  version : Nat
  deriving DecidableEq, Repr

def DeltaLogFile.ofSideCar (file : FileStatus) (version : Nat) : DeltaLogFile :=
  { file, logType := .sidecar, version }

/-- `ActionWrapper`, without the commit's timestamp. -/
structure ActionWrapper where
  columnarBatch : List Action
  isFromCheckpoint : Bool
  version : Nat
  deriving DecidableEq, Repr

/-- `FileNames.deltaVersion` and `FileNames.checkpointVersion`. -/
def FileStatus.getVersion (file : FileStatus) : Res Nat :=
  Res.unwrap file.nameVersion "NumberFormatException"

/-- The batches left of the file being read. `sidecarsOf` is the checkpoint whose batches are
searched for sidecar files. -/
structure FileIterator where
  batches : List (List Action)
  isFromCheckpoint : Bool
  version : Nat
  sidecarsOf : Option Nat
  deriving DecidableEq, Repr

structure ActionsIterator where
  filesList : List DeltaLogFile
  actionsIter : Option FileIterator
  schemaContainsAddOrRemoveFiles : Bool
  deriving DecidableEq, Repr

namespace ActionsIterator

variable (engine : Engine)

/-- `retrieveRemainingCheckpointFiles`: whether the next file of the list is read together with `f`.
-/
def isSameCheckpoint (f peek : DeltaLogFile) : Bool :=
  f.logType = peek.logType && f.version = peek.version

variable (schemaContainsAddOrRemoveFiles : Bool)

/-- `getNextActionsIter`, with the files left after it. -/
def getNextActionsIter (nextLogFile : DeltaLogFile)
    (files : List DeltaLogFile) : Res (FileIterator × List DeltaLogFile) :=
  match nextLogFile.logType with
  | .commit => do
    let fileVersion ← nextLogFile.file.getVersion
    .ok ({ batches := engine.read nextLogFile.file, isFromCheckpoint := false, version := fileVersion,
           sidecarsOf := none }, files)
  | .checkpointClassic | .v2CheckpointManifest => do
    let version ← nextLogFile.file.getVersion
    .ok ({ batches := engine.read nextLogFile.file, isFromCheckpoint := true, version,
           sidecarsOf := if schemaContainsAddOrRemoveFiles then some version else none }, files)
  | .multipartCheckpoint | .sidecar => do
    let checkpointFiles := nextLogFile :: files.takeWhile (isSameCheckpoint nextLogFile)
    let version ← nextLogFile.file.getVersion
    .ok ({ batches := checkpointFiles.flatMap fun f => engine.read f.file, isFromCheckpoint := true,
           version, sidecarsOf := none }, files.dropWhile (isSameCheckpoint nextLogFile))

/-- The search of `tryEnsureNextActionsIterIsReady` for the next file that is not empty. Every round
takes a file off the list, so that `fuel` is its length. -/
def searchFiles (schemaContainsAddOrRemoveFiles : Bool) :
    Nat → List DeltaLogFile → Res (Option FileIterator × List DeltaLogFile)
  | _, [] => .ok (none, [])
  | 0, files => .ok (none, files)
  | fuel + 1, f :: files => do
    let (actionsIter, files) ← getNextActionsIter engine schemaContainsAddOrRemoveFiles f files
    if actionsIter.batches.isEmpty then
      searchFiles schemaContainsAddOrRemoveFiles fuel files
    else
      .ok (some actionsIter, files)

def tryEnsureNextActionsIterIsReady (it : ActionsIterator) : Res ActionsIterator :=
  let search := do
    let (actionsIter, filesList) ←
      searchFiles engine it.schemaContainsAddOrRemoveFiles it.filesList.length it.filesList
    .ok { it with actionsIter, filesList }
  match it.actionsIter with
  | some current => if current.batches.isEmpty then search else .ok it
  | none => search

/-- The sidecar files that batches of the checkpoint at `checkpointVersion` name, as
`extractSidecarsFromBatch` queues them. -/
def sidecarFiles (checkpointVersion : Nat) (batches : List (List Action)) : List DeltaLogFile :=
  (batches.flatten.filterMap Action.sidecar?).map fun s => .ofSideCar s.file checkpointVersion

/-- `next`, after `hasNext`: the next batch, `none` when there is none. The sidecar files a batch of
a top-level checkpoint names are queued, and their column is dropped. -/
def next (it : ActionsIterator) : Res (Option (ActionWrapper × ActionsIterator)) := do
  let it ← tryEnsureNextActionsIterIsReady engine it
  match it.actionsIter with
  | none => .ok none
  | some current =>
    match current.batches with
    | [] => .ok none
    | batch :: batches =>
      let rest := { it with actionsIter := some { current with batches } }
      match current.sidecarsOf with
      | some checkpointVersion =>
        .ok (some (⟨batch.map Action.withoutSidecar, current.isFromCheckpoint, current.version⟩,
          { rest with filesList := rest.filesList ++ sidecarFiles checkpointVersion [batch] }))
      | none =>
        .ok (some (⟨batch, current.isFromCheckpoint, current.version⟩, rest))

/-- The batches an iterator hands out, one after another; `fuel` bounds their number. -/
def drain : Nat → ActionsIterator → Res (List ActionWrapper)
  | 0, _ => .error (.explicit "out of fuel")
  | fuel + 1, it => do
    match ← next engine it with
    | none => .ok []
    | some (wrapper, it) =>
      let wrappers ← drain fuel it
      .ok (wrapper :: wrappers)

/-- The sidecar files a file of the list will queue. -/
def sidecarsOfFile (f : DeltaLogFile) : List DeltaLogFile :=
  match f.logType with
  | .checkpointClassic | .v2CheckpointManifest =>
    if schemaContainsAddOrRemoveFiles then sidecarFiles f.version (engine.read f.file) else []
  | _ => []

/-- The number of batches of files that are read whole. -/
def countBatches (files : List DeltaLogFile) : Nat :=
  (files.map fun f => (engine.read f.file).length).sum

/-- All batches of the files of a segment. As many rounds are run as the files and the sidecar files
they name have batches. -/
def actions (files : List DeltaLogFile) : Res (List ActionWrapper) :=
  let sidecars := files.flatMap (sidecarsOfFile engine schemaContainsAddOrRemoveFiles)
  drain engine (countBatches engine files + countBatches engine sidecars + 1)
    { filesList := files, actionsIter := none, schemaContainsAddOrRemoveFiles }

end ActionsIterator

end Delta
