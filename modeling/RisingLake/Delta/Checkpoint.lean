import RisingLake.Delta.LogReplay
import RisingLake.Lib.Newest

/-!
# Replaying a log for its files

`CreateCheckpointIterator` selects the actions a new checkpoint is written from, and
`ActiveAddFilesIterator` the files a scan reads. Both go through the batches from the newest file to
the oldest with the removes and adds of commits they have seen, and set one flag per row of a batch.

`pathToUri` is `new URI(path)`; the exception it throws on a path that is not a URI ends the replay.
`assertions` tells whether the JVM runs with assertions enabled.
-/

namespace Delta

open Newest

/-- A batch with its selection vector, none where every row is selected. -/
structure FilteredColumnarBatch where
  data : List Action
  selectionVector : Option (List Bool)
  deriving DecidableEq, Repr

def FilteredColumnarBatch.rows (batch : FilteredColumnarBatch) : List Action :=
  match batch.selectionVector with
  | some flags => selected batch.data flags
  | none => batch.data

/-- `LogReplayUtils.prepareSelectionVectorBuffer`: a buffer of at least the size, all false; the one
at hand is reused where it is long enough. -/
def prepareSelectionVectorBuffer (currentSelectionVector : Option (List Bool)) (newSize : Nat) :
    List Bool :=
  match currentSelectionVector.filter fun buffer => newSize ≤ buffer.length with
  | some buffer => List.replicate buffer.length false
  | none => List.replicate newSize false

variable {Uri : Type} [DecidableEq Uri] (pathToUri : String → Res Uri)

/-- The file actions seen in commits: `tombstonesFromJson` and `addFilesFromJson`. -/
structure FilesFromJson (Uri : Type) where
  tombstones : List (UniqueFileActionTuple Uri)
  addFiles : List (UniqueFileActionTuple Uri)

/-- What both iterators do with an add: the adds to remember, and whether this one is selected
(neither removed nor returned already). Adds of a checkpoint are not remembered, none appears in it
twice. -/
def decideAdd (isFromCheckpoint : Bool) (tombstones addFiles : List (UniqueFileActionTuple Uri))
    (add : AddFile) : Res (List (UniqueFileActionTuple Uri) × Bool) := do
  let key ← getUniqueFileAction pathToUri add.path add.deletionVector
  let alreadyDeleted := tombstones.contains key
  let alreadyReturned := addFiles.contains key
  if alreadyReturned then .ok (addFiles, false)
  else .ok (if isFromCheckpoint then addFiles else addFiles.insert key, !alreadyDeleted)

/-! ## `CreateCheckpointIterator` -/

structure CreateCheckpointIterator (Uri : Type) where
  minFileRetentionTimestampMillis : Int
  selectionVectorBuffer : Option (List Bool)
  files : FilesFromJson Uri
  isMetadataAlreadySeen : Bool
  isProtocolAlreadySeen : Bool
  txnAppIdToVersion : List (String × Int)
  domainSeen : List String
  numberOfAddActions : Nat

namespace CreateCheckpointIterator

def select : Bool := true

def unselect (assertions flag : Bool) : Res Bool := do
  Res.debugAssert assertions (!flag) "Row is already marked for selection, can't unselect now"
  .ok false

/-- `deleteTimestamp > minFileRetentionTimestampMillis`, a missing timestamp being zero. -/
def isUnexpired (minFileRetentionTimestampMillis : Int) (remove : RemoveFile) : Bool :=
  minFileRetentionTimestampMillis < remove.deletionTimestamp.getD 0

/-- One round of `processRemoves`. -/
def processRemove (retention : Int) (tombstones : List (UniqueFileActionTuple Uri)) (row : Action)
    (flag : Bool) : Res (List (UniqueFileActionTuple Uri) × Bool) :=
  match row.remove? with
  | none => .ok (tombstones, flag)
  | some remove => do
    let key ← getUniqueFileAction pathToUri remove.path remove.deletionVector
    .ok (tombstones.insert key, if isUnexpired retention remove then select else flag)

/-- `processRemoves`, which is called for the batches of commits only. -/
def processRemoves (retention : Int) (isFromCheckpoint : Bool)
    (tombstones : List (UniqueFileActionTuple Uri)) (rows : List Action) (buffer : List Bool) :
    Res (List (UniqueFileActionTuple Uri) × List Bool) :=
  if isFromCheckpoint then .ok (tombstones, buffer)
  else eachRow (processRemove pathToUri retention) tombstones rows buffer

/-- One round of `processAdds`, with the number of adds selected. -/
def processAdd (isFromCheckpoint : Bool) (tombstones : List (UniqueFileActionTuple Uri))
    (state : List (UniqueFileActionTuple Uri) × Nat) (row : Action) (flag : Bool) :
    Res ((List (UniqueFileActionTuple Uri) × Nat) × Bool) :=
  match row.add? with
  | none => .ok (state, flag)
  | some add => do
    let (addFiles, doSelect) ← decideAdd pathToUri isFromCheckpoint tombstones state.1 add
    if doSelect then .ok ((addFiles, state.2 + 1), select) else .ok ((addFiles, state.2), flag)

variable (assertions : Bool)

/-- One round of `processProtocol` and of `processMetadata`. -/
def processSingle {α : Type} (column : Action → Option α) (alreadySeen : Bool) (row : Action)
    (flag : Bool) : Res (Bool × Bool) :=
  match column row with
  | none => .ok (alreadySeen, flag)
  | some _ =>
    if alreadySeen then do
      let flag ← unselect assertions flag
      .ok (alreadySeen, flag)
    else .ok (true, select)

/-- One round of `processTxn`. -/
def processTxn (txnAppIdToVersion : List (String × Int)) (row : Action) (flag : Bool) :
    Res (List (String × Int) × Bool) :=
  match row.txn? with
  | none => .ok (txnAppIdToVersion, flag)
  | some txn =>
    if (txnAppIdToVersion.lookup txn.appId).isSome then do
      let flag ← unselect assertions flag
      .ok (txnAppIdToVersion, flag)
    else .ok ((txn.appId, txn.version) :: txnAppIdToVersion, select)

/-- One round of `processDomainMetadata`. -/
def processDomainMetadata (domainSeen : List String) (row : Action) (flag : Bool) :
    Res (List String × Bool) :=
  match row.domainMetadata? with
  | none => .ok (domainSeen, flag)
  | some dm =>
    if domainSeen.contains dm.domain then do
      let flag ← unselect assertions flag
      .ok (domainSeen, flag)
    else .ok (domainSeen.insert dm.domain, select)

/-- `prepareNext`, for the next batch of the log. -/
def prepareNext (it : CreateCheckpointIterator Uri) (actionWrapper : ActionWrapper) :
    Res (FilteredColumnarBatch × CreateCheckpointIterator Uri) := do
  let actionsBatch := actionWrapper.columnarBatch
  let isFromCheckpoint := actionWrapper.isFromCheckpoint
  let buffer := prepareSelectionVectorBuffer it.selectionVectorBuffer actionsBatch.length
  let (tombstones, buffer) ← processRemoves pathToUri it.minFileRetentionTimestampMillis
    isFromCheckpoint it.files.tombstones actionsBatch buffer
  let ((addFiles, numberOfAddActions), buffer) ← eachRow
    (processAdd pathToUri isFromCheckpoint tombstones) (it.files.addFiles,
      it.numberOfAddActions) actionsBatch buffer
  let (isProtocolAlreadySeen, buffer) ←
    eachRow (processSingle assertions Action.protocol?) it.isProtocolAlreadySeen actionsBatch buffer
  let (isMetadataAlreadySeen, buffer) ←
    eachRow (processSingle assertions Action.metaData?) it.isMetadataAlreadySeen actionsBatch buffer
  let (txnAppIdToVersion, buffer) ← eachRow (processTxn assertions) it.txnAppIdToVersion
    actionsBatch buffer
  let (domainSeen, buffer) ← eachRow (processDomainMetadata assertions) it.domainSeen
    actionsBatch buffer
  .ok (⟨actionsBatch, some (buffer.take actionsBatch.length)⟩,
    { it with
      selectionVectorBuffer := some buffer
      files := ⟨tombstones, addFiles⟩
      isProtocolAlreadySeen, isMetadataAlreadySeen, txnAppIdToVersion, domainSeen,
        numberOfAddActions })

def new (minFileRetentionTimestampMillis : Int) : CreateCheckpointIterator Uri :=
  { minFileRetentionTimestampMillis, selectionVectorBuffer := none, files := ⟨[], []⟩,
    isMetadataAlreadySeen := false, isProtocolAlreadySeen := false, txnAppIdToVersion :=
      [], domainSeen := [],
    numberOfAddActions := 0 }

def drain (assertions : Bool) :
    CreateCheckpointIterator Uri → List ActionWrapper → Res (List FilteredColumnarBatch)
  | _, [] => .ok []
  | it, wrapper :: wrappers => do
    let (batch, it) ← prepareNext pathToUri assertions it wrapper
    let batches ← drain assertions it wrappers
    .ok (batch :: batches)

/-- The batches a checkpoint of the segment is written from. -/
def createCheckpoint (engine : Engine) (logSegment : LogSegment)
    (minFileRetentionTimestampMillis : Int) : Res (List FilteredColumnarBatch) := do
  let wrappers ← ActionsIterator.actions engine true logSegment.allLogFilesReversed
  drain pathToUri assertions (new minFileRetentionTimestampMillis) wrappers

end CreateCheckpointIterator

/-! ## `ActiveAddFilesIterator` -/

namespace ActiveAddFilesIterator

/-- One round of the loop over the removes of a batch. -/
def addTombstone (tombstones : List (UniqueFileActionTuple Uri)) (row : Action) :
    Res (List (UniqueFileActionTuple Uri)) :=
  match row.remove? with
  | none => .ok tombstones
  | some remove => do
    let key ← getUniqueFileAction pathToUri remove.path remove.deletionVector
    .ok (tombstones.insert key)

/-- The loop over the removes, for the batches of commits only. -/
def addTombstones (isFromCheckpoint : Bool) (tombstones : List (UniqueFileActionTuple Uri))
    (rows : List Action) : Res (List (UniqueFileActionTuple Uri)) :=
  if isFromCheckpoint then .ok tombstones else rows.foldlM (addTombstone pathToUri) tombstones

/-- One round of the loop over the adds of a batch; the state holds `addFilesFromJson` and
`atLeastOneUnselected`. -/
def selectAdd (isFromCheckpoint : Bool) (tombstones : List (UniqueFileActionTuple Uri))
    (state : List (UniqueFileActionTuple Uri) × Bool) (row : Action) (flag : Bool) :
    Res ((List (UniqueFileActionTuple Uri) × Bool) × Bool) :=
  match row.add? with
  | none => .ok ((state.1, true), flag)
  | some add => do
    let (addFiles, doSelect) ← decideAdd pathToUri isFromCheckpoint tombstones state.1 add
    if doSelect then .ok ((addFiles, state.2), true) else .ok ((addFiles, true), flag)

/-- `prepareNext`, for the next batch of the log. A batch in which every row is selected has no
selection vector. -/
def prepareNext (files : FilesFromJson Uri) (selectionVectorBuffer : Option (List Bool))
    (next : ActionWrapper) :
    Res (FilteredColumnarBatch × FilesFromJson Uri × Option (List Bool)) := do
  let addRemoveColumnarBatch := next.columnarBatch
  let tombstones ← addTombstones pathToUri next.isFromCheckpoint files.tombstones
    addRemoveColumnarBatch
  let buffer := prepareSelectionVectorBuffer selectionVectorBuffer addRemoveColumnarBatch.length
  let ((addFiles, atLeastOneUnselected), buffer) ←
    eachRow (selectAdd pathToUri next.isFromCheckpoint tombstones) (files.addFiles,
      false) addRemoveColumnarBatch buffer
  let selectionVector :=
    if atLeastOneUnselected then some (buffer.take addRemoveColumnarBatch.length) else none
  .ok (⟨addRemoveColumnarBatch, selectionVector⟩, ⟨tombstones, addFiles⟩, some buffer)

def drain : FilesFromJson Uri → Option (List Bool) → List ActionWrapper →
    Res (List FilteredColumnarBatch)
  | _, _, [] => .ok []
  | files, buffer, next :: iter => do
    let (batch, files, buffer) ← prepareNext pathToUri files buffer next
    let batches ← drain files buffer iter
    .ok (batch :: batches)

/-- `LogReplay.getAddFilesAsColumnarBatches`, without a checkpoint predicate. -/
def getAddFilesAsColumnarBatches (engine : Engine) (logSegment : LogSegment) :
    Res (List FilteredColumnarBatch) := do
  let addRemoveIter ← ActionsIterator.actions engine true logSegment.allLogFilesReversed
  drain pathToUri ⟨[], []⟩ none addRemoveIter

end ActiveAddFilesIterator

end Delta
