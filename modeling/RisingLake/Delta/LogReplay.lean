import RisingLake.Delta.ActionsIterator
import RisingLake.Lib.Maps

/-!
# Replaying a log for protocol, metadata, transactions and domains

`LogReplay` of `kernel-api`, with the reader checks of `TableFeatures` and `ColumnMapping` that it
calls. The log is read from its newest file to its oldest; the first action of a kind that is found
is the newest one.
-/

namespace Delta

/-! ## Reader support -/

def supportedReaderFeatures : List String :=
  ["columnMapping", "deletionVectors", "timestampNtz", "typeWidening-preview", "typeWidening",
    "vacuumProtocolCheck", "variantType-preview", "v2Checkpoint"]

/-- One character under `String.equalsIgnoreCase`, as far as letters of the Latin alphabet go: the
dotless and the dotted capital i compare equal to i. -/
def foldCase (c : Char) : Char := if c = 'ı' || c = 'İ' then 'i' else c.toLower

def equalsIgnoreCase (s t : String) : Bool := s.toList.map foldCase = t.toList.map foldCase

/-- `ColumnMappingMode.values()`. -/
def columnMappingModes : List String := ["none", "id", "name"]

def throwOnUnsupportedColumnMappingMode (metadata : Metadata) : Res Unit :=
  match metadata.configuration.lookup "delta.columnMapping.mode" with
  | none => .ok ()
  | some mode =>
    if columnMappingModes.any fun m => equalsIgnoreCase m mode then .ok ()
    else .error (.explicit ("Invalid value for table property 'delta.columnMapping.mode': '" ++ mode ++
      "'. Needs to be one of: [" ++ ", ".intercalate columnMappingModes ++ "]."))

/-- `TableFeatures.validateReadSupportedTable`, with the metadata present. -/
def validateReadSupportedTable (protocol : Protocol) (tablePath : String) (metadata : Metadata) :
    Res Unit :=
  if protocol.minReaderVersion = 1 then .ok ()
  else if protocol.minReaderVersion = 2 then throwOnUnsupportedColumnMappingMode metadata
  else if protocol.minReaderVersion = 3 then do
    let unsupportedFeatures :=
      protocol.readerFeatures.filter fun f => !supportedReaderFeatures.contains f
    if !unsupportedFeatures.isEmpty then
      .error (.explicit ("Unsupported Delta reader features: table `" ++ tablePath ++
        "` requires reader table features [" ++ ", ".intercalate unsupportedFeatures ++
        "] which is unsupported by this version of Delta Kernel."))
    else if protocol.readerFeatures.contains "columnMapping" then
      throwOnUnsupportedColumnMappingMode metadata
    else .ok ()
  else .error (.explicit ("Unsupported Delta protocol reader version: table `" ++ tablePath ++
    "` requires reader version " ++ toString protocol.minReaderVersion ++
    " which is unsupported by this version of Delta Kernel."))

/-! ## Log segments -/

/-- The commit files and the files of the checkpoint, each newest (last by name) first. -/
structure LogSegment where
  version : Nat
  deltas : List DeltaLogFile
  checkpoints : List DeltaLogFile
  deriving DecidableEq, Repr

/-- By name, and so by version, in reverse. -/
def LogSegment.allLogFilesReversed (segment : LogSegment) : List DeltaLogFile :=
  segment.deltas ++ segment.checkpoints

structure SnapshotHint where
  version : Nat
  protocol : Protocol
  metadata : Metadata
  deriving DecidableEq, Repr

/-! ## `LogReplay` -/

namespace LogReplay

/-- The loop of `loadTableProtocolAndMetadata`, with the protocol and the metadata found so far. -/
def findProtocolAndMetadata (dataPath : String) (version : Nat)
    (snapshotHint : Option SnapshotHint) :
    Option Protocol → Option Metadata → List ActionWrapper → Res (Protocol × Metadata)
  | none, _, [] => .error (.explicit ("No protocol found at version " ++ toString version))
  | some _, _, [] => .error (.explicit ("No metadata found at version " ++ toString version))
  | protocol, metadata, nextElem :: reverseIter =>
    let newProtocol := protocol.or (nextElem.columnarBatch.findSome? Action.protocol?)
    match protocol, newProtocol, metadata with
    | none, some p, some m => .ok (p, m)
    | _, _, _ =>
      let newMetadata := metadata.or (nextElem.columnarBatch.findSome? Action.metaData?)
      match metadata, newMetadata, newProtocol with
      | none, some m, some p => do
        validateReadSupportedTable p dataPath m
        .ok (p, m)
      | _, _, _ =>
        -- one of the two is missing; the hint is used before a file of its own version is opened
        match snapshotHint.filter fun hint => nextElem.version = hint.version + 1 with
        | some hint => .ok (newProtocol.getD hint.protocol, newMetadata.getD hint.metadata)
        | none =>
          findProtocolAndMetadata dataPath version snapshotHint newProtocol newMetadata reverseIter

def loadTableProtocolAndMetadata (engine : Engine) (dataPath : String) (logSegment : LogSegment)
    (snapshotHint : Option SnapshotHint) (snapshotVersion : Nat) : Res (Protocol × Metadata) := do
  match snapshotHint.filter fun hint => hint.version = snapshotVersion with
  | some hint => .ok (hint.protocol, hint.metadata)
  | none =>
    let reverseIter ← ActionsIterator.actions engine false logSegment.allLogFilesReversed
    findProtocolAndMetadata dataPath logSegment.version snapshotHint none none reverseIter

/-- The version of the row's transaction, if it is one of the application. -/
def txnVersion? (applicationId : String) (row : Action) : Option Int :=
  row.txn?.bind fun txn => if applicationId = txn.appId then some txn.version else none

def loadLatestTransactionVersion (engine : Engine) (logSegment : LogSegment)
    (applicationId : String) : Res (Option Int) := do
  let reverseIter ← ActionsIterator.actions engine false logSegment.allLogFilesReversed
  .ok (reverseIter.findSome?
    fun wrapper => wrapper.columnarBatch.findSome? (txnVersion? applicationId))

def populateDomainMetadataMap (rows : List Action)
    (domainMetadataMap : HashMap String DomainMetadata) : HashMap String DomainMetadata :=
  rows.foldl (fun map row =>
    match row.domainMetadata? with
    | some dm => if map.contains dm.domain then map else map.insert dm.domain dm
    | none => map) domainMetadataMap

def loadDomainMetadataMap (engine : Engine) (logSegment : LogSegment) :
    Res (HashMap String DomainMetadata) := do
  let reverseIter ← ActionsIterator.actions engine false logSegment.allLogFilesReversed
  .ok (reverseIter.foldl (fun map wrapper => populateDomainMetadataMap wrapper.columnarBatch map) ∅)

end LogReplay

end Delta
