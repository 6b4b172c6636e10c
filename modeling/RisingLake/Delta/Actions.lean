import RisingLake.Lib.Res

/-!
# Actions of a Delta log

The actions of commits and checkpoints (`io.delta.kernel.internal.actions`), with the fields that
replaying the log reads or hands on. A row of a log file holds one action; the column vectors of the
source are its projections (`add?` is the `add` column, and so on), null where the row holds another
action.
-/

namespace Delta

structure Protocol where
  minReaderVersion : Int
  minWriterVersion : Int
  readerFeatures : List String
  writerFeatures : List String
  deriving DecidableEq, Repr

structure Format where
  provider : String
  options : List (String × String)
  deriving DecidableEq, Repr

/-- Without the fields computed from the others. -/
structure Metadata where
  id : String
  name : Option String
  description : Option String
  format : Format
  schemaString : String
  partitionColumns : List String
  createdTime : Option Int
  configuration : List (String × String)
  deriving DecidableEq, Repr

structure SetTransaction where
  appId : String
  version : Int
  lastUpdated : Option Int
  deriving DecidableEq, Repr

structure DomainMetadata where
  domain : String
  configuration : String
  removed : Bool
  deriving DecidableEq, Repr

structure DeletionVectorDescriptor where
  storageType : String
  pathOrInlineDv : String
  offset : Option Int
  sizeInBytes : Int
  cardinality : Int
  deriving DecidableEq, Repr

/-- `DeletionVectorDescriptor.getUniqueId`; the offset is printed as the `Optional` it is. -/
def DeletionVectorDescriptor.getUniqueId (dv : DeletionVectorDescriptor) : String :=
  let uniqueFileId := dv.storageType ++ dv.pathOrInlineDv
  match dv.offset with
  | some offset => uniqueFileId ++ "@Optional[" ++ toString offset ++ "]"
  | none => uniqueFileId

structure AddFile where
  path : String
  partitionValues : List (String × Option String)
  size : Int
  modificationTime : Int
  dataChange : Bool
  deletionVector : Option DeletionVectorDescriptor
  tags : Option (List (String × Option String))
  stats : Option String
  deriving DecidableEq, Repr

/-- `io.delta.kernel.internal.actions.RemoveFile`: the fields the replay reads. -/
structure RemoveFile where
  path : String
  deletionTimestamp : Option Int
  dataChange : Bool
  deletionVector : Option DeletionVectorDescriptor
  deriving DecidableEq, Repr

/-- A file of the log directory. Its name starts with a version, or not (`Long.parseLong` of the
name up to its first dot). -/
structure FileStatus where
  path : String
  nameVersion : Option Nat
  deriving DecidableEq, Repr

/-- `io.delta.kernel.internal.actions.SidecarFile`, as the file under `_sidecars` it names. -/
structure SidecarFile where
  file : FileStatus
  deriving DecidableEq, Repr

/-- A row of a commit or checkpoint file. -/
inductive Action where
  | txn (txn : SetTransaction)
  | add (add : AddFile)
  | remove (remove : RemoveFile)
  | metaData (metadata : Metadata)
  | protocol (protocol : Protocol)
  | domainMetadata (domainMetadata : DomainMetadata)
  | sidecar (sidecar : SidecarFile)
  /-- An action that none of the columns read holds, such as `commitInfo`. -/
  | other
  deriving DecidableEq, Repr

namespace Action

def txn? : Action → Option SetTransaction
  | txn t => some t
  | _ => none
def add? : Action → Option AddFile
  | add f => some f
  | _ => none
def remove? : Action → Option RemoveFile
  | remove r => some r
  | _ => none
def metaData? : Action → Option Metadata
  | metaData m => some m
  | _ => none
def protocol? : Action → Option Protocol
  | protocol p => some p
  | _ => none
def domainMetadata? : Action → Option DomainMetadata
  | domainMetadata d => some d
  | _ => none
def sidecar? : Action → Option SidecarFile
  | sidecar s => some s
  | _ => none

/-- A row whose sidecar column is dropped (`withDeletedColumnAt(sidecarIndex)`). -/
def withoutSidecar : Action → Action
  | sidecar _ => other
  | a => a

end Action

/-- The logical file of a file action, the URI of its path with the id of its
deletion vector. -/
abbrev UniqueFileActionTuple (Uri : Type) := Uri × Option String

/-- `LogReplayUtils.getUniqueFileAction`. `pathToUri` is `new URI(path)`, which fails on a path that
is not a URI. -/
def getUniqueFileAction {Uri : Type} (pathToUri : String → Res Uri) (path : String)
    (deletionVector : Option DeletionVectorDescriptor) : Res (UniqueFileActionTuple Uri) := do
  let pathAsUri ← pathToUri path
  .ok (pathAsUri, deletionVector.map DeletionVectorDescriptor.getUniqueId)

end Delta
