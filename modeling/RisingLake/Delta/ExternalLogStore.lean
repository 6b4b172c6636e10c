import RisingLake.Lib.BTreeMap

/-!
# Commits through an external store

`write` of `BaseExternalLogStore` with `overwrite = false`, `listFrom` and `fixDeltaLog`, one
operation on the file system or on the external store at a time. A process is given by the operation
that it makes next. Processes of different JVMs share no path lock, and one that has crashed makes
no further operation.
-/

namespace Delta.ExternalLogStore

/-- The entry of the commit file of version `fileName`; entries do not expire. -/
structure ExternalCommitEntry (T : Type) where
  fileName : Nat
  tempPath : T
  complete : Bool

def ExternalCommitEntry.asComplete {T : Type} (e : ExternalCommitEntry T) : ExternalCommitEntry T :=
  { e with complete := true }

/-- The temp files, the commit files and the external store of a table. -/
structure Storage (T C : Type) where
  temps : T → Option C
  files : Nat → Option C
  entries : BTreeMap Nat (ExternalCommitEntry T)

inductive Throwable where
  | fileAlreadyExists
  | other

/-- An operation proceeds, or an exception is thrown before or after it took effect. A copy may miss
that another one has created its target. -/
inductive Outcome where
  | proceeds (missed : Bool)
  | raises (e : Throwable) (after : Bool)

def Outcome.missed : Outcome → Bool
  | proceeds missed => missed
  | raises .. => true

abbrev Answer (T C α : Type) := Except Throwable α × Storage T C

variable {T C α : Type}

/-! ## Operations -/

def existsFile (n : Nat) (s : Storage T C) : Answer T C Bool := (.ok (s.files n).isSome, s)

def writeActions [DecidableEq T] (path : T) (actions : C) (s : Storage T C) : Answer T C Unit :=
  (.ok (), { s with temps := Function.update s.temps path (some actions) })

def getExternalEntry (n : Nat) (s : Storage T C) : Answer T C (Option (ExternalCommitEntry T)) :=
  (.ok s.entries[n]?, s)

def getLatestExternalEntry (s : Storage T C) : Answer T C (Option (ExternalCommitEntry T)) :=
  (.ok (s.entries.toList.getLast?.map (·.2)), s)

def putExternalEntry (e : ExternalCommitEntry T) (overwrite : Bool) (s : Storage T C) :
    Answer T C Unit :=
  if !overwrite && (s.entries[e.fileName]?).isSome then (.error .fileAlreadyExists, s)
  else (.ok (), { s with entries := s.entries.insert e.fileName e })

def copyFile (missed : Bool) (src : T) (dst : Nat) (s : Storage T C) : Answer T C Unit :=
  match s.temps src with
  | none => (.error .other, s)
  | some c =>
    if (s.files dst).isSome && !missed then (.error .fileAlreadyExists, s)
    else (.ok (), { s with files := Function.update s.files dst (some c) })

/-! ## Processes -/

/-- A call of `write`; the temp path is the one it creates. -/
structure Write (T C : Type) where
  version : Nat
  tempPath : T
  actions : C

def Write.entry (w : Write T C) : ExternalCommitEntry T := ⟨w.version, w.tempPath, false⟩

inductive WritePoint where
  | existsFile | getPrevEntry | existsPrevFile | getEntry | existsOldFile
  | writeActions | putEntry | copyTempFile | putCompleteEntry | returned

inductive FixPoint where
  | existsFile | copyTempFile | putCompleteEntry

/-- `fix` is `fixDeltaLog`, called by a `write` or by a `listFrom`. -/
inductive Proc (T C : Type) where
  | write (w : Write T C) (p : WritePoint)
  | listFrom
  | listed
  | fix (w : Option (Write T C)) (e : ExternalCommitEntry T) (retry : Nat) (copied : Bool)
    (p : FixPoint)
  | thrown (w : Option (Write T C)) (e : Throwable)

namespace Proc

def call : Proc T C → Option (Write T C)
  | write w _ => some w
  | fix w .. | thrown w _ => w
  | listFrom | listed => none

def tempPath? (p : Proc T C) : Option T := p.call.map (·.tempPath)

variable (w : Option (Write T C)) (e : ExternalCommitEntry T)

/-- The next round of the loop of `fixDeltaLog`. -/
def fixLoop (retry : Nat) (copied : Bool) : Proc T C :=
  fix w e retry copied (if copied then .putCompleteEntry else .existsFile)

def fixCatch (retry : Nat) (copied : Bool) : Throwable → Proc T C
  | .fileAlreadyExists => fixLoop w e (retry + 1) true
  | .other => if retry ≥ 3 then thrown w .other else fixLoop w e (retry + 1) copied

def fixed : Option (Write T C) → Proc T C
  | some w => write w .writeActions
  | none => listed

def fixDeltaLog : Proc T C :=
  if e.complete then fixed w else fixLoop w e 0 false

/-- Makes an operation, and goes on with what it returns or throws. -/
def perform (o : Outcome) (s : Storage T C) (op : Storage T C → Answer T C α)
    (handler : Throwable → Proc T C) (k : α → Proc T C) : Proc T C × Storage T C :=
  match o, op s with
  | .proceeds _, (.ok a, s') => (k a, s')
  | .proceeds _, (.error e, s') => (handler e, s')
  | .raises e after, (_, s') => (handler e, if after then s' else s)

def step [DecidableEq T] (o : Outcome) (s : Storage T C) :
    Proc T C → Option (Proc T C × Storage T C)
  | write w .existsFile => perform o s (existsFile w.version) (thrown w) fun there =>
    if there then thrown w .fileAlreadyExists
    else write w (if w.version > 0 then .getPrevEntry else .getEntry)
  | write w .getPrevEntry => perform o s (getExternalEntry (w.version - 1)) (thrown w) fun
    | some e => if !e.complete then fixDeltaLog w e else write w .existsPrevFile
    | none => write w .existsPrevFile
  | write w .existsPrevFile => perform o s (existsFile (w.version - 1)) (thrown w) fun there =>
    if !there then thrown w .other else write w .writeActions
  | write w .getEntry => perform o s (getExternalEntry w.version) (thrown w) fun
    | some e => write w (if e.complete then .existsOldFile else .writeActions)
    | none => write w .writeActions
  | write w .existsOldFile => perform o s (existsFile w.version) (thrown w) fun there =>
    if !there then thrown w .other else write w .writeActions
  | write w .writeActions => perform o s (writeActions w.tempPath w.actions) (thrown w) fun _ =>
    write w .putEntry
  | write w .putEntry => perform o s (putExternalEntry w.entry false) (thrown w) fun _ =>
    write w .copyTempFile
  -- what the last two operations throw is ignored
  | write w .copyTempFile => perform o s (copyFile o.missed w.tempPath w.version)
    (fun _ => write w .returned) fun _ => write w .putCompleteEntry
  | write w .putCompleteEntry => perform o s (putExternalEntry w.entry.asComplete true)
    (fun _ => write w .returned) fun _ => write w .returned
  | listFrom => perform o s getLatestExternalEntry (thrown none) fun
    | some e => if !e.complete then fixDeltaLog none e else listed
    | none => listed
  | fix w e retry copied .existsFile =>
    perform o s (existsFile e.fileName) (fixCatch w e retry copied)
      fun there => fix w e retry copied (if there then .putCompleteEntry else .copyTempFile)
  | fix w e retry copied .copyTempFile => perform o s (copyFile o.missed e.tempPath e.fileName)
    (fixCatch w e retry copied) fun _ => fix w e retry true .putCompleteEntry
  | fix w e retry copied .putCompleteEntry => perform o s (putExternalEntry e.asComplete true)
    (fixCatch w e retry copied) fun _ => fixed w
  | write _ .returned | listed | thrown .. => none

end Proc

/-! ## Interleavings -/

structure System (T C : Type) where
  storage : Storage T C
  procs : List (Proc T C)

inductive Event (T C : Type) where
  | write (w : Write T C)
  | listFrom
  | step (i : Nat) (o : Outcome)

namespace System

def init : System T C := ⟨⟨fun _ => none, fun _ => none, ∅⟩, []⟩

/-- A call begins, a `write` with a new temp path, or a process makes its next operation. -/
def next [DecidableEq T] (s : System T C) : Event T C → Option (System T C)
  | .write w =>
    if ∀ p ∈ s.procs, p.tempPath? ≠ some w.tempPath then
      some ⟨s.storage, s.procs ++ [.write w .existsFile]⟩
    else none
  | .listFrom => some ⟨s.storage, s.procs ++ [.listFrom]⟩
  | .step i o => do
    let (p, storage) ← (← s.procs[i]?).step o s.storage
    some ⟨storage, s.procs.set i p⟩

def run [DecidableEq T] (s : System T C) (events : List (Event T C)) : Option (System T C) :=
  events.foldlM next s

end System

end Delta.ExternalLogStore
