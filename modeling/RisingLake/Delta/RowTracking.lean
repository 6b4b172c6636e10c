import RisingLake.Lib.Res

/-!
# Row ids (`spark/sql/delta/RowId.scala`, `ConflictChecker.scala`)

A transaction gives the files it adds ranges of row ids above the high watermark of its snapshot,
and records the new one. When another commit wins, the ids it gave out are those above the watermark
it has read, and they are given out again above the winner's.

Of the actions only the files and the domain of row tracking are read. A `Long` is an integer, and a
sum of two wraps (`long`).
-/

namespace Delta.RowTracking

open Res

variable {P : Type}

structure AddFile (P : Type) where
  path : P
  baseRowId : Option Int
  numPhysicalRecords : Option Int

inductive Action (P : Type) where
  | add (file : AddFile P)
  /-- The `DomainMetadata` of `RowTrackingMetadataDomain`. -/
  | rowTrackingDomain (rowIdHighWaterMark : Int)
  | other

@[simp] def Action.add? : Action P → Option (AddFile P)
  | .add a => some a
  | _ => none

@[simp] def Action.rowIdHighWaterMark? : Action P → Option Int
  | .rowTrackingDomain m => some m
  | _ => none

def missingHighWaterMark : Int := -1

/-- The `Long` of a sum. -/
def long (sum : Int) : Int := sum.bmod (2 ^ 64)

variable (commits : List (List (Action P)))

/-- The watermark of the snapshot after the commits, the newest last. -/
def extractHighWatermark : Option Int :=
  (commits.flatten.filterMap Action.rowIdHighWaterMark?).getLast?

/-- The next ids go to the file. -/
def assignNext (mark : Int) (a : AddFile P) : Res (List (Action P) × Int) := do
  let n ← unwrap a.numPhysicalRecords "rowIdAssignmentWithoutStats"
  .ok ([.add { a with baseRowId := some (long (mark + 1)) }], long (mark + n))

def assignFreshRowIds (actions : List (Action P)) : Res (List (Action P)) := do
  let oldHighWatermark := (extractHighWatermark commits).getD missingHighWaterMark
  let (actions, newHighWatermark) ← mapAccumM (fun mark x =>
    match x with
    | .add a => if a.baseRowId.isNone then assignNext mark a else .ok ([.add a], mark)
    | .rowTrackingDomain _ =>
      .error (.explicit "Manually setting the Row ID high water mark is not allowed")
    | x => .ok ([x], mark)) oldHighWatermark actions
  .ok (actions.flatten ++
    if newHighWatermark ≠ oldHighWatermark then [.rowTrackingDomain newHighWatermark] else [])

structure CurrentTransactionInfo (P : Type) where
  actions : List (Action P)
  readRowIdHighWatermark : Int

def reassignOverlappingRowIds (info : CurrentTransactionInfo P) (winning : List (Action P)) :
    Res (CurrentTransactionInfo P) := do
  let winningHighWaterMark :=
    (winning.findSome? Action.rowIdHighWaterMark?).getD info.readRowIdHighWatermark
  let (actions, highWaterMark) ← mapAccumM (fun mark x =>
    match x with
    | .add a =>
      if !a.baseRowId.any (· ≤ info.readRowIdHighWatermark) then assignNext mark a
      else .ok ([.add a], mark)
    | .rowTrackingDomain _ => .ok ([], mark)
    | x => .ok ([x], mark)) winningHighWaterMark info.actions
  .ok ⟨.rowTrackingDomain highWaterMark :: actions.flatten, winningHighWaterMark⟩

/-- What a transaction commits that has read the first `version` commits. -/
def commit (version : Nat) (actions : List (Action P)) : Res (List (Action P)) := do
  let snapshot := commits.take version
  let actions ← assignFreshRowIds snapshot actions
  let info ← (commits.drop version).foldlM reassignOverlappingRowIds
    ⟨actions, (extractHighWatermark snapshot).getD missingHighWaterMark⟩
  .ok info.actions

end Delta.RowTracking
