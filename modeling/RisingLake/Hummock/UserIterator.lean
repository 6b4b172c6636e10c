import RisingLake.Hummock.Key

/-!
# User iterators (`iterator/forward_user.rs`, `iterator/backward_user.rs`, `FullKeyTracker` of `key.rs`)

The store holds several versions of a user key, one for each epoch in which it was written. A user
iterator shows the newest version that its epochs admit, unless that one is a delete. The forward
iterator meets the newest version of a key first and decides at once; the backward iterator meets it
last and decides when the next key or the end is reached.

The inner iterator is given by the entries of the store in its direction and the entries from its
position on.
-/

namespace Hummock

open Res

inductive HummockValue where
  | put (val : Bytes)
  | delete
  deriving DecidableEq, Repr

def HummockValue.intoUserValue : HummockValue → Option Bytes
  | put val => some val
  | delete => none

abbrev Entry := FullKey × HummockValue

abbrev UserKeyRange := Bound UserKey × Bound UserKey

def maxSpillTimes : U16 := Fin.last _

/-- `while it.is_valid()`: the items shown until the iterator is not valid, `none` if more than
`fuel` rounds are needed. -/
def collect {σ α : Type} (isValid : σ → Bool) (item : σ → Res α) (next : σ → Res σ) :
    Nat → σ → Res (Option (List α))
  | 0, _ => .ok none
  | fuel + 1, it =>
    if isValid it then do
      let a ← item it
      let it ← next it
      let as ← collect isValid item next fuel it
      .ok (as.map (a :: ·))
    else .ok (some [])

/-! ## Tracking versions -/

structure FullKeyTracker where
  latestFullKey : FullKey
  lastObservedEpochWithGap : EpochWithGap
  deriving DecidableEq, Repr

namespace FullKeyTracker

def new (initFullKey : FullKey) : FullKeyTracker := ⟨initFullKey, initFullKey.epochWithGap⟩

/-- `epochs` comes from greater to smaller. Returns whether the user key is new. -/
def observeMultiVersion (skipDedup : Bool) (self : FullKeyTracker) (userKey : UserKey)
    (epochs : List EpochWithGap) : Res (Bool × FullKeyTracker) := do
  let maxEpochWithGap ← unwrap epochs.head? "non-empty"
  let minEpochWithGap ← epochs.tail.foldlM (fun prev curr => do
    assert (decide (curr < prev)) "epoch list not sorted"
    .ok curr) maxEpochWithGap
  match cmp self.latestFullKey.userKey userKey with
  | .lt => .ok (true, ⟨⟨userKey, minEpochWithGap⟩, minEpochWithGap⟩)
  | .eq =>
    if decide (self.lastObservedEpochWithGap < maxEpochWithGap) ||
        (!skipDedup && decide (maxEpochWithGap = self.lastObservedEpochWithGap)) then
      .error (.explicit "epoch >= prev epoch")
    else .ok (false, { self with lastObservedEpochWithGap := minEpochWithGap })
  | .gt => .error (.explicit "key <= prev key")

def observe (skipDedup : Bool) (self : FullKeyTracker) (key : FullKey) :
    Res (Bool × FullKeyTracker) :=
  self.observeMultiVersion skipDedup key.userKey [key.epochWithGap]

end FullKeyTracker

/-! ## Forward -/

structure UserIterator where
  entries : List Entry
  rest : List Entry
  fullKeyTracker : FullKeyTracker
  keyRange : UserKeyRange
  readEpoch : HummockEpoch
  minEpoch : HummockEpoch
  isCurrentPosValid : Bool
  deriving DecidableEq, Repr

namespace UserIterator

def new (entries : List Entry) (keyRange : UserKeyRange) (readEpoch minEpoch : HummockEpoch) :
    UserIterator where
  entries
  rest := entries
  fullKeyTracker := .new .default
  keyRange
  readEpoch
  minEpoch
  isCurrentPosValid := false

variable (self : UserIterator)

def isValid : Bool := self.isCurrentPosValid

def userKeyOutOfRange (userKey : UserKey) : Bool :=
  match self.keyRange.2 with
  | .included endKey => endKey < userKey
  | .excluded endKey => endKey ≤ userKey
  | .unbounded => false

/-- The loop of `try_advance_to_next_valid`, from the given entries on. -/
def advance (self : UserIterator) (tracker : FullKeyTracker) : List Entry → Res UserIterator
  | [] => .ok { self with rest := [], fullKeyTracker := tracker, isCurrentPosValid := false }
  | (fullKey, value) :: rest =>
    let epoch := fullKey.epochWithGap.pureEpoch
    if epoch < self.minEpoch ∨ self.readEpoch < epoch then self.advance tracker rest
    else do
      let (isNew, tracker) ← tracker.observe true fullKey
      if !isNew then self.advance tracker rest
      else if self.userKeyOutOfRange fullKey.userKey then
        .ok { self with
          rest := (fullKey, value) :: rest, fullKeyTracker := tracker, isCurrentPosValid := false }
      else
        match value with
        | .put _ => .ok { self with
            rest := (fullKey, value) :: rest, fullKeyTracker := tracker, isCurrentPosValid := true }
        | .delete => self.advance tracker rest

def tryAdvanceToNextValid : Res UserIterator := self.advance self.fullKeyTracker self.rest

def next : Res UserIterator :=
  { self with isCurrentPosValid := false, rest := self.rest.tail }.tryAdvanceToNextValid

def key : Res FullKey := do
  assert self.isValid "self.is_valid()"
  .ok self.fullKeyTracker.latestFullKey

def value : Res Bytes := do
  assert self.isValid "self.is_valid()"
  match self.rest with
  | (_, .put val) :: _ => .ok val
  | _ => .error (.explicit "must_match")

/-- The inner iterator at the first entry that is not before `fullKey`. -/
def seekInner (fullKey : FullKey) : UserIterator :=
  { self with rest := self.entries.dropWhile fun e => e.1 < fullKey }

/-- An excluded start key is skipped. -/
def skipExcluded : Res UserIterator :=
  match self.keyRange.1 with
  | .excluded beginKey => do
    if self.isValid then
      if (← self.key).userKey = beginKey then self.next else .ok self
    else .ok self
  | _ => .ok self

def seekStart (dbg : Bool) (self : UserIterator) : Res UserIterator :=
  match self.keyRange.1 with
  | .included beginKey | .excluded beginKey => do
    .ok (self.seekInner ⟨beginKey, ← EpochWithGap.new dbg self.readEpoch maxSpillTimes⟩)
  | .unbounded => .ok { self with rest := self.entries }

def rewind (dbg : Bool) (self : UserIterator) : Res UserIterator := do
  let self := { self with isCurrentPosValid := false, fullKeyTracker := .new .default }
  let self ← self.seekStart dbg
  let self ← self.tryAdvanceToNextValid
  self.skipExcluded

def item : Res (FullKey × Bytes) := do
  .ok (← self.key, ← self.value)

def scan (fuel : Nat) (self : UserIterator) : Res (Option (List (FullKey × Bytes))) :=
  collect isValid item next fuel self

end UserIterator

/-! ## Backward -/

/-- `entries` and `rest` are in reverse order. -/
structure BackwardUserIterator where
  entries : List Entry
  rest : List Entry
  justMetNewKey : Bool
  lastKey : FullKey
  lastVal : Bytes
  lastDelete : Bool
  outOfRange : Bool
  keyRange : UserKeyRange
  readEpoch : HummockEpoch
  minEpoch : HummockEpoch
  deriving DecidableEq, Repr

namespace BackwardUserIterator

def new (entries : List Entry) (keyRange : UserKeyRange) (readEpoch minEpoch : HummockEpoch) :
    BackwardUserIterator where
  entries
  rest := entries
  justMetNewKey := false
  lastKey := .default
  lastVal := []
  lastDelete := true
  outOfRange := false
  keyRange
  readEpoch
  minEpoch

variable (self : BackwardUserIterator)

def isValid : Bool :=
  let hasEnoughInput := !self.rest.isEmpty || !self.lastDelete
  hasEnoughInput && !self.outOfRange

def keyOutOfRange (key : UserKey) : Bool :=
  match self.keyRange.1 with
  | .included beginKey => key < beginKey
  | .excluded beginKey => key ≤ beginKey
  | .unbounded => false

def reset : BackwardUserIterator :=
  { self with lastKey := .default, justMetNewKey := false, lastDelete := true, outOfRange := false }

/-- A version of the last key: the newest one so far. -/
def setLast (fullKey : FullKey) : HummockValue → BackwardUserIterator
  | .put val => { self with lastKey := fullKey, lastVal := val, lastDelete := false }
  | .delete => { self with lastDelete := true }

/-- The loop of `next`, from the given entries on. -/
def advance (self : BackwardUserIterator) : List Entry → BackwardUserIterator
  | [] => { self with rest := [] }
  | (fullKey, value) :: rest =>
    let epoch := fullKey.epochWithGap.pureEpoch
    if self.minEpoch < epoch ∧ epoch ≤ self.readEpoch then
      if self.justMetNewKey then
        let self := { self with lastKey := fullKey, justMetNewKey := false }
        if self.keyOutOfRange fullKey.userKey then
          { self with outOfRange := true, rest := (fullKey, value) :: rest }
        else (self.setLast fullKey value).advance rest
      else if self.lastKey.userKey ≠ fullKey.userKey then
        -- the last key is complete: shown unless deleted
        if !self.lastDelete then
          { self with justMetNewKey := true, rest := (fullKey, value) :: rest }
        else
          let self := { self with lastKey := fullKey }
          if self.keyOutOfRange fullKey.userKey then
            { self with outOfRange := true, rest := (fullKey, value) :: rest }
          else (self.setLast fullKey value).advance rest
      else (self.setLast fullKey value).advance rest
    else self.advance rest

def next : BackwardUserIterator :=
  if self.rest.isEmpty then { self with lastDelete := true } else self.advance self.rest

def key : Res FullKey := do
  assert self.isValid "self.is_valid()"
  .ok self.lastKey

def value : Res Bytes := do
  assert self.isValid "self.is_valid()"
  .ok self.lastVal

/-- The inner iterator at the first entry, going backward, that is not after `fullKey`. -/
def seekInner (fullKey : FullKey) : BackwardUserIterator :=
  { self with rest := self.entries.dropWhile fun e => fullKey < e.1 }

/-- An excluded end key is skipped. -/
def skipExcluded : Res BackwardUserIterator :=
  match self.keyRange.2 with
  | .excluded endKey => do
    if self.isValid then
      if (← self.key).userKey = endKey then .ok self.next else .ok self
    else .ok self
  | _ => .ok self

def seekEnd : BackwardUserIterator :=
  match self.keyRange.2 with
  | .included endKey | .excluded endKey => self.seekInner ⟨endKey, EpochWithGap.newMinEpoch⟩
  | .unbounded => { self with rest := self.entries }

def rewind : Res BackwardUserIterator := self.seekEnd.reset.next.skipExcluded

def item : Res (FullKey × Bytes) := do
  .ok (← self.key, ← self.value)

def scan (fuel : Nat) (self : BackwardUserIterator) : Res (Option (List (FullKey × Bytes))) :=
  collect isValid item (fun it => .ok it.next) fuel self

end BackwardUserIterator

end Hummock
