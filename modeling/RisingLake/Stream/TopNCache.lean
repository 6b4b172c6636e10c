import RisingLake.Lib.Bytes
import RisingLake.Lib.SortedMap
import RisingLake.Stream.Chunk

/-!
# The cache of a top-N (`stream/src/executor/top_n/top_n_cache.rs`, `top_n_state.rs`)

The rows of a group are cached in three parts: `low` before the offset, `middle` with the rows of
the result and `high` with the first of the rows after it. A row that comes in or goes out moves
rows between the parts, and `high` is filled from the table when the middle needs a row that it does
not have. What happens to the middle is recorded in a `TopNStaging`.

The table is given by the rows of the group in the order of their cache keys, as a scan of its
prefix yields them.
-/

namespace Stream

open Res

/-- The bytes of the columns of `ORDER BY`, and those of the remaining columns of the primary key.
-/
abbrev CacheKey := Lex (Bytes × Bytes)

/-- The part of a key by which rows are tied. -/
def CacheKey.sortKey (k : CacheKey) : Bytes := (ofLex k).1

abbrev Cache (V : Type) := SortedMap CacheKey V

/-! ## `TopNStaging` -/

structure TopNStaging (V : Type) where
  toDelete : Cache V
  toInsert : Cache V
  toUpdate : SortedMap CacheKey (V × V)

namespace TopNStaging

variable {V : Type} [DecidableEq V]

def new : TopNStaging V := ⟨.empty, .empty, .empty⟩

def insert (s : TopNStaging V) (cacheKey : CacheKey) (row : V) : TopNStaging V :=
  match s.toDelete.get? cacheKey with
  | some oldRow =>
    let s := { s with toDelete := s.toDelete.erase cacheKey }
    if oldRow ≠ row then { s with toUpdate := s.toUpdate.insert cacheKey (oldRow, row) } else s
  | none => { s with toInsert := s.toInsert.insert cacheKey row }

def delete (s : TopNStaging V) (cacheKey : CacheKey) (row : V) : TopNStaging V :=
  match s.toInsert.get? cacheKey with
  | some _ => { s with toInsert := s.toInsert.erase cacheKey }
  | none =>
    match s.toUpdate.get? cacheKey with
    | some (oldRow, _) =>
      { s with toUpdate := s.toUpdate.erase cacheKey, toDelete := s.toDelete.insert cacheKey oldRow }
    | none => { s with toDelete := s.toDelete.insert cacheKey row }

end TopNStaging

/-! ## `TopNCache` -/

structure TopNCache (V : Type) where
  low : Option (Cache V)
  middle : Cache V
  high : Cache V
  highCacheCapacity : Nat
  offset : Nat
  limit : Nat
  tableRowCount : Option Nat

namespace TopNCache

variable {V : Type} [DecidableEq V]

def usizeMax : Nat := 2 ^ 64 - 1

/-- `offset + limit`, doubled, if that does not overflow; at least `TOPN_CACHE_MIN_CAPACITY`. -/
def highCapacity (offset limit : Nat) : Nat :=
  max (if offset + limit ≤ usizeMax ∧ (offset + limit) * 2 ≤ usizeMax then (offset + limit) * 2
    else usizeMax) 10

variable (c : TopNCache V) (cacheKey : CacheKey) (withTies : Bool) (build : Build)

def new (offset limit : Nat) : Res (TopNCache V) := do
  assert (0 < limit) "assertion failed: limit > 0"
  assert (!withTies || offset == 0) "OFFSET is not supported with WITH TIES"
  .ok {
    low := if 0 < offset then some .empty else none
    middle := .empty
    high := .empty
    highCacheCapacity := highCapacity offset limit
    offset, limit
    tableRowCount := none }

def len (c : TopNCache V) : Nat := (c.low.map SortedMap.len).getD 0 + c.middle.len + c.high.len

def lowIsFull : Res Bool :=
  match c.low with
  | some low => do
    assert (low.len ≤ c.offset) "assertion failed: low.len() <= self.offset"
    let full := low.len == c.offset
    assert (full || c.middle.isEmpty) "assertion failed: self.middle.is_empty()"
    assert (full || c.high.isEmpty) "assertion failed: self.high.is_empty()"
    .ok full
  | none => .ok true

def middleIsFull (c : TopNCache V) : Res Bool := do
  assert (withTies || c.middle.len ≤ c.limit) "the middle cache exceeds the capacity"
  if c.middle.len ≥ c.limit then do
    assert (← c.lowIsFull) "assertion failed: self.low_is_full()"
    .ok true
  else do
    assert c.high.isEmpty "the high cache is not empty when middle cache is not full"
    .ok false

def highIsFull (c : TopNCache V) : Res Bool := do
  assert (withTies || c.high.len ≤ c.highCacheCapacity)
    "assertion failed: self.high.len() <= self.high_cache_capacity"
  .ok (c.high.len ≥ c.highCacheCapacity)

def highIsSynced : Bool := !c.high.isEmpty || c.tableRowCount == some c.len

def lastCacheKeyBeforeHigh : Option CacheKey :=
  (c.middle.lastKeyValue.or (c.low.bind SortedMap.lastKeyValue)).map (·.1)

/-! ## Filling from the table -/

/-- Rows above the start key, until the cache has `limit` rows: the cache, the rows left, and the
number of rows that were read. -/
def fillAbove (startKey : Option CacheKey) (limit : Nat) :
    List (CacheKey × V) → Cache V → Nat → Cache V × List (CacheKey × V) × Nat
  | [], cache, n => (cache, [], n)
  | e :: es, cache, n =>
    if startKey.any (e.1 ≤ ·) then fillAbove startKey limit es cache (n + 1)
    else
      let cache := cache.insert e.1 e.2
      if cache.len = limit then (cache, es, n + 1) else fillAbove startKey limit es cache (n + 1)

/-- The ties of the last row. The first row that is not one has been read. -/
def fillTies (sortKey : Bytes) :
    List (CacheKey × V) → Cache V → Nat →
      Cache V × Option (CacheKey × V) × List (CacheKey × V) × Nat
  | [], cache, n => (cache, none, [], n)
  | e :: es, cache, n =>
    if e.1.sortKey = sortKey then fillTies sortKey es (cache.insert e.1 e.2) (n + 1)
    else (cache, some e, es, n + 1)

/-- The ties of the last row of the high cache, if it is full and ties count. -/
def fillHighTies (c : TopNCache V) (rows : List (CacheKey × V)) (n : Nat) :
    Res (TopNCache V × List (CacheKey × V) × Nat) := do
  if !withTies then .ok (c, rows, n)
  else if ← c.highIsFull withTies then
    let last ← unwrap c.high.lastKeyValue "called `Option::unwrap()` on a `None` value"
    let (high, _, rows, n) := fillTies last.1.sortKey rows c.high n
    .ok ({ c with high }, rows, n)
  else .ok (c, rows, n)

/-- The row count is known when the scan has ended. -/
def updateTableRowCount (rows : List (CacheKey × V)) (n : Nat) : TopNCache V :=
  if rows.isEmpty then { c with tableRowCount := some n } else c

/-- `ManagedTopNState::fill_high_cache`. -/
def fillHighCache (table : Cache V) (c : TopNCache V) (startKey : Option CacheKey)
    (cacheSizeLimit : Nat) : Res (TopNCache V) := do
  assert c.high.isEmpty "assertion failed: high_cache.is_empty()"
  let (high, rows, n) := fillAbove startKey cacheSizeLimit table.entries c.high 0
  let (c, rows, n) ← fillHighTies withTies { c with high } rows n
  .ok (c.updateTableRowCount rows n)

/-- Rows for the middle, with the ties of the last one; the first row that is not a tie goes to
high. -/
def fillMiddleTies (c : TopNCache V) (rows : List (CacheKey × V)) (n : Nat) :
    Res (TopNCache V × List (CacheKey × V) × Nat) := do
  if !withTies then .ok (c, rows, n)
  else if ← c.middleIsFull withTies then
    let last ← unwrap c.middle.lastKeyValue "called `Option::unwrap()` on a `None` value"
    let (middle, next, rows, n) := fillTies last.1.sortKey rows c.middle n
    let high := next.elim c.high fun e => c.high.insert e.1 e.2
    .ok ({ c with middle, high }, rows, n)
  else .ok (c, rows, n)

def fillHigh (withTies : Bool) : List (CacheKey × V) → TopNCache V → Nat →
    Res (TopNCache V × List (CacheKey × V) × Nat)
  | rows, c, n => do
    if ← c.highIsFull withTies then .ok (c, rows, n)
    else
      match rows with
      | [] => .ok (c, [], n)
      | e :: rows => fillHigh withTies rows { c with high := c.high.insert e.1 e.2 } (n + 1)

def fillLow (rows : List (CacheKey × V)) : TopNCache V × List (CacheKey × V) × Nat :=
  match c.low with
  | some low =>
    let (low, rows, n) := fillAbove none c.offset rows low 0
    ({ c with low := some low }, rows, n)
  | none => (c, rows, 0)

/-- `ManagedTopNState::init_topn_cache`. -/
def initTopnCache (table : Cache V) (c : TopNCache V) : Res (TopNCache V) := do
  assert ((c.low.map SortedMap.isEmpty).getD true)
    "assertion failed: topn_cache.low.as_ref().map(Cache::is_empty).unwrap_or(true)"
  assert c.middle.isEmpty "assertion failed: topn_cache.middle.is_empty()"
  assert c.high.isEmpty "assertion failed: topn_cache.high.is_empty()"
  let (c, rows, n) := c.fillLow table.entries
  assert (0 < c.limit) "topn cache limit should always > 0"
  let (middle, rows, n) := fillAbove none c.limit rows c.middle n
  let (c, rows, n) ← fillMiddleTies withTies { c with middle } rows n
  assert (0 < c.highCacheCapacity) "topn cache high_capacity should always > 0"
  let (c, rows, n) ← fillHigh withTies rows c n
  let (c, rows, n) ← fillHighTies withTies c rows n
  .ok (c.updateTableRowCount rows n)

/-! ## `TopNCache<false>` -/

def incrementRowCount : TopNCache V := { c with tableRowCount := c.tableRowCount.map (· + 1) }

/-- One row less. Without strict consistency the count is forgotten rather than below 0. -/
def decrementRowCount (c : TopNCache V) : Res (TopNCache V) :=
  match c.tableRowCount with
  | some 0 =>
    if build.strictConsistency then .error .underflow else .ok { c with tableRowCount := none }
  | some (n + 1) => .ok { c with tableRowCount := some n }
  | none => .ok c

/-- A row on its way down the parts, and whether it was the last one of the part before. -/
structure ToInsert (V : Type) where
  key : CacheKey
  row : V
  isLastOfLowerCache : Bool

/-- The low cache takes the row, or passes on the row that it has no space for. -/
def insertLow (row : V) : Res (TopNCache V × Option (ToInsert V)) := do
  let lowIsFull ← c.lowIsFull
  match c.low with
  | none => .ok (c, some ⟨cacheKey, row, false⟩)
  | some low =>
    if !lowIsFull then .ok ({ c with low := some (low.insert cacheKey row) }, none)
    else do
      let lowLast ← unwrap low.lastKeyValue "called `Option::unwrap()` on a `None` value"
      if cacheKey < lowLast.1 then
        .ok ({ c with low := some (low.dropLast.insert cacheKey row) },
          some ⟨lowLast.1, lowLast.2, true⟩)
      else .ok (c, some ⟨cacheKey, row, false⟩)

def insertMiddle (x : ToInsert V) (staging : TopNStaging V) :
    Res (TopNCache V × TopNStaging V × Option (ToInsert V)) := do
  if !(← c.middleIsFull false) then
    .ok ({ c with middle := c.middle.insert x.key x.row }, staging.insert x.key x.row, none)
  else do
    let middleLast ← unwrap c.middle.lastKeyValue "called `Option::unwrap()` on a `None` value"
    if x.isLastOfLowerCache ∨ x.key < middleLast.1 then
      .ok ({ c with middle := c.middle.dropLast.insert x.key x.row },
        (staging.delete middleLast.1 middleLast.2).insert x.key x.row,
        some ⟨middleLast.1, middleLast.2, true⟩)
    else .ok (c, staging, some x)

/-- The high cache takes the row if it is known to come before its last one. -/
def insertHigh (x : ToInsert V) : Res (TopNCache V) := do
  if x.isLastOfLowerCache || c.highIsSynced then
    if c.high.isEmpty then .ok { c with high := c.high.insert x.key x.row }
    else do
      let highIsFull ← c.highIsFull false
      let highLast ← unwrap c.high.lastKeyValue "called `Option::unwrap()` on a `None` value"
      if x.isLastOfLowerCache ∨ x.key < highLast.1 then
        let high := if highIsFull then c.high.dropLast else c.high
        .ok { c with high := high.insert x.key x.row }
      else .ok c
  else .ok c

/-- The rest of the insertion, of the row that the low cache passes on. -/
def insertBelow (staging : TopNStaging V) : Option (ToInsert V) → Res (TopNCache V × TopNStaging V)
  | none => .ok (c, staging)
  | some x => do
    let (c, staging, passed) ← c.insertMiddle x staging
    match passed with
    | none => .ok (c, staging)
    | some x => do .ok (← c.insertHigh x, staging)

/-- `TopNCache<false>::insert`. -/
def insert (row : V) (staging : TopNStaging V) : Res (TopNCache V × TopNStaging V) := do
  let (c, passed) ← c.incrementRowCount.insertLow cacheKey row
  c.insertBelow staging passed

/-- The key is above a middle cache that is full. -/
def aboveMiddle : Res Bool := do
  if ← c.middleIsFull false then
    let last ← unwrap c.middle.lastKeyValue "called `Option::unwrap()` on a `None` value"
    .ok (last.1 < cacheKey)
  else .ok false

/-- The key is above a low cache that is full. -/
def aboveLow : Res Bool := do
  if ← c.lowIsFull then
    match c.low with
    | some low => do
      let last ← unwrap low.lastKeyValue "called `Option::unwrap()` on a `None` value"
      .ok (last.1 < cacheKey)
    | none => .ok true
  else .ok false

/-- The high cache is filled again if it is not synced. -/
def refill (table : Cache V) (c : TopNCache V) : Res (TopNCache V) :=
  if c.highIsSynced then .ok c
  else
    -- with ties the source does not clear the cache, which is empty if it is not synced
    let c := if withTies then c else { c with high := .empty }
    fillHighCache withTies table c c.lastCacheKeyBeforeHigh c.highCacheCapacity

/-- The first row of the high cache is brought to the middle. -/
def bringFirst (staging : TopNStaging V) : TopNCache V × TopNStaging V :=
  match c.high.firstKeyValue with
  | some (k, row) =>
    ({ c with high := c.high.dropFirst, middle := c.middle.insert k row }, staging.insert k row)
  | none => (c, staging)

def deleteMiddle (c : TopNCache V) (table : Cache V) (cacheKey : CacheKey) (row : V)
    (staging : TopNStaging V) : Res (TopNCache V × TopNStaging V) := do
  let removed := c.middle.get? cacheKey
  let c := { c with middle := c.middle.erase cacheKey }
  let staging := staging.delete cacheKey row
  if removed.isNone then do
    build.consistencyError
    .ok (c, staging)
  else do
    let c ← c.refill false table
    let (c, staging) := c.bringFirst staging
    assert (c.high.isEmpty || c.middle.len == c.limit)
      "assertion failed: self.high.is_empty() || self.middle.len() == self.limit"
    .ok (c, staging)

def deleteLow (c : TopNCache V) (table : Cache V) (cacheKey : CacheKey) (staging : TopNStaging V) :
    Res (TopNCache V × TopNStaging V) := do
  let low ← unwrap c.low "called `Option::unwrap()` on a `None` value"
  let removed := low.get? cacheKey
  let low := low.erase cacheKey
  if removed.isNone then do
    build.consistencyError
    .ok ({ c with low := some low }, staging)
  else
    match c.middle.firstKeyValue with
    | some (k, first) => do
      let c ← refill false table
        { c with low := some (low.insert k first), middle := c.middle.dropFirst }
      .ok (c.bringFirst (staging.delete k first))
    | none => .ok ({ c with low := some low }, staging)

/-- `TopNCache<false>::delete`. -/
def delete (c : TopNCache V) (table : Cache V) (cacheKey : CacheKey) (row : V)
    (staging : TopNStaging V) : Res (TopNCache V × TopNStaging V) := do
  let c ← c.decrementRowCount build
  if ← c.aboveMiddle cacheKey then .ok ({ c with high := c.high.erase cacheKey }, staging)
  else if ← c.aboveLow cacheKey then deleteMiddle build c table cacheKey row staging
  else deleteLow build c table cacheKey staging

/-! ## `TopNCache<true>` -/

/-- The last row of the middle and its ties are moved to the high cache; `fuel` is the number of
rows. -/
def moveTies (sortKey : Bytes) : Nat → TopNCache V → TopNStaging V → TopNCache V × TopNStaging V
  | 0, c, staging => (c, staging)
  | fuel + 1, c, staging =>
    match c.middle.lastKeyValue with
    | some (k, row) =>
      if k.sortKey = sortKey then
        moveTies sortKey fuel { c with middle := c.middle.dropLast, high := c.high.insert k row }
          (staging.delete k row)
      else (c, staging)
    | none => (c, staging)

/-- The last row of a high cache that exceeds its capacity is evicted with its ties. -/
def evictHigh : Res (TopNCache V) :=
  if c.high.len > c.highCacheCapacity then do
    let highLast ← unwrap c.high.lastKeyValue "called `Option::unwrap()` on a `None` value"
    .ok { c with high := c.high.dropLast.retain fun k => k.sortKey ≠ highLast.1.sortKey }
  else .ok c

/-- The row comes before the last one of the middle. -/
def insertLess (row : V) (middleLastSortKey : Bytes)
    (staging : TopNStaging V) : Res (TopNCache V × TopNStaging V) := do
  let nTiesOfLast := (c.middle.entries.filter fun e => toLex (middleLastSortKey, []) ≤ e.1).length
  let (c, staging) :=
    if c.middle.len + 1 - nTiesOfLast ≥ c.limit then moveTies middleLastSortKey c.middle.len c staging
    else (c, staging)
  let c ← c.evictHigh
  .ok ({ c with middle := c.middle.insert cacheKey row }, staging.insert cacheKey row)

/-- The row comes after the last one of the middle and its ties. -/
def insertGreater (row : V) : Res (TopNCache V) :=
  if c.highIsSynced then
    if c.high.isEmpty then .ok { c with high := c.high.insert cacheKey row }
    else do
      let highLast ← unwrap c.high.lastKeyValue "called `Option::unwrap()` on a `None` value"
      let c :=
        if cacheKey.sortKey ≤ highLast.1.sortKey then { c with high := c.high.insert cacheKey row }
        else c
      c.evictHigh
  else .ok c

/-- The insertion into a middle cache that is full. -/
def insertFull (row : V) (staging : TopNStaging V) : Res (TopNCache V × TopNStaging V) := do
  let middleLast ← unwrap c.middle.lastKeyValue "called `Option::unwrap()` on a `None` value"
  if cacheKey.sortKey <
    middleLast.1.sortKey then c.insertLess cacheKey row middleLast.1.sortKey staging
  else if cacheKey.sortKey = middleLast.1.sortKey then
    .ok ({ c with middle := c.middle.insert cacheKey row }, staging.insert cacheKey row)
  else do .ok (← c.insertGreater cacheKey row, staging)

/-- `TopNCache<true>::insert`. -/
def insertWithTies (row : V) (staging : TopNStaging V) : Res (TopNCache V × TopNStaging V) := do
  let c := c.incrementRowCount
  assert c.low.isNone "Offset is not supported yet for WITH TIES, so low cache should be None"
  if !(← c.middleIsFull true) then
    .ok ({ c with middle := c.middle.insert cacheKey row }, staging.insert cacheKey row)
  else c.insertFull cacheKey row staging

/-- The first row of the high cache and its ties are brought to the middle. -/
def bringTies (middleLastSortKey : Bytes) (staging : TopNStaging V) :
    Res (TopNCache V × TopNStaging V) :=
  match c.high.firstKeyValue with
  | some (k, row) => do
    assert (middleLastSortKey <
      k.sortKey) "assertion failed: high_first_sort_key > middle_last_sort_key"
    let high := c.high.dropFirst
    let ties := high.entries.filter fun e => e.1.sortKey = k.sortKey
    .ok (((k, row) :: ties).foldl (fun (c, staging) e =>
      ({ c with middle := c.middle.insert e.1 e.2 }, staging.insert e.1 e.2))
      ({ c with high := high.retain fun k' => k'.sortKey ≠ k.sortKey }, staging))
  | none => .ok (c, staging)

def deleteMiddleWithTies (table : Cache V) (cacheKey : CacheKey) (row : V)
    (middleLastSortKey : Bytes) (staging : TopNStaging V) : Res (TopNCache V × TopNStaging V) := do
  let c := { c with middle := c.middle.erase cacheKey }
  let staging := staging.delete cacheKey row
  if c.middle.len ≥ c.limit then .ok (c, staging)
  else do
    let c ← c.refill true table
    c.bringTies middleLastSortKey staging

/-- `TopNCache<true>::delete`. -/
def deleteWithTies (c : TopNCache V) (table : Cache V) (cacheKey : CacheKey) (row : V)
    (staging : TopNStaging V) : Res (TopNCache V × TopNStaging V) := do
  let c ← c.decrementRowCount build
  assert c.low.isNone "Offset is not supported yet for WITH TIES, so low cache should be None"
  match c.middle.lastKeyValue with
  | none => do
    build.consistencyError
    .ok (c, staging.delete cacheKey row)
  | some middleLast =>
    if middleLast.1.sortKey < cacheKey.sortKey then .ok ({ c with high := c.high.erase cacheKey },
      staging)
    else c.deleteMiddleWithTies table cacheKey row middleLast.1.sortKey staging

end TopNCache

end Stream
