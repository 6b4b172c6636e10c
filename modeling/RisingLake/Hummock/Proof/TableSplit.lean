import RisingLake.Hummock.Proof.LevelOrder

/-!
# Splitting SSTs between tables

A split key that is the first key of a table divides the tables, not their keys. Each SST falls into
a part with the tables below and one with the tables from there on, both of the same object.
`Parted` says what a split does to a list of SSTs, each in its place: for every table the objects
that hold it are the same, in the same order and on one side; the key ranges lie on the two sides of
the split key; and SST ids are old or new, none used twice, at most two new ones for each SST. It is
kept when lists are put together, so that it carries over from SSTs to levels and groups.

The SST-by-SST split of an overlapping level does this (`retainSplit_parted`), and on a sorted level
the split by binary search does the same (`splitSorted_eq_retainSplit`).
-/

namespace Hummock

open Res KeyRange GroupSplit List VirtualNode Slice

/-! ## First keys of tables -/

def firstKey (tableId : TableId) : FullKey := ⟨⟨tableId, zero.toBeBytes⟩, U64.max⟩

section
variable {tableId : TableId} {k : FullKey}

theorem lt_firstKey_iff : k < firstKey tableId ↔ k.userKey < (firstKey tableId).userKey := by
  rw [FullKey.lt_iff]
  refine ⟨fun h => h.elim id fun h => ?_, .inl⟩
  exact absurd h.2 (not_lt.2 (U64.le_max _))

theorem not_lt_zero_vnode : ∀ {key : TableKey}, size ≤ key.length → ¬key < zero.toBeBytes
  | a :: b :: rest, _ => by
    have hzero : zero.toBeBytes = [0, 0] := by decide
    rw [hzero]
    simp [cons_lt_cons_iff]
  | [_], h => by simp [size] at h
  | [], h => by simp [size] at h

theorem lt_firstKey_iff_table (h : size ≤ k.userKey.tableKey.length) :
    k < firstKey tableId ↔ k.userKey.tableId < tableId := by
  rw [lt_firstKey_iff, UserKey.lt_iff]
  refine ⟨fun h' => h'.elim id fun h' => ?_, .inl⟩
  exact absurd h'.2 (not_lt_zero_vnode h)

theorem firstKey_le_iff_table (h : size ≤ k.userKey.tableKey.length) :
    firstKey tableId ≤ k ↔ tableId ≤ k.userKey.tableId := by
  rw [← not_lt, lt_firstKey_iff_table h, not_lt]

end

variable {splitKey : Bytes}

theorem buildSplitKey_firstKey {dbg : Bool} {tableId : TableId} {vnode : VirtualNode}
    (hv : vnode = zero ∨ vnode = maxRepresentable)
    (h : buildSplitKey dbg tableId vnode = .ok splitKey) :
    ∃ splitTable, splitKey = (firstKey splitTable).encode := by
  obtain ⟨key, hkey, h⟩ := bind_eq_ok.1 h
  cases h
  obtain ⟨⟨splitTable, vnode'⟩, hsplit, hkey⟩ := bind_eq_ok.1 hkey
  obtain ⟨epoch, hepoch, hkey⟩ := bind_eq_ok.1 hkey
  cases hkey
  cases hepoch
  have hzero : vnode' = zero := by
    unfold splitTableVnode at hsplit
    split at hsplit
    · split at hsplit
      · cases hsplit
        rfl
      · cases hsplit
    · rename_i hne
      cases hsplit
      exact hv.resolve_right hne
  subst hzero
  exact ⟨splitTable, rfl⟩

/-! ## Well-formed SSTs -/

/-- The key lies in the range. -/
def KeyRange.Covers (r : KeyRange) (k : FullKey) : Prop :=
  r.lo ≤ k ∧ if r.rightExclusive then k < r.hi else k ≤ r.hi

theorem KeyRange.Covers.lt {r : KeyRange} {k key : FullKey} (h : r.Covers k)
    (hends : r.endsBefore key = true) : k < key := by
  obtain ⟨-, h⟩ := h
  unfold endsBefore at hends
  cases hexcl : r.rightExclusive <;>
    simp only [hexcl, if_true, Bool.false_eq_true, if_false, decide_eq_true_eq] at h hends <;> order

/-- The bounds are full keys in order, the table ids are sorted, every table has a key in the range,
and an exclusive right bound is the first key of a table, as a split makes it. -/
structure SstableInfo.WellFormed (sst : SstableInfo) : Prop where
  valid : sst.keyRange.Valid
  sorted : sst.tableIds.Pairwise (· ≤ ·)
  nonempty : sst.tableIds ≠ []
  covers : ∀ t ∈ sst.tableIds, ∃ k : FullKey, k.userKey.tableId = t ∧
    size ≤ k.userKey.tableKey.length ∧ sst.keyRange.Covers k
  exclusive : sst.keyRange.rightExclusive = true → ∃ t, sst.keyRange.hi = firstKey t

namespace SstableInfo.WellFormed

variable {dbg : Bool} {sst : SstableInfo} {splitTable : TableId}

section
variable (h : sst.WellFormed)
include h

theorem tables_lt (hends : sst.keyRange.endsBefore (firstKey splitTable) = true) :
    ∀ t ∈ sst.tableIds, t < splitTable := by
  intro t ht
  obtain ⟨k, rfl, hlen, hk⟩ := h.covers t ht
  exact (lt_firstKey_iff_table hlen).1 (hk.lt hends)

theorem le_tables (hlo : firstKey splitTable ≤ sst.keyRange.lo) :
    ∀ t ∈ sst.tableIds, splitTable ≤ t := by
  intro t ht
  obtain ⟨k, rfl, hlen, hk⟩ := h.covers t ht
  exact (firstKey_le_iff_table hlen).1 (hlo.trans hk.1)

theorem splitTableIds (splitTable : TableId) :
    splitTableIdsWithSplitKey dbg sst.tableIds (firstKey splitTable).encode =
      .ok (sst.tableIds.filter (· < splitTable),
        sst.tableIds.filter fun t => !decide (t < splitTable)) := by
  have hmono : sst.tableIds.Pairwise fun a b =>
      decide (b < splitTable) = true → decide (a < splitTable) = true :=
    h.sorted.imp fun hab hb => by
      rw [decide_eq_true_eq] at hb ⊢
      exact hab.trans_lt hb
  have hpoint : partitionPoint (fun id : TableId => .ok (decide (id < splitTable))) sst.tableIds =
      .ok (sst.tableIds.countP fun id => decide (id < splitTable)) :=
    partitionPoint_eq (partitionedAt_of_pairwise (fun _ _ => rfl) hmono)
  have hvnode : (firstKey splitTable).userKey.getVnodeId dbg = .ok 0 := by
    cases dbg <;> rfl
  have hindex : fromIndex dbg 0 = .ok zero := fromIndex_of_lt dbg (by decide)
  have hsorted : decide (sst.tableIds.Pairwise (· ≤ ·)) = true := decide_eq_true h.sorted
  simp only [splitTableIdsWithSplitKey, splitTableIdsWithTableIdAndVnode, hsorted,
    assert_true, ok_bind, FullKey.decode_encode, hvnode, hindex, beq_self_eq_true]
  rw [show (firstKey splitTable).userKey.tableId = splitTable from rfl, hpoint, ok_bind,
    take_countP_eq_filter hmono, drop_countP_eq_filter hmono]

theorem splitSst (hlo : sst.keyRange.lo < firstKey splitTable) {newSstId : U64}
    (hroom : newSstId.val + 2 < 2 ^ 64) (leftSize rightSize : Nat) :
    splitSst dbg sst newSstId (firstKey splitTable).encode leftSize rightSize =
      .ok ((if sst.tableIds.filter (· < splitTable) = [] then none
          else some (leftPart sst (newSstId.val + 1) (firstKey splitTable).encode leftSize
            (sst.tableIds.filter (· < splitTable))),
        if sst.tableIds.filter (· < splitTable) ≠ [] ∧
            (sst.tableIds.filter fun t => !decide (t < splitTable)) = [] then none
          else some (rightPart sst newSstId.val (firstKey splitTable).encode rightSize
            (sst.tableIds.filter fun t => !decide (t < splitTable)))), ⟨_, hroom⟩) := by
  have hleft : newSstId.val + 1 < 2 ^ 64 := by omega
  have hcmp : compareEncodedFullKey sst.keyRange.left (firstKey splitTable).encode = .ok .lt := by
    rw [h.valid.left, compareEncodedFullKey_eq, (cmp_eq_lt_iff _ _).2 hlo]
  rw [GroupSplit.splitSst, succ_eq_ok dbg hleft, ok_bind, succ_eq_ok dbg hroom, ok_bind,
    h.splitTableIds, ok_bind]
  simp only [List.isEmpty_iff]
  split
  · rename_i hL
    rw [if_neg fun h => h.1 hL]
    rfl
  rename_i hL
  split
  · rename_i hR
    rw [if_pos ⟨hL, hR⟩]
    rfl
  · rename_i hR
    rw [if_neg fun h => hR h.2, hcmp]
    rfl

theorem leftPart (hlo : sst.keyRange.lo < firstKey splitTable)
    (hL : sst.tableIds.filter (· < splitTable) ≠ []) (sstId size : Nat) :
    (leftPart sst sstId (firstKey splitTable).encode size
      (sst.tableIds.filter (· < splitTable))).WellFormed := by
  refine ⟨leftPart_valid h.valid hlo _ _ _, h.sorted.filter _, hL, fun t ht => ?_,
    fun _ => ⟨splitTable, fullKeyOf_encode _⟩⟩
  obtain ⟨ht, hlt⟩ := mem_filter.1 ht
  obtain ⟨k, rfl, hlen, hk⟩ := h.covers t ht
  refine ⟨k, rfl, hlen, hk.1, ?_⟩
  have hlt : k < firstKey splitTable := (lt_firstKey_iff_table hlen).2 (of_decide_eq_true hlt)
  simpa [GroupSplit.leftPart, KeyRange.hi, fullKeyOf_encode] using hlt

end

theorem rightPart (h : sst.WellFormed) (hhi : firstKey splitTable ≤ sst.keyRange.hi)
    (hR : (sst.tableIds.filter fun t => !decide (t < splitTable)) ≠ []) (sstId size : Nat) :
    (rightPart sst sstId (firstKey splitTable).encode size
      (sst.tableIds.filter fun t => !decide (t < splitTable))).WellFormed := by
  refine ⟨rightPart_valid h.valid hhi _ _ _, h.sorted.filter _, hR, fun t ht => ?_, h.exclusive⟩
  obtain ⟨ht, hle⟩ := mem_filter.1 ht
  obtain ⟨k, rfl, hlen, hk⟩ := h.covers t ht
  refine ⟨k, rfl, hlen, ?_, hk.2⟩
  rw [rightPart_lo]
  exact (firstKey_le_iff_table hlen).2 (by simpa using hle)

end SstableInfo.WellFormed

/-! ## SSTs in their places -/

/-- A sub-level of L0, or a level below. -/
inductive Slot where
  | subLevel (subLevelId : U64)
  | level (levelIdx : Nat)
  deriving DecidableEq, Repr

abbrev Placed := Slot × SstableInfo

def placeAt (slot : Slot) (ssts : List SstableInfo) : List Placed := ssts.map fun sst => (slot, sst)

/-- The objects that hold the table, each with its place. -/
def objects (t : TableId) (ps : List Placed) : List (Slot × Nat) :=
  (ps.filter fun p => p.2.tableIds.contains t).map fun p => (p.1, p.2.objectId)

def sstIds (ps : List Placed) : Multiset Nat := Multiset.ofList (ps.map fun p => p.2.sstId)

variable (t : TableId)

@[simp] theorem objects_nil : objects t [] = [] := rfl
@[simp] theorem objects_append (a b : List Placed) :
    objects t (a ++ b) = objects t a ++ objects t b := by simp [objects]
@[simp] theorem sstIds_nil : sstIds [] = 0 := rfl
@[simp] theorem sstIds_append (a b : List Placed) : sstIds (a ++ b) = sstIds a + sstIds b := by
  simp [sstIds]

@[simp] theorem objects_singleton (slot : Slot) (sst : SstableInfo) :
    objects t [(slot, sst)] = if t ∈ sst.tableIds then [(slot, sst.objectId)] else [] := by
  by_cases ht : t ∈ sst.tableIds <;> simp [objects, ht]

section
variable {c : Prop} [Decidable c] {slot : Slot} {part : SstableInfo}

theorem objects_part {t : TableId} (h : c → t ∉ part.tableIds) :
    objects t (placeAt slot (if c then none else some part).toList) =
      if t ∈ part.tableIds then [(slot, part.objectId)] else [] := by
  split
  · rename_i hc
    rw [if_neg (h hc)]
    rfl
  · exact objects_singleton t slot part

theorem sstIds_part : sstIds (placeAt slot (if c then none else some part).toList) ≤
    {part.sstId} := by
  split
  · exact Multiset.zero_le _
  · exact le_rfl

theorem mem_part {p : Placed} (h : p ∈ placeAt slot (if c then none else some part).toList) :
    ¬c ∧ p.2 = part := by
  split at h
  · simp [placeAt] at h
  · rename_i hc
    simp only [placeAt, Option.toList_some, map_cons, map_nil, mem_singleton] at h
    exact ⟨hc, by rw [h]⟩

end

/-- The split of `old` into the SSTs that stay and those that move. -/
structure Parted (splitTable : TableId) (old kept moved : List Placed) (newSstId newSstId' : Nat) :
    Prop where
  keptObjects : ∀ t, objects t kept = if t < splitTable then objects t old else []
  movedObjects : ∀ t, objects t moved = if t < splitTable then [] else objects t old
  below : ∀ p ∈ kept, p.2.WellFormed ∧ p.2.keyRange.endsBefore (firstKey splitTable) = true
  above : ∀ p ∈ moved, p.2.WellFormed ∧ firstKey splitTable ≤ p.2.keyRange.lo
  le : newSstId ≤ newSstId'
  room : newSstId' ≤ newSstId + 2 * old.length
  ids : sstIds kept + sstIds moved ≤ sstIds old + Multiset.Ico newSstId newSstId'

namespace Parted

variable {splitTable : TableId} {old kept moved old' kept' moved' : List Placed}
  {n n' n'' k k' : Nat}

theorem nil (splitTable : TableId) (n : Nat) : Parted splitTable [] [] [] n n :=
  ⟨by simp, by simp, by simp, by simp, le_rfl, by simp, by simp⟩

/-- Two splits put together, if together they use the ids from `m` to `m'`. -/
theorem join {m m' : Nat} (h : Parted splitTable old kept moved n n')
    (h' : Parted splitTable old' kept' moved' k k') (hle : m ≤ m')
    (hroom : m' ≤ m + 2 * (old ++ old').length)
    (hids : Multiset.Ico n n' + Multiset.Ico k k' = Multiset.Ico m m') :
    Parted splitTable (old ++ old') (kept ++ kept') (moved ++ moved') m m' := by
  refine ⟨fun t => ?_, fun t => ?_, forall_mem_append.2 ⟨h.below, h'.below⟩,
    forall_mem_append.2 ⟨h.above, h'.above⟩, hle, hroom, ?_⟩
  · rw [objects_append, objects_append, h.keptObjects, h'.keptObjects]
    split <;> rfl
  · rw [objects_append, objects_append, h.movedObjects, h'.movedObjects]
    split <;> rfl
  · calc sstIds (kept ++ kept') + sstIds (moved ++ moved')
        = (sstIds kept + sstIds moved) + (sstIds kept' + sstIds moved') := by
          rw [sstIds_append, sstIds_append, add_add_add_comm]
      _ ≤ (sstIds old + Multiset.Ico n n') + (sstIds old' + Multiset.Ico k k') :=
          add_le_add h.ids h'.ids
      _ = sstIds (old ++ old') + Multiset.Ico m m' := by
          rw [sstIds_append, ← hids, add_add_add_comm]

theorem append (h : Parted splitTable old kept moved n n')
    (h' : Parted splitTable old' kept' moved' n' n'') :
    Parted splitTable (old ++ old') (kept ++ kept') (moved ++ moved') n n'' := by
  have hroom := h.room
  have hroom' := h'.room
  refine h.join h' (h.le.trans h'.le) ?_ (Multiset.Ico_add_Ico_eq_Ico h.le h'.le)
  rw [length_append]
  omega

theorem prepend (h : Parted splitTable old kept moved n n')
    (h' : Parted splitTable old' kept' moved' n' n'') :
    Parted splitTable (old' ++ old) (kept' ++ kept) (moved' ++ moved) n n'' := by
  have hroom := h.room
  have hroom' := h'.room
  refine h'.join h (h.le.trans h'.le) ?_ (by rw [add_comm, Multiset.Ico_add_Ico_eq_Ico h.le h'.le])
  rw [length_append]
  omega

section
variable {sst : SstableInfo} {slot : Slot}

theorem left (h : sst.WellFormed) (hends : sst.keyRange.endsBefore (firstKey splitTable) = true)
    (slot : Slot) (n : Nat) : Parted splitTable [(slot, sst)] [(slot, sst)] [] n n := by
  have hno : ∀ t, ¬t < splitTable → objects t [(slot, sst)] = [] := fun t ht => by
    rw [objects_singleton, if_neg fun hmem => ht (h.tables_lt hends t hmem)]
  refine ⟨fun t => ?_, fun t => ?_, by simp [h, hends], by simp, le_rfl, by simp, by simp⟩
  · split
    · rfl
    · exact hno t ‹_›
  · split
    · rfl
    · exact (hno t ‹_›).symm

theorem right (h : sst.WellFormed) (hlo : firstKey splitTable ≤ sst.keyRange.lo)
    (slot : Slot) (n : Nat) : Parted splitTable [(slot, sst)] [] [(slot, sst)] n n := by
  have hno : ∀ t, t < splitTable → objects t [(slot, sst)] = [] := fun t ht => by
    rw [objects_singleton, if_neg fun hmem => not_le.2 ht (h.le_tables hlo t hmem)]
  refine ⟨fun t => ?_, fun t => ?_, by simp, by simp [h, hlo], le_rfl, by simp, by simp⟩
  · split
    · exact (hno t ‹_›).symm
    · rfl
  · split
    · exact hno t ‹_›
    · rfl

theorem both {dbg : Bool} {left right : Option SstableInfo} {leftSize rightSize : Nat}
    {newSstId newSstId' : U64} (h : sst.WellFormed) (hroom : newSstId.val + 2 < 2 ^ 64)
    (hlo : sst.keyRange.lo < firstKey splitTable) (hhi : firstKey splitTable ≤ sst.keyRange.hi)
    (hsplit : splitSst dbg sst newSstId (firstKey splitTable).encode leftSize rightSize =
      .ok ((left, right), newSstId')) :
    Parted splitTable [(slot, sst)] (placeAt slot left.toList) (placeAt slot right.toList)
      newSstId.val newSstId'.val := by
  rw [h.splitSst hlo hroom] at hsplit
  cases hsplit
  dsimp only
  generalize newSstId.val = n
  refine ⟨fun t => ?_, fun t => ?_, fun p hp => ?_, fun p hp => ?_, by omega, by simp, ?_⟩
  · rw [objects_part fun hL => by simp [leftPart, hL]]
    by_cases ht : t < splitTable <;> simp [leftPart, ht]
  · rw [objects_part fun hR => by simp [rightPart, hR.2]]
    by_cases ht : t < splitTable <;> simp [rightPart, ht]
  · obtain ⟨hL, heq⟩ := mem_part hp
    rw [heq]
    exact ⟨h.leftPart hlo hL _ _, by simp [endsBefore, leftPart, hi, fullKeyOf_encode]⟩
  · obtain ⟨hR, heq⟩ := mem_part hp
    have hR : (sst.tableIds.filter fun t => !decide (t < splitTable)) ≠ [] := fun hnil => by
      -- without tables from the split table on, all tables are below
      refine hR ⟨fun hL => h.nonempty (eq_nil_iff_forall_not_mem.2 fun t ht => ?_), hnil⟩
      simp_all
    rw [heq]
    exact ⟨h.rightPart hhi hR _ _, (rightPart_lo _ _ _ _).ge⟩
  · have hnew : ({n + 1} + {n} : Multiset Nat) ≤ Multiset.Ico n (n + 2) := by
      refine (Multiset.le_iff_subset (by simp)).2 fun x hx => ?_
      simp only [Multiset.mem_add, Multiset.mem_singleton] at hx
      rw [Multiset.mem_Ico]
      omega
    exact (add_le_add sstIds_part sstIds_part).trans (hnew.trans (Multiset.le_add_left _ _))

end

end Parted

/-! ## Levels -/

section
variable {dbg : Bool} {splitTable : TableId}

theorem placeAt_append (slot : Slot) (a b : List SstableInfo) :
    placeAt slot (a ++ b) = placeAt slot a ++ placeAt slot b := map_append

theorem retainSplit_parted (slot : Slot) : ∀ {ssts : List SstableInfo} {newSstId : U64},
    newSstId.val + 2 * ssts.length < 2 ^ 64 → (∀ sst ∈ ssts, sst.WellFormed) →
      ∃ kept inserted newSstId', retainSplit dbg (firstKey splitTable).encode newSstId ssts =
          .ok (kept, inserted, newSstId') ∧
        Parted splitTable (placeAt slot ssts) (placeAt slot kept) (placeAt slot inserted)
          newSstId.val newSstId'.val
  | [], newSstId, _, _ => ⟨[], [], newSstId, rfl, .nil _ _⟩
  | sst :: ssts, newSstId, hroom, h => by
    rw [length_cons] at hroom
    have hwf := h sst (.head _)
    have htail := fun x hx => h x (.tail sst hx)
    have hneed := needToSplit_eq hwf.valid (firstKey splitTable)
    rw [retainSplit]
    split at hneed
    · rename_i hlo
      obtain ⟨kept, inserted, newSstId', hrest, hparted⟩ :=
        retainSplit_parted slot (show newSstId.val + _ < _ by omega) htail
      refine ⟨kept, sst :: inserted, newSstId', by simp only [hneed, hrest, ok_bind], ?_⟩
      exact (Parted.right hwf hlo slot newSstId.val).append hparted
    rename_i hlo
    cases hends : sst.keyRange.endsBefore (firstKey splitTable) with
    | true =>
      rw [hends, if_pos rfl] at hneed
      obtain ⟨kept, inserted, newSstId', hrest, hparted⟩ :=
        retainSplit_parted slot (show newSstId.val + _ < _ by omega) htail
      refine ⟨sst :: kept, inserted, newSstId', by simp only [hneed, hrest, ok_bind], ?_⟩
      exact (Parted.left hwf hends slot newSstId.val).append hparted
    | false =>
      rw [hends, if_neg (by simp)] at hneed
      have hlo := not_le.1 hlo
      have hids : newSstId.val + 2 < 2 ^ 64 := by omega
      obtain ⟨left, right, hsplit⟩ : ∃ left right, splitSst dbg sst newSstId
          (firstKey splitTable).encode (sst.sstSize / 2) (sst.sstSize / 2) =
            .ok ((left, right), ⟨_, hids⟩) :=
        ⟨_, _, hwf.splitSst hlo hids _ _⟩
      obtain ⟨kept, inserted, newSstId', hrest, hparted⟩ :=
        retainSplit_parted slot (show (⟨_, hids⟩ : U64).val + _ < _ by dsimp only; omega) htail
      refine ⟨left.toList ++ kept, right.toList ++ inserted, newSstId',
        by simp only [hneed, hsplit, hrest, ok_bind], ?_⟩
      rw [placeAt_append, placeAt_append]
      exact (Parted.both hwf hids hlo (le_of_not_endsBefore hends) hsplit).append hparted

theorem retainSplit_left : ∀ {ssts : List SstableInfo} (newSstId : U64)
    (rest : List SstableInfo), (∀ sst ∈ ssts, needToSplit sst splitKey = .ok .left) →
      retainSplit dbg splitKey newSstId (ssts ++ rest) =
        (retainSplit dbg splitKey newSstId rest >>= fun r => .ok (ssts ++ r.1, r.2.1, r.2.2))
  | [], newSstId, rest, _ => by
    cases h : retainSplit dbg splitKey newSstId rest <;> simp [h]
  | sst :: ssts, newSstId, rest, h => by
    rw [cons_append, retainSplit, h sst (.head _),
      retainSplit_left newSstId rest fun x hx => h x (.tail _ hx)]
    cases retainSplit dbg splitKey newSstId rest <;> rfl

theorem retainSplit_right : ∀ {ssts : List SstableInfo} (newSstId : U64),
    (∀ sst ∈ ssts, needToSplit sst splitKey = .ok .right) →
      retainSplit dbg splitKey newSstId ssts = .ok ([], ssts, newSstId)
  | [], _, _ => rfl
  | sst :: ssts, newSstId, h => by
    rw [retainSplit, h sst (.head _), retainSplit_right newSstId fun x hx => h x (.tail _ hx)]
    rfl

theorem needToSplit_right {sst : SstableInfo} (h : sst.WellFormed)
    (hlo : firstKey splitTable ≤ sst.keyRange.lo) :
    needToSplit sst (firstKey splitTable).encode = .ok .right := by
  rw [needToSplit_eq h.valid, if_pos hlo]

theorem needToSplit_left {a b : SstableInfo} (ha : a.WellFormed)
    (hab : Before a.keyRange b.keyRange) (hb : b.keyRange.lo < firstKey splitTable) :
    needToSplit a (firstKey splitTable).encode = .ok .left := by
  have hlt : a.keyRange.hi < firstKey splitTable := by
    rw [lt_firstKey_iff] at hb ⊢
    exact hab.below.le.trans_lt hb
  have hends : a.keyRange.endsBefore (firstKey splitTable) = true := by
    unfold endsBefore
    split
    · exact decide_eq_true hlt.le
    · exact decide_eq_true hlt
  rw [needToSplit_eq ha.valid, if_neg (not_le.2 (hab.lo.trans_lt hb)), if_pos hends]

variable {ssts : List SstableInfo}

theorem splitPos_lo {sst : SstableInfo} {key : FullKey}
    (hs : ssts.Pairwise fun a b => a.keyRange.lo ≤ b.keyRange.lo)
    (hsst : ssts[ssts.countP (fun sst => decide (sst.keyRange.lo < key)) - 1]? = some sst) :
    sst.keyRange.lo < key ∨ ssts.countP (fun sst => decide (sst.keyRange.lo < key)) = 0 := by
  have hpart := partitionedAt_of_pairwise (p := fun sst => .ok (decide (sst.keyRange.lo < key)))
    (fun _ _ => rfl) (hs.imp fun hle hlt => by rw [decide_eq_true_eq] at hlt ⊢; exact hle.trans_lt hlt)
  have hat := hpart.2 _ sst hsst
  rw [Except.ok.injEq, decide_eq_decide] at hat
  by_cases hlt : sst.keyRange.lo < key
  · exact .inl hlt
  · rw [hat] at hlt
    exact .inr (by omega)

/-- **On a sorted level the split by binary search is the split SST by SST.** -/
theorem splitSorted_eq_retainSplit (h : ∀ sst ∈ ssts, sst.WellFormed) (hs : SstsSorted ssts)
    (newSstId : U64) : splitSorted dbg (firstKey splitTable).encode newSstId ssts =
      retainSplit dbg (firstKey splitTable).encode newSstId ssts := by
  have hv : SstsValid ssts := fun sst hsst => (h sst hsst).valid
  have hpos := getSplitPos_eq hv hs.lo (firstKey splitTable)
  have hafter := getSplitPos_drop hv hs hpos
  have hright : ∀ sst ∈ ssts.drop (ssts.countP (fun sst => decide (sst.keyRange.lo <
      firstKey splitTable)) - 1 + 1), needToSplit sst (firstKey splitTable).encode = .ok .right :=
    fun sst hsst => needToSplit_right (h sst (drop_subset _ _ hsst)) (hafter sst hsst)
  rw [splitSorted, hpos, ok_bind]
  cases hsst : ssts[ssts.countP (fun sst => decide (sst.keyRange.lo < firstKey splitTable)) - 1]? with
  | none =>
    have hlen := getElem?_eq_none_iff.1 hsst
    have hcount := countP_le_length (p := fun sst : SstableInfo =>
      decide (sst.keyRange.lo < firstKey splitTable)) (l := ssts)
    obtain rfl : ssts = [] := length_eq_zero_iff.1 (by omega)
    rfl
  | some sst =>
    have hmem := mem_of_getElem? hsst
    have hat := eq_take_cons_drop hsst
    rcases splitPos_lo hs.lo hsst with hlo | hzero
    · -- the SSTs before it end below the split key
      generalize ssts.countP (fun sst => decide (sst.keyRange.lo < firstKey splitTable)) - 1 = pos at *
      have hsorted := hs
      rw [hat, SstsSorted, pairwise_append] at hsorted
      have hleft : ∀ x ∈ ssts.take pos, needToSplit x (firstKey splitTable).encode = .ok .left :=
        fun x hx => needToSplit_left (h x (take_subset _ _ hx)) (hsorted.2.2 x hx sst (.head _)) hlo
      have hneed := needToSplit_eq (hv sst hmem) (firstKey splitTable)
      rw [if_neg (not_le.2 hlo)] at hneed
      conv_rhs => rw [hat, retainSplit_left newSstId _ hleft, retainSplit]
      cases hends : sst.keyRange.endsBefore (firstKey splitTable) with
      | true =>
        rw [hends] at hneed
        simp only [hneed, retainSplit_right _ hright]
        rw [take_add_one, hsst]
        rfl
      | false =>
        rw [hends] at hneed
        simp only [hneed, retainSplit_right _ hright]
        cases splitSst dbg sst newSstId (firstKey splitTable).encode (sst.sstSize / 2)
          (sst.sstSize / 2) with
        | error e => rfl
        | ok r => simp
    · -- no SST starts below the split key
      rw [hzero] at hsst hright hat ⊢
      have hall : ∀ x ∈ ssts, needToSplit x (firstKey splitTable).encode = .ok .right := fun x hx =>
        needToSplit_right (h x hx)
          (not_lt.1 fun hlt => countP_eq_zero.1 hzero x hx (decide_eq_true hlt))
      simp [hall sst hmem, retainSplit_right newSstId hall]

theorem splitOff_parted (dbg : Bool) {level : Level} (slot : Slot) {newSstId : U64}
    (hroom : newSstId.val + 2 * level.tableInfos.length < 2 ^ 64)
    (h : ∀ sst ∈ level.tableInfos, sst.WellFormed)
    (hs : level.levelType ≠ .overlapping → SstsSorted level.tableInfos) : ∃ kept inserted newSstId',
      splitOff dbg (some (firstKey splitTable).encode) level newSstId =
        .ok ({ level with tableInfos := kept }, inserted, newSstId') ∧
      Parted splitTable (placeAt slot level.tableInfos) (placeAt slot kept) (placeAt slot inserted)
        newSstId.val newSstId'.val ∧ (SstsSorted level.tableInfos → SstsSorted inserted) := by
  simp only [splitOff, splitSstInfoForLevelV2]
  split
  · rename_i hempty
    have hnil : level.tableInfos = [] := isEmpty_iff.1 hempty
    exact ⟨level.tableInfos, [], newSstId, rfl, by rw [hnil]; exact .nil _ _, fun _ => .nil⟩
  obtain ⟨kept, inserted, newSstId', hretain, hparted⟩ :=
    @retainSplit_parted dbg splitTable slot _ newSstId hroom h
  have hssts : splitSsts dbg level newSstId (firstKey splitTable).encode =
      .ok (kept, inserted, newSstId') := by
    unfold splitSsts
    split
    · exact hretain
    · rename_i hover
      rw [splitSorted_eq_retainSplit h (hs hover), hretain]
  refine ⟨kept, inserted, newSstId', by rw [hssts, ok_bind], hparted, fun hsorted => ?_⟩
  have hordered : LevelOrdered .nonoverlapping level.tableInfos :=
    ⟨fun sst hsst => (h sst hsst).valid, fun _ => hsorted⟩
  rw [← splitSorted_eq_retainSplit h hsorted] at hretain
  exact (hordered.splitSorted hretain).2.sorted rfl

theorem SstableInfo.WellFormed.lo_lt {a b : SstableInfo} (ha : a.WellFormed)
    (hab : Before a.keyRange b.keyRange) : a.keyRange.lo < b.keyRange.lo := by
  refine lt_of_le_of_ne hab.lo fun heq => ?_
  rcases hab.below with hlt | ⟨hexcl, huser⟩
  · exact absurd (FullKey.userKey_mono ha.valid.le) (not_le.2 (heq ▸ hlt))
  -- an exclusive bound at the user key of the left bound leaves no key in the range
  obtain ⟨t, hhi⟩ := ha.exclusive hexcl
  obtain ⟨t', ht'⟩ := exists_mem_of_ne_nil _ ha.nonempty
  obtain ⟨k, -, -, hk⟩ := ha.covers t' ht'
  obtain ⟨hlo, hlt⟩ := hk
  rw [if_pos hexcl, hhi, lt_firstKey_iff, ← hhi, huser, ← heq] at hlt
  exact absurd (FullKey.userKey_mono hlo) (not_le.2 hlt)

theorem sortBy_sorted_ssts (h : ∀ sst ∈ ssts, sst.WellFormed) (hs : SstsSorted ssts) :
    sortBy cmpKeyRange ssts = .ok ssts := by
  refine sortBy_eq_self
    (List.Pairwise.isChain (List.Pairwise.imp_of_mem (fun {a b} ha hb hab => ?_) hs))
  have hlt := (h a ha).lo_lt hab
  refine ⟨_, compare_eq (h b hb).valid (h a ha).valid, ?_⟩
  rw [(cmp_eq_gt_iff _ _).2 hlt]
  exact nofun

end

end Hummock
