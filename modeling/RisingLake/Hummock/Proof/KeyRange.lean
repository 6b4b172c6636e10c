import RisingLake.Hummock.Proof.Key
import RisingLake.Hummock.Sstable
import RisingLake.Lib.Slice

/-!
# The order of key ranges

`lo` and `hi` are the decoded bounds of a key range; the range is `Valid` if both are full keys,
`lo` not above `hi`. Of valid ranges, `Below a b` says that `a` ends before `b` starts, in user
keys, and is what `canConcat` checks of neighbours (`canConcat_iff`); since it is transitive, it
then holds of all pairs (`canConcat_pairwise`).
-/

namespace Hummock

open Res FullKey

def fullKeyOf (slice : Bytes) : FullKey :=
  match decode slice with
  | .ok key => key
  | .error _ => .default

theorem fullKeyOf_encode (key : FullKey) : fullKeyOf key.encode = key := by
  rw [fullKeyOf, decode_encode]

theorem FullKey.userKey_mono {a b : FullKey} (h : a ≤ b) : a.userKey ≤ b.userKey := by
  rw [← not_lt] at h ⊢
  exact fun hlt => h (lt_iff.2 (.inl hlt))

namespace KeyRange

def lo (r : KeyRange) : FullKey := fullKeyOf r.left
def hi (r : KeyRange) : FullKey := fullKeyOf r.right

/-- The bounds are full keys, in order. -/
structure Valid (r : KeyRange) : Prop where
  left : r.left = r.lo.encode
  right : r.right = r.hi.encode
  le : r.lo ≤ r.hi

theorem valid_mk {l u : FullKey} {excl : Bool} (h : l ≤ u) : Valid ⟨l.encode, u.encode, excl⟩ := by
  refine ⟨?_, ?_, ?_⟩
  · rw [lo, fullKeyOf_encode]
  · rw [hi, fullKeyOf_encode]
  · rwa [lo, hi, fullKeyOf_encode, fullKeyOf_encode]

def endsBefore (r : KeyRange) (key : FullKey) : Bool :=
  if r.rightExclusive then decide (r.hi ≤ key) else decide (r.hi < key)

theorem le_of_not_endsBefore {r : KeyRange} {key : FullKey} (h : r.endsBefore key = false) :
    key ≤ r.hi := by
  unfold endsBefore at h
  split at h
  · exact (not_le.1 (of_decide_eq_false h)).le
  · exact not_lt.1 (of_decide_eq_false h)

def Below (a b : KeyRange) : Prop :=
  a.hi.userKey < b.lo.userKey ∨ a.rightExclusive = true ∧ a.hi.userKey = b.lo.userKey

section
variable {a b c : KeyRange}

theorem Below.le (h : Below a b) : a.hi.userKey ≤ b.lo.userKey := by
  rcases h with h | ⟨-, h⟩
  · exact h.le
  · exact h.le

theorem Below.trans (hab : Below a b) (hb : b.Valid) (hbc : Below b c) : Below a c := by
  have hmid := userKey_mono hb.le
  rcases hab with hlt | ⟨hexcl, heq⟩
  · exact .inl (hlt.trans_le (hmid.trans hbc.le))
  · rcases (heq.le.trans (hmid.trans hbc.le)).lt_or_eq with hlt | heq
    · exact .inl hlt
    · exact .inr ⟨hexcl, heq⟩

theorem compareLeft_eq (ha : a.Valid) (hb : b.Valid) : compareLeft a b = .ok (cmp a.lo b.lo) := by
  have hane : a.left.isEmpty = false := by simp [ha.left, encode_ne_nil]
  have hbne : b.left.isEmpty = false := by simp [hb.left, encode_ne_nil]
  have hleft : compareEncodedFullKey a.left b.left = .ok (cmp a.lo b.lo) := by
    rw [ha.left, hb.left, compareEncodedFullKey_eq]
  simp [compareLeft, startBoundInf, hane, hbne, hleft]

theorem compare_eq (ha : a.Valid) (hb : b.Valid) :
    KeyRange.compare a b = .ok ((cmp a.lo b.lo).then (cmp a.hi b.hi)) := by
  have hane : a.right.isEmpty = false := by simp [ha.right, encode_ne_nil]
  have hbne : b.right.isEmpty = false := by simp [hb.right, encode_ne_nil]
  have hright : compareEncodedFullKey a.right b.right = .ok (cmp a.hi b.hi) := by
    rw [ha.right, hb.right, compareEncodedFullKey_eq]
  rw [compare, compareLeft_eq ha hb]
  cases cmp a.lo b.lo <;> simp [endBoundInf, hane, hbne, hright]

theorem compareRightWith_lt_iff (ha : a.Valid) (hb : b.Valid) :
    a.compareRightWith b.left = .ok .lt ↔ Below a b := by
  have hcmp : a.compareRightWith b.left = .ok (if cmp a.hi.userKey b.lo.userKey == .eq &&
      a.rightExclusive then .lt else cmp a.hi.userKey b.lo.userKey) := by
    simp only [compareRightWith, compareRightWithUserKey, hb.left, ha.right, decode_encode, ok_bind]
  rw [hcmp]
  rcases lt_trichotomy a.hi.userKey b.lo.userKey with h | h | h
  · simp [Below, h]
  · cases hexcl : a.rightExclusive <;> simp [Below, h, hexcl]
  · simp [Below, h.not_gt, h.ne']

/-- `a` ends before `b` starts, and starts no later. -/
structure Before (a b : KeyRange) : Prop where
  lo : a.lo ≤ b.lo
  below : Below a b

end

end KeyRange

open KeyRange

/-! ## Lists of SSTs -/

/-- The key ranges of the SSTs are in order and do not overlap. -/
def SstsSorted (ssts : List SstableInfo) :
    Prop := ssts.Pairwise fun a b => Before a.keyRange b.keyRange

def SstsValid (ssts : List SstableInfo) : Prop := ∀ sst ∈ ssts, sst.keyRange.Valid

section
variable {ssts ssts' : List SstableInfo}

theorem canConcat_iff : ∀ {ssts : List SstableInfo}, SstsValid ssts →
    (canConcat ssts = .ok true ↔ ssts.IsChain fun a b => Below a.keyRange b.keyRange)
  | [], _ => by simp [canConcat]
  | [_], _ => by simp [canConcat]
  | a :: b :: ssts, h => by
    have hlt := compareRightWith_lt_iff (h a (.head _)) (h b (.tail _ (.head _)))
    have ih := canConcat_iff fun sst hsst => h sst (.tail a hsst)
    rw [List.isChain_cons_cons, ← ih, ← hlt, canConcat]
    cases a.keyRange.compareRightWith b.keyRange.left with
    | error e => simp
    | ok o => cases o <;> simp

theorem canConcat_pairwise (h : SstsValid ssts) :
    canConcat ssts = .ok true ↔ ssts.Pairwise fun a b => Below a.keyRange b.keyRange := by
  rw [canConcat_iff h]
  refine ⟨fun hchain => ?_, List.Pairwise.isChain⟩
  induction ssts with
  | nil => exact .nil
  | cons a ssts ih =>
    have ih := ih (fun sst hsst => h sst (.tail _ hsst)) hchain.tail
    refine List.pairwise_cons.2 ⟨fun c hc => ?_, ih⟩
    cases ssts with
    | nil => cases hc
    | cons b ssts =>
      have hab := (List.isChain_cons_cons.1 hchain).1
      rcases List.mem_cons.1 hc with rfl | hc
      · exact hab
      · exact hab.trans (h b (.tail _ (.head _))) ((List.pairwise_cons.1 ih).1 c hc)

theorem sortBy_lo (h : SstsValid ssts) (hsort : Slice.sortBy cmpKeyRange ssts = .ok ssts') :
    ssts'.Pairwise fun a b => a.keyRange.lo ≤ b.keyRange.lo := by
  refine Slice.sortBy_sorted (fun a b c hab hbc => hab.trans hbc) (fun x hx y hy o ho => ?_) hsort
  rw [cmpKeyRange, compare_eq (h x hx) (h y hy), Except.ok.injEq] at ho
  subst ho
  rcases lt_trichotomy x.keyRange.lo y.keyRange.lo with hlt | heq | hlt
  · rw [(cmp_eq_lt_iff _ _).2 hlt]
    exact hlt.le
  · split
    · exact heq.le
    · exact heq.ge
  · rw [(cmp_eq_gt_iff _ _).2 hlt]
    exact hlt.le

end

end Hummock
