import RisingLake.Lib.Bag
import RisingLake.Stream.HashJoin
import RisingLake.Stream.Proof.Chunk

/-!
# The batch join

`HashJoinDesc.batchJoin` is the result of the join of two bags of rows. Seen from either side it is
the sum of what each row and each pair of rows that match contribute (`JoinSides.joined`); the
contribution of a row depends on the number of its matches only. One more row on the update side
changes the contributions of the rows that match it (`joined_insert`), and so does one less
(`joined_delete`).
-/

namespace Stream

open Change Multiset JoinSides

instance decidableExistsMem {α : Type} (s : Multiset α) (p : α → Prop) [DecidablePred p] :
    Decidable (∃ a ∈ s, p a) := Multiset.decidableExistsMultiset

namespace HashJoinDesc

variable {S : Type} {wl wr wo : Nat} [DecidableEq S]

/-- The rows have the same join key, without NULLs where they are not matched, and the condition is
true. -/
def matchRow (j : HashJoinDesc S wl wr wo) (l : Row S wl) (r : Row S wr) : Bool :=
  j.descL.joinKey l = j.descR.joinKey r && j.descL.nullsMatch (j.descL.joinKey l) && j.check l r

variable (j : HashJoinDesc S wl wr wo) (L : Multiset (Row S wl)) (R : Multiset (Row S wr))

def pairs : Multiset (Row S wo) :=
  L.bind fun l => (R.filter fun r => j.matchRow l r).map fun r => j.outputRow (some l) (some r)

def matchedL : Multiset (Row S wo) :=
  (L.filter fun l => ∃ r ∈ R, j.matchRow l r).map fun l => j.outputRow (some l) none

def unmatchedL : Multiset (Row S wo) :=
  (L.filter fun l => ∀ r ∈ R, ¬j.matchRow l r).map fun l => j.outputRow (some l) none

def matchedR : Multiset (Row S wo) :=
  (R.filter fun r => ∃ l ∈ L, j.matchRow l r).map fun r => j.outputRow none (some r)

def unmatchedR : Multiset (Row S wo) :=
  (R.filter fun r => ∀ l ∈ L, ¬j.matchRow l r).map fun r => j.outputRow none (some r)

/-- The join of the rows of the two inputs. -/
def batchJoin : Multiset (Row S wo) :=
  match j.joinType with
  | .inner => j.pairs L R
  | .leftOuter => j.pairs L R + j.unmatchedL L R
  | .rightOuter => j.pairs L R + j.unmatchedR L R
  | .fullOuter => j.pairs L R + j.unmatchedL L R + j.unmatchedR L R
  | .leftSemi => j.matchedL L R
  | .leftAnti => j.unmatchedL L R
  | .rightSemi => j.matchedR L R
  | .rightAnti => j.unmatchedR L R

end HashJoinDesc

namespace JoinSides

variable {S O : Type} {u m : Nat} [DecidableEq S]

def matchRow (j : JoinSides S u m O) (row : Row S u) (r : Row S m) : Bool :=
  j.update.joinKey row = j.matched.joinKey r && j.matched.nullsMatch (j.update.joinKey row) &&
    j.check row r

/-- What a row of the update side with `n` matches contributes alone. -/
def padUpdate (j : JoinSides S u m O) (row : Row S u) (n : Nat) : Multiset O :=
  if isSemi j.joinType && forwardExactlyOnce j.joinType j.side then
    if n = 0 then 0 else {j.output.update row}
  else if (isAnti j.joinType && forwardExactlyOnce j.joinType j.side) ||
      isOuterSide j.joinType j.side then
    if n = 0 then {j.output.update row} else 0
  else 0

/-- What a row of the match side with `n` matches contributes alone. -/
def padMatched (j : JoinSides S u m O) (row : Row S m) (n : Nat) : Multiset O :=
  if isSemi j.joinType && onlyForwardMatchedSide j.joinType j.side then
    if n = 0 then 0 else {j.output.matched row}
  else if (isAnti j.joinType && onlyForwardMatchedSide j.joinType j.side) ||
      outerSideNull j.joinType j.side then
    if n = 0 then {j.output.matched row} else 0
  else 0

/-- What two rows that match contribute. -/
def pair (j : JoinSides S u m O) (row : Row S u) (r : Row S m) : Multiset O :=
  if isAnti j.joinType || isSemi j.joinType then 0 else {j.output.both row r}

variable (j : JoinSides S u m O) (U : Multiset (Row S u)) (M : Multiset (Row S m))

def degreeU (row : Row S u) : Nat := M.countP fun r => j.matchRow row r

def degreeM (r : Row S m) : Nat := U.countP fun row => j.matchRow row r

def pairsOf (row : Row S u) : Multiset O :=
  ((M.filter fun r => j.matchRow row r).map (j.pair row)).sum

/-- The join as the sum of all contributions. -/
def joined : Multiset O :=
  (M.map fun r => j.padMatched r (j.degreeM U r)).sum +
    (U.map fun row => j.padUpdate row (j.degreeU M row) + j.pairsOf M row).sum

variable {j U M} {row : Row S u} {r : Row S m}

theorem degreeM_cons_of_match (h : j.matchRow row r = true) :
    j.degreeM (row ::ₘ U) r = j.degreeM U r + 1 :=
  countP_cons_of_pos U h

theorem degreeM_cons_of_not_match (h : ¬j.matchRow row r = true) :
    j.degreeM (row ::ₘ U) r = j.degreeM U r :=
  countP_cons_of_neg U h

/-- The contributions that do not depend on whether `row` is there. -/
def jointRest (j : JoinSides S u m O) (U : Multiset (Row S u)) (M : Multiset (Row S m))
    (row : Row S u) : Multiset O :=
  ((M.filter fun r => ¬j.matchRow row r).map fun r => j.padMatched r (j.degreeM U r)).sum +
    (U.map fun row => j.padUpdate row (j.degreeU M row) + j.pairsOf M row).sum

theorem sum_map_split {α : Type} (M : Multiset α) (p : α → Bool) (f : α → Multiset O) :
    (M.map f).sum = ((M.filter fun a => ¬p a).map f).sum + ((M.filter fun a => p a).map f).sum := by
  have hsplit := filter_add_not (fun a => p a = true) M
  rw [← sum_add, ← map_add, add_comm, hsplit]

theorem joined_eq (row : Row S u) : j.joined U M = j.jointRest U M row +
    ((M.filter fun r => j.matchRow row r).map fun r => j.padMatched r (j.degreeM U r)).sum := by
  rw [joined, sum_map_split M (j.matchRow row)]
  exact add_right_comm ..

theorem joined_cons_eq (row : Row S u) : j.joined (row ::ₘ U) M = j.jointRest U M row +
    (((M.filter fun r => j.matchRow row r).map fun r => j.padMatched r (j.degreeM U r + 1) +
      j.pair row r).sum +
      j.padUpdate row (j.degreeU M row)) := by
  have hmatch :
      (M.filter fun r => j.matchRow row r).map (fun r => j.padMatched r (j.degreeM (row ::ₘ U) r)) =
      (M.filter fun r => j.matchRow row r).map fun r => j.padMatched r (j.degreeM U r + 1) :=
    map_congr rfl fun r hr => by rw [degreeM_cons_of_match (mem_filter.1 hr).2]
  have hother :
      (M.filter fun r => ¬j.matchRow row r).map (fun r => j.padMatched r (j.degreeM (row ::ₘ U) r)) =
      (M.filter fun r => ¬j.matchRow row r).map fun r => j.padMatched r (j.degreeM U r) :=
    map_congr rfl fun r hr => by rw [degreeM_cons_of_not_match (mem_filter.1 hr).2]
  have hpairs := sum_map_add (m := M.filter fun r => j.matchRow row r)
    (f := fun r => j.padMatched r (j.degreeM U r + 1)) (g := j.pair row)
  rw [joined, sum_map_split M (j.matchRow row), hmatch, hother, map_cons, sum_cons, hpairs,
    jointRest, pairsOf]
  abel

variable [DecidableEq O] {cs : List (Change O)}

theorem joined_insert (h : bagAll ((M.filter fun r => j.matchRow row r).map fun r =>
      j.padMatched r (j.degreeM U r)).sum cs =
    some (((M.filter fun r => j.matchRow row r).map fun r =>
      j.padMatched r (j.degreeM U r + 1) + j.pair row r).sum + j.padUpdate row (j.degreeU M row))) :
    bagAll (j.joined U M) cs = some (j.joined (row ::ₘ U) M) := by
  rw [joined_eq row, joined_cons_eq row]
  exact bagAll_add h _

theorem joined_delete (h : bagAll (((M.filter fun r => j.matchRow row r).map fun r =>
      j.padMatched r (j.degreeM U r + 1) + j.pair row r).sum + j.padUpdate row (j.degreeU M row)) cs =
    some ((M.filter fun r => j.matchRow row r).map fun r => j.padMatched r (j.degreeM U r)).sum) :
    bagAll (j.joined (row ::ₘ U) M) cs = some (j.joined U M) := by
  rw [joined_cons_eq row, joined_eq row]
  exact bagAll_add h _

end JoinSides

/-! ## The batch join from either side -/

section Sum

variable {α β γ : Type}

theorem sum_map_filter (s : Multiset α) (p : α → Prop) [DecidablePred p] (f : α → Multiset β) :
    ((s.filter p).map f).sum = (s.map fun a => if p a then f a else 0).sum := by
  induction s using Multiset.induction with
  | empty => rfl
  | cons a s ih =>
    rw [map_cons, sum_cons, ← ih]
    by_cases h : p a
    · rw [if_pos h, filter_cons_of_pos s h, map_cons, sum_cons]
    · rw [if_neg h, filter_cons_of_neg s h, zero_add]

theorem sum_map_singleton_eq (s : Multiset α) (f : α → β) :
    (s.map fun a => ({f a} : Multiset β)).sum = s.map f :=
  bind_singleton s f

section

variable (s : Multiset α) (t : Multiset β) (p : α → β → Bool)
include s t p

theorem sum_matched (f : α → γ) :
    (s.map fun a => if (t.countP fun b => p a b) = 0 then (0 : Multiset γ) else {f a}).sum =
      (s.filter fun a => ∃ b ∈ t, p a b).map f := by
  rw [← sum_map_singleton_eq (s.filter _) f, sum_map_filter]
  refine congrArg _ (map_congr rfl fun a _ => ?_)
  by_cases h : ∃ b ∈ t, p a b
  · rw [if_pos h, if_neg (countP_pos.2 h).ne']
  · rw [if_neg h, if_pos (Nat.eq_zero_of_not_pos fun hpos => h (countP_pos.1 hpos))]

theorem sum_unmatched (f : α → γ) :
    (s.map fun a => if (t.countP fun b => p a b) = 0 then ({f a} : Multiset γ) else 0).sum =
      (s.filter fun a => ∀ b ∈ t, ¬p a b).map f := by
  rw [← sum_map_singleton_eq (s.filter _) f, sum_map_filter]
  refine congrArg _ (map_congr rfl fun a _ => ?_)
  by_cases h : ∀ b ∈ t, ¬p a b
  · rw [if_pos h, if_pos (countP_eq_zero.2 h)]
  · rw [if_neg h, if_neg fun hzero => h (countP_eq_zero.1 hzero)]

theorem sum_pairs_comm (f : α → β → Multiset γ) :
    (s.map fun a => ((t.filter fun b => p a b).map (f a)).sum).sum =
      (t.map fun b => ((s.filter fun a => p a b).map fun a => f a b).sum).sum := by
  simp only [sum_map_filter]
  exact sum_map_sum_map s t

end

end Sum

namespace HashJoinDesc

variable {S : Type} {wl wr wo : Nat} [DecidableEq S] (j : HashJoinDesc S wl wr wo)

theorem sidesR_matchRow (l : Row S wl) (r : Row S wr) :
    j.sidesR.matchRow r l = j.sidesL.matchRow l r := by
  change (decide (j.descR.joinKey r = j.descL.joinKey l) && j.descL.nullsMatch
    (j.descR.joinKey r) && j.check l r) =
    (decide (j.descL.joinKey l = j.descR.joinKey r) && j.descR.nullsMatch (j.descL.joinKey l) &&
      j.check l r)
  by_cases hkey : j.descL.joinKey l = j.descR.joinKey r
  · rw [hkey]
    rfl
  · rw [decide_eq_false hkey, decide_eq_false (Ne.symm hkey)]
    rfl

variable (L : Multiset (Row S wl)) (R : Multiset (Row S wr))

theorem degreeU_sidesR (r : Row S wr) : j.sidesR.degreeU L r = j.sidesL.degreeM L r := by
  simp only [degreeU, degreeM, sidesR_matchRow]

theorem degreeM_sidesR (l : Row S wl) : j.sidesR.degreeM R l = j.sidesL.degreeU R l := by
  simp only [degreeU, degreeM, sidesR_matchRow]

theorem joined_comm : j.sidesR.joined R L = j.sidesL.joined L R := by
  have hpairs := sum_pairs_comm L R j.sidesL.matchRow j.sidesL.pair
  simp only [joined, sum_map_add, pairsOf,
    degreeU_sidesR, degreeM_sidesR, sidesR_matchRow, hpairs]
  rw [add_left_comm]
  rfl

theorem sum_padUpdate_sidesL : (L.map fun l => j.sidesL.padUpdate l (j.sidesL.degreeU R l)).sum =
    match j.joinType with
    | .leftOuter | .fullOuter | .leftAnti => j.unmatchedL L R
    | .leftSemi => j.matchedL L R
    | _ => 0 := by
  have hT : j.sidesL.joinType = j.joinType := rfl
  have hunmatched := sum_unmatched L R j.sidesL.matchRow fun l => j.outputRow (some l) none
  have hmatched := sum_matched L R j.sidesL.matchRow fun l => j.outputRow (some l) none
  simp only [padUpdate, hT]
  cases j.joinType with
  | leftOuter | fullOuter | leftAnti => exact hunmatched
  | leftSemi => exact hmatched
  | inner | rightOuter | rightSemi | rightAnti => exact sum_map_zero

theorem sum_padMatched_sidesL : (R.map fun r => j.sidesL.padMatched r (j.sidesL.degreeM L r)).sum =
    match j.joinType with
    | .rightOuter | .fullOuter | .rightAnti => j.unmatchedR L R
    | .rightSemi => j.matchedR L R
    | _ => 0 := by
  have hT : j.sidesL.joinType = j.joinType := rfl
  have hunmatched :=
    sum_unmatched R L (fun r l => j.sidesL.matchRow l r) fun r => j.outputRow none (some r)
  have hmatched :=
    sum_matched R L (fun r l => j.sidesL.matchRow l r) fun r => j.outputRow none (some r)
  simp only [padMatched, hT]
  cases j.joinType with
  | rightOuter | fullOuter | rightAnti => exact hunmatched
  | rightSemi => exact hmatched
  | inner | leftOuter | leftSemi | leftAnti => exact sum_map_zero

omit [DecidableEq S] in
theorem pair_sidesL (l : Row S wl) (r : Row S wr) : j.sidesL.pair l r = match j.joinType with
    | .leftSemi | .leftAnti | .rightSemi | .rightAnti => 0
    | _ => {j.outputRow (some l) (some r)} := by
  have hT : j.sidesL.joinType = j.joinType := rfl
  simp only [pair, hT]
  cases j.joinType <;> rfl

theorem sum_pairs_sidesL : (L.map fun l => j.sidesL.pairsOf R l).sum = match j.joinType with
    | .leftSemi | .leftAnti | .rightSemi | .rightAnti => 0
    | _ => j.pairs L R := by
  have hpairs l := sum_map_singleton_eq (R.filter fun r => j.sidesL.matchRow l r)
    fun r => j.outputRow (some l) (some r)
  have hpair : j.sidesL.pair = _ := funext₂ j.pair_sidesL
  simp only [pairsOf, hpair]
  cases j.joinType with
  | leftSemi | leftAnti | rightSemi | rightAnti =>
    simp only [sum_map_zero]
  | inner | leftOuter | rightOuter | fullOuter =>
    exact congrArg _ (map_congr rfl fun l _ => hpairs l)

theorem joined_sidesL : j.sidesL.joined L R = j.batchJoin L R := by
  rw [joined, sum_map_add, sum_padUpdate_sidesL, sum_padMatched_sidesL, sum_pairs_sidesL, batchJoin]
  cases j.joinType <;> dsimp only <;> abel

theorem joined_sidesR : j.sidesR.joined R L = j.batchJoin L R := by rw [joined_comm, joined_sidesL]

end HashJoinDesc

end Stream
