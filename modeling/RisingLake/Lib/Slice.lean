import RisingLake.Lib.Res
import RisingLake.Lib.Runs

/-!
# Searching and sorting slices with comparisons that may panic

`partitionPoint p xs` is the binary search of `slice::partition_point` and `sortBy cmp xs` a stable
insertion sort with the contract of `slice::sort_by`; the predicate and the comparison run user
code and may panic, and then the search or the sort panics.

* `partitionPoint_eq`: on a slice that `p` partitions the result is the length of the part where
  `p` holds.
* `sortBy_perm`, `sortBy_sorted`: the result is a permutation of the input, in order.
* `sortBy_eq_self`: a slice in which no element is less than the one before is left as it is.
-/

namespace Slice

open Res List

variable {α : Type} {xs : List α} {p : α → Res Bool} {q : α → Bool} {x : α}

theorem eq_take_cons_drop {i : Nat} (h : xs[i]? = some x) :
    xs = xs.take i ++ x :: xs.drop (i + 1) := by
  obtain ⟨hlt, rfl⟩ := List.getElem?_eq_some_iff.1 h
  rw [← drop_eq_getElem_cons hlt, take_append_drop]

theorem insertIdx_eq_take_drop (x : α) : ∀ {xs : List α} {i : Nat}, i ≤ xs.length →
    xs.insertIdx i x = xs.take i ++ x :: xs.drop i
  | _, 0, _ => by simp
  | [], i + 1, h => by simp at h
  | y :: ys, i + 1, h => by
    rw [insertIdx_succ_cons, insertIdx_eq_take_drop x (by simpa using h)]
    simp

/-! ## Binary search -/

/-- The loop of `partition_point` on `[left, right)`; `fuel` bounds the rounds. -/
def partitionPointLoop (p : α → Res Bool) (xs : List α) : Nat → Nat → Nat → Res Nat
  | 0, left, _ => .ok left
  | fuel + 1, left, right =>
    if left < right then do
      let mid := left + (right - left) / 2
      let x ← index xs mid
      if ← p x then partitionPointLoop p xs fuel (mid + 1) right
      else partitionPointLoop p xs fuel left mid
    else .ok left

/-- `xs.partition_point(p)`. -/
def partitionPoint (p : α → Res Bool) (xs : List α) : Res Nat :=
  partitionPointLoop p xs xs.length 0 xs.length

variable {β : Type}

theorem partitionPointLoop_map (p : β → Res Bool) (f : α → β) (xs : List α) :
    ∀ fuel left right, partitionPointLoop p (xs.map f) fuel left right =
      partitionPointLoop (fun x => p (f x)) xs fuel left right
  | 0, _, _ => rfl
  | fuel + 1, left, right => by
    rw [partitionPointLoop, partitionPointLoop]
    split
    · simp only [index, getElem?_map]
      cases xs[left + (right - left) / 2]? with
      | none => rfl
      | some x => simp only [Option.map_some, ok_bind, partitionPointLoop_map p f xs fuel]
    · rfl

theorem partitionPoint_map (p : β → Res Bool) (f : α → β) (xs : List α) :
    partitionPoint p (xs.map f) = partitionPoint (fun x => p (f x)) xs := by
  rw [partitionPoint, partitionPointLoop_map, length_map, partitionPoint]

/-- `p` holds of the first `k` elements of `xs` and fails on the others. -/
def PartitionedAt (p : α → Res Bool) (xs : List α) (k : Nat) : Prop :=
  k ≤ xs.length ∧ ∀ i x, xs[i]? = some x → p x = .ok (decide (i < k))

theorem partitionPointLoop_eq {k : Nat} (hp : PartitionedAt p xs k) :
    ∀ {fuel left right : Nat}, right - left ≤ fuel → left ≤ k →
      k ≤ right → right ≤ xs.length → partitionPointLoop p xs fuel left right = .ok k
  | 0, left, right, hf, hl, hr, _ => by
    rw [partitionPointLoop, show left = k by omega]
  | fuel + 1, left, right, hf, hl, hr, hlen => by
    rw [partitionPointLoop]
    split
    · have hmid : left + (right - left) / 2 < xs.length := by omega
      have hx := getElem?_eq_getElem hmid
      simp only [index_eq_ok.2 hx, hp.2 _ _ hx, ok_bind]
      split
      · rename_i hk
        exact partitionPointLoop_eq hp (by omega) (of_decide_eq_true hk) hr hlen
      · rename_i hk
        exact partitionPointLoop_eq hp (by omega) hl (by simpa using hk) (by omega)
    · rw [show left = k by omega]

/-- On a partitioned slice the search finds the partition point. -/
theorem partitionPoint_eq {k : Nat} (hp : PartitionedAt p xs k) : partitionPoint p xs = .ok k :=
  partitionPointLoop_eq hp (by omega) (Nat.zero_le _) hp.1 (Nat.le_refl _)

/-- A slice along which a decidable `p` can only change from true to false is partitioned at the
number of elements where it holds. -/
theorem partitionedAt_of_pairwise (hp : ∀ x ∈ xs, p x = .ok (q x))
    (hs : xs.Pairwise fun x y => q y = true → q x = true) : PartitionedAt p xs (xs.countP q) := by
  refine ⟨countP_le_length, fun i y hy => ?_⟩
  rw [hp y (mem_of_getElem? hy), countP_eq_length_filter]
  rw [← Runs.filter_append_filter_not hs, getElem?_append] at hy
  split at hy
  · rename_i hlt
    rw [(mem_filter.1 (mem_of_getElem? hy)).2, decide_eq_true hlt]
  · rename_i hge
    have hq := (mem_filter.1 (mem_of_getElem? hy)).2
    rw [decide_eq_false hge, show q y = false by simpa using hq]

theorem take_countP_eq_filter (hs : xs.Pairwise fun x y => q y = true → q x = true) :
    xs.take (xs.countP q) = xs.filter q := by
  conv_lhs => arg 2; rw [← Runs.filter_append_filter_not hs]
  rw [countP_eq_length_filter, take_left]

theorem drop_countP_eq_filter (hs : xs.Pairwise fun x y => q y = true → q x = true) :
    xs.drop (xs.countP q) = xs.filter fun x => !q x := by
  conv_lhs => arg 2; rw [← Runs.filter_append_filter_not hs]
  rw [countP_eq_length_filter, drop_left]

/-! ## Filtering -/

/-- `xs.retain(p)`. -/
def retain (p : α → Res Bool) : List α → Res (List α)
  | [] => .ok []
  | x :: xs => do
    let keep ← p x
    let ys ← retain p xs
    .ok (if keep then x :: ys else ys)

theorem retain_eq : ∀ {xs : List α}, (∀ x ∈ xs, p x = .ok (q x)) → retain p xs = .ok (xs.filter q)
  | [], _ => rfl
  | x :: xs, h => by
    rw [retain, h x (.head _), retain_eq fun y hy => h y (.tail _ hy)]
    cases hq : q x <;> simp [hq]

theorem retain_map (p : β → Res Bool) (f : α → β) : ∀ xs : List α,
    retain p (xs.map f) = List.map f <$> retain (fun x => p (f x)) xs
  | [] => rfl
  | x :: xs => by
    rw [map_cons, retain, retain, retain_map p f xs]
    cases p (f x) with
    | error e => rfl
    | ok keep => cases retain (fun x => p (f x)) xs <;> cases keep <;> rfl

/-! ## Sorting -/

/-- Insert `x` into a sorted prefix, given last element first: `x` moves left past every element it
is less than. -/
def insertTail (cmp : α → α → Res Ordering) (x : α) : List α → Res (List α)
  | [] => .ok [x]
  | y :: ys => do
    if (← cmp x y) == .lt then
      let zs ← insertTail cmp x ys
      .ok (y :: zs)
    else .ok (x :: y :: ys)

/-- `xs.sort_by(cmp)`. -/
def sortBy (cmp : α → α → Res Ordering) (xs : List α) : Res (List α) := do
  let rev ← xs.foldlM (fun acc x => insertTail cmp x acc) []
  .ok rev.reverse

variable {cmp : α → α → Res Ordering}

theorem insertTail_perm : ∀ {ys zs : List α}, insertTail cmp x ys = .ok zs → zs.Perm (x :: ys)
  | [], zs, h => by
    cases h; exact .refl _
  | y :: ys, zs, h => by
    simp only [insertTail, bind_eq_ok] at h
    obtain ⟨o, -, h⟩ := h
    split at h
    · rw [bind_eq_ok] at h
      obtain ⟨ws, hw, h⟩ := h
      cases h
      exact ((insertTail_perm hw).cons y).trans (.swap x y ys)
    · cases h; exact .refl _

theorem foldlM_insertTail_perm : ∀ {xs acc rev : List α},
    xs.foldlM (fun acc x => insertTail cmp x acc) acc = .ok rev → rev.Perm (xs ++ acc)
  | [], acc, rev, h => by
    cases h; exact .refl _
  | x :: xs, acc, rev, h => by
    rw [foldlM_cons, bind_eq_ok] at h
    obtain ⟨acc', h1, h⟩ := h
    refine (foldlM_insertTail_perm h).trans ?_
    exact ((insertTail_perm h1).append_left xs).trans perm_middle

theorem sortBy_perm {ys : List α} (h : sortBy cmp xs = .ok ys) : ys.Perm xs := by
  simp only [sortBy, bind_eq_ok] at h
  obtain ⟨rev, hr, h⟩ := h
  cases h
  exact (reverse_perm rev).trans (by simpa using foldlM_insertTail_perm hr)

section
variable {β : Type} {f : β → α} {cmp' : β → β → Res Ordering}
  (h : ∀ a b, cmp (f a) (f b) = cmp' a b)
include h

theorem insertTail_map (x : β) : ∀ ys : List β,
    insertTail cmp (f x) (ys.map f) = (map f) <$> insertTail cmp' x ys
  | [] => rfl
  | y :: ys => by
    rw [map_cons, insertTail, insertTail, h, insertTail_map x ys]
    cases cmp' x y with
    | error e => rfl
    | ok o => cases o <;> cases insertTail cmp' x ys <;> rfl

theorem sortBy_map (xs : List β) : sortBy cmp (xs.map f) = (map f) <$> sortBy cmp' xs := by
  have hfold : (xs.map f).foldlM (fun acc x => insertTail cmp x acc) [] =
      map f <$> xs.foldlM (fun acc x => insertTail cmp' x acc) [] :=
    foldlM_hom (map f) f (fun acc x => insertTail_map h x acc) xs []
  rw [sortBy, sortBy, hfold]
  cases xs.foldlM (fun acc x => insertTail cmp' x acc) [] with
  | error e => rfl
  | ok rev => exact congrArg _ map_reverse.symm

end

variable {R : α → α → Prop}

/-- What `insertTail` needs of the comparison: a result other than `Less` reverses the order. -/
theorem insertTail_sorted (htrans : ∀ a b c, R a b → R b c → R a c) : ∀ {ys zs : List α},
      (∀ y ∈ ys, ∀ o, cmp x y = .ok o → if o = .lt then R x y else R y x) →
      ys.Pairwise (fun a b => R b a) → insertTail cmp x ys = .ok zs →
      zs.Pairwise (fun a b => R b a)
  | [], zs, _, _, h => by
    cases h; simp
  | y :: ys, zs, hc, hs, h => by
    rw [pairwise_cons] at hs
    simp only [insertTail, bind_eq_ok] at h
    obtain ⟨o, ho, h⟩ := h
    have hxy := hc y (.head _) o ho
    split at h
    · rename_i hlt
      rw [if_pos (by simpa using hlt)] at hxy
      rw [bind_eq_ok] at h
      obtain ⟨ws, hw, h⟩ := h
      cases h
      refine pairwise_cons.2 ⟨fun w hm => ?_, ?_⟩
      · rcases mem_cons.1 ((insertTail_perm hw).mem_iff.1 hm) with rfl | hm
        · exact hxy
        · exact hs.1 w hm
      · exact insertTail_sorted htrans (fun z hz => hc z (.tail _ hz)) hs.2 hw
    · rename_i hlt
      rw [if_neg (by simpa using hlt)] at hxy
      cases h
      refine pairwise_cons.2 ⟨fun w hm => ?_, pairwise_cons.2 hs⟩
      rcases mem_cons.1 hm with rfl | hm
      · exact hxy
      · exact htrans _ _ _ (hs.1 w hm) hxy

/-- A comparison that decides a transitive `R` sorts by it. -/
theorem sortBy_sorted (htrans : ∀ a b c, R a b → R b c → R a c) {ys : List α}
    (hc : ∀ x ∈ xs, ∀ y ∈ xs, ∀ o, cmp x y = .ok o → if o = .lt then R x y else R y x)
    (h : sortBy cmp xs = .ok ys) : ys.Pairwise R := by
  simp only [sortBy, bind_eq_ok] at h
  obtain ⟨rev, hr, h⟩ := h
  cases h
  rw [pairwise_reverse]
  -- the prefix sorted so far holds only elements of the slice
  refine (foldlM_inv (fun acc => acc.Pairwise (fun a b => R b a) ∧ ∀ y ∈ acc, y ∈ xs)
    (fun x hx acc acc' hacc hins => ?_) ⟨.nil, by simp⟩ hr).1
  refine ⟨insertTail_sorted htrans (fun y hy => hc x hx y (hacc.2 y hy)) hacc.1 hins, fun y hy => ?_⟩
  rcases mem_cons.1 ((insertTail_perm hins).mem_iff.1 hy) with rfl | hy
  · exact hx
  · exact hacc.2 y hy

/-- No element is less than the one before it. -/
def Ascending (cmp : α → α → Res Ordering) (xs : List α) : Prop :=
  xs.IsChain fun x y => ∃ o, cmp y x = .ok o ∧ o ≠ .lt

theorem foldlM_insertTail_asc : ∀ {xs acc : List α}, Ascending cmp (acc.reverse ++ xs) →
      xs.foldlM (fun acc x => insertTail cmp x acc) acc = .ok (xs.reverse ++ acc)
  | [], acc, _ => rfl
  | x :: xs, acc, h => by
    have hins : insertTail cmp x acc = .ok (x :: acc) := by
      cases acc with
      | nil => rfl
      | cons y ys =>
        have : Ascending cmp (ys.reverse ++ (y :: x :: xs)) := by simpa using h
        obtain ⟨o, ho, hne⟩ := (isChain_cons_cons.1 this.right_of_append).1
        simp [insertTail, ho, hne]
    rw [foldlM_cons, hins, ok_bind, foldlM_insertTail_asc (by simpa using h)]
    simp

theorem sortBy_eq_self (h : Ascending cmp xs) : sortBy cmp xs = .ok xs := by
  simp [sortBy, foldlM_insertTail_asc (show Ascending cmp ([].reverse ++ xs) from h)]

end Slice
