import Mathlib

/-!
# The first element of each run

In a list whose elements have keys, a run is a stretch of elements with one key. `firsts` keeps the
first element of each run and `lasts` the last one; they mirror each other (`lasts_eq`). In a list
sorted by key, the kept elements have increasing keys (`firsts_pairwise`), and filtering commutes
with keeping first elements when the filter, within a run, can only change from true to false
(`filter_firsts`).
-/

namespace Runs

open List

variable {α κ : Type} [DecidableEq κ] (key : α → κ)

/-- The first element of each run; `seen` is the key of the run that has begun. -/
def firsts : Option κ → List α → List α
  | _, [] => []
  | seen, x :: xs => if seen = some (key x) then firsts seen xs else x :: firsts (some (key x)) xs

/-- The last element of each run. -/
def lasts : List α → List α
  | [] => []
  | x :: xs => if xs.head?.map key = some (key x) then lasts xs else x :: lasts xs

variable {key}

theorem firsts_sublist : ∀ {seen : Option κ} {xs : List α}, (firsts key seen xs).Sublist xs
  | _, [] => .slnil
  | seen, x :: xs => by
    rw [firsts]
    split
    · exact firsts_sublist.cons x
    · exact firsts_sublist.cons_cons x

theorem lasts_cons_cons (x y : α) (xs : List α) :
    lasts key (x :: y :: xs) = if key y = key x then lasts key (y :: xs)
      else x :: lasts key (y :: xs) := by
  simp [lasts]

theorem lasts_sublist : ∀ {xs : List α}, (lasts key xs).Sublist xs
  | [] => .slnil
  | x :: xs => by
    rw [lasts]
    split
    · exact lasts_sublist.cons x
    · exact lasts_sublist.cons_cons x

variable {xs : List α}

theorem firsts_congr {seen : Option κ} (seen' : Option κ) (h : ∀ x ∈ xs, seen ≠ some (key x))
    (h' : ∀ x ∈ xs, seen' ≠ some (key x)) : firsts key seen xs = firsts key seen' xs := by
  cases xs with
  | nil => rfl
  | cons x xs => rw [firsts, firsts, if_neg (h x (.head _)), if_neg (h' x (.head _))]

theorem firsts_concat (y : α) : ∀ {seen : Option κ} {xs : List α}, firsts key seen (xs ++ [y]) =
      firsts key seen xs ++ if (xs.getLast?.map key).or seen = some (key y) then [] else [y]
  | seen, [] => by
    exact if_congr .rfl rfl rfl
  | seen, x :: xs => by
    rw [cons_append, firsts, firsts]
    have hlast : ∀ s : Option κ, s = some (key x) →
        ((x :: xs).getLast?.map key).or seen = (xs.getLast?.map key).or s := by
      rintro _ rfl
      cases xs with
      | nil => rfl
      | cons z zs =>
        rw [getLast?_cons_cons]
        cases h : (z :: zs).getLast? with
        | none => simp at h
        | some a => rfl
    split
    · rename_i hx
      rw [firsts_concat y, hlast seen hx]
    · rw [firsts_concat y, hlast _ rfl, cons_append]

theorem lasts_eq : ∀ xs : List α, lasts key xs = (firsts key none xs.reverse).reverse
  | [] => rfl
  | x :: xs => by
    rw [lasts, reverse_cons, firsts_concat, reverse_append, ← lasts_eq xs, getLast?_reverse,
      Option.or_none]
    split <;> rfl

section
variable {κ : Type} [LinearOrder κ] [DecidableEq κ] {key : α → κ}

theorem firsts_pairwise : ∀ {seen : Option κ} {xs : List α},
    xs.Pairwise (fun x y => key x ≤ key y) → (∀ k, seen = some k → ∀ x ∈ xs, k ≤ key x) →
      (firsts key seen xs).Pairwise (fun x y => key x < key y) ∧
        ∀ k, seen = some k → ∀ x ∈ firsts key seen xs, k < key x
  | _, [], _, _ => ⟨.nil, nofun⟩
  | seen, x :: xs, hs, hseen => by
    rw [pairwise_cons] at hs
    rw [firsts]
    split
    · exact firsts_pairwise hs.2 fun k hk y hy => hseen k hk y (.tail _ hy)
    rename_i hne
    have hhead : ∀ k, some (key x) = some k → ∀ y ∈ xs, k ≤ key y := by
      rintro k ⟨⟩ y hy
      exact hs.1 y hy
    obtain ⟨hpw, hlt⟩ := firsts_pairwise hs.2 hhead
    refine ⟨pairwise_cons.2 ⟨hlt _ rfl, hpw⟩, fun k hk y hy => ?_⟩
    have hkx : k < key x := lt_of_le_of_ne (hseen k hk x (.head _)) fun h => hne (by rw [hk, h])
    rcases mem_cons.1 hy with rfl | hy
    · exact hkx
    · exact hkx.trans (hlt _ rfl y hy)

/-- Filtering commutes with keeping the first elements, if within a run the filter can only change
from true to false. -/
theorem filter_firsts {p : α → Bool} : ∀ {seen : Option κ} {xs : List α},
    xs.Pairwise (fun x y => key x ≤ key y ∧ (key x = key y → p y = true → p x = true)) →
      (∀ k, seen = some k → ∀ x ∈ xs, k ≤ key x) →
      (firsts key seen xs).filter p = firsts key seen (xs.filter p)
  | _, [], _, _ => rfl
  | seen, x :: xs, hs, hseen => by
    rw [pairwise_cons] at hs
    have htail : ∀ k, seen = some k → ∀ y ∈ xs, k ≤ key y :=
      fun k hk y hy => hseen k hk y (.tail _ hy)
    have hhead : ∀ k, some (key x) = some k → ∀ y ∈ xs, k ≤ key y := by
      rintro k ⟨⟩ y hy
      exact (hs.1 y hy).1
    rw [firsts]
    by_cases hx : seen = some (key x)
    · rw [if_pos hx, filter_firsts hs.2 htail, filter_cons]
      split
      · rw [firsts, if_pos hx]
      · rfl
    rw [if_neg hx, filter_cons, filter_cons, filter_firsts hs.2 hhead]
    split
    · rw [firsts, if_neg hx]
    rename_i hpx
    -- no element left has the key of `x`, nor, being above `x`, the key of the begun run
    refine firsts_congr _ (fun y hy heq => ?_) fun y hy heq => ?_
    · obtain ⟨hy, hpy⟩ := mem_filter.1 hy
      exact hpx ((hs.1 y hy).2 (Option.some.inj heq) hpy)
    · obtain ⟨hy, -⟩ := mem_filter.1 hy
      have hle := hseen _ heq x (.head _)
      exact hx (by rw [heq, le_antisymm hle (hs.1 y hy).1])

end

variable {q : α → Bool}

/-- A predicate that can only change from true to false splits a list: taking the elements that
satisfy it, or dropping them, is filtering. -/
theorem takeWhile_dropWhile_eq_filter :
    ∀ {xs : List α}, xs.Pairwise (fun x y => q y = true → q x = true) →
      xs.takeWhile q = xs.filter q ∧ xs.dropWhile q = xs.filter fun x => !q x
  | [], _ => ⟨rfl, rfl⟩
  | x :: xs, hs => by
    rw [pairwise_cons] at hs
    cases hq : q x with
    | true => simp [hq, takeWhile_dropWhile_eq_filter hs.2]
    | false =>
      have hnone : ∀ y ∈ xs, q y = false := fun y hy =>
        Bool.eq_false_iff.2 fun hqy => by simp [hs.1 y hy hqy] at hq
      have hall : ∀ y ∈ xs, (!q y) = true := fun y hy => by rw [hnone y hy, Bool.not_false]
      have hnil : xs.filter q = [] := filter_eq_nil_iff.2 fun y hy => by simp [hnone y hy]
      simp [hq, hnil, filter_eq_self.2 hall]

section

variable (hs : xs.Pairwise fun x y => q y = true → q x = true)
include hs

theorem takeWhile_eq_filter : xs.takeWhile q = xs.filter q := (takeWhile_dropWhile_eq_filter hs).1

theorem dropWhile_eq_filter : xs.dropWhile q = xs.filter fun x => !q x :=
  (takeWhile_dropWhile_eq_filter hs).2

theorem filter_append_filter_not : xs.filter q ++ xs.filter (fun x => !q x) = xs := by
  rw [← takeWhile_eq_filter hs, ← dropWhile_eq_filter hs, takeWhile_append_dropWhile]

end

end Runs
