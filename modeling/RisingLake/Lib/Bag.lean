import RisingLake.Lib.Changelog

/-!
# Changelogs of bags

A bag may hold a row several times. An insertion adds one, and a deletion removes one that is there;
a list of changes that deletes an absent row has no result. A changelog does not touch the rest of
the bag (`bagAll_add`), so that changes of the parts add up to a change of the whole (`bagAll_sum`).
-/

namespace Change

variable {R : Type} [DecidableEq R]

def onBag (bag : Multiset R) : Change R → Option (Multiset R)
  | insert r => some (r ::ₘ bag)
  | delete r => if r ∈ bag then some (bag.erase r) else none

def bagAll (bag : Multiset R) (cs : List (Change R)) : Option (Multiset R) := cs.foldlM onBag bag

variable {bag bag' rest : Multiset R} {c : Change R} {cs cs' : List (Change R)}

@[simp] theorem bagAll_nil (bag : Multiset R) : bagAll bag [] = some bag := rfl

theorem bagAll_append (bag : Multiset R) (cs cs' : List (Change R)) :
    bagAll bag (cs ++ cs') = bagAll bag cs >>= fun bag' => bagAll bag' cs' := List.foldlM_append

theorem bagAll_append_eq (h : bagAll bag cs = some bag') (cs' : List (Change R)) :
    bagAll bag (cs ++ cs') = bagAll bag' cs' := by
  rw [bagAll_append, h]
  rfl

@[simp] theorem bagAll_insert (bag : Multiset R) (r : R) :
    bagAll bag [insert r] = some (r ::ₘ bag) := rfl

@[simp] theorem bagAll_delete (bag : Multiset R) (r : R) :
    bagAll (r ::ₘ bag) [delete r] = some bag := by
  change (onBag (r ::ₘ bag) (delete r) >>= some) = some bag
  rw [onBag, if_pos (Multiset.mem_cons_self r bag), Multiset.erase_cons_head]
  rfl

@[simp] theorem bagAll_delete_singleton (r : R) : bagAll {r} [delete r] = some 0 :=
  bagAll_delete 0 r

@[simp] theorem bagAll_update_singleton (old new : R) :
    bagAll {old} [delete old, insert new] = some {new} :=
  (bagAll_append_eq (bagAll_delete 0 old) [insert new]).trans (bagAll_insert 0 new)

theorem bagAll_cancel (bag : Multiset R) (r : R) (cs : List (Change R)) :
    bagAll bag (insert r :: delete r :: cs) = bagAll bag cs := by
  have hpair : bagAll bag [insert r, delete r] = some bag :=
    (bagAll_append_eq (bagAll_insert bag r) [delete r]).trans (bagAll_delete bag r)
  exact bagAll_append_eq hpair cs

theorem onBag_add (h : onBag bag c = some bag') (rest : Multiset R) :
    onBag (rest + bag) c = some (rest + bag') := by
  cases c with
  | insert r =>
    cases h
    rw [onBag, Multiset.add_cons]
  | delete r =>
    rw [onBag] at h ⊢
    by_cases hmem : r ∈ bag
    · rw [if_pos hmem] at h
      cases h
      rw [if_pos (Multiset.mem_add.2 (.inr hmem)), Multiset.erase_add_right_pos _ hmem]
    · rw [if_neg hmem] at h
      cases h

theorem bagAll_add (h : bagAll bag cs = some bag') (rest : Multiset R) :
    bagAll (rest + bag) cs = some (rest + bag') := by
  induction cs generalizing bag with
  | nil =>
    cases h
    rfl
  | cons c cs ih =>
    rw [bagAll, List.foldlM_cons] at h ⊢
    obtain ⟨bag₁, hc, h⟩ := Option.bind_eq_some_iff.1 h
    rw [onBag_add hc rest]
    exact ih h

theorem bagAll_sum {α : Type} {before after : α → Multiset R} {changes : α → List (Change R)}
    {xs : List α} (h : ∀ x ∈ xs, bagAll (before x) (changes x) = some (after x)) :
    bagAll (xs.map before).sum (xs.flatMap changes) = some (xs.map after).sum := by
  induction xs with
  | nil => rfl
  | cons x xs ih =>
    rw [List.map_cons, List.map_cons, List.sum_cons, List.flatMap_cons, add_comm,
      bagAll_append_eq (bagAll_add (h x (.head _)) _), add_comm]
    exact bagAll_add (ih fun y hy => h y (.tail _ hy)) _

end Change
