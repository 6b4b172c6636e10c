import RisingLake.Lib.Res

/-!
# Logs read from the newest entry to the oldest

A rule that decides about an element from the elements before it marks every element of a list
(`marks`) and keeps the marked ones (`kept`). In a log read backwards the elements before an element
are the newer ones, and `newest key` keeps, for each key, the newest element that has it.

* `marks_append`, `marks_eq_iff`: reading a log in pieces, and comparing two rules.
* `newest_append`: what a newer log leaves of an older one.
* `Knows`: a set of keys that stands for the elements seen.
* `eachRow`: a loop over rows and flags, one flag per row; `eachRow_marks` gives the flags of a loop
  whose state stands for the rows it has seen.
-/

namespace Newest

open List

variable {α β κ σ : Type}

/-- What the rule `p` says of each element, given the elements before it, last one first. -/
def marks (p : List α → α → Bool) : List α → List α → List Bool
  | _, [] => []
  | seen, x :: xs => p seen x :: marks p (x :: seen) xs

/-- The elements the rule marks. -/
def kept (p : List α → α → Bool) : List α → List α → List α
  | _, [] => []
  | seen, x :: xs => if p seen x then x :: kept p (x :: seen) xs else kept p (x :: seen) xs

/-- The elements whose flag is set. -/
def selected : List α → List Bool → List α
  | x :: xs, b :: bs => if b then x :: selected xs bs else selected xs bs
  | _, _ => []

/-! ## Rules -/

@[simp] theorem length_marks (p : List α → α → Bool) :
    ∀ seen xs : List α, (marks p seen xs).length = xs.length
  | _, [] => rfl
  | seen, x :: xs => by rw [marks, length_cons, length_marks p, length_cons]

variable {p : List α → α → Bool}

theorem eq_of_mem_marks {b : Bool} (hp : ∀ seen x, p seen x = b) :
    ∀ {seen xs : List α} {c : Bool}, c ∈ marks p seen xs → c = b
  | _, [], _, h => by cases h
  | seen, x :: xs, c, h => by
    rcases mem_cons.1 h with rfl | h
    · exact hp seen x
    · exact eq_of_mem_marks hp h

theorem marks_append (p : List α → α → Bool) :
    ∀ seen xs ys : List α, marks p seen (xs ++ ys) = marks p seen xs ++ marks p (xs.reverse ++ seen) ys
  | _, [], _ => rfl
  | seen, x :: xs, ys => by
    rw [cons_append, marks, marks, marks_append p, reverse_cons, append_assoc,
      cons_append, cons_append, nil_append]

variable {xs seen : List α}

theorem marks_append_inj {q : List α → α → Bool} {seen' : List α} {bs cs : List Bool} :
    marks p seen xs ++ bs = marks q seen' xs ++ cs ↔ marks p seen xs = marks q seen' xs ∧ bs = cs :=
  ⟨fun h => append_inj h (by rw [length_marks, length_marks]), fun h => by rw [h.1, h.2]⟩

theorem kept_append (p : List α → α → Bool) :
    ∀ seen xs ys : List α, kept p seen (xs ++ ys) = kept p seen xs ++ kept p (xs.reverse ++ seen) ys
  | _, [], _ => rfl
  | seen, x :: xs, ys => by
    have ih := kept_append p (x :: seen) xs ys
    rw [cons_append, kept, kept, ih, reverse_cons, append_assoc, cons_append, nil_append]
    split
    · rw [cons_append]
    · rfl

theorem selected_marks (p : List α → α → Bool) : ∀ seen xs : List α, selected xs (marks p seen xs) =
    kept p seen xs
  | _, [] => rfl
  | seen, x :: xs => by rw [marks, selected, kept, selected_marks p]

variable {q : List α → α → Bool}

/-- Two rules mark alike iff they agree on every element after what came before it. -/
theorem marks_eq_iff : ∀ {seen seen' xs : List α}, marks p seen xs = marks q seen' xs ↔
      ∀ pre x post, xs = pre ++ x :: post → p (pre.reverse ++ seen) x = q (pre.reverse ++ seen') x
  | _, _, [] => by
    refine ⟨fun _ pre x post h => ?_, fun _ => rfl⟩
    simp at h
  | seen, seen', y :: ys => by
    rw [marks, marks, cons.injEq, marks_eq_iff]
    constructor
    · intro ⟨hy, hys⟩ pre x post h
      cases pre with
      | nil =>
        obtain ⟨rfl, -⟩ := cons.inj h
        exact hy
      | cons z pre =>
        obtain ⟨rfl, htail⟩ := cons.inj h
        have := hys pre x post htail
        rwa [reverse_cons, append_assoc, append_assoc, singleton_append, singleton_append]
    · intro h
      refine ⟨h [] y ys rfl, fun pre x post hys => ?_⟩
      have := h (y :: pre) x post (by rw [hys, cons_append])
      rwa [reverse_cons, append_assoc, append_assoc, singleton_append, singleton_append] at this

theorem marks_congr
    (h : ∀ pre x post, xs = pre ++ x :: post → p (pre.reverse ++ seen) x = q (pre.reverse ++ seen) x) :
    marks p seen xs = marks q seen xs := marks_eq_iff.2 h

theorem filter_kept (p : List α → α → Bool) (q : α → Bool) :
    ∀ seen xs : List α, (kept p seen xs).filter q = kept (fun seen x => p seen x && q x) seen xs
  | _, [] => rfl
  | seen, x :: xs => by
    have ih := filter_kept p q (x :: seen) xs
    rw [kept, kept]
    cases hp : p seen x <;> cases hq : q x <;> simp [hq, ih]

theorem marks_map_from (p : List β → β → Bool) (f : α → β) (seen : List β) : ∀ seen' xs,
    marks p (seen'.map f ++ seen) (xs.map f) =
      marks (fun seen' x => p (seen'.map f ++ seen) (f x)) seen' xs
  | _, [] => rfl
  | seen', x :: xs => by
    have ih := marks_map_from p f seen (x :: seen') xs
    rw [map_cons, cons_append] at ih
    rw [map_cons, marks, marks, ih]

theorem marks_map (p : List β → β → Bool) (f : α → β) (seen : List β) (xs : List α) :
    marks p seen (xs.map f) = marks (fun seen' x => p (seen'.map f ++ seen) (f x)) [] xs :=
  marks_map_from p f seen [] xs

theorem selected_map (f : α → β) : ∀ (xs : List α) (flags : List Bool),
    selected (xs.map f) flags = (selected xs flags).map f
  | [], [] => rfl
  | [], _ :: _ => rfl
  | _ :: _, [] => rfl
  | x :: xs, b :: bs => by
    rw [map_cons, selected, selected, selected_map f xs bs]
    split <;> rfl

theorem kept_map (p : List β → β → Bool) (f : α → β) (seen : List β) (xs : List α) :
    kept p seen (xs.map f) = (kept (fun seen' x => p (seen'.map f ++ seen) (f x)) [] xs).map f := by
  rw [← selected_marks, marks_map, selected_map, selected_marks]

theorem kept_eq_filter {q : α → Bool} : ∀ {seen xs : List α},
    (∀ pre x post, xs = pre ++ x :: post → p (pre.reverse ++ seen) x = q x) →
      kept p seen xs = xs.filter q := by
  intro seen xs h
  have hmarks : marks p seen xs = marks (fun _ x => q x) seen xs := marks_congr h
  rw [← selected_marks, hmarks, selected_marks]
  clear h hmarks
  induction xs generalizing seen with
  | nil => rfl
  | cons x xs ih => rw [kept, filter_cons, ih]

/-! ## The newest element of each key -/

variable [DecidableEq κ]

/-- No element seen has the key of `x`; elements without a key are not kept. -/
def isNewest (key : α → Option κ) (seen : List α) (x : α) : Bool :=
  (key x).isSome && seen.all fun y => key y ≠ key x

/-- The newest element of each key of a log, newest first. -/
def newest (key : α → Option κ) (xs : List α) : List α := kept (isNewest key) [] xs

/-- Whether no element of `seen` has the key of `x`. -/
def fresh (key : α → Option κ) (seen : List α) (x : α) : Bool := seen.all fun y => key y ≠ key x

variable {key : α → Option κ} {x : α}

theorem fresh_iff : fresh key seen x = true ↔ ∀ y ∈ seen, key y ≠ key x := by
  simp [fresh]

theorem isNewest_iff : isNewest key seen x = true ↔ (key x).isSome ∧ ∀ y ∈ seen, key y ≠ key x := by
  simp [isNewest]

theorem isNewest_append (seen older : List α) (x : α) :
    isNewest key (seen ++ older) x = (isNewest key seen x && fresh key older x) := by
  rw [isNewest, isNewest, fresh, all_append, Bool.and_assoc]

theorem kept_isNewest (older : List α) : ∀ seen xs : List α,
    kept (isNewest key) (seen ++ older) xs = (kept (isNewest key) seen xs).filter (fresh key older)
  | _, [] => rfl
  | seen, x :: xs => by
    rw [kept, kept, isNewest_append, ← cons_append, kept_isNewest older (x :: seen) xs]
    cases hn : isNewest key seen x <;> cases hf : fresh key older x <;> simp [hf]

theorem fresh_reverse (seen : List α) (x : α) : fresh key seen.reverse x = fresh key seen x := by
  rw [Bool.eq_iff_iff, fresh_iff, fresh_iff]
  simp only [mem_reverse]

/-- Of an older log, the newest elements whose key the newer log does not have. -/
theorem newest_append (xs ys : List α) :
    newest key (xs ++ ys) = newest key xs ++ (newest key ys).filter (fresh key xs) := by
  rw [newest, kept_append, append_nil, ← nil_append xs.reverse, kept_isNewest]
  congr 1
  exact filter_congr fun y _ => fresh_reverse xs y

theorem kept_sublist (p : List α → α → Bool) : ∀ seen xs : List α, (kept p seen xs).Sublist xs
  | _, [] => .slnil
  | seen, x :: xs => by
    rw [kept]
    split
    · exact (kept_sublist p _ xs).cons_cons x
    · exact (kept_sublist p _ xs).cons x

theorem kept_sublist_kept (h : ∀ seen x, p seen x = true → q seen x = true) :
    ∀ seen xs : List α, (kept p seen xs).Sublist (kept q seen xs)
  | _, [] => .slnil
  | seen, x :: xs => by
    have ih := kept_sublist_kept h (x :: seen) xs
    rw [kept, kept]
    cases hp : p seen x with
    | true =>
      rw [h seen x hp]
      exact ih.cons_cons x
    | false =>
      cases q seen x with
      | true => exact ih.cons x
      | false => exact ih

theorem newest_eq_filter : ∀ {xs : List α},
    xs.Pairwise (fun x y => (key y).isSome → key x ≠ key y) →
      newest key xs = xs.filter fun x => (key x).isSome
  | [], _ => rfl
  | x :: xs, h => by
    rw [pairwise_cons] at h
    have hxs : (newest key xs).filter (fresh key [x]) = xs.filter fun x => (key x).isSome := by
      rw [newest_eq_filter h.2, filter_filter]
      apply filter_congr
      intro y hy
      cases hk : (key y).isSome with
      | false => simp
      | true =>
        have hne := h.1 y hy hk
        simp [fresh, hne]
    rw [← singleton_append, newest_append, filter_append]
    congr 1
    cases hk : (key x).isSome <;> simp [newest, kept, isNewest, hk]

theorem newest_pairwise (key : α → Option κ) :
    ∀ xs : List α, (newest key xs).Pairwise fun x y => key x ≠ key y
  | [] => .nil
  | x :: xs => by
    rw [← singleton_append, newest_append, pairwise_append]
    refine ⟨?_, (newest_pairwise key xs).filter _, ?_⟩
    · cases hk : (key x).isSome <;> simp [newest, kept, isNewest, hk]
    · intro a ha b hb
      have hx : a = x := by
        have := (kept_sublist _ _ _).subset ha
        simpa using this
      subst hx
      exact fresh_iff.1 (mem_filter.1 hb).2 a (.head _)

theorem exists_of_mem_kept {y : α} : ∀ {seen xs : List α}, y ∈ kept p seen xs → ∃ seen',
    p seen' y = true
  | _, [], h => by cases h
  | seen, x :: xs, h => by
    rw [kept] at h
    split at h
    next hx =>
      rcases mem_cons.1 h with rfl | h
      · exact ⟨seen, hx⟩
      · exact exists_of_mem_kept h
    next => exact exists_of_mem_kept h

theorem isSome_of_mem_newest (h : x ∈ newest key xs) : (key x).isSome := by
  obtain ⟨seen, hx⟩ := exists_of_mem_kept h
  exact (isNewest_iff.1 hx).1

theorem newest_newest (xs : List α) : newest key (newest key xs) = newest key xs := by
  have hp : (newest key xs).Pairwise fun x y => (key y).isSome → key x ≠ key y := by
    refine (newest_pairwise key xs).imp ?_
    intro x y h _
    exact h
  rw [newest_eq_filter hp]
  exact filter_eq_self.2 fun x hx => isSome_of_mem_newest hx

theorem newest_filter_isSome (xs : List α) : newest key (xs.filter fun x => (key x).isSome) =
    newest key xs := by
  induction xs with
  | nil => rfl
  | cons x xs ih =>
    rw [← singleton_append, filter_append, newest_append, newest_append, ih]
    cases hk : (key x).isSome with
    | true => simp [hk]
    | false =>
      have hnone : key x = none := by simpa using hk
      congr 1
      · simp [newest, kept, isNewest, hk]
      · apply filter_congr
        intro y hy
        have hy := isSome_of_mem_newest hy
        cases hky : key y with
        | none => rw [hky] at hy; cases hy
        | some k => simp [fresh, hnone, hky]

/-- **An older log may be replaced** by any list with the same newest elements. -/
theorem newest_append_congr {ys zs : List α} (h : newest key ys = newest key zs) :
    newest key (xs ++ ys) = newest key (xs ++ zs) := by
  rw [newest_append, newest_append, h]

theorem find?_kept {k : κ} : ∀ {seen xs : List α}, (∀ y ∈ seen, key y ≠ some k) →
    (kept (isNewest key) seen xs).find? (fun x => key x = some k) = xs.find? fun x => key x = some k
  | _, [], _ => rfl
  | seen, x :: xs, h => by
    rw [kept]
    by_cases hk : key x = some k
    · rw [if_pos (isNewest_iff.2 ⟨by simp [hk], fun y hy => hk ▸ h y hy⟩)]
      simp [hk]
    · have ih := @find?_kept k (x :: seen) xs (forall_mem_cons.2 ⟨hk, h⟩)
      split <;> simp [hk, ih]

theorem find?_newest (k : κ) (xs : List α) :
    (newest key xs).find? (fun x => key x = some k) = xs.find? fun x => key x = some k :=
      find?_kept nofun

variable {k : κ}

theorem mem_newest_iff (hx : key x = some k) :
    x ∈ newest key xs ↔ xs.find? (fun y => key y = some k) = some x := by
  rw [← find?_newest]
  constructor
  · intro h
    obtain ⟨as, bs, hsplit⟩ := append_of_mem h
    have hp := newest_pairwise key xs
    rw [hsplit] at hp ⊢
    refine find?_eq_some_iff_append.2 ⟨decide_eq_true hx, as, bs, rfl, fun y hy => ?_⟩
    simpa [hx] using (pairwise_append.1 hp).2.2 y hy x (.head _)
  · exact mem_of_find?_eq_some

theorem findSome?_newest {g : α → Option β} (hg : ∀ x, (g x).isSome ↔ key x = some k)
    (xs : List α) : (newest key xs).findSome? g = xs.findSome? g := by
  have hfind : ∀ ys : List α, ys.findSome? g = (ys.find? fun x => key x = some k).bind g := by
    intro ys
    induction ys with
    | nil => rfl
    | cons y ys ih =>
      have hy := hg y
      cases h : g y <;> simp_all
  rw [hfind, hfind, find?_newest]

/-! ## Keys seen -/

/-- `known` holds of the keys of the elements seen. -/
def Knows (key : α → Option κ) (seen : List α) (known : κ → Prop) : Prop :=
  ∀ k, known k ↔ ∃ y ∈ seen, key y = some k

namespace Knows

variable {known known' : κ → Prop}

omit [DecidableEq κ] in
theorem skip (h : Knows key seen known) (hx : ∀ k, key x = some k → known k) :
    Knows key (x :: seen) known := by
  intro k
  have := h k
  grind

omit [DecidableEq κ] in
theorem add (h : Knows key seen known) (hx : key x = some k)
    (hk : ∀ k', known' k' ↔ k' = k ∨ known k') : Knows key (x :: seen) known' := by
  intro k'
  have := h k'
  grind

theorem isNewest_iff (h : Knows key seen known) (hx : key x = some k) : isNewest key seen x = true ↔
    ¬known k := by
  rw [Newest.isNewest_iff, h k]
  grind

end Knows

/-! ## Loops over rows and their flags -/

/-- `for row in rows` with a flag per row: each round may change the flag of its own row. A flag
missing at the end is an index beyond the buffer. -/
def eachRow (f : σ → α → Bool → Res (σ × Bool)) : σ → List α → List Bool → Res (σ × List Bool)
  | s, [], flags => .ok (s, flags)
  | _, _ :: _, [] => .error .index
  | s, x :: xs, b :: bs => do
    let (s, b) ← f s x b
    let (s, bs) ← eachRow f s xs bs
    .ok (s, b :: bs)

theorem eachRow_map (f : σ → β → Bool → Res (σ × Bool)) (g : α → β) :
      ∀ (s : σ) (xs : List α) (flags : List Bool), eachRow f s (xs.map g) flags =
        eachRow (fun s x b => f s (g x) b) s xs flags
  | _, [], _ => rfl
  | _, _ :: _, [] => rfl
  | s, x :: xs, b :: bs => by
    rw [map_cons, eachRow]
    congr 1
    funext ⟨s', b'⟩
    dsimp only
    rw [eachRow_map f g]

variable {f : σ → α → Bool → Res (σ × Bool)}

/-- **The flags of a loop** whose state stands for the rows seen: on a row flagged by the rule `q`,
each round succeeds with the flag of the rule `p` and a state that stands for one more row. -/
theorem eachRow_marks (R : List α → σ → Prop) {rest : List Bool} : ∀ {rows seen : List α} {s : σ},
    (∀ pre x post, rows = pre ++ x :: post → ∀ s, R (pre.reverse ++ seen) s →
      ∃ s', f s x (q (pre.reverse ++ seen) x) = .ok (s', p (pre.reverse ++ seen) x) ∧
        R (x :: (pre.reverse ++ seen)) s') →
    R seen s →
    ∃ s', eachRow f s rows (marks q seen rows ++ rest) = .ok (s', marks p seen rows ++ rest) ∧
      R (rows.reverse ++ seen) s'
  | [], seen, s, _, hR => ⟨s, rfl, hR⟩
  | x :: xs, seen, s, hstep, hR => by
    obtain ⟨s1, h1, hR1⟩ := hstep [] x xs rfl s hR
    obtain ⟨s2, h2, hR2⟩ : ∃ s', eachRow f s1 xs (marks q (x :: seen) xs ++ rest) =
        .ok (s', marks p (x :: seen) xs ++ rest) ∧ R (xs.reverse ++ x :: seen) s' :=
      eachRow_marks R (fun pre y post hxs s => by
        simpa using hstep (x :: pre) y post (by rw [hxs, cons_append]) s) hR1
    refine ⟨s2, ?_, ?_⟩
    · rw [reverse_nil, nil_append] at h1
      rw [marks, cons_append, eachRow, h1, Res.ok_bind]
      dsimp only
      rw [h2]
      rfl
    · rw [reverse_cons, append_assoc]
      exact hR2

theorem eachRow_all {P : σ → Prop}
    (hf : ∀ s x b s' b', f s x b = .ok (s', b') → P s' → P s ∧ b' = true) :
    ∀ {rows : List α} {s s' : σ} {flags flags' : List Bool}, eachRow f s rows flags =
      .ok (s', flags') → P s' →
      P s ∧ flags'.take rows.length = replicate rows.length true
  | [], s, s', flags, flags', h, hP => by
    cases h
    exact ⟨hP, rfl⟩
  | x :: xs, s, s', [], flags', h, _ => by cases h
  | x :: xs, s, s', b :: bs, flags', h, hP => by
    rw [eachRow, Res.bind_eq_ok] at h
    obtain ⟨⟨s1, b1⟩, h1, h⟩ := h
    rw [Res.bind_eq_ok] at h
    obtain ⟨⟨s2, bs2⟩, h2, h⟩ := h
    cases h
    obtain ⟨hP1, hbs⟩ := eachRow_all hf h2 hP
    obtain ⟨hP0, rfl⟩ := hf s x b s1 b1 h1 hP1
    refine ⟨hP0, ?_⟩
    rw [length_cons, take_succ_cons, hbs, replicate_succ]

theorem selected_replicate_true : ∀ xs : List α, selected xs (replicate xs.length true) = xs
  | [] => rfl
  | x :: xs => by rw [length_cons, replicate_succ, selected, if_pos rfl, selected_replicate_true xs]

end Newest
