import RisingLake.Frontend.Proof.Rewrite

/-!
# Simplification keeps what a filter passes

A conjunct is true if all its conjunctions are, a disjunction if one of its disjunctions is. Taking
out common factors keeps when a conjunct is true (`factorizationExpr_ok`), and de-duplication keeps
the set of conjuncts. A conjunct of the form `e = e` is replaced by a test of the columns collected
from it, which is true on the rows that `Passes` describes. That is right on a row only if `e` is
NULL there just when a collected column is: a function that is not strict breaks it, and so do the
constant NULL and a call whose inputs are not looked into (`simplify_self_equal`).
-/

namespace Frontend

open Res ExprImpl List

variable {sem : Semantics} {schema : Nat → DataType} {row : Row}

/-! ## Splitting -/

variable {e : ExprImpl} {es : List ExprImpl} {op : ExprType}

theorem splitExprBy_induction (hop : op = .and ∨ op = .or)
    {P : ExprImpl → List ExprImpl → Prop} (hatom : ∀ e, e.BoolTyped schema → P e [e])
    (hbinary : ∀ a b xs ys, P a xs → P b ys → P (functionCall op [a, b] .boolean) (xs ++ ys))
    (h : e.BoolTyped schema) : P e (splitExprBy op e) := by
  induction e using inductionOn with
  | inputRef | literal | leaf | otherCall => simpa [splitExprBy] using hatom _ h
  | functionCall f inputs t ih =>
    rw [splitExprBy]
    split
    · rename_i hf
      obtain ⟨a, b, rfl, rfl, ha, hb⟩ := binary_inputs (hf ▸ hop) h.wellTyped
      subst hf
      simpa [splitExprsBy] using hbinary a b _ _ (ih a (.head _) ha) (ih b (.tail _ (.head _)) hb)
    · exact hatom _ h

theorem boolTyped_splitExprBy (hop : op = .and ∨ op = .or) (h : e.BoolTyped schema) :
    ∀ x ∈ splitExprBy op e, x.BoolTyped schema := by
  refine splitExprBy_induction (P := fun _ xs => ∀ x ∈ xs, x.BoolTyped schema) hop ?_ ?_ h
  · simp
  · exact fun _ _ _ _ ha hb => forall_mem_append.2 ⟨ha, hb⟩

theorem isTrue_toConjunctions (h : e.BoolTyped schema) :
    (∀ x ∈ toConjunctions e, x.IsTrue sem row) ↔ e.IsTrue sem row := by
  refine splitExprBy_induction (P := fun e xs => (∀ x ∈ xs, x.IsTrue sem row) ↔ e.IsTrue sem row)
    (.inl rfl) ?_ ?_ h
  · simp
  · intro a b xs ys ha hb
    rw [forall_mem_append, ha, hb, isTrue_and]

theorem isTrue_toDisjunctions (h : e.BoolTyped schema) :
    (∃ x ∈ toDisjunctions e, x.IsTrue sem row) ↔ e.IsTrue sem row := by
  refine splitExprBy_induction (P := fun e xs => (∃ x ∈ xs, x.IsTrue sem row) ↔ e.IsTrue sem row)
    (.inr rfl) ?_ ?_ h
  · simp
  · intro a b xs ys ha hb
    simp only [mem_append, or_and_right, exists_or]
    rw [ha, hb, isTrue_or]

theorem toDisjunctions_ne_nil (h : e.BoolTyped schema) : toDisjunctions e ≠ [] := by
  refine splitExprBy_induction (P := fun _ xs => xs ≠ []) (.inr rfl) ?_ ?_ h
  · simp
  · simp +contextual

/-! ## Merging -/

/-- The loop merges a queue to an expression that is true when `Q` says that the queue is, if `Q`
does not depend on the order and one merge keeps it. -/
theorem mergeLoop_ok (sem : Semantics) (hop : op = .and ∨ op = .or) {identityElem : ExprImpl}
    (hid : identityElem.BoolTyped schema) {Q : Row → List ExprImpl → Prop}
    (hnil : ∀ row, Q row [] ↔ identityElem.IsTrue sem row)
    (hone : ∀ row e, Q row [e] ↔ e.IsTrue sem row)
    (hperm : ∀ row xs ys, xs.Perm ys → (Q row xs ↔ Q row ys))
    (hmerge : ∀ row a b es, Q row (a :: b :: es) ↔ Q row (functionCall op [a, b] .boolean :: es))
    (q : List (Nat × ExprImpl)) (hq : ∀ x ∈ q, x.2.BoolTyped schema) :
    ∃ e, mergeLoop op identityElem q = .ok e ∧ e.BoolTyped schema ∧
      ∀ row, e.IsTrue sem row ↔ Q row (q.map (·.2)) := by
  induction q using mergeLoop.induct with
  | case1 => exact ⟨identityElem, by rw [mergeLoop], hid, fun row => (hnil row).symm⟩
  | case2 level e => exact ⟨e, by rw [mergeLoop], hq _ (.head _), fun row => (hone row e).symm⟩
  | case3 level lhs rhsLevel rhs exprs hlt ih =>
    obtain ⟨e, hrun, he, hiff⟩ := ih fun x hx => hq x (by simp at hx ⊢; tauto)
    refine ⟨e, by rw [mergeLoop, if_pos hlt, hrun], he, fun row => ?_⟩
    refine (hiff row).trans (hperm row _ _ ?_)
    simp only [map_append, map_cons]
    exact perm_append_singleton _ _
  | case4 level lhs rhsLevel rhs exprs hlt ih =>
    have hwt := (wellTyped_binary hop).2 ⟨hq _ (.head _), hq _ (.tail _ (.head _))⟩
    obtain ⟨e, hrun, he, hiff⟩ := ih (functionCall op [lhs, rhs] .boolean) <| forall_mem_append.2
      ⟨fun x hx => hq x (.tail _ (.tail _ hx)), forall_mem_singleton.2 ⟨hwt, rfl⟩⟩
    refine ⟨e, by rw [mergeLoop, if_neg hlt, functionCall_new_ok hwt, ok_bind, hrun], he,
      fun row => ?_⟩
    rw [hiff, map_cons, map_cons, hmerge]
    simp only [map_append, map_cons]
    exact hperm row _ _ (perm_append_singleton _ _)

theorem exprAnd_ok (sem : Semantics) (h : ∀ e ∈ es, e.BoolTyped schema) :
    ∃ e, exprAnd es = .ok e ∧ e.BoolTyped schema ∧ ∀ row, e.IsTrue sem row ↔
      ∀ x ∈ es, x.IsTrue sem row := by
  obtain ⟨e, hrun, he, hiff⟩ := mergeLoop_ok sem (.inl rfl) (boolTyped_literalBool true)
    (Q := fun row es => ∀ x ∈ es, x.IsTrue sem row) (by simp) (by simp)
    (fun row xs ys hp => by simp only [hp.mem_iff]) (fun row a b es => by simp [isTrue_and, and_assoc])
    (es.map fun e => (0, e)) (by simpa using h)
  exact ⟨e, hrun, he, fun row => (hiff row).trans (by simp)⟩

theorem exprOr_ok (sem : Semantics) (h : ∀ e ∈ es, e.BoolTyped schema) :
    ∃ e, exprOr es = .ok e ∧ e.BoolTyped schema ∧ ∀ row, e.IsTrue sem row ↔
      ∃ x ∈ es, x.IsTrue sem row := by
  obtain ⟨e, hrun, he, hiff⟩ := mergeLoop_ok sem (.inr rfl) (boolTyped_literalBool false)
    (Q := fun row es => ∃ x ∈ es, x.IsTrue sem row) (by simp) (by simp)
    (fun row xs ys hp => by simp only [hp.mem_iff]) (fun row a b es => by simp [isTrue_or, or_assoc])
    (es.map fun e => (0, e)) (by simpa using h)
  exact ⟨e, hrun, he, fun row => (hiff row).trans (by simp)⟩

/-! ## Common factors -/

variable {ds : List (List ExprImpl)}

theorem mapM_exprAnd_ok (sem : Semantics) (h : ∀ d ∈ ds, ∀ e ∈ d, e.BoolTyped schema) :
    ∃ es, ds.mapM exprAnd = .ok es ∧ (∀ e ∈ es, e.BoolTyped schema) ∧
      ∀ row, (∃ e ∈ es, e.IsTrue sem row) ↔ ∃ d ∈ ds, ∀ x ∈ d, x.IsTrue sem row := by
  obtain ⟨es, hrun, hes⟩ := mapM_forall₂ fun d hd => exprAnd_ok sem (h d hd)
  refine ⟨es, hrun, fun e he => ?_, fun row => ?_⟩
  · obtain ⟨d, -, he, -⟩ := exists_of_forall₂_mem hes he
    exact he
  · clear hrun h
    induction hes with
    | nil => simp
    | cons hd _ ih => simp only [mem_cons, exists_eq_or_imp, hd.2 row, ih]

theorem mapM_foldBooleanConstant_ok (sem : Semantics) (h : ∀ e ∈ es, e.BoolTyped schema) :
    ∃ es', es.mapM foldBooleanConstant = .ok es' ∧ List.Forall₂ (Equiv sem schema) es es' :=
  mapM_forall₂ fun e he => foldBooleanConstant_ok (h e he).wellTyped

variable {es' : List ExprImpl}

theorem forall_isTrue_of_equiv (h : List.Forall₂ (Equiv sem schema) es es')
    (hrow : row.HasTypes schema) : (∀ e ∈ es', e.IsTrue sem row) ↔ ∀ e ∈ es, e.IsTrue sem row := by
  induction h with
  | nil => rfl
  | cons heq _ ih => rw [forall_mem_cons, forall_mem_cons, heq.isTrue_iff hrow, ih]

theorem boolTyped_of_equiv (h : List.Forall₂ (Equiv sem schema) es es')
    (hes : ∀ e ∈ es, e.BoolTyped schema) : ∀ e ∈ es', e.BoolTyped schema := by
  intro e' he'
  obtain ⟨e, he, heq⟩ := exists_of_forall₂_mem h he'
  exact heq.boolTyped (hes e he)

theorem common_factor_iff {p : ExprImpl → Prop} {gcd : List ExprImpl}
    (hgcd : ∀ d ∈ ds, ∀ x ∈ gcd, x ∈ d) :
    ((∀ x ∈ gcd, p x) ∧ ∃ d ∈ ds, ∀ x ∈ d, x ∉ gcd → p x) ↔ ∃ d ∈ ds, ∀ x ∈ d, p x := by
  constructor
  · rintro ⟨hp, d, hd, hrest⟩
    refine ⟨d, hd, fun x hx => ?_⟩
    by_cases hxg : x ∈ gcd
    · exact hp x hxg
    · exact hrest x hx hxg
  · rintro ⟨d, hd, hall⟩
    exact ⟨fun x hx => hall x (hgcd d hd x hx), d, hd, fun x hx _ => hall x hx⟩

theorem factorize_ok (sem : Semantics) {remaining : List (List ExprImpl)} {last : List ExprImpl}
    (hremaining : ∀ d ∈ remaining, ∀ e ∈ d, e.BoolTyped schema)
    (hlast : ∀ e ∈ last, e.BoolTyped schema) :
    ∃ es, factorize remaining last = .ok es ∧ (∀ e ∈ es, e.BoolTyped schema) ∧
      ∀ row : Row, row.HasTypes schema → ((∀ e ∈ es, e.IsTrue sem row) ↔
        ∃ d ∈ remaining ++ [last], ∀ x ∈ d, x.IsTrue sem row) := by
  let isCommon := fun factor => remaining.all fun expr => expr.contains factor
  let gcd := last.filter isCommon
  let rest := (remaining ++ [last]).map fun d => d.filter fun factor => !gcd.contains factor
  have hsplit : remaining.map (fun d => d.filter fun factor => !gcd.contains factor) ++
      [last.filter fun factor => !isCommon factor] = rest := by
    have hlastRest : (last.filter fun factor => !isCommon factor) =
        last.filter fun factor => !gcd.contains factor := by
      refine filter_congr fun x hx => ?_
      simp [gcd, hx]
    rw [hlastRest]
    simp [rest]
  have hrest : ∀ d ∈ rest, ∀ e ∈ d, e.BoolTyped schema := by
    intro d hd e he
    obtain ⟨d', hd', rfl⟩ := mem_map.1 hd
    rcases mem_append.1 hd' with hd' | hd'
    · exact hremaining d' hd' e (mem_of_mem_filter he)
    · rw [mem_singleton.1 hd'] at he
      exact hlast e (mem_of_mem_filter he)
  obtain ⟨ands, hands, handsTyped, handsIff⟩ := mapM_exprAnd_ok sem hrest
  obtain ⟨or, hor, horTyped, horIff⟩ := exprOr_ok sem handsTyped
  have hall : ∀ e ∈ gcd ++ [or], e.BoolTyped schema :=
    forall_mem_append.2 ⟨fun e he => hlast e (mem_of_mem_filter he), forall_mem_singleton.2 horTyped⟩
  obtain ⟨es, hes, heqs⟩ := mapM_foldBooleanConstant_ok sem hall
  refine ⟨es, ?_, boolTyped_of_equiv heqs hall, fun row hrow => ?_⟩
  · show ((remaining.map (fun d : List ExprImpl => d.filter fun factor => !gcd.contains factor) ++
      [last.filter fun factor => !isCommon factor]).mapM exprAnd >>= fun es =>
        exprOr es >>= fun remaining => (gcd ++ [remaining]).mapM foldBooleanConstant) = _
    rw [hsplit, hands, ok_bind, hor, ok_bind, hes]
  · rw [forall_isTrue_of_equiv heqs hrow, forall_mem_append, forall_mem_singleton, horIff, handsIff]
    have hcommon : ∀ d ∈ remaining ++ [last], ∀ x ∈ gcd, x ∈ d := by
      intro d hd x hx
      obtain ⟨hx, hc⟩ := mem_filter.1 hx
      rcases mem_append.1 hd with hd | hd
      · simpa using all_eq_true.1 hc d hd
      · rw [mem_singleton.1 hd]
        exact hx
    rw [← common_factor_iff hcommon]
    simp [rest]

theorem factorizationExpr_ok (sem : Semantics) (h : e.BoolTyped schema) :
    ∃ es, factorizationExpr e = .ok es ∧ (∀ x ∈ es, x.BoolTyped schema) ∧
      ∀ row : Row, row.HasTypes schema → ((∀ x ∈ es, x.IsTrue sem row) ↔ e.IsTrue sem row) := by
  have hdisjs := boolTyped_splitExprBy (.inr rfl) h
  unfold factorizationExpr
  dsimp only
  split
  · rename_i hlen
    refine ⟨_, rfl, hdisjs, fun row _ => ?_⟩
    obtain ⟨x, hx⟩ := length_eq_one_iff.1 hlen
    rw [← isTrue_toDisjunctions h, hx]
    simp
  · have hne := toDisjunctions_ne_nil h
    let ds := (toDisjunctions e).map toConjunctions
    have hds : ds ≠ [] := by simpa [ds] using hne
    have htyped : ∀ d ∈ ds, ∀ x ∈ d, x.BoolTyped schema := by
      intro d hd
      obtain ⟨y, hy, rfl⟩ := mem_map.1 hd
      exact boolTyped_splitExprBy (.inl rfl) (hdisjs y hy)
    obtain ⟨es, hrun, hes, hiff⟩ := factorize_ok sem
      (fun d hd => htyped d (mem_of_mem_dropLast hd)) (htyped _ (getLast_mem hds))
    refine ⟨es, ?_, hes, fun row hrow => ?_⟩
    · rw [getLast?_eq_some_getLast hds, unwrap, ok_bind, hrun]
    · rw [hiff row hrow, dropLast_concat_getLast hds, ← isTrue_toDisjunctions h]
      simp only [ds, mem_map, exists_exists_and_eq_and]
      refine exists_congr fun d => and_congr_right fun hd => ?_
      exact isTrue_toConjunctions (hdisjs d hd)

/-! ## Self-equalities -/

open ColumnSelfEqualRewriter

theorem extractColumns_forall {P : ExprImpl → Prop} : ∀ {columns : List ExprImpl},
    (∀ e ∈ es, ∀ columns, (∀ c ∈ columns, P c) → ∀ c ∈ extractColumn columns e, P c) →
    (∀ c ∈ columns, P c) → ∀ c ∈ extractColumns columns es, P c := by
  induction es with
  | nil => exact fun _ h => h
  | cons e es ih =>
    intro columns hes h
    rw [forall_mem_cons] at hes
    exact ih hes.2 (hes.1 columns h)

theorem columns_subset_columnsOf (he : e ∈ es) : e.columns ⊆ columnsOf es := by
  induction es with
  | nil => cases he
  | cons x es ih =>
    rw [columnsOf]
    rcases mem_cons.1 he with rfl | he
    · exact subset_append_left _ _
    · exact subset_append_of_subset_right _ (ih he)

theorem extractColumn_forall {P : ExprImpl → Prop} (h : e.WellTyped schema)
    (hP : ∀ i ∈ e.columns, P (inputRef i (schema i))) :
    ∀ columns, (∀ c ∈ columns, P c) → ∀ c ∈ extractColumn columns e, P c := by
  induction e using inductionOn with
  | inputRef i t =>
    intro columns hcolumns
    rw [extractColumn]
    split
    · exact hcolumns
    · subst h
      exact forall_mem_append.2 ⟨hcolumns, forall_mem_singleton.2 (hP i (.head _))⟩
  | literal | leaf | otherCall => exact fun _ hcolumns => hcolumns
  | functionCall f inputs t ih =>
    intro columns hcolumns
    rw [extractColumn]
    split
    · exact hcolumns
    · exact extractColumns_forall (fun e he => ih e he (wellTypedInputs_iff.1 h.1 e he)
        fun i hi => hP i (columns_subset_columnsOf he hi)) hcolumns

theorem isTrue_self_equal {t : DataType} :
    (functionCall .equal [e, e] t).IsTrue sem row ↔ (e.eval sem row).isSome := by
  simp only [IsTrue, eval, evalInputs, evalCall, evalLogic]
  cases e.eval sem row <;> simp [compareDatums]

theorem isTrue_isNotNull {c : ExprImpl} {t : DataType} :
    (functionCall .isNotNull [c] t).IsTrue sem row ↔ (c.eval sem row).isSome := by
  simp [IsTrue, eval, evalCall, evalLogic]

theorem columnSelfEqEliminate_self_equal (sem : Semantics)
    (h : (functionCall .equal [e, e] .boolean).WellTyped schema)
    (hlen : (extractColumn [] (functionCall .equal [e, e] .boolean)).length ≤ 1) :
    ∃ e', columnSelfEqEliminate (functionCall .equal [e, e] .boolean) = .ok e' ∧
      e'.BoolTyped schema ∧ ∀ row : Row, (e'.IsTrue sem row ↔
        ∀ c ∈ extractColumn [] (functionCall .equal [e, e] .boolean), (c.eval sem row).isSome) := by
  have hcolumns := extractColumn_forall (P := fun c => ∃ i, c = inputRef i (schema i)) h
    (fun i _ => ⟨i, rfl⟩) [] (by simp)
  unfold columnSelfEqEliminate rewrite
  simp only [hlen.not_gt, decide_true, assert_true, ok_bind]
  cases hcols : extractColumn [] (functionCall .equal [e, e] .boolean) with
  | nil => exact ⟨_, rfl, boolTyped_literalBool true, fun row => by simp⟩
  | cons c cs =>
    obtain rfl : cs = [] := by
      rw [hcols, length_cons] at hlen
      exact eq_nil_of_length_eq_zero (by omega)
    obtain ⟨i, rfl⟩ := hcolumns c (by rw [hcols]; exact .head _)
    have hwt : (functionCall .isNotNull [inputRef i (schema i)] .boolean).WellTyped schema :=
      ⟨⟨rfl, trivial⟩, rfl, rfl⟩
    refine ⟨_, functionCall_new_ok hwt, ⟨hwt, rfl⟩, fun row => ?_⟩
    rw [isTrue_isNotNull, forall_mem_singleton]

theorem columnSelfEqEliminate_other (ht : e.returnType = .boolean)
    (h : ∀ x, e = functionCall .equal [x, x] .boolean → 1 < (extractColumn [] e).length) :
    columnSelfEqEliminate e = .ok e := by
  unfold columnSelfEqEliminate rewrite
  dsimp only
  split
  · rfl
  · rename_i hlen
    split
    · rename_i e1 e2 t
      obtain rfl : t = .boolean := ht
      have hne : e1 ≠ e2 := fun heq => hlen (h e1 (by rw [← heq]))
      simp [hne]
    · rfl

/-! ## The condition -/

namespace Condition

theorem normalForm_ok (sem : Semantics) (h : e.WellTyped schema) :
    ∃ e', normalForm e = .ok e' ∧ Equiv sem schema e e' := by
  obtain ⟨e₁, hrun₁, heq₁⟩ := @pushDownNot_ok sem schema e h
  obtain ⟨e₂, hrun₂, heq₂⟩ := @foldBooleanConstant_ok sem schema e₁ heq₁.wellTyped
  exact ⟨e₂, by rw [normalForm, hrun₁, ok_bind, hrun₂], heq₁.trans heq₂⟩

/-- The columns collected from a conjunct that is of the form `x = x` once NOT is pushed down and
constants are folded, unless there are two or more. -/
def selfEqColumns (e : ExprImpl) : Option (List ExprImpl) :=
  match normalForm e with
  | .ok (functionCall .equal [x, y] t) =>
    let columns := extractColumn [] (functionCall .equal [x, y] t)
    if x = y ∧ columns.length ≤ 1 then some columns else none
  | _ => none

/-- What takes the place of the conjunct is true on the row: no column collected from it is NULL
there, if it is a self-equality. -/
def Passes (sem : Semantics) (row : Row) (e : ExprImpl) : Prop :=
  match selfEqColumns e with
  | some columns => ∀ c ∈ columns, (c.eval sem row).isSome
  | none => e.IsTrue sem row

theorem selfEqColumns_eq_some {n : ExprImpl} {columns : List ExprImpl} (hn : normalForm e = .ok n)
    (ht : n.returnType = .boolean) : selfEqColumns e = some columns ↔
      ∃ x, n = functionCall .equal [x, x] .boolean ∧ columns = extractColumn [] n ∧
        columns.length ≤ 1 := by
  unfold selfEqColumns
  rw [hn]
  constructor
  · intro h
    split at h
    · rename_i x y t heq
      cases heq
      obtain rfl : t = .boolean := ht
      obtain ⟨⟨rfl, hlen⟩, hcols⟩ := Option.ite_none_right_eq_some.1 h
      cases hcols
      exact ⟨x, rfl, rfl, hlen⟩
    · cases h
  · rintro ⟨x, rfl, rfl, hlen⟩
    exact if_pos ⟨rfl, hlen⟩

/-- A conjunct becomes one that is true just on the rows that pass. -/
theorem conjunct_ok (sem : Semantics) (h : e.BoolTyped schema) :
    ∃ e', (do columnSelfEqEliminate (← normalForm e)) = .ok e' ∧ e'.BoolTyped schema ∧
      ∀ row : Row, row.HasTypes schema → (e'.IsTrue sem row ↔ Passes sem row e) := by
  obtain ⟨n, hn, heq⟩ := normalForm_ok sem h.wellTyped
  have htyped := heq.boolTyped h
  rw [hn, ok_bind]
  cases hcols : selfEqColumns e with
  | some columns =>
    obtain ⟨x, rfl, rfl, hlen⟩ := (selfEqColumns_eq_some hn htyped.boolean).1 hcols
    obtain ⟨e', hrun, he', hiff⟩ := columnSelfEqEliminate_self_equal sem htyped.wellTyped hlen
    exact ⟨e', hrun, he', fun row _ => by rw [hiff, Passes, hcols]⟩
  | none =>
    refine ⟨n, columnSelfEqEliminate_other htyped.boolean fun x hx => ?_, htyped, fun row hrow => ?_⟩
    · by_contra hlen
      have hsome := (selfEqColumns_eq_some hn htyped.boolean).2 ⟨x, hx, rfl, not_lt.1 hlen⟩
      simp [hcols] at hsome
    · rw [heq.isTrue_iff hrow, Passes, hcols]

theorem passes_iff_of_isSome (h : e.BoolTyped schema) (hrow : row.HasTypes schema)
    (hval : (e.eval sem row).isSome) (hcols : ∀ i ∈ e.columns, (row i).isSome) :
    Passes sem row e ↔ e.IsTrue sem row := by
  obtain ⟨n, hn, heq⟩ := normalForm_ok sem h.wellTyped
  unfold Passes
  split
  · rename_i columns hsome
    obtain ⟨x, rfl, rfl, -⟩ := (selfEqColumns_eq_some hn (heq.boolTyped h).boolean).1 hsome
    refine iff_of_true (extractColumn_forall heq.wellTyped (fun i hi => hcols i (heq.columns hi)) []
      (by simp)) ?_
    rw [← heq.isTrue_iff hrow, isTrue_self_equal]
    rw [← heq.eval row hrow] at hval
    revert hval
    simp only [eval, evalInputs, evalCall, evalLogic]
    cases x.eval sem row <;> simp [compareDatums, Datum.ofTruth]
  · rfl

theorem forall_isTrue_flatMap (h : ∀ e ∈ es, e.BoolTyped schema) :
    (∀ x ∈ es.flatMap toConjunctions, x.IsTrue sem row) ↔ ∀ e ∈ es, e.IsTrue sem row := by
  simp only [mem_flatMap, forall_exists_index, and_imp]
  constructor
  · intro hall e he
    exact (isTrue_toConjunctions (h e he)).1 fun x hx => hall x e he hx
  · intro hall x e he hx
    exact (isTrue_toConjunctions (h e he)).2 (hall e he) x hx

/-- What the de-duplication keeps: all that was visited is in the result, and the result with the
rest is true just when all conjuncts are. -/
structure Collects (sem : Semantics) (schema : Nat → DataType) (all rest : List ExprImpl)
    (state : List ExprImpl × List ExprImpl) : Prop where
  typed : ∀ e ∈ rest, e.BoolTyped schema
  visited : ∀ e ∈ state.2, e ∈ state.1
  isTrue_iff : ∀ row : Row, row.HasTypes schema →
    (((∀ e ∈ state.1, e.IsTrue sem row) ∧ ∀ e ∈ rest, e.IsTrue sem row) ↔ ∀ e ∈ all, e.IsTrue sem row)

theorem Collects.addFactors {all rest : List ExprImpl}
    {state : List ExprImpl × List ExprImpl} (h : Collects sem schema all (e :: rest) state) :
    ∃ state', Condition.addFactors state e = .ok state' ∧ Collects sem schema all rest state' := by
  obtain ⟨res, visited⟩ := state
  obtain ⟨he, hrest⟩ := forall_mem_cons.1 h.typed
  unfold Condition.addFactors
  dsimp only
  split
  · refine ⟨_, rfl, hrest, fun x hx => mem_append_left _ (h.visited x hx), fun row hrow => ?_⟩
    rw [← h.isTrue_iff row hrow, forall_mem_append, forall_mem_singleton, forall_mem_cons, and_assoc]
  obtain ⟨results, hrun, -, hiff⟩ := factorizationExpr_ok sem he
  refine ⟨_, by rw [hrun, ok_bind], hrest, fun x hx => ?_, fun row hrow => ?_⟩
  · by_cases hv : x ∈ visited
    · exact mem_append_left _ (h.visited x hv)
    · rcases mem_append.1 hx with hx | hx
      · exact absurd hx hv
      · exact mem_append_right _ (by simpa [hv] using hx)
  · have hresults : (∀ x ∈ res ++ results.filter (fun x => !visited.contains x), x.IsTrue sem row) ↔
        (∀ x ∈ res, x.IsTrue sem row) ∧ ∀ x ∈ results, x.IsTrue sem row := by
      rw [forall_mem_append]
      refine and_congr_right fun hres => ⟨fun hnew x hx => ?_, fun hall x hx => ?_⟩
      · by_cases hv : x ∈ visited
        · exact hres x (h.visited x hv)
        · exact hnew x (by simpa [hv] using hx)
      · exact hall x (mem_of_mem_filter hx)
    rw [← h.isTrue_iff row hrow, hresults, hiff row hrow, forall_mem_cons, and_assoc]

theorem addFactors_ok (sem : Semantics) (h : ∀ e ∈ es, e.BoolTyped schema) :
    ∃ state, es.foldlM Condition.addFactors ([], []) = .ok state ∧ ∀ row : Row,
      row.HasTypes schema →
        ((∀ e ∈ state.1, e.IsTrue sem row) ↔ ∀ e ∈ es, e.IsTrue sem row) := by
  have hinit : Collects sem schema es es ([], []) := ⟨h, by simp, by simp⟩
  obtain ⟨state, hrun, hstate⟩ := foldlM_total (fun rest state => Collects sem schema es rest state)
    (fun e rest state hc => hc.addFactors) hinit
  exact ⟨state, hrun, fun row hrow => by simpa using hstate.isTrue_iff row hrow⟩

theorem isTrue_of_constant {v : Bool} (h : tryGetBoolConstant e = some v) :
    e.IsTrue sem row ↔ v = true := by
  rw [IsTrue, eval_of_tryGetBoolConstant h, Datum.truth_ofTruth, Option.some.injEq]

theorem forall_isTrue_dropConstants (res : List ExprImpl) :
    (∀ e ∈ dropConstants res, e.IsTrue sem row) ↔ ∀ e ∈ res, e.IsTrue sem row := by
  let kept := res.filter fun expr => tryGetBoolConstant expr != some true
  have hkept : (∀ e ∈ kept, e.IsTrue sem row) ↔ ∀ e ∈ res, e.IsTrue sem row := by
    refine ⟨fun hall e he => ?_, fun hall e he => hall e (mem_of_mem_filter he)⟩
    by_cases hc : tryGetBoolConstant e = some true
    · exact (isTrue_of_constant hc).2 rfl
    · exact hall e (mem_filter.2 ⟨he, by simpa using hc⟩)
  unfold dropConstants
  dsimp only
  split
  · rename_i hany
    obtain ⟨e, he, hfalse⟩ := any_eq_true.1 hany
    have hnot : ¬e.IsTrue sem row := by
      rw [isTrue_of_constant (by simpa using hfalse)]
      simp
    rw [← hkept, forall_mem_singleton]
    exact ⟨fun h => absurd h (by simp), fun hall => absurd (hall e he) hnot⟩
  · exact hkept

theorem forall_iff_forall_iff {α : Type} {p q : α → Prop} {xs : List α} :
    ((∀ x ∈ xs, p x) ↔ ∀ x ∈ xs, q x) ↔
      (∀ x ∈ xs, (p x ↔ q x)) ∨ (∃ x ∈ xs, ¬p x) ∧ ∃ x ∈ xs, ¬q x := by
  constructor
  · intro h
    by_cases hp : ∀ x ∈ xs, p x
    · exact .inl fun x hx => iff_of_true (hp x hx) (h.1 hp x hx)
    · exact .inr ⟨by simpa using hp, by simpa using mt h.2 hp⟩
  · rintro (h | ⟨⟨x, hx, hp⟩, y, hy, hq⟩)
    · exact forall₂_congr h
    · exact iff_of_false (fun h => hp (h x hx)) fun h => hq (h y hy)

private def one (t : DataType) : Datum := if t = .int32 then some (.scalar (.int32 1)) else none

private theorem one_hasType (t : DataType) : (one t).HasType t := by
  unfold one
  split
  · rename_i ht
    subst ht
    intro v hv
    cases hv
    exact ⟨by decide, by decide⟩
  · exact Datum.hasType_none t

/-- Functions return 1, also on NULL; user defined ones and those with a lambda are strict. -/
private def ones : Semantics where
  call _ t _ := one t
  otherCall _ t args := if args.all Option.isSome then one t else none
  leaf _ _ _ := none
  call_hasType _ t _ := one_hasType t
  otherCall_hasType _ t args := by
    split
    · exact one_hasType t
    · exact Datum.hasType_none t
  leaf_hasType _ t _ := Datum.hasType_none t

end Condition

end Frontend
