import RisingLake.Frontend.Proof.Expr
import RisingLake.Frontend.Simplify

/-!
# Pushing NOT down and folding constants

Both rewriters give equivalent expressions, in three-valued logic and anywhere in an expression
(`pushDownNot_ok`, `foldBooleanConstant_ok`), and neither of them panics on a well-typed one.
-/

namespace Frontend

open Res ExprImpl

variable {sem : Semantics} {schema : Nat → DataType}

/-! ## Pushing NOT down -/

variable {a a' : ExprImpl}

variable {f : ExprType} {b : ExprImpl} {g : ExprType}

theorem equiv_deMorgan (hfg : f = .and ∧ g = .or ∨ f = .or ∧ g = .and) {b' : ExprImpl}
    (ha : Equiv sem schema (functionCall .not [a] .boolean) a')
    (hb : Equiv sem schema (functionCall .not [b] .boolean) b') :
    Equiv sem schema (functionCall .not [functionCall f [a, b] .boolean] .boolean)
      (functionCall g [a', b'] .boolean) := by
  have hg : g = .and ∨ g = .or := by
    rcases hfg with ⟨-, rfl⟩ | ⟨-, rfl⟩
    · exact .inr rfl
    · exact .inl rfl
  refine ⟨(wellTyped_binary hg).2 ⟨⟨ha.wellTyped, ha.returnType⟩, ⟨hb.wellTyped, hb.returnType⟩⟩, rfl,
    ?_, fun row hrow => ?_⟩
  · have hcols := Equiv.columnsOf_subset (.cons ha (.cons hb .nil))
    simpa only [columns, columnsOf, List.append_nil] using hcols
  have ha' := ha.eval row hrow
  have hb' := hb.eval row hrow
  rcases hfg with ⟨rfl, rfl⟩ | ⟨rfl, rfl⟩
  · simp only [eval, evalInputs, evalCall, evalLogic, ha', hb', Datum.truth_ofTruth, Kleene.not_and]
  · simp only [eval, evalInputs, evalCall, evalLogic, ha', hb', Datum.truth_ofTruth, Kleene.not_or]

theorem equiv_not_not (ha : a.BoolTyped schema) (h : Equiv sem schema a a') :
    Equiv sem schema (functionCall .not [functionCall .not [a] .boolean] .boolean) a' := by
  refine ⟨h.wellTyped, h.returnType.trans ha.boolean, ?_, fun row hrow => ?_⟩
  · simpa only [columns, columnsOf, List.append_nil] using h.columns
  rw [h.eval row hrow]
  simp only [eval, evalInputs, evalCall, evalLogic, Datum.truth_ofTruth, Kleene.not_not]
  exact (ofTruth_eval ha.wellTyped ha.boolean hrow).symm

/-- The two rewrites of one expression: of itself and of its negation. -/
def PushesDown (sem : Semantics) (schema : Nat → DataType) (e : ExprImpl) : Prop :=
  (e.WellTyped schema → ∃ e', pushDownNot e = .ok e' ∧ Equiv sem schema e e') ∧
  (e.BoolTyped schema →
      ∃ e', pushDownNotOf e = .ok e' ∧ Equiv sem schema (functionCall .not [e] .boolean) e')

theorem pushDownNots_eq_mapM (es : List ExprImpl) : pushDownNots es = es.mapM pushDownNot := by
  induction es with
  | nil => rfl
  | cons e es ih =>
    rw [pushDownNots, ih, List.mapM_cons]
    rfl

theorem pushDownNots_ok {es : List ExprImpl} (h : ∀ e ∈ es, PushesDown sem schema e)
    (hwt : ∀ e ∈ es, e.WellTyped schema) :
    ∃ es', pushDownNots es = .ok es' ∧ List.Forall₂ (Equiv sem schema) es es' := by
  rw [pushDownNots_eq_mapM]
  exact mapM_forall₂ fun e he => (h e he).1 (hwt e he)

variable {e : ExprImpl} {inputs : List ExprImpl}

/-- An expression that is neither NOT nor AND nor OR. -/
theorem pushesDown_of_atom (hself : pushDownNot e = .ok e)
    (hnot : pushDownNotOf e = FunctionCall.new .not [e]) : PushesDown sem schema e := by
  refine ⟨fun h => ⟨e, hself, .refl h⟩, fun h => ?_⟩
  have hwt := wellTyped_not.2 h
  exact ⟨_, hnot.trans (functionCall_new_ok hwt), .refl hwt⟩

variable {t : DataType}

theorem pushesDown_not (ih : ∀ e ∈ inputs, PushesDown sem schema e) :
    PushesDown sem schema (functionCall .not inputs t) := by
  have hinputs : (functionCall .not inputs t).WellTyped schema →
      ∃ a, inputs = [a] ∧ t = .boolean ∧ a.BoolTyped schema := by
    intro h
    obtain ⟨a, rfl, ha⟩ := unary_input h.2.1
    exact ⟨a, rfl, h.2.2, h.1.1, ha⟩
  constructor
  · intro h
    obtain ⟨a, rfl, rfl, ha⟩ := hinputs h
    obtain ⟨e', he', heq⟩ := (ih a (.head _)).2 ha
    exact ⟨e', by rw [pushDownNot, he'], heq⟩
  · intro h
    obtain ⟨a, rfl, rfl, ha⟩ := hinputs h.wellTyped
    obtain ⟨e', he', heq⟩ := (ih a (.head _)).1 ha.wellTyped
    exact ⟨e', by rw [pushDownNotOf, he'], equiv_not_not ha heq⟩

theorem pushesDown_binary (hfg : f = .and ∧ g = .or ∨ f = .or ∧ g = .and)
    (ih : ∀ e ∈ inputs, PushesDown sem schema e) :
    PushesDown sem schema (functionCall f inputs t) := by
  have hf : f = .and ∨ f = .or := hfg.imp And.left And.left
  have hg : g = .and ∨ g = .or := hfg.symm.imp And.right And.right
  constructor
  · intro h
    obtain ⟨inputs', hrun, heq⟩ := pushDownNots_ok ih (wellTypedInputs_iff.1 h.1)
    refine ⟨functionCall f inputs' t, ?_, .call heq h⟩
    rcases hf with rfl | rfl <;> rw [pushDownNot, hrun]
    all_goals simp
  · intro h
    obtain ⟨a, b, rfl, rfl, ha, hb⟩ := binary_inputs hf h.wellTyped
    obtain ⟨a', ha', heqa⟩ := (ih a (.head _)).2 ha
    obtain ⟨b', hb', heqb⟩ := (ih b (.tail _ (.head _))).2 hb
    have hnota := wellTyped_not.2 ha
    have hnotb := wellTyped_not.2 hb
    refine ⟨functionCall g [a', b'] .boolean, ?_, equiv_deMorgan hfg heqa heqb⟩
    have hdual : (functionCall g [functionCall .not [a] .boolean, functionCall .not [b] .boolean]
        .boolean).WellTyped schema := (wellTyped_binary hg).2 ⟨⟨hnota, rfl⟩, ⟨hnotb, rfl⟩⟩
    rcases hfg with ⟨rfl, rfl⟩ | ⟨rfl, rfl⟩ <;>
      simp only [pushDownNotOf, functionCall_new_ok hnota, functionCall_new_ok hnotb,
        functionCall_new_ok hdual, ha', hb', ok_bind]

/-- A call `k inputs` that is rewritten in its inputs only. -/
theorem pushesDown_inputs {k : List ExprImpl → ExprImpl}
    (hself : pushDownNot (k inputs) = do .ok (k (← pushDownNots inputs)))
    (hnot : pushDownNotOf (k inputs) = do FunctionCall.new .not [k (← pushDownNots inputs)])
    (hinputs : (k inputs).WellTyped schema → WellTypedInputs schema inputs)
    (hcall : ∀ {inputs'}, List.Forall₂ (Equiv sem schema) inputs inputs' →
      (k inputs).WellTyped schema → Equiv sem schema (k inputs) (k inputs'))
    (ih : ∀ e ∈ inputs, PushesDown sem schema e) : PushesDown sem schema (k inputs) := by
  constructor
  · intro h
    obtain ⟨inputs', hrun, heq⟩ := pushDownNots_ok ih (wellTypedInputs_iff.1 (hinputs h))
    exact ⟨k inputs', by rw [hself, hrun, ok_bind], hcall heq h⟩
  · intro h
    obtain ⟨inputs', hrun, heq⟩ := pushDownNots_ok ih (wellTypedInputs_iff.1 (hinputs h.wellTyped))
    have hcall := hcall heq h.wellTyped
    refine ⟨_, ?_, .call (.cons hcall .nil) (wellTyped_not.2 h)⟩
    rw [hnot, hrun, ok_bind, functionCall_new_ok (wellTyped_not.2 (hcall.boolTyped h))]

theorem pushesDown (e : ExprImpl) : PushesDown sem schema e := by
  induction e using inductionOn with
  | inputRef | literal | leaf => exact pushesDown_of_atom rfl rfl
  | otherCall c inputs t ih =>
    exact pushesDown_inputs (k := (otherCall c · t)) rfl rfl id (fun heq _ => .otherCall heq) ih
  | functionCall f inputs t ih =>
    by_cases hnot : f = .not
    · subst hnot
      exact pushesDown_not ih
    by_cases hand : f = .and
    · exact pushesDown_binary (.inl ⟨hand, rfl⟩) ih
    by_cases hor : f = .or
    · exact pushesDown_binary (.inr ⟨hor, rfl⟩) ih
    refine pushesDown_inputs (k := (functionCall f · t)) ?_ ?_ And.left Equiv.call ih
    · rw [pushDownNot]
      simpa using hnot
    · rw [pushDownNotOf]
      all_goals simp [hnot, hand, hor]

theorem pushDownNot_ok (h : e.WellTyped schema) : ∃ e', pushDownNot e = .ok e' ∧
    Equiv sem schema e e' :=
  (pushesDown e).1 h

/-! ## Folding boolean constants -/

theorem eval_of_isNull (h : e.isNull = true) (row : Row) : e.eval sem row = none := by
  match e, h with
  | .literal none _, _ => rfl

theorem eval_of_tryGetBoolConstant {v : Bool} (h : tryGetBoolConstant e = some v) (row : Row) :
    e.eval sem row = Datum.ofTruth (some v) := by
  unfold tryGetBoolConstant at h
  split at h
  · cases h
    rfl
  · cases h

theorem equiv_literalBool {b : Bool} (h : e.returnType = .boolean)
    (heval : ∀ row : Row, row.HasTypes schema → e.eval sem row = Datum.ofTruth (some b)) :
    Equiv sem schema e (literalBool b) :=
  ⟨(boolTyped_literalBool b).wellTyped, h.symm, List.nil_subset _,
    fun row hrow => (heval row hrow).symm⟩

theorem foldTest_ok {ofNull : Option Bool} {ofBool : Bool → Option Bool}
    (h : (functionCall f [a] .boolean).WellTyped schema)
    (hcall : ∀ args, evalCall sem f .boolean args = Datum.ofTruth (evalLogic f args))
    (hnull : ∀ b, ofNull = some b → evalLogic f [none] = some b)
    (hbool : ∀ v b, ofBool v = some b → evalLogic f [Datum.ofTruth (some v)] = some b) :
    ∃ e', foldTest f ofNull ofBool [a] .boolean = .ok e' ∧
      Equiv sem schema (functionCall f [a] .boolean) e' := by
  have heval : ∀ row, (functionCall f [a] .boolean).eval sem row =
      Datum.ofTruth (evalLogic f [a.eval sem row]) := fun row => hcall _
  have hrun : ∀ folded : Option Bool,
      (if a.isNull then ofNull else (tryGetBoolConstant a).bind ofBool) = folded →
      foldTest f ofNull ofBool [a] .boolean =
        .ok (folded.elim (functionCall f [a] .boolean) literalBool) := by
    rintro _ rfl
    rfl
  cases hfold : (if a.isNull then ofNull else (tryGetBoolConstant a).bind ofBool) with
  | none => exact ⟨_, hrun _ hfold, .refl h⟩
  | some b =>
    refine ⟨_, hrun _ hfold, equiv_literalBool rfl fun row _ => ?_⟩
    rw [heval]
    split at hfold
    · rename_i ha
      rw [eval_of_isNull ha, hnull b hfold]
    · obtain ⟨v, hv, hfold⟩ := Option.bind_eq_some_iff.1 hfold
      rw [eval_of_tryGetBoolConstant hv, hbool v b hfold]

theorem prepareBinaryFunctionInputs_ok
    (h : [a, b].any (fun e => (tryGetBoolConstant e).isSome) = true) :
    ∃ c x v, prepareBinaryFunctionInputs [a, b] = .ok (c, x) ∧ tryGetBoolConstant c = some v ∧
      (c = a ∧ x = b ∨ c = b ∧ x = a) := by
  unfold prepareBinaryFunctionInputs
  cases ha : tryGetBoolConstant a with
  | some v => exact ⟨a, b, v, by simp [ha], ha, .inl ⟨rfl, rfl⟩⟩
  | none =>
    obtain ⟨v, hv⟩ := Option.isSome_iff_exists.1 (by simpa [ha] using h)
    exact ⟨b, a, v, by simp [ha], hv, .inr ⟨rfl, rfl⟩⟩

section
variable (ha : a.BoolTyped schema) (hb : b.BoolTyped schema)
include ha hb

theorem foldBinary_ok {k : Option Bool → Option Bool → Option Bool} {unit : Bool}
    (hf : f = .and ∨ f = .or)
    (hcall : ∀ x y, evalCall sem f .boolean [x, y] = Datum.ofTruth (k x.truth y.truth))
    (hcomm : ∀ x y, k x y = k y x) (hunit : ∀ x, k (some unit) x = x)
    (hdecides : ∀ x, k (some !unit) x = some !unit)
    (hconst : [a, b].any (fun e => (tryGetBoolConstant e).isSome) = true → ∀ c x v,
      prepareBinaryFunctionInputs [a, b] = .ok (c, x) → tryGetBoolConstant c = some v →
      foldFunctionCall f [a, b] .boolean = .ok (if v = unit then x else c))
    (hother : [a, b].any (fun e => (tryGetBoolConstant e).isSome) = false →
      foldFunctionCall f [a, b] .boolean = .ok (functionCall f [a, b] .boolean)) :
    ∃ e', foldFunctionCall f [a, b] .boolean = .ok e' ∧
      Equiv sem schema (functionCall f [a, b] .boolean) e' := by
  cases hany : [a, b].any (fun e => (tryGetBoolConstant e).isSome) with
  | false => exact ⟨_, hother hany, .refl ((wellTyped_binary hf).2 ⟨ha, hb⟩)⟩
  | true =>
    obtain ⟨c, x, v, hprepare, hv, hcx⟩ := prepareBinaryFunctionInputs_ok hany
    have hrun := hconst hany c x v hprepare hv
    have hx : x.BoolTyped schema := by rcases hcx with ⟨-, rfl⟩ | ⟨-, rfl⟩ <;> assumption
    have hc : c.BoolTyped schema := by rcases hcx with ⟨rfl, -⟩ | ⟨rfl, -⟩ <;> assumption
    have hcols : x.columns ⊆ (functionCall f [a, b] .boolean).columns ∧
        c.columns ⊆ (functionCall f [a, b] .boolean).columns := by
      rcases hcx with ⟨rfl, rfl⟩ | ⟨rfl, rfl⟩ <;> simp [columns, columnsOf]
    have heval : ∀ row : Row, (functionCall f [a, b] .boolean).eval sem row =
        Datum.ofTruth (k (some v) (x.eval sem row).truth) := by
      intro row
      have hcv : (c.eval sem row).truth = some v := by
        rw [eval_of_tryGetBoolConstant hv, Datum.truth_ofTruth]
      simp only [eval, evalInputs, hcall]
      rcases hcx with ⟨rfl, rfl⟩ | ⟨rfl, rfl⟩
      · rw [hcv]
      · rw [hcv, hcomm]
    by_cases hvu : v = unit
    · refine ⟨x, by rw [hrun, if_pos hvu], hx.wellTyped, hx.boolean, hcols.1, fun row hrow => ?_⟩
      rw [heval, hvu, hunit, ofTruth_eval hx.wellTyped hx.boolean hrow]
    · refine ⟨c, by rw [hrun, if_neg hvu], hc.wellTyped, hc.boolean, hcols.2, fun row hrow => ?_⟩
      rw [heval, eval_of_tryGetBoolConstant hv, Bool.eq_not.2 hvu, hdecides]

theorem foldAnd_ok : ∃ e', foldFunctionCall .and [a, b] .boolean = .ok e' ∧
      Equiv sem schema (functionCall .and [a, b] .boolean) e' := by
  refine foldBinary_ok ha hb (.inl rfl) (fun _ _ => rfl) Kleene.and_comm Kleene.true_and
    Kleene.false_and (fun hany c x v hprepare hv => ?_) (fun hany => ?_)
  · simp only [foldFunctionCall, hany, if_true, hprepare, ok_bind, booleanConstantFoldAnd, hv, unwrap]
  · simp only [foldFunctionCall, hany, Bool.false_eq_true, if_false]

theorem foldOr_ok : ∃ e', foldFunctionCall .or [a, b] .boolean = .ok e' ∧
      Equiv sem schema (functionCall .or [a, b] .boolean) e' := by
  refine foldBinary_ok ha hb (.inr rfl) (fun _ _ => rfl) Kleene.or_comm Kleene.false_or Kleene.true_or
    (fun hany c x v hprepare hv => ?_) (fun hany => ?_)
  · simp only [foldFunctionCall, hany, hprepare, ok_bind, booleanConstantFoldOr, hv]
    cases v <;> rfl
  · simp only [foldFunctionCall, hany, Bool.false_eq_true, if_false]

end

theorem foldIsNotNull_ok (h : (functionCall .isNotNull [a] .boolean).WellTyped schema) :
    ∃ e', foldFunctionCall .isNotNull [a] .boolean = .ok e' ∧
      Equiv sem schema (functionCall .isNotNull [a] .boolean) e' := by
  cases a with
  | literal d t => exact ⟨_, rfl, equiv_literalBool rfl fun row _ => rfl⟩
  | inputRef | leaf | functionCall | otherCall => exact ⟨_, rfl, .refl h⟩

theorem foldFunctionCall_ok (h : (functionCall f inputs t).WellTyped schema) :
    ∃ e', foldFunctionCall f inputs t = .ok e' ∧ Equiv sem schema (functionCall f inputs t) e' := by
  cases f with
  | and =>
    obtain ⟨a, b, rfl, rfl, ha, hb⟩ := binary_inputs (.inl rfl) h
    exact foldAnd_ok ha hb
  | or =>
    obtain ⟨a, b, rfl, rfl, ha, hb⟩ := binary_inputs (.inr rfl) h
    exact foldOr_ok ha hb
  | not | isTrue | isNotTrue | isFalse | isNotFalse =>
    obtain ⟨⟨a, rfl, -⟩, rfl⟩ := And.imp_left unary_input h.2
    exact foldTest_ok h (fun _ => rfl) (by decide) (by decide)
  | isNull =>
    obtain ⟨hlen, rfl⟩ := h.2
    obtain ⟨a, rfl⟩ := List.length_eq_one_iff.1 (by simpa using hlen)
    exact foldTest_ok h (fun _ => rfl) (by decide) (by decide)
  | isNotNull =>
    obtain ⟨hlen, rfl⟩ := h.2
    obtain ⟨a, rfl⟩ := List.length_eq_one_iff.1 (by simpa using hlen)
    exact foldIsNotNull_ok h
  | _ => exact ⟨_, rfl, .refl h⟩

theorem foldBooleanConstants_eq_mapM (es : List ExprImpl) :
    foldBooleanConstants es = es.mapM foldBooleanConstant := by
  induction es with
  | nil => rfl
  | cons e es ih =>
    rw [foldBooleanConstants, ih, List.mapM_cons]
    rfl

theorem foldBooleanConstant_ok (h : e.WellTyped schema) :
    ∃ e', foldBooleanConstant e = .ok e' ∧ Equiv sem schema e e' := by
  induction e using inductionOn with
  | inputRef | literal | leaf => exact ⟨_, rfl, .refl h⟩
  | otherCall c inputs t ih =>
    have hinputs := wellTypedInputs_iff.1 h
    obtain ⟨inputs', hrun, heqs⟩ := mapM_forall₂ fun e he => ih e he (hinputs e he)
    rw [← foldBooleanConstants_eq_mapM] at hrun
    exact ⟨_, by rw [foldBooleanConstant, hrun, ok_bind], .otherCall heqs⟩
  | functionCall f inputs t ih =>
    have hinputs := wellTypedInputs_iff.1 h.1
    obtain ⟨inputs', hrun, heqs⟩ := mapM_forall₂ fun e he => ih e he (hinputs e he)
    rw [← foldBooleanConstants_eq_mapM] at hrun
    have hcall := Equiv.call heqs h
    obtain ⟨e', hfold, heq⟩ := foldFunctionCall_ok hcall.wellTyped
    exact ⟨e', by rw [foldBooleanConstant, hrun, ok_bind, hfold], hcall.trans heq⟩

end Frontend
