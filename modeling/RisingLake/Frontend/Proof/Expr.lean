import RisingLake.Frontend.Expr

/-!
# Values of well-typed expressions

A well-typed expression evaluates to a value of its return type (`hasType_eval`), so a boolean one
is given by its truth value. A rewrite is right if its result is `Equiv` to the expression:
well-typed, of the same type, with no new columns and of the same value on every row. Equivalent
inputs make equivalent calls (`Equiv.call`, `Equiv.otherCall`).
-/

namespace Frontend

open Res ExprImpl List

namespace Datum

theorem hasType_none (t : DataType) : Datum.HasType none t := by
  nofun

theorem hasType_ofTruth (b : Option Bool) : (Datum.ofTruth b).HasType .boolean := by
  intro v hv
  cases b with
  | none => cases hv
  | some b =>
    cases hv
    trivial

@[simp] theorem truth_ofTruth (b : Option Bool) : (Datum.ofTruth b).truth = b := by
  cases b <;> rfl

theorem ofTruth_truth {d : Datum} (h : d.HasType .boolean) : Datum.ofTruth d.truth = d := by
  cases d with
  | none => rfl
  | some v =>
    have hv := h v rfl
    match v, hv with
    | .scalar (.bool b), _ => rfl

end Datum

namespace ExprImpl

/-- Induction over an expression, with the hypothesis for every input of a call. -/
@[elab_as_elim] theorem inductionOn {P : ExprImpl → Prop} (inputRef : ∀ i t, P (.inputRef i t))
    (literal : ∀ d t, P (.literal d t)) (leaf : ∀ l t, P (.leaf l t))
    (functionCall : ∀ f inputs t, (∀ e ∈ inputs, P e) → P (.functionCall f inputs t))
    (otherCall : ∀ c inputs t, (∀ e ∈ inputs, P e) → P (.otherCall c inputs t)) : ∀ e, P e := by
  intro e
  refine @ExprImpl.rec P (fun es => ∀ e ∈ es, P e) inputRef literal functionCall otherCall leaf
    ?_ ?_ e
  · nofun
  · intro e es h hs
    exact forall_mem_cons.2 ⟨h, hs⟩

@[simp] theorem evalInputs_eq_map (sem : Semantics) (row : Row) (es : List ExprImpl) :
    evalInputs sem row es = es.map (eval sem row) := by
  induction es with
  | nil => rfl
  | cons e es ih => rw [evalInputs, ih, map_cons]

theorem wellTypedInputs_iff {schema : Nat → DataType} {es : List ExprImpl} :
    WellTypedInputs schema es ↔ ∀ e ∈ es, e.WellTyped schema := by
  induction es with
  | nil => simp [WellTypedInputs]
  | cons e es ih => rw [WellTypedInputs, ih, forall_mem_cons]

mutual

/-- The columns that occur in an expression, also where no rewriter looks for them. -/
def columns : ExprImpl → List Nat
  | inputRef index _ => [index]
  | functionCall _ inputs _ | otherCall _ inputs _ => columnsOf inputs
  | literal _ _ | leaf _ _ => []

def columnsOf : List ExprImpl → List Nat
  | [] => []
  | e :: es => columns e ++ columnsOf es

end

end ExprImpl

variable {f : ExprType} {t : DataType}

section
variable {sem : Semantics} {schema : Nat → DataType} {row : Row}

theorem evalCall_hasType {inputs : List DataType} {args : List Datum}
    (h : f.Signature inputs t) : (evalCall sem f t args).HasType t := by
  cases f with
  | row =>
    subst h
    intro v hv
    cases hv
    trivial
  | other id => exact sem.call_hasType id t args
  | _ =>
    obtain ⟨-, rfl⟩ := h
    exact Datum.hasType_ofTruth _

theorem hasType_eval {e : ExprImpl} (h : e.WellTyped schema) (hrow : row.HasTypes schema) :
    (e.eval sem row).HasType e.returnType := by
  cases e with
  | inputRef i t =>
    subst h
    exact hrow i
  | literal d t => exact h
  | functionCall f inputs t => exact evalCall_hasType h.2
  | otherCall c inputs t => exact sem.otherCall_hasType c t _
  | leaf l t => exact sem.leaf_hasType l t row

theorem ofTruth_eval {e : ExprImpl} (h : e.WellTyped schema) (ht : e.returnType = .boolean)
    (hrow : row.HasTypes schema) : Datum.ofTruth (e.eval sem row).truth = e.eval sem row :=
  Datum.ofTruth_truth (ht ▸ hasType_eval h hrow)

end

/-! ## Equivalence -/

/-- A condition that a filter can have. -/
structure ExprImpl.BoolTyped (schema : Nat → DataType) (e : ExprImpl) : Prop where
  wellTyped : e.WellTyped schema
  boolean : e.returnType = .boolean

/-- A right rewrite of `e`. -/
structure Equiv (sem : Semantics) (schema : Nat → DataType) (e e' : ExprImpl) : Prop where
  wellTyped : e'.WellTyped schema
  returnType : e'.returnType = e.returnType
  columns : e'.columns ⊆ e.columns
  eval : ∀ row : Row, row.HasTypes schema → e'.eval sem row = e.eval sem row

namespace Equiv

variable {sem : Semantics} {schema : Nat → DataType} {e e' e'' : ExprImpl}

theorem refl (h : e.WellTyped schema) : Equiv sem schema e e :=
  ⟨h, rfl, fun _ h => h, fun _ _ => rfl⟩

theorem trans (h : Equiv sem schema e e') (h' : Equiv sem schema e' e'') : Equiv sem schema e e'' :=
  ⟨h'.wellTyped, h'.returnType.trans h.returnType, List.Subset.trans h'.columns h.columns,
    fun row hrow => (h'.eval row hrow).trans (h.eval row hrow)⟩

theorem boolTyped (h : Equiv sem schema e e') (he : e.BoolTyped schema) : e'.BoolTyped schema :=
  ⟨h.wellTyped, h.returnType.trans he.boolean⟩

theorem isTrue_iff (h : Equiv sem schema e e') {row : Row} (hrow : row.HasTypes schema) :
    e'.IsTrue sem row ↔ e.IsTrue sem row := by
  unfold ExprImpl.IsTrue
  rw [h.eval row hrow]

/-! Lists of inputs, one by one. -/

section
variable {xs ys : List ExprImpl}

section
variable (h : List.Forall₂ (Equiv sem schema) xs ys)
include h

theorem returnTypes : ys.map ExprImpl.returnType = xs.map ExprImpl.returnType := by
  induction h with
  | nil => rfl
  | cons hx _ ih => rw [map_cons, map_cons, hx.returnType, ih]

theorem evals {row : Row} (hrow : row.HasTypes schema) :
    ys.map (ExprImpl.eval sem row) = xs.map (ExprImpl.eval sem row) := by
  induction h with
  | nil => rfl
  | cons hx _ ih => rw [map_cons, map_cons, hx.eval row hrow, ih]

theorem columnsOf_subset : columnsOf ys ⊆ columnsOf xs := by
  induction h with
  | nil => exact fun _ h => h
  | cons hx _ ih =>
    rw [columnsOf, columnsOf]
    exact append_subset.2 ⟨subset_append_of_subset_left _ hx.columns,
      subset_append_of_subset_right _ ih⟩

theorem wellTypeds : ∀ y ∈ ys, y.WellTyped schema := by
  intro y hy
  obtain ⟨x, -, hxy⟩ := exists_of_forall₂_mem h hy
  exact hxy.wellTyped

end

end

section
variable {inputs inputs' : List ExprImpl} (hinputs : List.Forall₂ (Equiv sem schema) inputs inputs')
include hinputs

theorem call (h : (functionCall f inputs t).WellTyped schema) :
    Equiv sem schema (functionCall f inputs t) (functionCall f inputs' t) := by
  refine ⟨⟨wellTypedInputs_iff.2 (wellTypeds hinputs), ?_⟩, rfl, columnsOf_subset hinputs,
    fun row hrow => ?_⟩
  · rw [returnTypes hinputs]
    exact h.2
  · rw [ExprImpl.eval, ExprImpl.eval, evalInputs_eq_map, evalInputs_eq_map, evals hinputs hrow]

theorem otherCall {c : Callee} :
    Equiv sem schema (otherCall c inputs t) (otherCall c inputs' t) := by
  refine ⟨wellTypedInputs_iff.2 (wellTypeds hinputs), rfl, columnsOf_subset hinputs,
    fun row hrow => ?_⟩
  rw [ExprImpl.eval, ExprImpl.eval, evalInputs_eq_map, evalInputs_eq_map, evals hinputs hrow]

end

end Equiv

/-! ## Connectives -/

section
variable {sem : Semantics} {schema : Nat → DataType} {row : Row} {a b : ExprImpl}

theorem wellTyped_not : (functionCall .not [a] .boolean).WellTyped schema ↔ a.BoolTyped schema := by
  constructor
  · intro h
    exact ⟨h.1.1, by simpa using h.2.1⟩
  · intro h
    exact ⟨⟨h.wellTyped, trivial⟩, by simp [h.boolean], rfl⟩

theorem wellTyped_binary (hf : f = .and ∨ f = .or) :
    (functionCall f [a, b] .boolean).WellTyped schema ↔ a.BoolTyped schema ∧
      b.BoolTyped schema := by
  have hsig : ∀ inputs, f.Signature inputs .boolean ↔ inputs = [.boolean, .boolean] := by
    intro inputs
    rcases hf with rfl | rfl <;> simp [ExprType.Signature]
  rw [ExprImpl.WellTyped, hsig]
  simp only [WellTypedInputs, map_cons, map_nil, cons.injEq, and_true]
  constructor
  · intro h
    exact ⟨⟨h.1.1, h.2.1⟩, ⟨h.1.2, h.2.2⟩⟩
  · intro h
    exact ⟨⟨h.1.wellTyped, h.2.wellTyped⟩, h.1.boolean, h.2.boolean⟩

variable {inputs : List ExprImpl}

theorem binary_inputs (hf : f = .and ∨ f = .or)
    (h : (functionCall f inputs t).WellTyped schema) : ∃ a b, inputs = [a, b] ∧ t = .boolean ∧
      a.BoolTyped schema ∧ b.BoolTyped schema := by
  have hsig : inputs.map returnType = [.boolean, .boolean] ∧ t = .boolean := by
    rcases hf with rfl | rfl <;> exact h.2
  obtain ⟨htypes, rfl⟩ := hsig
  obtain ⟨a, b, rfl⟩ := length_eq_two.1 (by simpa using congrArg length htypes)
  exact ⟨a, b, rfl, rfl, (wellTyped_binary hf).1 h⟩

theorem unary_input
    (h : inputs.map ExprImpl.returnType = [.boolean]) :
    ∃ a, inputs = [a] ∧ a.returnType = .boolean := by
  obtain ⟨a, rfl⟩ := length_eq_one_iff.1 (by simpa using congrArg length h)
  exact ⟨a, rfl, by simpa using h⟩

theorem functionCall_new_ok (h : (functionCall f inputs .boolean).WellTyped schema) :
    FunctionCall.new f inputs = .ok (functionCall f inputs .boolean) := by
  rw [FunctionCall.new, decide_eq_true h.2]
  rfl

theorem isTrue_and : (functionCall .and [a, b] .boolean).IsTrue sem row ↔ a.IsTrue sem row ∧
    b.IsTrue sem row := by
  simp only [IsTrue, eval, evalCall, Datum.truth_ofTruth]
  exact Kleene.and_eq_true _ _

theorem isTrue_or : (functionCall .or [a, b] .boolean).IsTrue sem row ↔ a.IsTrue sem row ∨
    b.IsTrue sem row := by
  simp only [IsTrue, eval, evalCall, Datum.truth_ofTruth]
  exact Kleene.or_eq_true _ _

theorem boolTyped_literalBool (b : Bool) : (literalBool b).BoolTyped schema :=
  ⟨Datum.hasType_ofTruth (some b), rfl⟩

@[simp] theorem isTrue_literalBool (b : Bool) : (literalBool b).IsTrue sem row ↔ b = true := by
  simp [IsTrue, literalBool, eval, Datum.truth]

end

end Frontend
