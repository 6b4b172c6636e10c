import RisingLake.Frontend.Expr

/-!
# Simplification of conditions (`frontend/src/expr/utils.rs`, `utils/condition.rs`)

`Condition::simplify` sends each conjunct through four rewrites: push NOT down, fold boolean
constants, replace `e = e` by a test of its column, and take common factors out of disjunctions;
then it drops duplicates and constants.

A rewriter is a recursion over an expression and one over a list of inputs.
-/

namespace Frontend

open Res ExprImpl

/-! ## Conjunctions and disjunctions -/

mutual

def splitExprBy (op : ExprType) : ExprImpl → List ExprImpl
  | functionCall f inputs t => if f = op then splitExprsBy op inputs else [functionCall f inputs t]
  | e => [e]

def splitExprsBy (op : ExprType) : List ExprImpl → List ExprImpl
  | [] => []
  | e :: es => splitExprBy op e ++ splitExprsBy op es

end

def toConjunctions (e : ExprImpl) : List ExprImpl := splitExprBy .and e

def toDisjunctions (e : ExprImpl) : List ExprImpl := splitExprBy .or e

/-- The length of the longest strictly ascending run of levels at the front. It bounds how often
`mergeLoop` can move an element to the back without merging. -/
def ascendingRun : List (Nat × ExprImpl) → Nat
  | [] => 0
  | [_] => 1
  | x :: y :: q => if x.1 < y.1 then 1 + ascendingRun (y :: q) else 1

/-- An element put at the back after a larger one does not extend the run. -/
theorem ascendingRun_append_le {x : Nat × ExprImpl} :
    ∀ {y : Nat × ExprImpl} {q : List (Nat × ExprImpl)}, x.1 < y.1 → ascendingRun (y :: q ++ [x]) ≤
      ascendingRun (y :: q)
  | y, [], h => by
    simp only [List.cons_append, List.nil_append, ascendingRun]
    rw [if_neg (by omega)]
  | y, z :: q, h => by
    simp only [List.cons_append, ascendingRun]
    split
    · rename_i hlt
      have := ascendingRun_append_le (x := x) (y := z) (q := q) (by omega)
      simp only [List.cons_append] at this
      omega
    · exact le_rfl

/-- The loop of `merge_expr_by_logical`: two elements of one level are merged to one of the next,
and the odd one out is moved to the end. -/
def mergeLoop (op : ExprType) (identityElem : ExprImpl) : List (Nat × ExprImpl) → Res ExprImpl
  | [] => .ok identityElem
  | [(_, e)] => .ok e
  | (level, lhs) :: (rhsLevel, rhs) :: exprs =>
    if level < rhsLevel then
      mergeLoop op identityElem ((rhsLevel, rhs) :: exprs ++ [(level, lhs)])
    else do
      let newExpr ← FunctionCall.new op [lhs, rhs]
      mergeLoop op identityElem (exprs ++ [(level + 1, newExpr)])
termination_by q => (q.length, ascendingRun q)
decreasing_by
  · rename_i hlt
    apply Prod.Lex.right'
    · simp
    · have hle : ascendingRun ((rhsLevel, rhs) :: exprs ++ [(level, lhs)]) ≤
          ascendingRun ((rhsLevel, rhs) :: exprs) := ascendingRun_append_le hlt
      rw [show ascendingRun ((level, lhs) :: (rhsLevel, rhs) :: exprs) =
        1 + ascendingRun ((rhsLevel, rhs) :: exprs) by rw [ascendingRun, if_pos hlt]]
      omega
  · apply Prod.Lex.left
    simp

def mergeExprByLogical (exprs : List ExprImpl) (op : ExprType) (identityElem : ExprImpl) :
    Res ExprImpl :=
  mergeLoop op identityElem (exprs.map fun e => (0, e))

/-- `ExprImpl::and`. -/
def exprAnd (exprs : List ExprImpl) : Res ExprImpl :=
  mergeExprByLogical exprs .and (literalBool true)

/-- `ExprImpl::or`. -/
def exprOr (exprs : List ExprImpl) : Res ExprImpl :=
  mergeExprByLogical exprs .or (literalBool false)

/-! ## Pushing NOT down -/

mutual

/-- `NotPushDown::rewrite_expr`. -/
def pushDownNot : ExprImpl → Res ExprImpl
  | functionCall .not inputs _ =>
    match inputs with
    | [input] => pushDownNotOf input
    | _ => .error (.assert "inputs.len() == 1")
  | functionCall f inputs t => do .ok (functionCall f (← pushDownNots inputs) t)
  | otherCall c inputs t => do .ok (otherCall c (← pushDownNots inputs) t)
  | e => .ok e

/-- The rewrite of the negation of the expression. NOT of a conjunction is first made a disjunction
of negations, which is then rewritten. -/
def pushDownNotOf : ExprImpl → Res ExprImpl
  | functionCall .not [input] _ => pushDownNot input
  | functionCall .and [lhs, rhs] _ => do
    let rhsNot ← FunctionCall.new .not [rhs]
    let lhsNot ← FunctionCall.new .not [lhs]
    let _ ← FunctionCall.new .or [lhsNot, rhsNot]
    .ok (functionCall .or [← pushDownNotOf lhs, ← pushDownNotOf rhs] .boolean)
  | functionCall .or [lhs, rhs] _ => do
    let rhsNot ← FunctionCall.new .not [rhs]
    let lhsNot ← FunctionCall.new .not [lhs]
    let _ ← FunctionCall.new .and [lhsNot, rhsNot]
    .ok (functionCall .and [← pushDownNotOf lhs, ← pushDownNotOf rhs] .boolean)
  | functionCall .not _ _ => .error (.assert "inputs.len() == 1")
  | functionCall .and _ _ | functionCall .or _ _ => .error (.assert "inputs.len() == 2")
  | functionCall f inputs t => do FunctionCall.new .not [functionCall f (← pushDownNots inputs) t]
  | otherCall c inputs t => do FunctionCall.new .not [otherCall c (← pushDownNots inputs) t]
  | e => FunctionCall.new .not [e]

def pushDownNots : List ExprImpl → Res (List ExprImpl)
  | [] => .ok []
  | e :: es => do .ok ((← pushDownNot e) :: (← pushDownNots es))

end

/-! ## Folding boolean constants -/

def tryGetBoolConstant : ExprImpl → Option Bool
  | literal (some (.scalar (.bool v))) _ => some v
  | _ => none

/-- The constant comes first. -/
def prepareBinaryFunctionInputs : List ExprImpl → Res (ExprImpl × ExprImpl)
  | [lhs, rhs] => .ok (if (tryGetBoolConstant lhs).isSome then (lhs, rhs) else (rhs, lhs))
  | _ => .error (.assert "inputs.len() == 2")

def booleanConstantFoldAnd (constantLhs rhs : ExprImpl) : Res ExprImpl := do
  .ok (if ← unwrap (tryGetBoolConstant constantLhs) "constant_lhs" then rhs else constantLhs)

def booleanConstantFoldOr (constantLhs rhs : ExprImpl) : Res ExprImpl := do
  .ok (if ← unwrap (tryGetBoolConstant constantLhs) "constant_lhs" then constantLhs else rhs)

/-- What a test of its first input folds to: `ofNull` if it is the literal NULL, `ofBool v` if it is
the constant `v`. -/
def foldTest (f : ExprType) (ofNull : Option Bool) (ofBool : Bool → Option Bool)
    (inputs : List ExprImpl) (t : DataType) : Res ExprImpl := do
  let input ← unwrap inputs.head? "inputs.first()"
  let folded := if input.isNull then ofNull else (tryGetBoolConstant input).bind ofBool
  .ok (folded.elim (functionCall f inputs t) literalBool)

/-- `BooleanConstantFolding::rewrite_function_call`, once the inputs are rewritten. -/
def foldFunctionCall (f : ExprType) (inputs : List ExprImpl) (t : DataType) : Res ExprImpl :=
  let containsBoolConstant := inputs.any fun e => (tryGetBoolConstant e).isSome
  match f with
  | .not => foldTest .not none (fun v => some !v) inputs t
  | .isFalse => foldTest .isFalse (some false) (fun v => some !v) inputs t
  | .isTrue => foldTest .isTrue (some false) (fun v => some v) inputs t
  | .isNull => foldTest .isNull (some true) (fun _ => none) inputs t
  | .isNotTrue => foldTest .isNotTrue (some true) (fun v => some !v) inputs t
  | .isNotFalse => foldTest .isNotFalse (some true) (fun v => some v) inputs t
  | .isNotNull => do
    match ← unwrap inputs.head? "inputs.first()" with
    | literal data _ => .ok (literalBool data.isSome)
    | _ => .ok (functionCall .isNotNull inputs t)
  | .and =>
    if containsBoolConstant then do
      let (constantLhs, rhs) ← prepareBinaryFunctionInputs inputs
      booleanConstantFoldAnd constantLhs rhs
    else .ok (functionCall .and inputs t)
  | .or =>
    if containsBoolConstant then do
      let (constantLhs, rhs) ← prepareBinaryFunctionInputs inputs
      booleanConstantFoldOr constantLhs rhs
    else .ok (functionCall .or inputs t)
  | f => .ok (functionCall f inputs t)

mutual

def foldBooleanConstant : ExprImpl → Res ExprImpl
  | functionCall f inputs t => do foldFunctionCall f (← foldBooleanConstants inputs) t
  | otherCall c inputs t => do .ok (otherCall c (← foldBooleanConstants inputs) t)
  | e => .ok e

def foldBooleanConstants : List ExprImpl → Res (List ExprImpl)
  | [] => .ok []
  | e :: es => do .ok ((← foldBooleanConstant e) :: (← foldBooleanConstants es))

end

/-! ## Self-equalities -/

namespace ColumnSelfEqualRewriter

/-- The function never returns NULL. -/
def isNotNull (funcType : ExprType) : Bool :=
  [.isNull, .isNotNull, .isTrue, .isFalse, .isNotTrue, .isNotFalse].contains funcType

mutual

/-- The columns are collected in `columns`, each once; those in the inputs of a call with a lambda
or of a user defined function are not. -/
def extractColumn (columns : List ExprImpl) : ExprImpl → List ExprImpl
  | functionCall f inputs _ => if isNotNull f then columns else extractColumns columns inputs
  | inputRef index t =>
    if columns.contains (inputRef index t) then columns else columns ++ [inputRef index t]
  | _ => columns

def extractColumns (columns : List ExprImpl) : List ExprImpl → List ExprImpl
  | [] => columns
  | e :: es => extractColumns (extractColumn columns e) es

end

def rewrite (expr : ExprImpl) : Res ExprImpl :=
  let columns := extractColumn [] expr
  if columns.length > 1 then .ok expr
  else
    match expr with
    | functionCall .equal [e1, e2] t => do
      assert (decide (t = .boolean)) "func_call.return_type() == DataType::Boolean"
      if e1 = e2 then
        match columns with
        | [] => .ok (literalBool true)
        | column :: _ => FunctionCall.new .isNotNull [column]
      else .ok expr
    | _ => .ok expr

end ColumnSelfEqualRewriter

def columnSelfEqEliminate (expr : ExprImpl) : Res ExprImpl := ColumnSelfEqualRewriter.rewrite expr

/-! ## Common factors -/

/-- The part of `factorization_expr` for two or more disjunctions, the last of which is `last`: what
all have in common, and the disjunction of what is left of each. -/
def factorize (remaining : List (List ExprImpl)) (last : List ExprImpl) : Res (List ExprImpl) := do
  let isCommon := fun factor => remaining.all fun expr => expr.contains factor
  let greatestCommonDivider := last.filter isCommon
  let last := last.filter fun factor => !isCommon factor
  let remaining := remaining.map fun disjunction =>
    disjunction.filter fun factor => !greatestCommonDivider.contains factor
  let remaining ← exprOr (← (remaining ++ [last]).mapM exprAnd)
  (greatestCommonDivider ++ [remaining]).mapM foldBooleanConstant

def factorizationExpr (expr : ExprImpl) : Res (List ExprImpl) :=
  let disjunctions := toDisjunctions expr
  if disjunctions.length = 1 then .ok disjunctions
  else do
    let disjunctions := disjunctions.map toConjunctions
    let last ← unwrap disjunctions.getLast? "split_last_mut"
    factorize disjunctions.dropLast last

/-! ## The condition -/

structure Condition where
  conjunctions : List ExprImpl
  deriving DecidableEq

namespace Condition

/-- One round of the de-duplication: the results of a factorization that were not visited before. -/
def addFactors (state : List ExprImpl × List ExprImpl) (expr : ExprImpl) :
    Res (List ExprImpl × List ExprImpl) :=
  let (res, visited) := state
  if expr.hasSubquery then .ok (res ++ [expr], visited)
  else do
    let results ← factorizationExpr expr
    .ok (res ++ results.filter (fun expr => !visited.contains expr), visited ++ results)

/-- What the first two rewrites make of a conjunct. -/
def normalForm (expr : ExprImpl) : Res ExprImpl := do foldBooleanConstant (← pushDownNot expr)

/-- Constants that are true are removed; one that is false is all that is left. -/
def dropConstants (res : List ExprImpl) : List ExprImpl :=
  let res := res.filter fun expr => tryGetBoolConstant expr != some true
  if res.any fun expr => tryGetBoolConstant expr == some false then [literalBool false] else res

def simplify (self : Condition) : Res Condition := do
  let conjunctions ← self.conjunctions.mapM fun expr => do
    columnSelfEqEliminate (← normalForm expr)
  let (res, _) ← (conjunctions.flatMap toConjunctions).foldlM addFactors ([], [])
  .ok ⟨dropConstants res⟩

end Condition

end Frontend
