import RisingLake.Lib.Bytes
import RisingLake.Lib.Kleene

/-!
# Bound expressions (`frontend/src/expr`)

An expression is a column, a literal, a function call or a leaf that no rewriter looks into. The
function types that the planner knows about have constructors; any other scalar function is `other`.
Calls of user defined functions and calls with a lambda are a variant of their own, since only
`ExprRewriter` and `ExprVisitor` go into their inputs. A value of another type than the ones listed
is given by its memcomparable encoding, which orders it.

`eval` is the meaning of an expression on a row: three-valued logic for the connectives, NULL for a
comparison with NULL, and an arbitrary `Semantics` for the other functions. Expressions of the
binder are `WellTyped`; the values of well-typed expressions have the return type
(`Expr.hasType_eval`).

Structs have no structs as fields. Calls of aggregate, window and table functions are left out: they
have no value on one row, and the binder does not allow them in a filter.
-/

namespace Frontend

open Res

/-! ## Values -/

inductive DataType where
  | boolean
  | int16
  | int32
  | int64
  | struct
  | other (id : Nat)
  deriving DecidableEq, Repr

/-- A scalar that is not a struct. -/
inductive Scalar where
  | bool (v : Bool)
  | int16 (v : Int)
  | int32 (v : Int)
  | int64 (v : Int)
  | other (id : Nat) (v : Bytes)
  deriving DecidableEq, Repr

inductive ScalarImpl where
  | scalar (v : Scalar)
  | struct (fields : List (Option Scalar))
  deriving DecidableEq, Repr

abbrev Datum := Option ScalarImpl

/-- Variants are in the order of the constructors. -/
def Scalar.key : Scalar → Nat ×ₗ Nat ×ₗ Int ×ₗ Bytes
  | bool v => toLex (0, toLex (0, toLex ((v.toNat : Int), [])))
  | int16 v => toLex (1, toLex (0, toLex (v, [])))
  | int32 v => toLex (2, toLex (0, toLex (v, [])))
  | int64 v => toLex (3, toLex (0, toLex (v, [])))
  | other id v => toLex (4, toLex (id, toLex (0, v)))

theorem Scalar.key_injective : Function.Injective Scalar.key := by
  intro a b h
  cases a <;> cases b <;> simp_all [key]
  rename_i v v'
  revert v v'
  decide

instance : LinearOrder Scalar := LinearOrder.lift' Scalar.key Scalar.key_injective

/-- NULL is the largest field. -/
def ScalarImpl.key : ScalarImpl → Scalar ⊕ₗ List (WithTop Scalar)
  | scalar v => toLex (.inl v)
  | struct fields => toLex (.inr fields)

theorem ScalarImpl.key_injective : Function.Injective ScalarImpl.key := by
  intro a b h
  cases a with
  | scalar v =>
    cases b with
    | scalar v' => exact congrArg scalar (Sum.inl.inj h)
    | struct fields => cases h
  | struct fields =>
    cases b with
    | scalar v' => cases h
    | struct fields' => exact congrArg struct (Sum.inr.inj h)

/-- `default_cmp`. -/
instance : LinearOrder ScalarImpl := LinearOrder.lift' ScalarImpl.key ScalarImpl.key_injective

def ScalarImpl.HasType : ScalarImpl → DataType → Prop
  | scalar (.bool _), .boolean => True
  | scalar (.int16 v), .int16 => -2 ^ 15 ≤ v ∧ v < 2 ^ 15
  | scalar (.int32 v), .int32 => -2 ^ 31 ≤ v ∧ v < 2 ^ 31
  | scalar (.int64 v), .int64 => -2 ^ 63 ≤ v ∧ v < 2 ^ 63
  | scalar (.other id _), .other id' => id = id'
  | struct _, .struct => True
  | _, _ => False

def Datum.HasType (d : Datum) (t : DataType) : Prop := ∀ v, d = some v → v.HasType t

def Datum.ofTruth (b : Option Bool) : Datum := b.map fun b => .scalar (.bool b)

def Datum.truth : Datum → Option Bool
  | some (.scalar (.bool b)) => some b
  | _ => none

/-! ## Expressions -/

inductive ExprType where
  | not
  | and
  | or
  | isTrue
  | isNotTrue
  | isFalse
  | isNotFalse
  | isNull
  | isNotNull
  | equal
  | lessThan
  | lessThanOrEqual
  | greaterThan
  | greaterThanOrEqual
  | in_
  | row
  | other (id : Nat)
  deriving DecidableEq, Repr

/-- A call that is not a `FunctionCall`. The body of the lambda and the catalog of the function are
given by numbers: they are compared and otherwise only carried along. -/
inductive Callee where
  | functionCallWithLambda (funcType : ExprType) (lambdaArg : Nat)
  | userDefinedFunction (catalog : Nat)
  deriving DecidableEq, Repr

inductive Leaf where
  | subquery (id : Nat)
  | correlatedInputRef (index position : Nat)
  | parameter (index : Nat)
  | now
  deriving DecidableEq, Repr

inductive ExprImpl where
  | inputRef (index : Nat) (dataType : DataType)
  | literal (data : Datum) (dataType : DataType)
  | functionCall (funcType : ExprType) (inputs : List ExprImpl) (returnType : DataType)
  | otherCall (callee : Callee) (inputs : List ExprImpl) (returnType : DataType)
  | leaf (leaf : Leaf) (dataType : DataType)

namespace ExprImpl

mutual

def decEq : (a b : ExprImpl) → Decidable (a = b)
  | inputRef i t, inputRef i' t' => decidable_of_iff (i = i' ∧ t = t') (by simp)
  | literal d t, literal d' t' => decidable_of_iff (d = d' ∧ t = t') (by simp)
  | leaf l t, leaf l' t' => decidable_of_iff (l = l' ∧ t = t') (by simp)
  | functionCall f xs t, functionCall f' xs' t' =>
    match decEqs xs xs' with
    | isTrue h => decidable_of_iff (f = f' ∧ t = t') (by simp [h])
    | isFalse h => isFalse (by simp [h])
  | otherCall c xs t, otherCall c' xs' t' =>
    match decEqs xs xs' with
    | isTrue h => decidable_of_iff (c = c' ∧ t = t') (by simp [h])
    | isFalse h => isFalse (by simp [h])
  | inputRef .., literal .. | inputRef .., functionCall .. | inputRef .., otherCall ..
  | inputRef .., leaf .. | literal .., inputRef .. | literal .., functionCall ..
  | literal .., otherCall .. | literal .., leaf .. | functionCall .., inputRef ..
  | functionCall .., literal .. | functionCall .., otherCall .. | functionCall .., leaf ..
  | otherCall .., inputRef .. | otherCall .., literal .. | otherCall .., functionCall ..
  | otherCall .., leaf .. | leaf .., inputRef .. | leaf .., literal .. | leaf .., functionCall ..
  | leaf .., otherCall .. => isFalse (by simp)

def decEqs : (xs ys : List ExprImpl) → Decidable (xs = ys)
  | [], [] => isTrue rfl
  | [], _ :: _ | _ :: _, [] => isFalse (by simp)
  | x :: xs, y :: ys =>
    match decEq x y, decEqs xs ys with
    | isTrue h, isTrue h' => isTrue (by rw [h, h'])
    | isFalse h, _ => isFalse (by simp [h])
    | _, isFalse h' => isFalse (by simp [h'])

end

instance : DecidableEq ExprImpl := decEq

def returnType : ExprImpl → DataType
  | inputRef _ t | literal _ t | functionCall _ _ t | otherCall _ _ t | leaf _ t => t

def literalBool (v : Bool) : ExprImpl := literal (some (.scalar (.bool v))) .boolean

/-- `ExprImpl::is_null`: the literal NULL. -/
def isNull : ExprImpl → Bool
  | literal none _ => true
  | _ => false

mutual

def hasSubquery : ExprImpl → Bool
  | functionCall _ inputs _ | otherCall _ inputs _ => hasSubqueries inputs
  | leaf (.subquery _) _ => true
  | inputRef _ _ | literal _ _ | leaf _ _ => false

def hasSubqueries : List ExprImpl → Bool
  | [] => false
  | e :: es => hasSubquery e || hasSubqueries es

end

end ExprImpl

/-- The types of the inputs and of the value. -/
def ExprType.Signature : ExprType → List DataType → DataType → Prop
  | not, inputs, t => inputs = [.boolean] ∧ t = .boolean
  | and, inputs, t | or, inputs, t => inputs = [.boolean, .boolean] ∧ t = .boolean
  | isTrue, inputs, t | isNotTrue, inputs, t | isFalse, inputs, t | isNotFalse, inputs, t =>
    inputs = [.boolean] ∧ t = .boolean
  | isNull, inputs, t | isNotNull, inputs, t => inputs.length = 1 ∧ t = .boolean
  | equal, inputs, t | lessThan, inputs, t | lessThanOrEqual, inputs, t | greaterThan, inputs, t
  | greaterThanOrEqual, inputs, t => inputs.length = 2 ∧ t = .boolean
  | in_, inputs, t => inputs ≠ [] ∧ t = .boolean
  | row, _, t => t = .struct
  | other _, _, _ => True

instance ExprType.decidableSignature : (f : ExprType) → (inputs : List DataType) → (t : DataType) →
    Decidable (f.Signature inputs t)
  | not, _, _ | and, _, _ | or, _, _ | isTrue, _, _ | isNotTrue, _, _ | isFalse, _,
    _ | isNotFalse, _, _
  | isNull, _, _ | isNotNull, _, _ | equal, _, _ | lessThan, _, _ | lessThanOrEqual, _, _
  | greaterThan, _, _ | greaterThanOrEqual, _, _ | in_, _, _ => inferInstanceAs (Decidable (_ ∧ _))
  | row, _, t => inferInstanceAs (Decidable (t = .struct))
  | other _, _, _ => inferInstanceAs (Decidable True)

/-- `FunctionCall::new` of a function with a boolean value: the signature is checked. -/
def FunctionCall.new (funcType : ExprType) (inputs : List ExprImpl) : Res ExprImpl := do
  assert (decide (funcType.Signature (inputs.map (·.returnType)) .boolean)) "FunctionCall::new"
  .ok (.functionCall funcType inputs .boolean)

/-! ## Evaluation -/

abbrev Row := Nat → Datum

/-- What the functions that the planner does not know about compute, and the leaves. -/
structure Semantics where
  call : Nat → DataType → List Datum → Datum
  otherCall : Callee → DataType → List Datum → Datum
  leaf : Leaf → DataType → Row → Datum
  call_hasType : ∀ id t args, (call id t args).HasType t
  otherCall_hasType : ∀ callee t args, (otherCall callee t args).HasType t
  leaf_hasType : ∀ leaf' t row, (leaf leaf' t row).HasType t

/-- A comparison is NULL if a side is. -/
def compareDatums (p : ScalarImpl → ScalarImpl → Bool) : Datum → Datum → Option Bool
  | some a, some b => some (p a b)
  | _, _ => none

/-- The value of a call of a known function. -/
def evalLogic : ExprType → List Datum → Option Bool
  | .not, [a] => Kleene.not a.truth
  | .and, [a, b] => Kleene.and a.truth b.truth
  | .or, [a, b] => Kleene.or a.truth b.truth
  | .isTrue, [a] => some (a.truth == some true)
  | .isNotTrue, [a] => some (a.truth != some true)
  | .isFalse, [a] => some (a.truth == some false)
  | .isNotFalse, [a] => some (a.truth != some false)
  | .isNull, [a] => some a.isNone
  | .isNotNull, [a] => some a.isSome
  | .equal, [a, b] => compareDatums (fun a b => decide (a = b)) a b
  | .lessThan, [a, b] => compareDatums (fun a b => decide (a < b)) a b
  | .lessThanOrEqual, [a, b] => compareDatums (fun a b => decide (a ≤ b)) a b
  | .greaterThan, [a, b] => compareDatums (fun a b => decide (b < a)) a b
  | .greaterThanOrEqual, [a, b] => compareDatums (fun a b => decide (b ≤ a)) a b
  | .in_, a :: list =>
    list.foldr (fun b acc => Kleene.or (compareDatums (· == ·) a b) acc) (some false)
  | _, _ => none

/-- A field of a row value. -/
def Datum.toField : Datum → Option Scalar
  | some (.scalar v) => some v
  | _ => none

def evalCall (sem : Semantics) : ExprType → DataType → List Datum → Datum
  | .row, _, args => some (.struct (args.map Datum.toField))
  | .other id, t, args => sem.call id t args
  | f, _, args => Datum.ofTruth (evalLogic f args)

namespace ExprImpl

mutual

def eval (sem : Semantics) (row : Row) : ExprImpl → Datum
  | inputRef index _ => row index
  | literal data _ => data
  | functionCall f inputs t => evalCall sem f t (evalInputs sem row inputs)
  | otherCall c inputs t => sem.otherCall c t (evalInputs sem row inputs)
  | leaf l t => sem.leaf l t row

def evalInputs (sem : Semantics) (row : Row) : List ExprImpl → List Datum
  | [] => []
  | e :: es => eval sem row e :: evalInputs sem row es

end

def IsTrue (sem : Semantics) (row : Row) (e : ExprImpl) : Prop := (e.eval sem row).truth = some true

instance (sem : Semantics) (row : Row) (e : ExprImpl) : Decidable (e.IsTrue sem row) :=
  inferInstanceAs (Decidable (_ = _))

mutual

/-- Function calls have the right number of inputs, of the right types. -/
def WellTyped (schema : Nat → DataType) : ExprImpl → Prop
  | inputRef index t => schema index = t
  | literal data t => data.HasType t
  | functionCall f inputs t => WellTypedInputs schema inputs ∧ f.Signature (inputs.map returnType) t
  | otherCall _ inputs _ => WellTypedInputs schema inputs
  | leaf _ _ => True

def WellTypedInputs (schema : Nat → DataType) : List ExprImpl → Prop
  | [] => True
  | e :: es => WellTyped schema e ∧ WellTypedInputs schema es

end

end ExprImpl

/-- The values of the row have the types of the columns. -/
def Row.HasTypes (row : Row) (schema : Nat → DataType) : Prop := ∀ i, (row i).HasType (schema i)

end Frontend
