import MiniC.Tree.Basic

/-! # Typing rules of the operators

The rules speak about types only; where they are broken is known to the caller.
-/
namespace MiniC
set_option autoImplicit false

inductive TypeError where
  | undefinedName (name : String)
  | undefinedFunction (name : String)
  | duplicateFunction (name : String)
  | duplicateGlobal (name : String)
  | wrongArgumentCount (function : String) (expected actual : Nat)
  | mismatch (expected actual : Ty)
  | incompatibleOperands (op : String) (lhs rhs : Ty)
  | invalidOperand (op : String) (ty : Ty)
  | notAssignable (op : String)
  | notIndexable (ty : Ty)
  | nonIntegralIndex (ty : Ty)
  | invalidCondition (ty : Ty)
  | missingReturnValue (ty : Ty)
  | unexpectedReturnValue (function : String)
  | voidVariable (name : String)
  | arrayStore (ty : Ty)
  deriving DecidableEq, Repr

def TypeError.message : TypeError → String
  | undefinedName name => "undefined name `" ++ name ++ "`"
  | undefinedFunction name => "undefined function `" ++ name ++ "`"
  | duplicateFunction name => "function `" ++ name ++ "` is already defined"
  | duplicateGlobal name => "global `" ++ name ++ "` is already defined"
  | wrongArgumentCount function expected actual =>
    "`" ++ function ++ "` takes " ++ Text.ofNat expected ++ " argument(s) but " ++
      Text.ofNat actual ++ " were supplied"
  | mismatch expected actual =>
    "mismatched types: expected `" ++ expected.name ++ "`, found `" ++ actual.name ++ "`"
  | incompatibleOperands op lhs rhs =>
    "cannot apply `" ++ op ++ "` to `" ++ lhs.name ++ "` and `" ++ rhs.name ++ "`"
  | invalidOperand op ty => "cannot apply `" ++ op ++ "` to `" ++ ty.name ++ "`"
  | notAssignable op => "`" ++ op ++ "` can only be applied to a variable"
  | notIndexable ty => "type `" ++ ty.name ++ "` cannot be indexed"
  | nonIntegralIndex ty => "index must be an integer, found `" ++ ty.name ++ "`"
  | invalidCondition ty =>
    "condition must be an integer or a pointer, found `" ++ ty.name ++ "`"
  | missingReturnValue ty =>
    "missing return value in function returning `" ++ ty.name ++ "`"
  | unexpectedReturnValue function =>
    "void function `" ++ function ++ "` cannot return a value"
  | voidVariable name => "`" ++ name ++ "` cannot have type `void`"
  | arrayStore ty => "cannot store into a whole row of type `" ++ ty.name ++ "`"

def BinaryOp.acceptsFloat (op : BinaryOp) : Bool :=
  op.isComparison || op ∈ [.add, .sub, .mul, .div]

def BinaryOp.acceptsOperand (op : BinaryOp) (ty : Ty) : Bool :=
  ty ≠ .void && (ty ≠ .float || op.acceptsFloat)

/-- Whether operands of the two types go together: the types are equal, or both are integral, or an
integer is added to or subtracted from a pointer or an array. -/
def BinaryOp.compatible (op : BinaryOp) (lhs rhs : Ty) : Bool :=
  lhs = rhs || (lhs.isIntegral && rhs.isIntegral) ||
    (lhs.isIndexable && rhs.isIntegral && op ∈ [.add, .sub])

def BinaryOp.resultTy (op : BinaryOp) (lhs : Ty) : Ty :=
  if op.isComparison then .int else lhs

def BinaryOp.type (op : BinaryOp) (lhs rhs : Ty) : Except TypeError Ty :=
  if !op.acceptsOperand lhs then .error (.invalidOperand op.symbol lhs)
  else if !op.acceptsOperand rhs then .error (.invalidOperand op.symbol rhs)
  else if !op.compatible lhs rhs then .error (.incompatibleOperands op.symbol lhs rhs)
  else .ok (op.resultTy lhs)

/-- The type of a unary operation; stepping up or down is possible only on a variable. -/
def UnaryOp.type (op : UnaryOp) (isVariable : Bool) (ty : Ty) : Except TypeError Ty :=
  let invalid := .error (.invalidOperand op.symbol ty)
  match op with
  | increment | decrement =>
    if !isVariable then .error (.notAssignable op.symbol)
    else if ty.isNumeric then .ok ty else invalid
  | not => if ty = .float ∨ ty = .void then invalid else .ok .int
  | deref =>
    match ty.element? with
    | some t => .ok t
    | none => invalid
  | negate => if ty.isNumeric then .ok ty else invalid

end MiniC
