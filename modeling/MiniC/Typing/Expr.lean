import MiniC.Typing.Rules

/-! # Checking expressions

Checking adds to every expression its type.  Subexpressions are checked from left to right, and the
first error ends the check.
-/
namespace MiniC
set_option autoImplicit false

abbrev Checked (α : Type) : Type := Except (Located TypeError) α

structure Signature where
  params : List Ty
  result : Ty
  deriving DecidableEq, Repr

abbrev Signatures : Type := List (String × Signature)

/-- The functions that the host provides. -/
def Signatures.host : Signatures :=
  [("log", ⟨[.pointer .char], .void⟩), ("logInt", ⟨[.int], .void⟩)]

/-- The variables that can be seen, the newest first: of two with one name the newer counts. -/
abbrev Scope : Type := List (String × Ty)

namespace Checked

variable {α : Type}

def fail (span : Span) (e : TypeError) : Checked α := .error ⟨span, e⟩

def locate (span : Span) : Except TypeError α → Checked α
  | .ok a => .ok a
  | .error e => fail span e

end Checked

namespace Scope

def lookup (scope : Scope) (x : Ident) : Checked Ty :=
  match List.lookup x.name scope with
  | some ty => .ok ty
  | none => Checked.fail x.span (.undefinedName x.name)

def declare (scope : Scope) (x : Ident) (ty : Ty) : Scope := (x.name, ty) :: scope

end Scope

def ensureAssignable (target : Ty) (value : Expr Ty) : Checked Unit :=
  if target.isAssignable value.info then .ok ()
  else Checked.fail value.span (.mismatch target value.info)

def ensureNotVoid (x : Ident) (ty : Ty) : Checked Unit :=
  if ty = .void then Checked.fail x.span (.voidVariable x.name) else .ok ()

def elementTy (base : Expr Ty) : Checked Ty :=
  match base.info.element? with
  | some t => .ok t
  | none => Checked.fail base.span (.notIndexable base.info)

def ensureIndex (offset : Expr Ty) : Checked Unit :=
  if offset.info.isIntegral then .ok ()
  else Checked.fail offset.span (.nonIntegralIndex offset.info)

def ensureCondition (cond : Expr Ty) : Checked Unit :=
  if cond.info = .float ∨ cond.info = .void then
    Checked.fail cond.span (.invalidCondition cond.info)
  else .ok ()

def Expr.isVariable {α : Type} : Expr α → Bool
  | .var .. => true
  | _ => false

namespace Expr

variable (sigs : Signatures) (scope : Scope)

mutual

def check : Expr Unit → Checked (Expr Ty)
  | const _ s value => .ok (const value.ty s value)
  | string _ s text => .ok (string (.pointer .char) s text)
  | var _ s x => do
    let ty ← scope.lookup x
    return var ty s x
  | call _ s callee args => do
    match List.lookup callee.name sigs with
    | none => Checked.fail callee.span (.undefinedFunction callee.name)
    | some sig =>
      if sig.params.length ≠ args.length then
        Checked.fail s (.wrongArgumentCount callee.name sig.params.length args.length)
      else
        let args ← checkArgs args sig.params
        return call sig.result s callee args
  | binary _ s op lhs rhs => do
    let lhs ← lhs.check
    let rhs ← rhs.check
    let ty ← Checked.locate s (op.type lhs.info rhs.info)
    return binary ty s op lhs rhs
  | unary _ s op fixity operand => do
    let operand ← operand.check
    let ty ← Checked.locate s (op.type operand.isVariable operand.info)
    return unary ty s op fixity operand
  | index _ s base offset => do
    let base ← base.check
    let ty ← elementTy base
    let offset ← offset.check
    ensureIndex offset
    return index ty s base offset

def checkArgs : List (Expr Unit) → List Ty → Checked (List (Expr Ty))
  | arg :: args, ty :: tys => do
    let arg ← arg.check
    ensureAssignable ty arg
    let args ← checkArgs args tys
    return arg :: args
  | _, _ => .ok []

end

def checkCondition (e : Expr Unit) : Checked (Expr Ty) := do
  let e ← e.check sigs scope
  ensureCondition e
  return e

def checkAs (target : Ty) (e : Expr Unit) : Checked (Expr Ty) := do
  let e ← e.check sigs scope
  ensureAssignable target e
  return e

def checkOptionAs (target : Ty) : Option (Expr Unit) → Checked (Option (Expr Ty))
  | none => .ok none
  | some e => some <$> e.checkAs sigs scope target

def checkOptionCondition : Option (Expr Unit) → Checked (Option (Expr Ty))
  | none => .ok none
  | some e => some <$> e.checkCondition sigs scope

end Expr

end MiniC
