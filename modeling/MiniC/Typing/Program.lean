import MiniC.Typing.Expr

/-! # Checking statements and programs

Blocks do not open a scope: a declaration is seen by everything that is checked after it in its
function.  A `for` loop is checked in the order start, condition, update, body.  Functions may be
called before they are defined; globals are seen only by the items after them.
-/
namespace MiniC
set_option autoImplicit false

structure FunctionContext where
  signatures : Signatures
  name : String
  returnTy : Ty

namespace Stmt

variable (ctx : FunctionContext)

def checkReturn (scope : Scope) (s : Span) : Option (Expr Unit) → Checked (Stmt Ty)
  | none =>
    if ctx.returnTy = .void then .ok (ret s none)
    else Checked.fail s (.missingReturnValue ctx.returnTy)
  | some value =>
    if ctx.returnTy = .void then Checked.fail value.span (.unexpectedReturnValue ctx.name)
    else do
      let value ← value.checkAs ctx.signatures scope ctx.returnTy
      return ret s (some value)

/-- A store writes one element, never a whole row of a nested array. -/
def checkStore (scope : Scope) (s : Span) (base offset value : Expr Unit) : Checked (Stmt Ty) := do
  let base ← base.check ctx.signatures scope
  let ty ← elementTy base
  if ty.isArray then Checked.fail s (.arrayStore ty)
  else
    let offset ← offset.check ctx.signatures scope
    ensureIndex offset
    let value ← value.checkAs ctx.signatures scope ty
    return store s base offset value

mutual

/-- The checked statement, and the variables that are seen after it. -/
def check (scope : Scope) : Stmt Unit → Checked (Stmt Ty × Scope)
  | ret s value => do
    let x ← checkReturn ctx scope s value
    return (x, scope)
  | assign s target value => do
    let ty ← scope.lookup target
    let value ← value.checkAs ctx.signatures scope ty
    return (assign s target value, scope)
  | declare s name ty init => do
    ensureNotVoid name ty
    let scope := scope.declare name ty
    let init ← Expr.checkOptionAs ctx.signatures scope ty init
    return (declare s name ty init, scope)
  | store s base offset value => do
    let x ← checkStore ctx scope s base offset value
    return (x, scope)
  | branch s cond thenBody elseBody => do
    let cond ← cond.checkCondition ctx.signatures scope
    let (thenBody, scope) ← checkAll scope thenBody
    let (elseBody, scope) ← checkAll scope elseBody
    return (branch s cond thenBody elseBody, scope)
  | loop s kind cond body => do
    let cond ← cond.checkCondition ctx.signatures scope
    let (body, scope) ← checkAll scope body
    return (loop s kind cond body, scope)
  | forLoop s init cond update body => do
    let (init, scope) ← checkOption scope init
    let cond ← Expr.checkOptionCondition ctx.signatures scope cond
    let (update, scope) ← checkOption scope update
    let (body, scope) ← checkAll scope body
    return (forLoop s init cond update body, scope)
  | jump s j => .ok (jump s j, scope)
  | expr s value => do
    let value ← value.check ctx.signatures scope
    return (expr s value, scope)

def checkAll (scope : Scope) : List (Stmt Unit) → Checked (List (Stmt Ty) × Scope)
  | [] => .ok ([], scope)
  | x :: xs => do
    let (x, scope) ← x.check scope
    let (xs, scope) ← checkAll scope xs
    return (x :: xs, scope)

def checkOption (scope : Scope) : Option (Stmt Unit) → Checked (Option (Stmt Ty) × Scope)
  | none => .ok (none, scope)
  | some x => do
    let (x, scope) ← x.check scope
    return (some x, scope)

end

end Stmt

namespace Signatures

def add (sigs : Signatures) (f : Function Unit) : Checked Signatures := do
  f.params.forM fun p => ensureNotVoid p.name p.ty
  if (List.lookup f.name.name sigs).isSome then
    Checked.fail f.name.span (.duplicateFunction f.name.name)
  else return (f.name.name, ⟨f.params.map Param.ty, f.returnTy⟩) :: sigs

def ofFunctions (fs : List (Function Unit)) : Checked Signatures := fs.foldlM add host

end Signatures

/-- The checked global; it is not seen by its own initial value. -/
def Global.check (sigs : Signatures) (globals : Scope) (g : Global Unit) :
    Checked (Global Ty) := do
  ensureNotVoid g.name g.ty
  if (List.lookup g.name.name globals).isSome then
    Checked.fail g.name.span (.duplicateGlobal g.name.name)
  else
    let init ← Expr.checkOptionAs sigs globals g.ty g.init
    return ⟨g.name, g.ty, init⟩

def Function.check (sigs : Signatures) (globals : Scope) (f : Function Unit) :
    Checked (Function Ty) := do
  let scope := f.params.foldl (fun scope p => scope.declare p.name p.ty) globals
  let (body, _) ← Stmt.checkAll ⟨sigs, f.name.name, f.returnTy⟩ scope f.body
  return ⟨f.name, f.returnTy, f.params, body⟩

/-- Checks items in order; `globals` are those that stand before them. -/
def checkItems (sigs : Signatures) : Scope → List (Item Unit) → Checked (List (Item Ty))
  | _, [] => .ok []
  | globals, .global g :: items => do
    let g ← g.check sigs globals
    let items ← checkItems sigs (globals.declare g.name g.ty) items
    return .global g :: items
  | globals, .function f :: items => do
    let f ← f.check sigs globals
    let items ← checkItems sigs globals items
    return .function f :: items

/-- Checks a program.  All functions are known before the first item is checked. -/
def Program.check (p : Program Unit) : Checked (Program Ty) := do
  let sigs ← Signatures.ofFunctions p.functions
  let items ← checkItems sigs [] p.items
  return ⟨items⟩

end MiniC
