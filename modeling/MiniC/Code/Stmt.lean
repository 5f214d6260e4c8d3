import MiniC.Code.Expr

/-! # The code of statements

The code of a statement leaves the stack as it was.  Inside a function the open blocks are listed
innermost first, each with the kind of jump that leaves it; a jump branches to the innermost block
of its kind.

A loop that tests first becomes an `if` around a loop that tests last, so that the code of its
condition stands there twice.  The `if` is what `break` leaves; a loop that tests last is put in a
block for that, but only if it has a `break` of its own.  In the same way the body of a loop with a
`continue` of its own is put in a block.

The depth of a branch has no limit here.  It has 32 bits, and a jump out of 2³² open blocks or more is
to fail as if there were no loop around it.
-/
namespace MiniC
set_option autoImplicit false

open Wasm (Code Instr)

/-- The kind of jump that leaves an open block; no jump leaves a plain one. -/
abbrev Label : Type := Option Jump

namespace Stmt

variable {α : Type}

mutual

/-- Whether the statement has a jump of the given kind outside of its loops. -/
def jumps (j : Jump) : Stmt α → Bool
  | jump _ k => k = j
  | branch _ _ thenBody elseBody => jumpsAny j thenBody || jumpsAny j elseBody
  | _ => false

def jumpsAny (j : Jump) : List (Stmt α) → Bool
  | [] => false
  | x :: xs => x.jumps j || jumpsAny j xs

end

def isReturn : Stmt α → Bool
  | ret .. => true
  | _ => false

end Stmt

namespace Emit

variable (globals : Globals)

def optionExpr : Option (Expr Ty) → Emit Code
  | none => return []
  | some e => e.emit globals

/-- The condition of a loop; a missing one always holds. -/
def condition : Option (Expr Ty) → Emit Code
  | none => return [.i32Const 1]
  | some e => e.emit globals

def assign (x : Ident) (value : Expr Ty) : Emit Code := do
  match ← resolve globals x with
  | .slot n => return (← value.emit globals) ++ [.localSet n]
  | .cell address ty => return [pushAddress address] ++ (← value.emit globals) ++ [.store ty]

def declareArray (s : Span) (x : Ident) (ty : Ty) : Option (Expr Ty) → Emit Code
  | some init => fail init.span .arrayInitializer
  | none => do
    let address ← inMemory (Memory.reserveArray ty s)
    let n ← declare x ty
    return [pushAddress address, .localSet n]

def declareScalar (x : Ident) (ty : Ty) (init : Option (Expr Ty)) : Emit Code := do
  let n ← declare x ty
  match init with
  | none => return []
  | some e => return (← e.emit globals) ++ [.localSet n]

/-- An expression for its effect: a step leaves no value behind, any other value is dropped. -/
def effect (e : Expr Ty) : Emit Code := do
  let plain := do
    return (← e.emit globals) ++ if e.info = .void then [] else [.drop]
  match e with
  | .unary _ _ op fixity operand =>
    if op = .increment ∨ op = .decrement then step globals op fixity false operand else plain
  | _ => plain

/-- The branch to the innermost block that the jump leaves. -/
def jump (labels : List Label) (s : Span) (j : Jump) : Emit Code :=
  match labels.findIdx? fun l => decide (l = some j) with
  | some depth => return [.br depth]
  | none => fail s (.outsideLoop j)

def bodyLabels (wrapped : Bool) (labels : List Label) : List Label :=
  if wrapped then some .continue_ :: none :: labels else none :: labels

def blockIf (wrapped : Bool) (code : Code) : Code :=
  if wrapped then [.block] ++ code ++ [.end_] else code

def repeatLoop (wrapped : Bool) (body update cond : Emit Code) : Emit Code := do
  let b ← body
  let u ← update
  let c ← cond
  return [.loop] ++ blockIf wrapped b ++ u ++ c ++ [.brIf 0, .end_]

def guarded (cond inner : Emit Code) : Emit Code := do
  let c ← cond
  let i ← inner
  return c ++ [.if_] ++ i ++ [.end_]

end Emit

namespace Stmt

variable (globals : Globals)

mutual

def emit (labels : List Label) : Stmt Ty → Emit Code
  | ret _ value => do
    let code ← Emit.optionExpr globals value
    return code ++ [.return_]
  | assign _ target value => Emit.assign globals target value
  | declare s name ty init =>
    if ty.isArray then Emit.declareArray s name ty init
    else Emit.declareScalar globals name ty init
  | store _ base offset value => do
    let a ← Emit.elementAddress base (base.emit globals) (offset.emit globals)
    let v ← value.emit globals
    return a ++ v ++ [.store8]
  | branch _ cond thenBody elseBody => do
    let c ← cond.emit globals
    let t ← emitAll (none :: labels) thenBody
    let e ← emitAll (none :: labels) elseBody
    return c ++ [.if_] ++ t ++ (if elseBody.isEmpty then [] else [.else_] ++ e) ++ [.end_]
  | loop _ .whileDo cond body =>
    let wrapped := jumpsAny .continue_ body
    let labels := some .break_ :: labels
    Emit.guarded (cond.emit globals)
      (Emit.repeatLoop wrapped (emitAll (Emit.bodyLabels wrapped labels) body) (return [])
        (cond.emit globals))
  | loop _ .doWhile cond body => do
    let breaks := jumpsAny .break_ body
    let wrapped := jumpsAny .continue_ body
    let labels := if breaks then some .break_ :: labels else labels
    let code ← Emit.repeatLoop wrapped (emitAll (Emit.bodyLabels wrapped labels) body)
      (return []) (cond.emit globals)
    return Emit.blockIf breaks code
  | forLoop _ init cond update body => do
    let start ← emitOption labels init
    let wrapped := jumpsAny .continue_ body
    let labels := some .break_ :: labels
    let code ← Emit.guarded (Emit.condition globals cond)
      (Emit.repeatLoop wrapped (emitAll (Emit.bodyLabels wrapped labels) body)
        (emitOption (none :: labels) update) (Emit.condition globals cond))
    return start ++ code
  | jump s j => Emit.jump labels s j
  | expr _ value => Emit.effect globals value

def emitAll (labels : List Label) : List (Stmt Ty) → Emit Code
  | [] => return []
  | x :: xs => do
    let a ← x.emit labels
    let b ← emitAll labels xs
    return a ++ b

def emitOption (labels : List Label) : Option (Stmt Ty) → Emit Code
  | none => return []
  | some x => x.emit labels

end

end Stmt

end MiniC
