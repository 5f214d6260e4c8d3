import MiniC.Proofs.Execution.World
import MiniC.Proofs.Layout

/-! # Running typed programs

Operands, arguments and the parts of an array access are evaluated from left to right, and both
operands of `&&` and `||` always are.  Integers wrap around; a division that has no result, or one
that is too large, traps.  Elements of arrays are bytes.  The parameters and local variables of a
function are there from its start, the local ones with the value zero, which they keep until they
are declared with a value or assigned; globals, arrays and literals are in linear memory.  The number
of passes through a loop and the depth of calls are limited.
-/
namespace MiniC
set_option autoImplicit false

open Wasm (ValType)

structure Store where
  vars : String → Option Value
  world : World

/-- How a statement is left before its end. -/
inductive Exit where
  | jump (j : Jump)
  | return_ (value : Option Value)
  | halt (h : Halt)
  deriving DecidableEq, Repr

abbrev Eval (α : Type) : Type := EStateM Exit Store α

/-- What the body of a function runs with. -/
structure Setting where
  float : FloatOps
  /-- How often a loop may be passed through. -/
  passes : Nat
  cells : Globals
  texts : List (Nat × Nat)
  arrays : List (String × Nat)
  call : String → List Value → Act (Option Value)

namespace BinaryOp

def evalInt (op : BinaryOp) (a b : Int32) : Act Value :=
  let wrapped (i : Int) : Act Value := return .i32 (.ofInt i)
  match op with
  | add => wrapped (a.toInt + b.toInt)
  | sub => wrapped (a.toInt - b.toInt)
  | mul => wrapped (a.toInt * b.toInt)
  | div =>
    if b.toInt = 0 ∨ Int32.maxValue.toInt < a.toInt.tdiv b.toInt then throw .trap
    else wrapped (a.toInt.tdiv b.toInt)
  | rem => if b.toInt = 0 then throw .trap else wrapped (a.toInt.tmod b.toInt)
  | eq => return .ofBool (a.toInt = b.toInt)
  | ne => return .ofBool (a.toInt ≠ b.toInt)
  | lt => return .ofBool (a.toInt < b.toInt)
  | gt => return .ofBool (a.toInt > b.toInt)
  | le => return .ofBool (a.toInt ≤ b.toInt)
  | ge => return .ofBool (a.toInt ≥ b.toInt)
  | logicalAnd | bitAnd => return .i32 (a &&& b)
  | logicalOr | bitOr => return .i32 (a ||| b)
  | xor => return .i32 (a ^^^ b)

def evalFloat (float : FloatOps) (op : BinaryOp) (x y : Binary32) : Act Value :=
  match op with
  | add => return .f32 (float.add x y)
  | sub => return .f32 (float.sub x y)
  | mul => return .f32 (float.mul x y)
  | div => return .f32 (float.div x y)
  | eq => return .ofBool (float.eq x y)
  | ne => return .ofBool (float.ne x y)
  | lt => return .ofBool (float.lt x y)
  | gt => return .ofBool (float.gt x y)
  | le => return .ofBool (float.le x y)
  | ge => return .ofBool (float.ge x y)
  | _ => throw .stuck

def eval (float : FloatOps) (op : BinaryOp) : Value → Value → Act Value
  | .i32 a, .i32 b => op.evalInt a b
  | .f32 x, .f32 y => op.evalFloat float x y
  | _, _ => throw .stuck

end BinaryOp

def Constant.value : Constant → Value
  | int a => .i32 a
  | float x => .f32 x

namespace Value

def negated : Value → Value
  | i32 a => i32 (.ofInt (-a.toInt))
  | f32 x => f32 x.neg

def one : ValType → Value
  | .i32 => i32 1
  | .f32 => f32 .one

end Value

/-- The distance between two elements: a row of a nested array takes its whole length. -/
def Ty.elementStep (base : Ty) : Nat :=
  match base.element? with
  | some t => if t.isArray then t.byteLength else 1
  | none => 1

namespace Eval

variable {α : Type}

def stuck : Eval α := throw (.halt .stuck)

def onWorld (x : Act α) : Eval α := fun s =>
  match x s.world with
  | .ok a w => .ok a { s with world := w }
  | .error h w => .error (.halt h) { s with world := w }

def value : Option Value → Eval Value
  | some v => return v
  | none => stuck

def int : Option Value → Eval Int32
  | some (.i32 a) => return a
  | _ => stuck

def test (result : Option Value) : Eval Bool := do
  let a ← int result
  return a ≠ 0

def read (S : Setting) (x : String) : Eval Value := fun s =>
  match s.vars x with
  | some v => .ok v s
  | none =>
    match List.lookup x S.cells with
    | some (address, ty) => onWorld (World.load ty.valType (wordOf address)) s
    | none => stuck s

def assign (S : Setting) (x : String) (v : Value) : Eval Unit := fun s =>
  match s.vars x with
  | some _ => .ok () { s with vars := fun y => if y = x then some v else s.vars y }
  | none =>
    match List.lookup x S.cells with
    | some (address, _) => onWorld (World.store (wordOf address) v) s
    | none => stuck s

def step (S : Setting) (op : BinaryOp) (fixity : Fixity) : Expr Ty → Eval (Option Value)
  | .var _ _ x => do
    let old ← read S x.name
    let new ← onWorld (op.eval S.float old (.one old.type))
    assign S x.name new
    return some (match fixity with
      | .before => new
      | .after => old)
  | _ => stuck

/-- What stands at the address of an element: an array is its own address. -/
def element (ty : Ty) (a : Int32) : Eval (Option Value) := do
  if ty.isArray then return some (.i32 a)
  let v ← onWorld (World.loadByte a)
  return some v

def unary (S : Setting) (ty : Ty) (op : UnaryOp) (fixity : Fixity) (operand : Expr Ty)
    (inner : Eval (Option Value)) : Eval (Option Value) :=
  match op with
  | .increment => step S .add fixity operand
  | .decrement => step S .sub fixity operand
  | .not => do
    let a ← int (← inner)
    return some (.ofBool (a = 0))
  | .deref => do
    let a ← int (← inner)
    element ty a
  | .negate => do
    let v ← value (← inner)
    return some v.negated

/-- The address of an element. -/
def elementAddress (base : Ty) (b o : Int32) : Int32 := b + o * wordOf base.elementStep

end Eval

namespace Expr

variable (S : Setting)

mutual

def eval : Expr Ty → Eval (Option Value)
  | const _ _ c => return some c.value
  | string _ s _ =>
    match List.lookup s.lo S.texts with
    | some address => return some (.i32 (wordOf address))
    | none => Eval.stuck
  | var _ _ x => do
    let v ← Eval.read S x.name
    return some v
  | call _ _ callee args => do
    let vs ← evalAll args
    Eval.onWorld (S.call callee.name vs)
  | binary _ _ op lhs rhs => do
    let a ← Eval.value (← lhs.eval)
    let b ← Eval.value (← rhs.eval)
    let v ← Eval.onWorld (op.eval S.float a b)
    return some v
  | unary ty _ op fixity operand => Eval.unary S ty op fixity operand operand.eval
  | index ty _ base offset => do
    let b ← Eval.int (← base.eval)
    let o ← Eval.int (← offset.eval)
    Eval.element ty (Eval.elementAddress base.info b o)

def evalAll : List (Expr Ty) → Eval (List Value)
  | [] => return []
  | e :: es => do
    let v ← Eval.value (← e.eval)
    let vs ← evalAll es
    return v :: vs

end

def evalTest (e : Expr Ty) : Eval Bool := do
  Eval.test (← e.eval S)

/-- A missing condition always holds. -/
def evalOptionTest : Option (Expr Ty) → Eval Bool
  | none => return true
  | some e => e.evalTest S

end Expr

namespace Eval

/-- The result is whether the statement was left by a jump of the given kind. -/
def catching (l : Label) (x : Eval Unit) : Eval Bool := fun s =>
  match x s with
  | .ok _ s' => .ok false s'
  | .error (.jump j) s' => if l = some j then .ok true s' else .error (.jump j) s'
  | .error e s' => .error e s'

/-- Jumps of the given kind end the statement and nothing more. -/
def upTo (j : Jump) (x : Eval Unit) : Eval Unit := discard (catching (some j) x)

def whileLoop (test : Eval Bool) (body : Eval Unit) : Nat → Eval Unit
  | 0 => do
    if ← test then throw (.halt .timeout)
  | n + 1 => do
    if ← test then
      body
      whileLoop test body n

def doLoop (test : Eval Bool) (body : Eval Unit) : Nat → Eval Unit
  | 0 => throw (.halt .timeout)
  | n + 1 => do
    body
    whileLoop test body n

end Eval

namespace Stmt

variable (S : Setting)

mutual

def exec : Stmt Ty → Eval Unit
  | ret _ none => throw (.return_ none)
  | ret _ (some e) => do
    let v ← e.eval S
    throw (.return_ v)
  | assign _ x e => do
    let v ← Eval.value (← e.eval S)
    Eval.assign S x.name v
  | declare _ x _ (some e) => do
    let v ← Eval.value (← e.eval S)
    Eval.assign S x.name v
  | declare _ x ty none =>
    if ty.isArray then
      match List.lookup x.name S.arrays with
      | some address => Eval.assign S x.name (.i32 (wordOf address))
      | none => Eval.stuck
    else return ()
  | store _ base offset value => do
    let b ← Eval.int (← base.eval S)
    let o ← Eval.int (← offset.eval S)
    let v ← Eval.int (← value.eval S)
    Eval.onWorld (World.storeByte (Eval.elementAddress base.info b o) v)
  | branch _ cond thenBody elseBody => do
    if ← cond.evalTest S then execAll thenBody else execAll elseBody
  | loop _ .whileDo cond body =>
    Eval.upTo .break_
      (Eval.whileLoop (cond.evalTest S) (Eval.upTo .continue_ (execAll body)) S.passes)
  | loop _ .doWhile cond body =>
    Eval.upTo .break_
      (Eval.doLoop (cond.evalTest S) (Eval.upTo .continue_ (execAll body)) S.passes)
  | forLoop _ init cond update body => do
    execOption init
    Eval.upTo .break_
      (Eval.whileLoop (Expr.evalOptionTest S cond) (do
        Eval.upTo .continue_ (execAll body)
        execOption update) S.passes)
  | jump _ j => throw (.jump j)
  | expr _ e => discard (e.eval S)

def execAll : List (Stmt Ty) → Eval Unit
  | [] => return ()
  | x :: xs => do
    x.exec
    execAll xs

def execOption : Option (Stmt Ty) → Eval Unit
  | none => return ()
  | some x => x.exec

end

end Stmt

namespace Function

/-- The variables of a function when it is called. -/
def initialVars (f : Function Ty) (args : List Value) (x : String) : Option Value :=
  List.lookup x ((f.parameters.map Prod.fst).zip args ++
    f.locals.map fun d => (d.1, Value.zero d.2.valType))

/-- Calls a function; one that has a result traps if it runs to its end. -/
def evaluate (S : Setting) (f : Function Ty) (args : List Value) : Act (Option Value) := fun w =>
  match Stmt.execAll S f.body ⟨f.initialVars args, w⟩ with
  | .ok _ s => if f.returnTy = .void then .ok none s.world else .error .trap s.world
  | .error (.return_ v) s => .ok v s.world
  | .error (.jump _) s => .error .stuck s.world
  | .error (.halt h) s => .error h s.world

end Function

/-- Calls a function of the host or of the program. -/
def Program.call (p : Program Ty) (float : FloatOps) :
    Nat → String → List Value → Act (Option Value)
  | 0, name, args =>
    if name = "log" ∨ name = "logInt" then World.record name args else throw .timeout
  | n + 1, name, args =>
    if name = "log" ∨ name = "logInt" then World.record name args
    else
      match p.functions.find? fun f => f.name.name = name with
      | none => throw .stuck
      | some f =>
        let arrays := (List.lookup name p.layout.arrays).getD []
        f.evaluate ⟨float, n, p.layout.cells, p.layout.texts, arrays, p.call float n⟩ args

end MiniC
