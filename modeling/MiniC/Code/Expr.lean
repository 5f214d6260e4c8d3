import MiniC.Code.Frame

/-! # The code of expressions

The code of an expression leaves its value on the stack, or nothing if its type is `void`.  The
types written in the tree are trusted.
-/
namespace MiniC
set_option autoImplicit false

open Wasm (Code Instr ValType Opcode)

def BinaryOp.opcode? (op : BinaryOp) (ty : ValType) : Option Opcode :=
  match ty, op with
  | _, add => some .add
  | _, sub => some .sub
  | _, mul => some .mul
  | _, eq => some .eq
  | _, ne => some .ne
  | .i32, div => some .divS
  | .i32, rem => some .remS
  | .i32, lt => some .ltS
  | .i32, gt => some .gtS
  | .i32, le => some .leS
  | .i32, ge => some .geS
  | .i32, logicalAnd => some .and
  | .i32, bitAnd => some .and
  | .i32, logicalOr => some .or
  | .i32, bitOr => some .or
  | .i32, xor => some .xor
  | .f32, div => some .div
  | .f32, lt => some .lt
  | .f32, gt => some .gt
  | .f32, le => some .le
  | .f32, ge => some .ge
  | .f32, _ => none

def Constant.push : Constant → Instr
  | int value => .i32Const value
  | float value => .f32Const value

def pushOne : ValType → Instr
  | .i32 => .i32Const 1
  | .f32 => .f32Const .one

namespace Emit

variable (globals : Globals)

def readVariable (x : Ident) : Emit Code := do
  match ← resolve globals x with
  | .slot n => return [.localGet n]
  | .cell address ty => return [pushAddress address, .load ty]

def stepCode (op : UnaryOp) (ty : ValType) : Code :=
  [pushOne ty, .numeric ty (if op = .increment then .add else .sub)]

/-- Steps a slot; the value stays on the stack if it is used. -/
def stepSlot (n : Nat) (change : Code) (fixity : Fixity) (used : Bool) : Code :=
  let keepOld := used && fixity = .after
  let keepNew := used && fixity = .before
  [.localGet n] ++ (if keepOld then [.localGet n] else []) ++ change ++
    [if keepNew then .localTee n else .localSet n]

/-- Steps a global; a used value goes through a slot of its own. -/
def stepCell (address : Nat) (ty : ValType) (change : Code) (fixity : Fixity) (used : Bool) :
    Emit Code := do
  let load := [pushAddress address, pushAddress address, .load ty]
  if used then
    let n ← newSlot ty
    let keep := match fixity with
      | .after => .localTee n :: change
      | .before => change ++ [.localTee n]
    return load ++ keep ++ [.store ty, .localGet n]
  else return load ++ change ++ [.store ty]

def step (op : UnaryOp) (fixity : Fixity) (used : Bool) : Expr Ty → Emit Code
  | .var ty _ x => do
    let change := stepCode op ty.valType
    match ← resolve globals x with
    | .slot n => return stepSlot n change fixity used
    | .cell address cellTy => stepCell address cellTy change fixity used
  | operand => fail operand.span (.unsupportedUnary op.symbol operand.info)

def unary (s : Span) (op : UnaryOp) (fixity : Fixity) (operand : Expr Ty) (inner : Emit Code) :
    Emit Code := do
  let ty := operand.info.valType
  let unsupported := fail s (.unsupportedUnary op.symbol operand.info)
  match op with
  | .increment => step globals .increment fixity true operand
  | .decrement => step globals .decrement fixity true operand
  | .not =>
    if ty = .i32 then return (← inner) ++ [.numeric .i32 .eqz] else unsupported
  | .deref =>
    match operand.info.element? with
    | none => unsupported
    | some t =>
      if t = .float then fail s (.unsupportedElement .float)
      else if t.isArray then inner
      else return (← inner) ++ [.load8S]
  | .negate =>
    match ty with
    | .i32 => return [.i32Const 0] ++ (← inner) ++ [.numeric .i32 .sub]
    | .f32 => return (← inner) ++ [.numeric .f32 .neg]

/-- The distance between two elements: a row of a nested array takes its whole length. -/
def stride (base : Ty) : Nat :=
  match base.element? with
  | some t => if t.isArray then t.byteLength else 1
  | none => 1

def scaleCode (n : Nat) : Code :=
  if n = 1 then [] else [pushAddress n, .numeric .i32 .mul]

def elementAddress (base : Expr Ty) (baseCode offsetCode : Emit Code) : Emit Code := do
  if base.info.element? = some .float then fail base.span (.unsupportedElement .float)
  else
    let b ← baseCode
    let o ← offsetCode
    return b ++ o ++ scaleCode (stride base.info) ++ [.numeric .i32 .add]

end Emit

namespace Expr

variable (globals : Globals)

mutual

def emit : Expr Ty → Emit Code
  | const _ _ value => return [value.push]
  | string _ s text => do
    let address ← Emit.inMemory (Memory.placeString text s)
    return [pushAddress address]
  | var _ _ x => Emit.readVariable globals x
  | call _ _ callee args => do
    let code ← emitAll args
    return code ++ [.call callee.name]
  | binary _ s op lhs rhs => do
    let a ← lhs.emit
    let b ← rhs.emit
    let ty := lhs.info.valType
    match op.opcode? ty with
    | some opcode => return a ++ b ++ [.numeric ty opcode]
    | none => Emit.fail s (.unsupportedBinary op.symbol lhs.info)
  | unary _ s op fixity operand => Emit.unary globals s op fixity operand operand.emit
  | index ty _ base offset => do
    let code ← Emit.elementAddress base base.emit offset.emit
    return code ++ if ty.isArray then [] else [.load8S]

def emitAll : List (Expr Ty) → Emit Code
  | [] => return []
  | e :: es => do
    let a ← e.emit
    let b ← emitAll es
    return a ++ b

end

end Expr

end MiniC
