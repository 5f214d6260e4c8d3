import MiniC.Code.Stmt

/-! # The module of a program

Items are added to one module in source order.  Globals live in cells of four bytes; a cell
whose initial value is known is filled when the module is loaded.  An item that fails leaves behind
the memory it has used and nothing else.
-/
namespace MiniC
set_option autoImplicit false

open Wasm (Code)

/-- A function must return a value on some path, and one that may run off its end traps there. -/
def Function.close (f : Function Ty) (code : Code) : Emit Code :=
  if f.returnTy = .void then return code
  else if .return_ ∉ code then Emit.fail f.name.span (.missingReturn f.name.name)
  else if (f.body.getLast?.map Stmt.isReturn).getD false then return code
  else return code ++ [.unreachable]

def Function.emit (globals : Globals) (f : Function Ty) : Emit Wasm.Function := do
  f.params.forM fun p => discard (Emit.declare p.name p.ty)
  let code ← Stmt.emitAll globals [] f.body
  let body ← f.close code
  let slots := (← get).slots
  return {
    name := f.name.name
    params := slots.take f.params.length
    result := if f.returnTy = .void then none else some f.returnTy.valType
    locals := slots.drop f.params.length
    body := body }

def wordBytes (w : UInt32) : List UInt8 :=
  [w.toUInt8, (w >>> 8).toUInt8, (w >>> 16).toUInt8, (w >>> 24).toUInt8]

namespace Constant

def word : Constant → UInt32
  | int value => value.toUInt32
  | float value => value.bits

/-- Negation wraps around for integers and flips the sign bit of floats. -/
def negated : Constant → Constant
  | int value => int (-value)
  | float value => float value.neg

end Constant

def initialWord (x : Ident) : Expr Ty → Alloc UInt32
  | .const _ _ value => return value.word
  | .string _ s text => do
    let address ← Memory.placeString text s
    return UInt32.ofNat address
  | .unary _ _ .negate _ (.const _ _ value) => return value.negated.word
  | e => throw ⟨e.span, .nonConstantGlobal x.name⟩

/-- The word to put into the cell of a global, if any; an array has its storage elsewhere. -/
def Global.cellWord? (g : Global Ty) : Alloc (Option UInt32) :=
  if g.ty.isArray then
    match g.init with
    | some init => throw ⟨init.span, .arrayInitializer⟩
    | none => do
      let storage ← Memory.reserveArray g.ty g.name.span
      return some (UInt32.ofNat storage)
  else
    match g.init with
    | some init => some <$> initialWord g.name init
    | none => return none

def Global.place (g : Global Ty) : Alloc Nat := do
  let cell ← Memory.alloc 4 g.name.span
  match ← g.cellWord? with
  | some w => Memory.fill cell (wordBytes w)
  | none => pure ()
  return cell

structure Builder where
  memory : Memory
  globals : Globals
  functions : List Wasm.Function

namespace Builder

def empty : Builder := ⟨.empty, [], []⟩

def addGlobal (g : Global Ty) : EStateM (Located CodeError) Builder Unit := fun b =>
  match g.place b.memory with
  | .ok cell m => .ok () { b with memory := m, globals := (g.name.name, cell, g.ty) :: b.globals }
  | .error e m => .error e { b with memory := m }

def addFunction (f : Function Ty) : EStateM (Located CodeError) Builder Unit := fun b =>
  match f.emit b.globals ⟨b.memory, [], []⟩ with
  | .ok fn s => .ok () { b with memory := s.memory, functions := b.functions ++ [fn] }
  | .error e s => .error e { b with memory := s.memory }

def addItem : Item Ty → EStateM (Located CodeError) Builder Unit
  | .global g => addGlobal g
  | .function f => addFunction f

def toModule (b : Builder) : Wasm.Module where
  data := Wasm.Segment.sort b.memory.data
  functions := b.functions

end Builder

/-- The module of a program whose types are trusted. -/
def Program.emit (p : Program Ty) : Except (Located CodeError) Wasm.Module :=
  match p.items.forM Builder.addItem .empty with
  | .ok _ b => .ok b.toModule
  | .error e _ => .error e

end MiniC
