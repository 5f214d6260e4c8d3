import MiniC.Code.Memory

/-! # Slots of a function

Parameters and local variables live in numbered slots, parameters first.  Every declaration gets a
slot of its own, and slots are never used again; a name means the slot it was last declared with.

An index of a slot has 32 bits, and a number that does not fit is to be cut off at the greatest one.
That is not described here: numbers have no limit, which differs for functions with 2³² slots or more.
-/
namespace MiniC
set_option autoImplicit false

/-- The machine type of the values of a type: pointers and arrays are addresses. -/
def Ty.valType : Ty → Wasm.ValType
  | float => .f32
  | _ => .i32

abbrev Globals : Type := List (String × Nat × Ty)

structure Frame where
  memory : Memory
  slots : List Wasm.ValType
  names : List (String × Nat)
  deriving DecidableEq, Repr

/-- Actions that make the code of a function; after an error the memory is as far as it was used. -/
abbrev Emit (α : Type) : Type := EStateM (Located CodeError) Frame α

inductive Place where
  | slot (n : Nat)
  | cell (address : Nat) (ty : Wasm.ValType)
  deriving DecidableEq, Repr

namespace Emit

variable {α : Type}

def fail (span : Span) (e : CodeError) : Emit α := throw ⟨span, e⟩

def inMemory (x : Alloc α) : Emit α := fun s =>
  match x s.memory with
  | .ok a m => .ok a { s with memory := m }
  | .error e m => .error e { s with memory := m }

/-- A slot without a name. -/
def newSlot (ty : Wasm.ValType) : Emit Nat := fun s =>
  .ok s.slots.length { s with slots := s.slots ++ [ty] }

def declare (x : Ident) (ty : Ty) : Emit Nat := do
  let n ← newSlot ty.valType
  modify fun s => { s with names := (x.name, n) :: s.names }
  return n

/-- Slots hide globals of the same name. -/
def resolve (globals : Globals) (x : Ident) : Emit Place := do
  match List.lookup x.name (← get).names with
  | some n => return .slot n
  | none =>
    match List.lookup x.name globals with
    | some (address, ty) => return .cell address ty.valType
    | none => fail x.span (.unresolved x.name)

end Emit

/-- A length or an address as a machine word; lengths beyond the greatest word are cut off there. -/
def wordOf (n : Nat) : Int32 := Int32.ofNat (min n 0x7FFFFFFF)

def pushAddress (n : Nat) : Wasm.Instr := .i32Const (wordOf n)

end MiniC
