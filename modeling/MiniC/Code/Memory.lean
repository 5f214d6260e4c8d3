import MiniC.Tree.Basic
import MiniC.Wasm.Basic

/-! # Laying out linear memory

Memory is handed out from low to high addresses and never given back; address zero is not used.  An
allocation that fails changes nothing, and what was handed out before an error stays handed out.
-/
namespace MiniC
set_option autoImplicit false

inductive CodeError where
  | missingReturn (function : String)
  | unresolved (name : String)
  | arrayInitializer
  | unsupportedUnary (op : String) (ty : Ty)
  | unsupportedBinary (op : String) (ty : Ty)
  | outsideLoop (jump : Jump)
  | nonConstantGlobal (name : String)
  | outOfMemory (cursor requested : Nat)
  | unsupportedElement (ty : Ty)
  deriving DecidableEq, Repr

def CodeError.message : CodeError → String
  | missingReturn function => "function `" ++ function ++ "` must return a value"
  | unresolved name => "unresolved variable `" ++ name ++ "`"
  | arrayInitializer => "arrays cannot be initialized"
  | unsupportedUnary op ty => "unary `" ++ op ++ "` is not supported on `" ++ ty.name ++ "`"
  | unsupportedBinary op ty => "binary `" ++ op ++ "` is not supported on `" ++ ty.name ++ "`"
  | outsideLoop jump => "`" ++ jump.spelling ++ "` outside of a loop"
  | nonConstantGlobal name => "initializer of global `" ++ name ++ "` must be a literal"
  | outOfMemory cursor requested =>
    "out of linear memory: " ++ Text.ofNat requested ++ " more byte(s) needed at offset " ++
      Text.ofNat cursor
  | unsupportedElement ty =>
    "elements of type `" ++ ty.name ++ "` are not supported, only byte-sized elements are"

structure Memory where
  cursor : Nat
  data : List Wasm.Segment
  /-- The address of each string literal, found by its offset in the source. -/
  strings : List (Nat × Nat)
  deriving DecidableEq, Repr

/-- Actions on memory; after an error the memory is as the action left it. -/
abbrev Alloc (α : Type) : Type := EStateM (Located CodeError) Memory α

namespace Memory

def empty : Memory := ⟨1, [], []⟩

def alloc (len : Nat) (span : Span) : Alloc Nat := fun m =>
  if m.cursor + len ≤ Wasm.pageSize then .ok m.cursor { m with cursor := m.cursor + len }
  else .error ⟨span, .outOfMemory m.cursor len⟩ m

theorem alloc_eq_ok_iff (len : Nat) (span : Span) (m m' : Memory) (address : Nat) :
    alloc len span m = .ok address m' ↔
      m.cursor + len ≤ Wasm.pageSize ∧ address = m.cursor ∧
        m' = { m with cursor := m.cursor + len } := by
  rw [alloc]
  split
  case isTrue h => simp [h, eq_comm]
  case isFalse h => simp [h]

def fill (address : Nat) (bytes : List UInt8) : Alloc Unit :=
  modify fun m => { m with data := m.data ++ [⟨address, bytes⟩] }

def stringBytes (text : String) : List UInt8 := text.toList.flatMap String.utf8EncodeChar ++ [0]

/-- The address of a string literal, which is placed in memory when it is first met. -/
def placeString (text : String) (span : Span) : Alloc Nat := do
  match List.lookup span.lo (← get).strings with
  | some address => return address
  | none =>
    let bytes := stringBytes text
    let address ← alloc bytes.length span
    fill address bytes
    modify fun m => { m with strings := (span.lo, address) :: m.strings }
    return address

def reserveArray (ty : Ty) (span : Span) : Alloc Nat :=
  if ty.base = .float then throw ⟨span, .unsupportedElement .float⟩
  else alloc ty.byteLength span

end Memory

end MiniC
