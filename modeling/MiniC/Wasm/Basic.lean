import MiniC.Binary32.Basic

/-! # Modules for the stack machine

A module is data for the single page of linear memory that the host provides, and exported
functions.  The body of a function is a flat list of instructions in which `block`, `loop` and `if`
are closed by `end`.
-/
namespace MiniC.Wasm
set_option autoImplicit false

def pageSize : Nat := 64 * 1024

inductive ValType where
  | i32 | f32
  deriving DecidableEq, Repr

/-- What a numeric instruction computes.  `other` stands for operations that no program is lowered
to. -/
inductive Opcode where
  | add | sub | mul | div | divS | remS
  | and | or | xor
  | eqz | eq | ne | lt | ltS | gt | gtS | le | leS | ge | geS
  | neg
  | other (name : String)
  deriving DecidableEq, Repr

inductive Instr where
  | i32Const (value : Int32)
  | f32Const (value : Binary32)
  | localGet (slot : Nat)
  | localSet (slot : Nat)
  | localTee (slot : Nat)
  | load (ty : ValType)
  | store (ty : ValType)
  | load8S
  | store8
  | numeric (ty : ValType) (op : Opcode)
  | call (name : String)
  | drop
  | block
  | loop
  | if_
  | else_
  | end_
  | br (depth : Nat)
  | brIf (depth : Nat)
  | return_
  | unreachable
  deriving DecidableEq, Repr

abbrev Code : Type := List Instr

structure Segment where
  offset : Nat
  bytes : List UInt8
  deriving DecidableEq, Repr

namespace Segment

/-- Puts a segment before the first one whose offset is not smaller. -/
def insert (s : Segment) : List Segment → List Segment
  | [] => [s]
  | t :: rest => if s.offset ≤ t.offset then s :: t :: rest else t :: insert s rest

/-- Segments in the order of their offsets; those with one offset keep their order. -/
def sort (segments : List Segment) : List Segment := segments.foldr insert []

theorem insert_perm (s : Segment) (segments : List Segment) :
    (insert s segments).Perm (s :: segments) := by
  induction segments with
  | nil => exact .refl _
  | cons t rest ih =>
    rw [insert]
    split
    · exact .refl _
    · exact (ih.cons t).trans (.swap s t rest)

theorem sort_perm (segments : List Segment) : (sort segments).Perm segments := by
  induction segments with
  | nil => exact .refl _
  | cons s rest ih => exact (insert_perm s (sort rest)).trans (ih.cons s)

end Segment

structure Function where
  name : String
  params : List ValType
  result : Option ValType
  /-- The slots after the parameters. -/
  locals : List ValType
  body : Code
  deriving DecidableEq, Repr

structure Module where
  data : List Segment
  functions : List Function
  deriving DecidableEq, Repr

/-- The first function with the given name. -/
def Module.function? (m : Module) (name : String) : Option Function :=
  m.functions.find? fun f => decide (f.name = name)

end MiniC.Wasm
