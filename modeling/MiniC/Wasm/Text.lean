import MiniC.Binary32.Write
import MiniC.Text.Outline
import MiniC.Wasm.Basic

/-! # The text format of modules

One line for each data segment and each instruction; the instructions between an opening one and
its `end` are indented.
-/
namespace MiniC.Wasm
set_option autoImplicit false

namespace ValType

def text : ValType → String
  | i32 => "i32"
  | f32 => "f32"

end ValType

namespace Opcode

def name : Opcode → String
  | add => "add"
  | sub => "sub"
  | mul => "mul"
  | div => "div"
  | divS => "div_s"
  | remS => "rem_s"
  | and => "and"
  | or => "or"
  | xor => "xor"
  | eqz => "eqz"
  | eq => "eq"
  | ne => "ne"
  | lt => "lt"
  | ltS => "lt_s"
  | gt => "gt"
  | gtS => "gt_s"
  | le => "le"
  | leS => "le_s"
  | ge => "ge"
  | geS => "ge_s"
  | neg => "neg"
  | other name => name

def named : List Opcode :=
  [add, sub, mul, div, divS, remS, and, or, xor, eqz, eq, ne, lt, ltS, gt, gtS, le, leS, ge, geS,
    neg]

def ofName (name : String) : Opcode :=
  (named.find? fun op => decide (op.name = name)).getD (other name)

end Opcode

namespace Instr

def text : Instr → String
  | i32Const value => "i32.const " ++ Text.ofInt value.toInt
  | f32Const value => "f32.const " ++ value.text
  | localGet slot => "local.get " ++ Text.ofNat slot
  | localSet slot => "local.set " ++ Text.ofNat slot
  | localTee slot => "local.tee " ++ Text.ofNat slot
  | load ty => ty.text ++ ".load"
  | store ty => ty.text ++ ".store"
  | load8S => "i32.load8_s"
  | store8 => "i32.store8"
  | numeric ty op => ty.text ++ "." ++ op.name
  | call name => "call $" ++ name
  | drop => "drop"
  | block => "block"
  | loop => "loop"
  | if_ => "if"
  | else_ => "else"
  | end_ => "end"
  | br depth => "br " ++ Text.ofNat depth
  | brIf depth => "br_if " ++ Text.ofNat depth
  | return_ => "return"
  | unreachable => "unreachable"

def opensBlock : Instr → Bool
  | block | loop | if_ => true
  | _ => false

/-- Whether the instruction is indented less than the one before it. -/
def dedents : Instr → Bool
  | end_ | else_ => true
  | _ => false

def indents (i : Instr) : Bool := i.opensBlock || i = else_

end Instr

/-- The lines of a body whose first instruction stands at `depth`. -/
def codeLines : Nat → Code → List Line
  | _, [] => []
  | depth, i :: code =>
    let depth := if i.dedents then depth - 1 else depth
    ⟨depth, i.text⟩ :: codeLines (if i.indents then depth + 1 else depth) code

def hexDigit (n : Nat) : Char := "0123456789abcdef".toList.getD n '0'

/-- A byte of a data segment: printable ASCII stands for itself, anything else is escaped. -/
def byteText (b : UInt8) : List Char :=
  let n := b.toNat
  if 0x20 ≤ n ∧ n ≤ 0x7e ∧ n ≠ '"'.toNat ∧ n ≠ '\\'.toNat then [Char.ofNat n]
  else ['\\', hexDigit (n / 16), hexDigit (n % 16)]

def Segment.text (s : Segment) : String :=
  "(data (i32.const " ++ Text.ofNat s.offset ++ ") \"" ++
    String.ofList (s.bytes.flatMap byteText) ++ "\")"

namespace Function

def header (f : Function) : String :=
  "(func $" ++ f.name ++ " (export \"" ++ f.name ++ "\")" ++
    String.join (f.params.map fun t => " (param " ++ t.text ++ ")") ++
    (match f.result with
      | some t => " (result " ++ t.text ++ ")"
      | none => "") ++
    String.join (f.locals.map fun t => " (local " ++ t.text ++ ")")

def lines (f : Function) : List Line :=
  ⟨1, f.header⟩ :: codeLines 2 f.body ++ [⟨1, ")"⟩]

def text (f : Function) : String := renderLines f.lines

end Function

namespace Module

def header : List Line :=
  [⟨0, "(module"⟩,
    ⟨1, "(import \"env\" \"log\" (func $log (param i32)))"⟩,
    ⟨1, "(import \"env\" \"logInt\" (func $logInt (param i32)))"⟩,
    ⟨1, "(import \"env\" \"memory\" (memory 1))"⟩,
    ⟨0, ""⟩]

def lines (m : Module) : List Line :=
  header ++ m.data.map (fun s => ⟨1, s.text⟩) ++ m.functions.flatMap Function.lines ++
    [⟨0, ")"⟩]

def text (m : Module) : String := renderLines m.lines

end Module

end MiniC.Wasm
