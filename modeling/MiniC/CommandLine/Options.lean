/-! # Command-line options

Arguments are read from left to right.  The first one that is wrong, or asks for the version or for
help, settles what happens.
-/
namespace MiniC.CommandLine
set_option autoImplicit false

structure Options where
  input : String
  output : Option String
  textOnly : Bool
  keepText : Bool
  printTree : Bool
  assembler : String
  deriving DecidableEq, Repr

def defaultAssembler : String := "wat2wasm"

inductive Stop where
  | usage
  | version
  | help
  deriving DecidableEq, Repr

inductive ValueOption where
  | output | assembler
  deriving DecidableEq, Repr

inductive Flag where
  | textOnly | keepText | printTree
  deriving DecidableEq, Repr

structure Draft where
  input : Option String
  output : Option String
  assembler : Option String
  flags : List Flag
  pending : Option ValueOption
  /-- Whether all further arguments are inputs. -/
  inputsOnly : Bool
  deriving DecidableEq, Repr

namespace Draft

def empty : Draft := ⟨none, none, none, [], none, false⟩

def setFlag (d : Draft) (f : Flag) : Except Stop Draft :=
  if f ∈ d.flags then .error .usage else .ok { d with flags := f :: d.flags }

/-- Every option may be given once; a path must not be empty. -/
def setValue (d : Draft) (o : ValueOption) (value : String) : Except Stop Draft :=
  match o with
  | .output =>
    if d.output.isSome ∨ value = "" then .error .usage
    else .ok { d with output := some value, pending := none }
  | .assembler =>
    if d.assembler.isSome then .error .usage
    else .ok { d with assembler := some value, pending := none }

def setInput (d : Draft) (value : String) : Except Stop Draft :=
  if d.input.isSome ∨ value = "" then .error .usage else .ok { d with input := some value }

def awaitValue (d : Draft) (o : ValueOption) : Except Stop Draft :=
  .ok { d with pending := some o }

def readLong (d : Draft) (name : String) (attached : Option String) : Except Stop Draft :=
  match name, attached with
  | "output", some value => d.setValue .output value
  | "output", none => d.awaitValue .output
  | "assembler", some value => d.setValue .assembler value
  | "assembler", none => d.awaitValue .assembler
  | "keep-wat", none => d.setFlag .keepText
  | "dump-ast", none => d.setFlag .printTree
  | "version", none => .error .version
  | "help", none => .error .help
  | _, _ => .error .usage

/-- Short options written together; the rest of the argument is the value of one that takes it. -/
def readShort (d : Draft) : List Char → Except Stop Draft
  | [] => .ok d
  | 'S' :: cs => do
    let d ← d.setFlag .textOnly
    d.readShort cs
  | 'V' :: _ => .error .version
  | 'h' :: _ => .error .help
  | ['o'] => d.awaitValue .output
  | 'o' :: '=' :: cs => d.setValue .output (String.ofList cs)
  | 'o' :: cs => d.setValue .output (String.ofList cs)
  | _ => .error .usage

def read (d : Draft) (arg : String) : Except Stop Draft :=
  if d.inputsOnly then d.setInput arg
  else
    match d.pending, arg.toList with
    | none, ['-', '-'] => .ok { d with inputsOnly := true }
    | none, '-' :: '-' :: cs =>
      let name := cs.takeWhile (· ≠ '=')
      let attached := if '=' ∈ cs then some (String.ofList (cs.drop (name.length + 1))) else none
      d.readLong (String.ofList name) attached
    | none, '-' :: c :: cs => d.readShort (c :: cs)
    | none, _ => d.setInput arg
    | some _, '-' :: _ :: _ => .error .usage
    | some o, _ => d.setValue o arg

def finish (d : Draft) : Except Stop Options :=
  match d.pending, d.input with
  | none, some input =>
    .ok {
      input := input
      output := d.output
      textOnly := decide (.textOnly ∈ d.flags)
      keepText := decide (.keepText ∈ d.flags)
      printTree := decide (.printTree ∈ d.flags)
      assembler := d.assembler.getD defaultAssembler }
  | _, _ => .error .usage

end Draft

def Options.ofArguments (args : List String) : Except Stop Options := do
  let d ← args.foldlM Draft.read .empty
  d.finish

end MiniC.CommandLine
