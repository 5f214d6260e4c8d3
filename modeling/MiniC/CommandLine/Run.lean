import MiniC.CommandLine.FileError
import MiniC.CommandLine.Options
import MiniC.Compile
import MiniC.Tree.Render

/-! # Running the compiler

A run reads one file, and writes the module text either as its output or as an intermediate file
for the assembler.  What files are and how the assembler is started is up to a host.
-/
namespace MiniC.CommandLine
set_option autoImplicit false

structure Report where
  status : Nat
  out : String
  err : String
  deriving DecidableEq, Repr

structure Host (m : Type → Type) where
  read : String → m (Except FileError String)
  write : String → String → m (Except FileError Unit)
  remove : String → m (Except FileError Unit)
  assemble : String → String → String → m (Except FileError Report)

/-- An error with its causes, the nearest first. -/
structure Trouble where
  context : String
  causes : List String
  deriving DecidableEq, Repr

namespace Trouble

def causesText : List String → String
  | [] => ""
  | [cause] => "\nCaused by:\n    " ++ cause ++ "\n"
  | causes =>
    "\nCaused by:\n" ++ String.join (causes.mapIdx fun n cause =>
      "    " ++ Text.ofNat n ++ ": " ++ cause ++ "\n")

def text (t : Trouble) : String := "Error: " ++ t.context ++ "\n" ++ causesText t.causes

/-- A type error and an error of code generation are their own cause. -/
def ofFailure (e : Failure) : Trouble :=
  let causes := match e with
    | .lex _ | .parse _ => [e.message]
    | .check _ | .emit _ => [e.message, e.message]
  ⟨"compilation failed", causes⟩

def ofFile (action path : String) (e : FileError) : Trouble :=
  ⟨"error " ++ action ++ " " ++ path, [e.message]⟩

end Trouble

structure Course where
  out : String
  err : String
  result : Except Trouble Unit

namespace Course

def silent (result : Except Trouble Unit) : Course := ⟨"", "", result⟩

def after (text : String) (c : Course) : Course := { c with out := text ++ c.out }

def report (c : Course) : Report :=
  match c.result with
  | .ok () => ⟨0, c.out, c.err⟩
  | .error t => ⟨1, c.out, c.err ++ t.text⟩

end Course

def textPath : String := "a.out.wat"

def binaryPath : String := "a.out.wasm"

def Options.outputPath (o : Options) : String :=
  o.output.getD (if o.textOnly then textPath else binaryPath)

section

variable {m : Type → Type} [Monad m] (host : Host m)

def writeText (path text : String) : m (Except Trouble Unit) :=
  return (← host.write path text).mapError (Trouble.ofFile "writing" path)

/-- Runs the assembler, which prints to the same places as the run. -/
def assemble (command input output : String) : m Course := do
  match ← host.assemble command input output with
  | .error e => return .silent (.error ⟨"error running `" ++ command ++ "`", [e.message]⟩)
  | .ok r =>
    if r.status = 0 then return ⟨r.out, r.err, .ok ()⟩
    else
      let context := "`" ++ command ++ "` failed with exit status: " ++ Text.ofNat r.status
      return ⟨r.out, r.err, .error ⟨context, []⟩⟩

/-- Writes the intermediate text, assembles it and removes it again, unless it is to be kept. -/
def assembleText (o : Options) (text : String) : m Course := do
  match ← writeText host textPath text with
  | .error t => return .silent (.error t)
  | .ok () =>
    let assembled ← assemble host o.assembler textPath o.outputPath
    if o.keepText then return assembled
    match ← host.remove textPath with
    | .error e => return { assembled with result := .error (Trouble.ofFile "removing" textPath e) }
    | .ok () => return assembled

def deliver (o : Options) (text : String) : m Course := do
  if o.textOnly then return .silent (← writeText host o.outputPath text)
  else assembleText host o text

def compileInput (o : Options) : m Course := do
  match ← host.read o.input with
  | .error e => return .silent (.error (Trouble.ofFile "reading" o.input e))
  | .ok source =>
    match checkSource source with
    | .error e => return .silent (.error (Trouble.ofFailure e))
    | .ok p =>
      let tree := if o.printTree then p.renderTyped else ""
      match p.moduleText with
      | .error e => return ⟨tree, "", .error (Trouble.ofFailure e)⟩
      | .ok text => return (← deliver host o text).after tree

def versionText : String := "cwat 0.0.1\n"

def usageText : String := "Usage: cwat [OPTIONS] <INPUT>\n"

def run (args : List String) : m Report := do
  match Options.ofArguments args with
  | .error .version => return ⟨0, versionText, ""⟩
  | .error .help => return ⟨0, usageText, ""⟩
  | .error .usage => return ⟨2, "", usageText⟩
  | .ok o =>
    let course ← compileInput host o
    return course.report

end

end MiniC.CommandLine
