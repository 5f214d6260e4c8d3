import MiniC.Code.Module
import MiniC.Parse.Program
import MiniC.Token.Place
import MiniC.Typing.Program
import MiniC.Wasm.Text

/-! # From source to module text

A source is cut into tokens, parsed, checked and turned into a module; the first step that fails
ends the compilation.
-/
namespace MiniC
set_option autoImplicit false

inductive Failure where
  | lex (e : Located Flaw)
  | parse (e : Located ParseError)
  | check (e : Located TypeError)
  | emit (e : Located CodeError)
  deriving DecidableEq, Repr

namespace Failure

def span : Failure → Span
  | lex e => e.span
  | parse e => e.span
  | check e => e.span
  | emit e => e.span

def message : Failure → String
  | lex e => e.message Flaw.message
  | parse e => e.message ParseError.message
  | check e => e.message TypeError.message
  | emit e => e.message CodeError.message

end Failure

def Program.parse (source : String) : Except Failure (Program Unit) :=
  let tokens := Token.scan source
  match Token.firstFlaw? tokens with
  | some e => .error (.lex e)
  | none => (Program.ofTokens tokens).mapError .parse

def checkSource (source : String) : Except Failure (Program Ty) := do
  let p ← Program.parse source
  p.check.mapError .check

def Program.moduleText (p : Program Ty) : Except Failure String := do
  let m ← p.emit.mapError .emit
  return m.text

/-- The module text of a source. -/
def compile (source : String) : Except Failure String := do
  let p ← checkSource source
  p.moduleText

end MiniC
