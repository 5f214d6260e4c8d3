import MiniC.Parse.Stmt

/-! # Parsing programs

A program is a sequence of globals and functions.  Both start with a type and a name.
-/
namespace MiniC
set_option autoImplicit false

namespace Parser

def param : Parser Param := do
  let ty ← type
  let name ← ident
  return ⟨name, ty⟩

def item : Parser (Item Unit) := do
  let ty ← type
  let name ← ident
  if ← take (.symbol .lparen) then
    let params ← budgeted (sepList (.symbol .rparen) (.symbol .comma) param)
    discard <| expect (.symbol .rparen)
    let body ← block stmt
    return .function ⟨name, ty, params, body⟩
  let init ← initializer
  semicolon
  return .global ⟨name, ty, init⟩

def program : Parser (Program Unit) := do
  let items ← budgeted (many .eof item)
  discard <| expect .eof
  return ⟨items⟩

end Parser

/-- Parses the tokens of a source without faulty tokens. -/
def Program.ofTokens (tokens : List Token) : Except (Located ParseError) (Program Unit) :=
  Prod.fst <$> Parser.program (Stream.ofTokens tokens)

end MiniC
