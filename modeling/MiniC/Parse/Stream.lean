import MiniC.Token.Basic

/-! # Reading a stream of tokens

The parser sees only tokens that matter, and the end of the file again and again once they are used
up.  It stops at the first error.  A parser that repeats another one is given a bound on the number
of rounds; `budgeted` takes the bound from the tokens that are left, and every round uses at least
one of them, so the bound is never the reason why a parser stops.
-/
namespace MiniC
set_option autoImplicit false

inductive ParseError where
  | unexpected (expected actual : Kind)
  | unexpectedAny (expected : List Kind) (actual : Kind)
  | unexpectedInExpr (actual : Kind)
  | invalidArraySize (actual : Kind)
  | intOutOfRange
  /-- The bound on the number of rounds was too small. -/
  | exhausted
  deriving DecidableEq, Repr

def ParseError.message : ParseError → String
  | unexpected expected actual =>
    "expected " ++ expected.description ++ ", found " ++ actual.description
  | unexpectedAny expected actual =>
    "expected one of " ++ String.intercalate ", " (expected.map Kind.description) ++ ", found " ++
      actual.description
  | unexpectedInExpr actual => "unexpected " ++ actual.description ++ " in expression"
  | invalidArraySize actual =>
    "array size must be an integer literal, found " ++ actual.description
  | intOutOfRange => "integer literal out of range"
  | exhausted => "too many tokens"

/-- The tokens still to be read, and the span of the last one that was. -/
structure Stream where
  rest : List Token
  eof : Token
  prev : Span
  deriving DecidableEq, Repr

namespace Stream

def ofTokens (tokens : List Token) : Stream where
  rest := tokens.dropLast.filter fun t => !t.kind.isTrivia
  eof := tokens.getLastD ⟨.eof, .start, []⟩
  prev := .start

def head (s : Stream) : Token := s.rest.headD s.eof

def tail (s : Stream) : Stream := { s with rest := s.rest.tail, prev := s.head.span }

end Stream

abbrev Parser (α : Type) : Type := StateT Stream (Except (Located ParseError)) α

namespace Parser

variable {α : Type}

def fail (span : Span) (e : ParseError) : Parser α := throw ⟨span, e⟩

def peek : Parser Token := return (← get).head

def peekKind : Parser Kind := return (← get).head.kind

def prevSpan : Parser Span := return (← get).prev

def advance : Parser Token := fun s => .ok (s.head, s.tail)

def sees (k : Kind) : Parser Bool := return decide ((← peekKind) = k)

def take (k : Kind) : Parser Bool := do
  if ← sees k then
    discard advance
    return true
  return false

def expect (k : Kind) : Parser Token := do
  let t ← peek
  if t.kind = k then advance else fail t.span (.unexpected k t.kind)

def expectAny (kinds : List Kind) : Parser Token := do
  let t ← peek
  if t.kind ∈ kinds then advance else fail t.span (.unexpectedAny kinds t.kind)

def exhausted : Parser α := do fail (← peek).span .exhausted

/-- Runs a bounded parser with a bound that the tokens left cannot exceed. -/
def budgeted (p : Nat → Parser α) : Parser α := fun s => p (s.rest.length + 1) s

/-- Items up to a token of the kind `stop` or the end of the file, which is not read. -/
def many (stop : Kind) (item : Parser α) : Nat → Parser (List α)
  | 0 => exhausted
  | n + 1 => do
    let k ← peekKind
    if k = .eof ∨ k = stop then return []
    let x ← item
    return x :: (← many stop item n)

/-- Items with separators between them, up to the kind `close`, which is not read.  A separator may
also stand after the last item. -/
def sepList (close sep : Kind) (item : Parser α) : Nat → Parser (List α)
  | 0 => exhausted
  | n + 1 => do
    let k ← peekKind
    if k = .eof ∨ k = close then return []
    let x ← item
    if ← take sep then return x :: (← sepList close sep item n)
    let t ← peek
    if t.kind = close then return [x]
    fail t.span (.unexpectedAny [sep, close] t.kind)

def spanned (p : Parser (Span → α)) : Parser α := do
  let start := (← peek).span
  let build ← p
  return build (start.join (← prevSpan))

end Parser

end MiniC
