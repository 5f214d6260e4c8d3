import MiniC.Parse.Program
import MiniC.Proofs.Guarded.Basic

/-! # Reading tokens with a cursor

The reader keeps all tokens of a source, those that only separate others included, and the index of
the next one; past the last token it sees an end of the file that it makes up.  The text of a token is
cut out of the source, spans are joined only if the result fits, and a loop ends by itself.  An
assertion that does not hold leaves the reader without a result.
-/
namespace MiniC
set_option autoImplicit false

open Guarded (demand ensure stuck)

structure Reader where
  source : String
  tokens : List Token
  /-- The index of the next token, which may be any number. -/
  cursor : Nat
  /-- The span of the last token that was read. -/
  prev : Span

namespace Reader

/-- The end of the file, on the line of the last token. -/
def ending (r : Reader) : Token :=
  ⟨.eof, .atEnd r.source ((r.tokens.getLast?.map fun t => t.span.line).getD 1), []⟩

def head (r : Reader) : Token := r.tokens[r.cursor]?.getD r.ending

end Reader

abbrev Reading (α : Type) : Type := Guarded Reader (Located ParseError) α

namespace Reading

variable {α : Type}

def fail (span : Span) (e : ParseError) : Reading α := throw ⟨span, e⟩

def peek : Reading Token := return (← get).head

def peekKind : Reading Kind := return (← get).head.kind

def prevSpan : Reading Span := return (← get).prev

/-- Runs a bounded loop with a bound that the tokens left cannot exceed. -/
def budgeted (x : Nat → Reading α) : Reading α := fun r => x (r.tokens.length - r.cursor + 1) r

def skipTrivia : Nat → Reading Unit
  | 0 => stuck .rounds
  | n + 1 => do
    let k ← peekKind
    if k.isTrivia then
      modify fun r => { r with cursor := r.cursor + 1 }
      skipTrivia n
    else return ()

/-- Reads one token, and skips what only separates it from the next one. -/
def advance : Reading Token := do
  let t ← peek
  modify fun r => { r with prev := t.span, cursor := r.cursor + 1 }
  budgeted skipTrivia
  return t

def sees (k : Kind) : Reading Bool := return decide ((← peekKind) = k)

def take (k : Kind) : Reading Bool := do
  if ← sees k then
    discard advance
    return true
  return false

def expect (k : Kind) : Reading Token := do
  let t ← peek
  if t.kind = k then advance else fail t.span (.unexpected k t.kind)

def expectAny (kinds : List Kind) : Reading Token := do
  let t ← peek
  if t.kind ∈ kinds then advance else fail t.span (.unexpectedAny kinds t.kind)

def many (stop : Kind) (item : Reading α) : Nat → Reading (List α)
  | 0 => stuck .rounds
  | n + 1 => do
    let k ← peekKind
    if k = .eof ∨ k = stop then return []
    let x ← item
    return x :: (← many stop item n)

def sepItems (close sep : Kind) (item : Reading α) : Nat → Reading (List α)
  | 0 => stuck .rounds
  | n + 1 => do
    let k ← peekKind
    if k = .eof ∨ k = close then return []
    let x ← item
    if ← take sep then return x :: (← sepItems close sep item n)
    let t ← peek
    if t.kind = close then return [x]
    fail t.span (.unexpectedAny [sep, close] t.kind)

def sepList (close sep : Kind) (item : Reading α) : Reading (List α) := do
  ensure (close ≠ sep)
  budgeted (sepItems close sep item)

/-- The span that covers both. -/
def join (a b : Span) : Reading Span := demand (a.join? b)

def spanned (p : Reading (Span → α)) : Reading α := do
  let start := (← peek).span
  let build ← p
  return build (← join start (← prevSpan))

/-- The text of a token, which has to be of the kind `k`. -/
def extract (k : Kind) (t : Token) : Reading (List Char) := do
  ensure (t.kind = k)
  let r ← get
  let text ← demand (t.span.slice? r.source)
  return text.toList

/-- The text between the quotes of a string literal of the kind `k`. -/
def extractString (k : Kind) (t : Token) : Reading (List Char) := do
  ensure (t.kind = k)
  let span ← demand (t.span.offset? 1 (-1))
  let r ← get
  let text ← demand (span.slice? r.source)
  return text.toList

def identOf (t : Token) : Reading Ident := do
  let text ← extract .identifier t
  return ⟨String.ofList text, t.span⟩

def ident : Reading Ident := do
  let t ← expect .identifier
  identOf t

def intOf? (t : Token) : Reading (Option Int32) := do
  let text ← extract .number t
  return Token.intValue? text

def seesMinMagnitude : Reading Bool := do
  let t ← peek
  if t.kind = .number then
    let text ← extract .number t
    return decide (digitsValue text = 0x80000000)
  else return false

section

variable (expr : Reading (Expr Unit))

def operatorChain (lhs : Expr Unit) : Reading (Expr Unit) := do
  match BinaryOp.ofKind? (← peekKind) with
  | none => return lhs
  | some op =>
    discard advance
    let rhs ← expr
    return .binary () (← join lhs.span rhs.span) op lhs rhs

def subscripts : Nat → Expr Unit → Reading (Expr Unit × Expr Unit)
  | 0, _ => stuck .rounds
  | n + 1, base => do
    discard <| expect (.symbol .lbracket)
    let offset ← expr
    discard <| expect (.symbol .rbracket)
    if ← sees (.symbol .lbracket) then
      let span ← join base.span (← prevSpan)
      subscripts n (.index () span base offset)
    else return (base, offset)

def nameSuffix (x : Ident) : Reading (Expr Unit) := do
  if ← take (.symbol .lparen) then
    let args ← sepList (.symbol .rparen) (.symbol .comma) expr
    let close ← expect (.symbol .rparen)
    return .call () (← join x.span close.span) x args
  if ← sees (.symbol .lbracket) then
    let (base, offset) ← budgeted fun n => subscripts expr n (Parser.variableOf x)
    return .index () (← join x.span (← prevSpan)) base offset
  match UnaryOp.ofKindAfter? (← peekKind) with
  | some op =>
    let t ← advance
    return .unary () (← join x.span t.span) op .after (Parser.variableOf x)
  | none => return Parser.variableOf x

def operand (op : UnaryOp) : Reading (Expr Unit) := do
  if op = .negate then
    if ← seesMinMagnitude then
      let t ← advance
      return ← operatorChain expr (.const () t.span (.int Int32.minValue))
  expr

/-- The symbols that may stand before an operand. -/
def leadingSymbols : List Symbol := [.plusPlus, .minusMinus, .bang, .star, .minus]

/-- A unary operator and its operand. -/
def unary (t : Token) (y : Symbol) : Reading (Expr Unit) := do
  if y ∈ leadingSymbols then
    let op ← demand (UnaryOp.ofSymbol? y)
    let inner ← operand expr op
    return .unary () (← join t.span inner.span) op .before inner
  else fail t.span (.unexpectedInExpr t.kind)

def primary : Reading (Expr Unit) := do
  let t ← advance
  match t.kind with
  | .string =>
    let text ← extractString .string t
    return .string () t.span (String.ofList text)
  | .escapedString =>
    let text ← extractString .escapedString t
    return .string () t.span (String.ofList (Token.unescape false text))
  | .number =>
    match ← intOf? t with
    | some value => return .const () t.span (.int value)
    | none => fail t.span .intOutOfRange
  | .decimal =>
    let text ← extract .decimal t
    return .const () t.span (.float (.ofDecimal text))
  | .identifier =>
    let x ← identOf t
    nameSuffix expr x
  | .symbol .lparen =>
    let inner ← expr
    let close ← expect (.symbol .rparen)
    return inner.withSpan (← join t.span close.span)
  | .symbol y => unary expr t y
  | k => fail t.span (.unexpectedInExpr k)

end

def exprWithin : Nat → Reading (Expr Unit)
  | 0 => stuck .rounds
  | n + 1 => do
    let lhs ← primary (exprWithin n)
    operatorChain (exprWithin n) lhs

def expr : Reading (Expr Unit) := budgeted exprWithin

def pointers : Nat → Reading Nat
  | 0 => stuck .rounds
  | n + 1 => do
    if ← take (.symbol .star) then return (← pointers n) + 1
    return 0

def baseTy : Kind → Reading Ty
  | .keyword .int => return .int
  | .keyword .float => return .float
  | .keyword .char => return .char
  | .keyword .void => return .void
  | _ => stuck .outside

def type : Reading Ty := do
  let t ← expectAny Parser.baseTypes
  let ty ← baseTy t.kind
  return ty.pointerTo (← budgeted pointers)

def initializer : Reading (Option (Expr Unit)) := do
  if ← take (.symbol .assign) then return some (← expr)
  return none

def arraySize : Reading Nat := do
  let t ← advance
  match t.kind with
  | .number =>
    match ← intOf? t with
    | some value =>
      if 0 ≤ value then return value.toNatClampNeg else fail t.span .intOutOfRange
    | none => fail t.span .intOutOfRange
  | k => fail t.span (.invalidArraySize k)

def arraySizes : Nat → Reading (List Nat)
  | 0 => stuck .rounds
  | n + 1 => do
    if ← take (.symbol .lbracket) then
      let size ← arraySize
      discard <| expect (.symbol .rbracket)
      return size :: (← arraySizes n)
    return []

def declaration : Reading (Span → Stmt Unit) := do
  let ty ← type
  let name ← ident
  let sizes ← budgeted arraySizes
  let init ← initializer
  return fun s => .declare s name (ty.arrayOf sizes) init

def afterIdent (x : Ident) : Reading (Span → Stmt Unit) := do
  if ← take (.symbol .assign) then
    let value ← expr
    return fun s => .assign s x value
  if ← sees (.symbol .lbracket) then
    let (base, offset) ← budgeted fun n => subscripts expr n (Parser.variableOf x)
    if ← take (.symbol .assign) then
      let value ← expr
      return fun s => .store s base offset value
    let span ← join base.span (← prevSpan)
    let value ← operatorChain expr (.index () span base offset)
    return fun s => .expr s value
  let lhs ← nameSuffix expr x
  let value ← operatorChain expr lhs
  return fun s => .expr s value

def simpleForm : Reading (Span → Stmt Unit) := do
  let k ← peekKind
  if k.isBaseType then declaration
  else if k = .identifier then afterIdent (← ident)
  else
    let value ← expr
    return fun s => .expr s value

def simple : Reading (Stmt Unit) := spanned simpleForm

def unlessSees (k : Kind) (p : Reading α) : Reading (Option α) := do
  if ← sees k then return none
  return some (← p)

def semicolon : Reading Unit := discard <| expect (.symbol .semicolon)

def condition : Reading (Expr Unit) := do
  discard <| expect (.symbol .lparen)
  let cond ← expr
  discard <| expect (.symbol .rparen)
  return cond

section

variable (stmt : Reading (Stmt Unit))

def block : Reading (List (Stmt Unit)) := do
  discard <| expect (.symbol .lbrace)
  let body ← budgeted (many (.symbol .rbrace) stmt)
  discard <| expect (.symbol .rbrace)
  return body

def elseBody : Reading (List (Stmt Unit)) := do
  if ← take (.keyword .else_) then
    if ← sees (.keyword .if_) then return [← stmt]
    return ← block stmt
  return []

def forForm : Reading (Span → Stmt Unit) := do
  discard <| expect (.symbol .lparen)
  let init ← unlessSees (.symbol .semicolon) simple
  semicolon
  let cond ← unlessSees (.symbol .semicolon) expr
  semicolon
  let update ← unlessSees (.symbol .rparen) simple
  discard <| expect (.symbol .rparen)
  let body ← block stmt
  return fun s => .forLoop s init cond update body

/-- A simple statement and the semicolon after it.  Its own span is made, but not used. -/
def simpleWithEnd : Reading (Span → Stmt Unit) := do
  let start := (← peek).span
  let form ← simpleForm
  let _ ← join start (← prevSpan)
  semicolon
  return form

def stmtForm : Reading (Span → Stmt Unit) := do
  match ← peekKind with
  | .keyword .return_ =>
    discard advance
    let value ← unlessSees (.symbol .semicolon) expr
    semicolon
    return fun s => .ret s value
  | .keyword .if_ =>
    discard advance
    let cond ← condition
    let thenBody ← block stmt
    let otherwise ← elseBody stmt
    return fun s => .branch s cond thenBody otherwise
  | .keyword .while_ =>
    discard advance
    let cond ← condition
    let body ← block stmt
    return fun s => .loop s .whileDo cond body
  | .keyword .do_ =>
    discard advance
    let body ← block stmt
    discard <| expect (.keyword .while_)
    let cond ← condition
    semicolon
    return fun s => .loop s .doWhile cond body
  | .keyword .for_ =>
    discard advance
    forForm stmt
  | .keyword .continue_ =>
    discard advance
    semicolon
    return fun s => .jump s .continue_
  | .keyword .break_ =>
    discard advance
    semicolon
    return fun s => .jump s .break_
  | _ => simpleWithEnd

end

def stmtWithin : Nat → Reading (Stmt Unit)
  | 0 => stuck .rounds
  | n + 1 => spanned (stmtForm (stmtWithin n))

def stmt : Reading (Stmt Unit) := budgeted stmtWithin

def param : Reading Param := do
  let ty ← type
  let name ← ident
  return ⟨name, ty⟩

def item : Reading (Item Unit) := do
  let ty ← type
  let name ← ident
  if ← take (.symbol .lparen) then
    let params ← sepList (.symbol .rparen) (.symbol .comma) param
    discard <| expect (.symbol .rparen)
    let body ← block stmt
    return .function ⟨name, ty, params, body⟩
  let init ← initializer
  semicolon
  return .global ⟨name, ty, init⟩

def items : Reading (Program Unit) := do
  let items ← budgeted (many .eof item)
  discard <| expect .eof
  return ⟨items⟩

/-- The program of the tokens; what stands before the first one that matters is skipped. -/
def program : Reading (Program Unit) := do
  budgeted skipTrivia
  items

end Reading

/-- The reader before the first token. -/
def Reader.start (source : String) (tokens : List Token) : Reader := ⟨source, tokens, 0, .start⟩

end MiniC
