import MiniC.Parse.Expr

/-! # Parsing statements

A simple statement is a declaration, an assignment, a store into an array or an expression.  It can
stand in the head of a `for` loop; followed by a semicolon it is a statement.
-/
namespace MiniC.Parser
set_option autoImplicit false

def pointers : Nat → Parser Nat
  | 0 => return 0
  | n + 1 => do
    if ← take (.symbol .star) then return (← pointers n) + 1
    return 0

def baseTypes : List Kind :=
  [.keyword .int, .keyword .float, .keyword .char, .keyword .void]

def baseTy : Kind → Ty
  | .keyword .int => .int
  | .keyword .float => .float
  | .keyword .char => .char
  | _ => .void

def type : Parser Ty := do
  let t ← expectAny baseTypes
  return (baseTy t.kind).pointerTo (← budgeted pointers)

def initializer : Parser (Option (Expr Unit)) := do
  if ← take (.symbol .assign) then return some (← expr)
  return none

def arraySize : Parser Nat := do
  let t ← advance
  match t.kind with
  | .number =>
    match Token.intValue? t.text with
    | some _ => return digitsValue t.text
    | none => fail t.span .intOutOfRange
  | k => fail t.span (.invalidArraySize k)

def arraySizes : Nat → Parser (List Nat)
  | 0 => exhausted
  | n + 1 => do
    if ← take (.symbol .lbracket) then
      let size ← arraySize
      discard <| expect (.symbol .rbracket)
      return size :: (← arraySizes n)
    return []

def declaration : Parser (Span → Stmt Unit) := do
  let ty ← type
  let name ← ident
  let sizes ← budgeted arraySizes
  let init ← initializer
  return fun s => .declare s name (ty.arrayOf sizes) init

def afterIdent (x : Ident) : Parser (Span → Stmt Unit) := do
  if ← take (.symbol .assign) then
    let value ← expr
    return fun s => .assign s x value
  if ← sees (.symbol .lbracket) then
    let (base, offset) ← budgeted fun n => subscripts expr n (variableOf x)
    if ← take (.symbol .assign) then
      let value ← expr
      return fun s => .store s base offset value
    let lhs := .index () (base.span.join (← prevSpan)) base offset
    let value ← operatorChain expr lhs
    return fun s => .expr s value
  let lhs ← nameSuffix expr x
  let value ← operatorChain expr lhs
  return fun s => .expr s value

def simpleForm : Parser (Span → Stmt Unit) := do
  let k ← peekKind
  if k.isBaseType then declaration
  else if k = .identifier then afterIdent (← ident)
  else
    let value ← expr
    return fun s => .expr s value

/-- A simple statement, without a semicolon after it. -/
def simple : Parser (Stmt Unit) := spanned simpleForm

def unlessSees {α : Type} (k : Kind) (p : Parser α) : Parser (Option α) := do
  if ← sees k then return none
  return some (← p)

def semicolon : Parser Unit := discard <| expect (.symbol .semicolon)

def condition : Parser (Expr Unit) := do
  discard <| expect (.symbol .lparen)
  let cond ← expr
  discard <| expect (.symbol .rparen)
  return cond

section

variable (stmt : Parser (Stmt Unit))

def block : Parser (List (Stmt Unit)) := do
  discard <| expect (.symbol .lbrace)
  let body ← budgeted (many (.symbol .rbrace) stmt)
  discard <| expect (.symbol .rbrace)
  return body

def elseBody : Parser (List (Stmt Unit)) := do
  if ← take (.keyword .else_) then
    if ← sees (.keyword .if_) then return [← stmt]
    return ← block stmt
  return []

def forForm : Parser (Span → Stmt Unit) := do
  discard <| expect (.symbol .lparen)
  let init ← unlessSees (.symbol .semicolon) simple
  semicolon
  let cond ← unlessSees (.symbol .semicolon) expr
  semicolon
  let update ← unlessSees (.symbol .rparen) simple
  discard <| expect (.symbol .rparen)
  let body ← block stmt
  return fun s => .forLoop s init cond update body

def stmtForm : Parser (Span → Stmt Unit) := do
  match ← peekKind with
  | .keyword .return_ =>
    discard advance
    let value ← unlessSees (.symbol .semicolon) expr
    semicolon
    return fun s => .ret s value
  | .keyword .if_ =>
    discard advance
    let cond ← condition
    let thenBody ← block stmt
    let otherwise ← elseBody stmt
    return fun s => .branch s cond thenBody otherwise
  | .keyword .while_ =>
    discard advance
    let cond ← condition
    let body ← block stmt
    return fun s => .loop s .whileDo cond body
  | .keyword .do_ =>
    discard advance
    let body ← block stmt
    discard <| expect (.keyword .while_)
    let cond ← condition
    semicolon
    return fun s => .loop s .doWhile cond body
  | .keyword .for_ =>
    discard advance
    forForm stmt
  | .keyword .continue_ =>
    discard advance
    semicolon
    return fun s => .jump s .continue_
  | .keyword .break_ =>
    discard advance
    semicolon
    return fun s => .jump s .break_
  | _ =>
    let form ← simpleForm
    semicolon
    return form

end

def stmtWithin : Nat → Parser (Stmt Unit)
  | 0 => exhausted
  | n + 1 => spanned (stmtForm (stmtWithin n))

def stmt : Parser (Stmt Unit) := budgeted stmtWithin

end MiniC.Parser
