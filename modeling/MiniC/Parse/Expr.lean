import MiniC.Parse.Stream
import MiniC.Token.Literal
import MiniC.Tree.Basic

/-! # Parsing expressions

There is no precedence: what follows a binary operator, to the end of the expression, is its right
operand, and what follows a unary operator is its operand.

The parsers here take the parser of a whole expression as an argument; `exprWithin` ties the knot.
-/
namespace MiniC
set_option autoImplicit false

def BinaryOp.ofSymbol? : Symbol → Option BinaryOp
  | .plus => some add
  | .minus => some sub
  | .star => some mul
  | .slash => some div
  | .percent => some rem
  | .eqEq => some eq
  | .notEq => some ne
  | .less => some lt
  | .greater => some gt
  | .lessEq => some le
  | .greaterEq => some ge
  | .andAnd => some logicalAnd
  | .amp => some bitAnd
  | .orOr => some logicalOr
  | .pipe => some bitOr
  | .caret => some xor
  | _ => none

def BinaryOp.ofKind? : Kind → Option BinaryOp
  | .symbol s => ofSymbol? s
  | _ => none

def UnaryOp.ofSymbol? : Symbol → Option UnaryOp
  | .plusPlus => some increment
  | .minusMinus => some decrement
  | .bang => some not
  | .star => some deref
  | .minus => some negate
  | _ => none

def UnaryOp.ofKindAfter? : Kind → Option UnaryOp
  | .symbol .plusPlus => some increment
  | .symbol .minusMinus => some decrement
  | _ => none

namespace Parser

def identOf (t : Token) : Ident := ⟨String.ofList t.text, t.span⟩

def ident : Parser Ident := return identOf (← expect .identifier)

def variableOf (x : Ident) : Expr Unit := .var () x.span x

/-- Whether the next token is the literal one above the greatest integer. -/
def seesMinMagnitude : Parser Bool := do
  let t ← peek
  return decide (t.kind = .number ∧ digitsValue t.text = 0x80000000)

section

variable (expr : Parser (Expr Unit))

/-- If a binary operator follows, the rest of the expression becomes its right operand. -/
def operatorChain (lhs : Expr Unit) : Parser (Expr Unit) := do
  match BinaryOp.ofKind? (← peekKind) with
  | none => return lhs
  | some op =>
    discard advance
    let rhs ← expr
    return .binary () (lhs.span.join rhs.span) op lhs rhs

/-- One or more indices after `base`; all but the last are folded into the base. -/
def subscripts : Nat → Expr Unit → Parser (Expr Unit × Expr Unit)
  | 0, _ => exhausted
  | n + 1, base => do
    discard <| expect (.symbol .lbracket)
    let offset ← expr
    discard <| expect (.symbol .rbracket)
    if ← sees (.symbol .lbracket) then
      subscripts n (.index () (base.span.join (← prevSpan)) base offset)
    else return (base, offset)

def nameSuffix (x : Ident) : Parser (Expr Unit) := do
  if ← take (.symbol .lparen) then
    let args ← budgeted (sepList (.symbol .rparen) (.symbol .comma) expr)
    let close ← expect (.symbol .rparen)
    return .call () (x.span.join close.span) x args
  if ← sees (.symbol .lbracket) then
    let (base, offset) ← budgeted fun n => subscripts expr n (variableOf x)
    return .index () (x.span.join (← prevSpan)) base offset
  match UnaryOp.ofKindAfter? (← peekKind) with
  | some op =>
    let t ← advance
    return .unary () (x.span.join t.span) op .after (variableOf x)
  | none => return variableOf x

/-- The operand of a unary operator.  The least integer has no literal of its own: its magnitude is
accepted after a minus sign, and negating the least integer leaves it as it is. -/
def operand (op : UnaryOp) : Parser (Expr Unit) := do
  if op = .negate then
    if ← seesMinMagnitude then
      let t ← advance
      return ← operatorChain expr (.const () t.span (.int Int32.minValue))
  expr

def primary : Parser (Expr Unit) := do
  let t ← advance
  match t.kind with
  | .string => return .string () t.span (Token.stringValue t.text)
  | .escapedString => return .string () t.span (Token.escapedStringValue t.text)
  | .number =>
    match Token.intValue? t.text with
    | some value => return .const () t.span (.int value)
    | none => fail t.span .intOutOfRange
  | .decimal => return .const () t.span (.float (.ofDecimal t.text))
  | .identifier => nameSuffix expr (identOf t)
  | .symbol .lparen =>
    let inner ← expr
    let close ← expect (.symbol .rparen)
    return inner.withSpan (t.span.join close.span)
  | .symbol s =>
    match UnaryOp.ofSymbol? s with
    | some op =>
      let inner ← operand expr op
      return .unary () (t.span.join inner.span) op .before inner
    | none => fail t.span (.unexpectedInExpr t.kind)
  | k => fail t.span (.unexpectedInExpr k)

end

def exprWithin : Nat → Parser (Expr Unit)
  | 0 => exhausted
  | n + 1 => do
    let lhs ← primary (exprWithin n)
    operatorChain (exprWithin n) lhs

def expr : Parser (Expr Unit) := budgeted exprWithin

end Parser

end MiniC
