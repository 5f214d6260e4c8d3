import MiniC.Parse.Program

/-! # The grammar

    program  ::= item*
    item     ::= type ID '(' [param (',' param)* [',']] ')' block | type ID ['=' expr] ';'
    param    ::= type ID
    type     ::= ('int' | 'float' | 'char' | 'void') '*'*
    block    ::= '{' stmt* '}'
    stmt     ::= 'return' [expr] ';' | if | 'while' '(' expr ')' block
               | 'do' block 'while' '(' expr ')' ';'
               | 'for' '(' [simple] ';' [expr] ';' [simple] ')' block
               | 'continue' ';' | 'break' ';' | simple ';'
    if       ::= 'if' '(' expr ')' block ['else' (if | block)]
    simple   ::= type ID ('[' NUMBER ']')* ['=' expr] | ID '=' expr
               | ID ('[' expr ']')+ '=' expr | expr
    expr     ::= ('++' | '--' | '!' | '*' | '-') expr | '-' LEAST tail | atom tail
    tail     ::= [binop expr]
    atom     ::= STRING | NUMBER | DECIMAL | '(' expr ')' | ID
               | ID '(' [expr (',' expr)* [',']] ')' | ID ('[' expr ']')+ | ID ('++' | '--')

A `NUMBER` is below `2147483648`, and `LEAST` is that number, which only a minus sign may precede.

Each kind of phrase is a type of derivation trees, with one constructor for each alternative and
tokens as leaves.  The leaves of a phrase, from left to right, are its `tokens`; what it stands for
is its `tree`.
-/
namespace MiniC
set_option autoImplicit false

def BinaryOp.kind : BinaryOp → Kind
  | add => .symbol .plus
  | sub => .symbol .minus
  | mul => .symbol .star
  | div => .symbol .slash
  | rem => .symbol .percent
  | eq => .symbol .eqEq
  | ne => .symbol .notEq
  | lt => .symbol .less
  | gt => .symbol .greater
  | le => .symbol .lessEq
  | ge => .symbol .greaterEq
  | logicalAnd => .symbol .andAnd
  | bitAnd => .symbol .amp
  | logicalOr => .symbol .orOr
  | bitOr => .symbol .pipe
  | xor => .symbol .caret

def UnaryOp.kind : UnaryOp → Kind
  | increment => .symbol .plusPlus
  | decrement => .symbol .minusMinus
  | not => .symbol .bang
  | deref => .symbol .star
  | negate => .symbol .minus

def Jump.keyword : Jump → Keyword
  | break_ => .break_
  | continue_ => .continue_

namespace Grammar

/-- A token of the given kind. -/
abbrev Terminal (k : Kind) : Type := { t : Token // t.kind = k }

abbrev Mark (s : Symbol) : Type := Terminal (.symbol s)

abbrev Word (k : Keyword) : Type := Terminal (.keyword k)

abbrev Name : Type := Terminal .identifier

abbrev Numeral : Type := { t : Token // t.kind = .number ∧ digitsValue t.text < 0x80000000 }

/-- The literal one above the greatest integer. -/
abbrev Least : Type := { t : Token // t.kind = .number ∧ digitsValue t.text = 0x80000000 }

/-- Phrases with commas between them, and perhaps one more after the last. -/
inductive Separated (α : Type) where
  | empty
  | last (item : α)
  | more (item : α) (comma : Mark .comma) (rest : Separated α)

mutual

inductive Expression where
  | before (op : UnaryOp) (sign : Terminal op.kind) (operand : Expression)
  | least (minus : Mark .minus) (literal : Least) (tail : Tail)
  | chain (atom : Atom) (tail : Tail)

inductive Tail where
  | none
  | operator (op : BinaryOp) (sign : Terminal op.kind) (rhs : Expression)

inductive Atom where
  | string (t : Terminal .string)
  | escapedString (t : Terminal .escapedString)
  | number (t : Numeral)
  | decimal (t : Terminal .decimal)
  | parens (l : Mark .lparen) (inner : Expression) (r : Mark .rparen)
  | name (x : Name)
  | call (x : Name) (l : Mark .lparen) (args : Separated Expression) (r : Mark .rparen)
  | index (x : Name) (subscripts : Subscripts)
  | increment (x : Name) (sign : Mark .plusPlus)
  | decrement (x : Name) (sign : Mark .minusMinus)

inductive Subscripts where
  | last (l : Mark .lbracket) (offset : Expression) (r : Mark .rbracket)
  | more (l : Mark .lbracket) (offset : Expression) (r : Mark .rbracket) (rest : Subscripts)

end

namespace Separated

variable {α β : Type}

def tokens (leaves : α → List Token) : Separated α → List Token
  | empty => []
  | last a => leaves a
  | more a comma rest => leaves a ++ comma.1 :: rest.tokens leaves

def items (f : α → β) : Separated α → List β
  | empty => []
  | last a => [f a]
  | more a _ rest => f a :: rest.items f

end Separated

mutual

def Expression.tokens : Expression → List Token
  | .before _ sign operand => sign.1 :: operand.tokens
  | .least minus literal tail => minus.1 :: literal.1 :: tail.tokens
  | .chain atom tail => atom.tokens ++ tail.tokens

def Tail.tokens : Tail → List Token
  | .none => []
  | .operator _ sign rhs => sign.1 :: rhs.tokens

def Atom.tokens : Atom → List Token
  | .string t => [t.1]
  | .escapedString t => [t.1]
  | .number t => [t.1]
  | .decimal t => [t.1]
  | .parens l inner r => l.1 :: (inner.tokens ++ [r.1])
  | .name x => [x.1]
  | .call x l args r => x.1 :: l.1 :: (Expression.tokensAll args ++ [r.1])
  | .index x subscripts => x.1 :: subscripts.tokens
  | .increment x sign => [x.1, sign.1]
  | .decrement x sign => [x.1, sign.1]

def Expression.tokensAll : Separated Expression → List Token
  | .empty => []
  | .last e => e.tokens
  | .more e comma rest => e.tokens ++ comma.1 :: Expression.tokensAll rest

def Subscripts.tokens : Subscripts → List Token
  | .last l offset r => l.1 :: (offset.tokens ++ [r.1])
  | .more l offset r rest => l.1 :: (offset.tokens ++ r.1 :: rest.tokens)

end

/-- The last bracket. -/
def Subscripts.close : Subscripts → Token
  | .last _ _ r => r.1
  | .more _ _ _ rest => rest.close

mutual

def Expression.tree : Expression → Expr Unit
  | .before op sign operand =>
    .unary () (sign.1.span.join operand.tree.span) op .before operand.tree
  | .least minus literal tail =>
    let inner := tail.applyTo (.const () literal.1.span (.int Int32.minValue))
    .unary () (minus.1.span.join inner.span) .negate .before inner
  | .chain atom tail => tail.applyTo atom.tree

/-- The tree of a phrase whose first part has the tree `lhs`. -/
def Tail.applyTo (lhs : Expr Unit) : Tail → Expr Unit
  | .none => lhs
  | .operator op _ rhs => .binary () (lhs.span.join rhs.tree.span) op lhs rhs.tree

def Atom.tree : Atom → Expr Unit
  | .string t => .string () t.1.span (Token.stringValue t.1.text)
  | .escapedString t => .string () t.1.span (Token.escapedStringValue t.1.text)
  | .number t => .const () t.1.span (.int (Int32.ofNat (digitsValue t.1.text)))
  | .decimal t => .const () t.1.span (.float (.ofDecimal t.1.text))
  | .parens l inner r => inner.tree.withSpan (l.1.span.join r.1.span)
  | .name x => Parser.variableOf (Parser.identOf x.1)
  | .call x _ args r =>
    .call () (x.1.span.join r.1.span) (Parser.identOf x.1) (Expression.treesAll args)
  | .index x subscripts =>
    let parts := subscripts.split (Parser.variableOf (Parser.identOf x.1))
    .index () (x.1.span.join subscripts.close.span) parts.1 parts.2
  | .increment x sign =>
    .unary () (x.1.span.join sign.1.span) .increment .after (Parser.variableOf (Parser.identOf x.1))
  | .decrement x sign =>
    .unary () (x.1.span.join sign.1.span) .decrement .after (Parser.variableOf (Parser.identOf x.1))

def Expression.treesAll : Separated Expression → List (Expr Unit)
  | .empty => []
  | .last e => [e.tree]
  | .more e _ rest => e.tree :: Expression.treesAll rest

/-- What is indexed by the last subscript, and the last subscript. -/
def Subscripts.split (base : Expr Unit) : Subscripts → Expr Unit × Expr Unit
  | .last _ offset _ => (base, offset.tree)
  | .more _ offset r rest =>
    rest.split (.index () (base.span.join r.1.span) base offset.tree)

end

/-- The span of the last of the given tokens, or `s` if there is none. -/
def lastSpan (s : Span) : List Token → Span
  | [] => s
  | t :: ts => lastSpan t.span ts

/-- The span from the first of the given tokens to the last. -/
def cover : List Token → Span
  | [] => .start
  | t :: ts => t.span.join (lastSpan t.span ts)

inductive BaseType where
  | int (t : Word .int)
  | float (t : Word .float)
  | char (t : Word .char)
  | void (t : Word .void)

namespace BaseType

def token : BaseType → Token
  | int t => t.1
  | float t => t.1
  | char t => t.1
  | void t => t.1

def ty : BaseType → Ty
  | int _ => .int
  | float _ => .float
  | char _ => .char
  | void _ => .void

end BaseType

structure TypeName where
  base : BaseType
  stars : List (Mark .star)

namespace TypeName

def tokens (n : TypeName) : List Token := n.base.token :: n.stars.map (·.1)

def ty (n : TypeName) : Ty := n.base.ty.pointerTo n.stars.length

end TypeName

/-- The size of an array, in brackets. -/
structure Dimension where
  l : Mark .lbracket
  size : Numeral
  r : Mark .rbracket

namespace Dimension

def tokens (d : Dimension) : List Token := [d.l.1, d.size.1, d.r.1]

def value (d : Dimension) : Nat := digitsValue d.size.1.text

end Dimension

/-- The optional initial value of a variable. -/
inductive Initial where
  | none
  | value (sign : Mark .assign) (e : Expression)

namespace Initial

def tokens : Initial → List Token
  | none => []
  | value sign e => sign.1 :: e.tokens

def tree : Initial → Option (Expr Unit)
  | none => .none
  | value _ e => some e.tree

end Initial

inductive Simple where
  | declare (type : TypeName) (x : Name) (sizes : List Dimension) (init : Initial)
  | assign (x : Name) (sign : Mark .assign) (value : Expression)
  | store (x : Name) (subscripts : Subscripts) (sign : Mark .assign) (value : Expression)
  | expr (e : Expression)

namespace Simple

def tokens : Simple → List Token
  | declare type x sizes init =>
    type.tokens ++ x.1 :: (sizes.flatMap Dimension.tokens ++ init.tokens)
  | assign x sign value => x.1 :: sign.1 :: value.tokens
  | store x subscripts sign value => x.1 :: (subscripts.tokens ++ sign.1 :: value.tokens)
  | expr e => e.tokens

/-- The statement at a given place, which depends on whether a semicolon belongs to it. -/
def form : Simple → Span → Stmt Unit
  | declare type x sizes init, s =>
    .declare s (Parser.identOf x.1) (type.ty.arrayOf (sizes.map Dimension.value)) init.tree
  | assign x _ value, s => .assign s (Parser.identOf x.1) value.tree
  | store x subscripts _ value, s =>
    let parts := subscripts.split (Parser.variableOf (Parser.identOf x.1))
    .store s parts.1 parts.2 value.tree
  | expr e, s => .expr s e.tree

def tree (x : Simple) : Stmt Unit := x.form (cover x.tokens)

end Simple

/-- A condition in parentheses. -/
structure Condition where
  l : Mark .lparen
  value : Expression
  r : Mark .rparen

def Condition.tokens (c : Condition) : List Token := c.l.1 :: (c.value.tokens ++ [c.r.1])

/-- The leaves of a phrase that may be missing. -/
def optionTokens {α : Type} (leaves : α → List Token) : Option α → List Token
  | none => []
  | some a => leaves a

/-- What stands in the parentheses of a `for` loop. -/
structure ForHead where
  l : Mark .lparen
  init : Option Simple
  first : Mark .semicolon
  cond : Option Expression
  second : Mark .semicolon
  update : Option Simple
  r : Mark .rparen

def ForHead.tokens (h : ForHead) : List Token :=
  h.l.1 :: (optionTokens Simple.tokens h.init ++ h.first.1 ::
    (optionTokens Expression.tokens h.cond ++ h.second.1 ::
      (optionTokens Simple.tokens h.update ++ [h.r.1])))

mutual

inductive Statement where
  | ret (word : Word .return_) (value : Option Expression) (semicolon : Mark .semicolon)
  | branch (b : Branch)
  | whileDo (word : Word .while_) (cond : Condition) (body : Braces)
  | doWhile (word : Word .do_) (body : Braces) (word' : Word .while_) (cond : Condition)
      (semicolon : Mark .semicolon)
  | forLoop (word : Word .for_) (head : ForHead) (body : Braces)
  | jump (j : Jump) (word : Word j.keyword) (semicolon : Mark .semicolon)
  | simple (x : Simple) (semicolon : Mark .semicolon)

inductive Branch where
  | mk (word : Word .if_) (cond : Condition) (body : Braces) (otherwise : Otherwise)

inductive Otherwise where
  | none
  | branch (word : Word .else_) (b : Branch)
  | block (word : Word .else_) (b : Braces)

inductive Braces where
  | mk (l : Mark .lbrace) (body : List Statement) (r : Mark .rbrace)

end

mutual

def Statement.tokens : Statement → List Token
  | .ret word value semicolon =>
    word.1 :: (optionTokens Expression.tokens value ++ [semicolon.1])
  | .branch b => b.tokens
  | .whileDo word cond body => word.1 :: (cond.tokens ++ body.tokens)
  | .doWhile word body word' cond semicolon =>
    word.1 :: (body.tokens ++ word'.1 :: (cond.tokens ++ [semicolon.1]))
  | .forLoop word head body => word.1 :: (head.tokens ++ body.tokens)
  | .jump _ word semicolon => [word.1, semicolon.1]
  | .simple x semicolon => x.tokens ++ [semicolon.1]

def Branch.tokens : Branch → List Token
  | .mk word cond body otherwise => word.1 :: (cond.tokens ++ (body.tokens ++ otherwise.tokens))

def Otherwise.tokens : Otherwise → List Token
  | .none => []
  | .branch word b => word.1 :: b.tokens
  | .block word b => word.1 :: b.tokens

def Braces.tokens : Braces → List Token
  | .mk l body r => l.1 :: (Statement.tokensAll body ++ [r.1])

def Statement.tokensAll : List Statement → List Token
  | [] => []
  | x :: xs => x.tokens ++ Statement.tokensAll xs

end

mutual

def Statement.tree : Statement → Stmt Unit
  | d@(.ret _ value _) => .ret (cover d.tokens) (value.map Expression.tree)
  | .branch b => b.tree
  | d@(.whileDo _ cond body) => .loop (cover d.tokens) .whileDo cond.value.tree body.trees
  | d@(.doWhile _ body _ cond _) => .loop (cover d.tokens) .doWhile cond.value.tree body.trees
  | d@(.forLoop _ head body) =>
    .forLoop (cover d.tokens) (head.init.map Simple.tree) (head.cond.map Expression.tree)
      (head.update.map Simple.tree) body.trees
  | d@(.jump j _ _) => .jump (cover d.tokens) j
  | d@(.simple x _) => x.form (cover d.tokens)

def Branch.tree : Branch → Stmt Unit
  | d@(.mk _ cond body otherwise) =>
    .branch (cover d.tokens) cond.value.tree body.trees otherwise.trees

def Otherwise.trees : Otherwise → List (Stmt Unit)
  | .none => []
  | .branch _ b => [b.tree]
  | .block _ b => b.trees

def Braces.trees : Braces → List (Stmt Unit)
  | .mk _ body _ => Statement.treesAll body

def Statement.treesAll : List Statement → List (Stmt Unit)
  | [] => []
  | x :: xs => x.tree :: Statement.treesAll xs

end

structure Parameter where
  type : TypeName
  x : Name

namespace Parameter

def tokens (p : Parameter) : List Token := p.type.tokens ++ [p.x.1]

def tree (p : Parameter) : Param := ⟨Parser.identOf p.x.1, p.type.ty⟩

end Parameter

inductive Definition where
  | function (type : TypeName) (x : Name) (l : Mark .lparen) (params : Separated Parameter)
      (r : Mark .rparen) (body : Braces)
  | global (type : TypeName) (x : Name) (init : Initial) (semicolon : Mark .semicolon)

namespace Definition

def tokens : Definition → List Token
  | function type x l params r body =>
    type.tokens ++ x.1 :: l.1 :: (params.tokens Parameter.tokens ++ r.1 :: body.tokens)
  | global type x init semicolon => type.tokens ++ x.1 :: (init.tokens ++ [semicolon.1])

def tree : Definition → Item Unit
  | function type x _ params _ body =>
    .function ⟨Parser.identOf x.1, type.ty, params.items Parameter.tree, body.trees⟩
  | global type x init _ => .global ⟨Parser.identOf x.1, type.ty, init.tree⟩

end Definition

/-- A derivation of a whole program. -/
structure Derivation where
  definitions : List Definition

namespace Derivation

def tokens (d : Derivation) : List Token := d.definitions.flatMap Definition.tokens

def tree (d : Derivation) : Program Unit := ⟨d.definitions.map Definition.tree⟩

end Derivation

end Grammar

end MiniC
