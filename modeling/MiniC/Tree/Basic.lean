import MiniC.Binary32.Basic
import MiniC.Span.Basic
import MiniC.Ty

/-! # Syntax trees

Every expression carries a piece of information of type `α`: nothing after parsing, its type after
checking.  Every statement, expression and name carries its span.
-/
namespace MiniC
set_option autoImplicit false

structure Ident where
  name : String
  span : Span
  deriving DecidableEq, Repr

inductive Constant where
  | int (value : Int32)
  | float (value : Binary32)
  deriving DecidableEq, Repr

def Constant.ty : Constant → Ty
  | int _ => .int
  | float _ => .float

inductive UnaryOp where
  | increment | decrement | not | deref | negate
  deriving DecidableEq, Repr

namespace UnaryOp

def symbol : UnaryOp → String
  | increment => "++"
  | decrement => "--"
  | not => "!"
  | deref => "*"
  | negate => "-"

end UnaryOp

inductive BinaryOp where
  | add | sub | mul | div | rem
  | eq | ne | lt | gt | le | ge
  | logicalAnd | bitAnd | logicalOr | bitOr | xor
  deriving DecidableEq, Repr

namespace BinaryOp

def symbol : BinaryOp → String
  | add => "+"
  | sub => "-"
  | mul => "*"
  | div => "/"
  | rem => "%"
  | eq => "=="
  | ne => "!="
  | lt => "<"
  | gt => ">"
  | le => "<="
  | ge => ">="
  | logicalAnd => "&&"
  | bitAnd => "&"
  | logicalOr => "||"
  | bitOr => "|"
  | xor => "^"

def isComparison : BinaryOp → Bool
  | eq | ne | lt | gt | le | ge => true
  | _ => false

end BinaryOp

/-- Whether a unary operator stands before or after its operand. -/
inductive Fixity where
  | before | after
  deriving DecidableEq, Repr

inductive Expr (α : Type) where
  | const (info : α) (span : Span) (value : Constant)
  | string (info : α) (span : Span) (text : String)
  | var (info : α) (span : Span) (name : Ident)
  | call (info : α) (span : Span) (callee : Ident) (args : List (Expr α))
  | binary (info : α) (span : Span) (op : BinaryOp) (lhs rhs : Expr α)
  | unary (info : α) (span : Span) (op : UnaryOp) (fixity : Fixity) (operand : Expr α)
  | index (info : α) (span : Span) (base offset : Expr α)

namespace Expr

variable {α : Type}

def info : Expr α → α
  | const i .. | string i .. | var i .. | call i .. | binary i .. | unary i .. | index i .. => i

def span : Expr α → Span
  | const _ s .. | string _ s .. | var _ s .. | call _ s .. | binary _ s .. | unary _ s ..
  | index _ s .. => s

def withSpan (s : Span) : Expr α → Expr α
  | const i _ value => const i s value
  | string i _ text => string i s text
  | var i _ name => var i s name
  | call i _ callee args => call i s callee args
  | binary i _ op lhs rhs => binary i s op lhs rhs
  | unary i _ op fixity operand => unary i s op fixity operand
  | index i _ base offset => index i s base offset

@[simp] theorem span_withSpan (s : Span) (e : Expr α) : (e.withSpan s).span = s := by
  cases e <;> rfl

end Expr

inductive LoopKind where
  | whileDo | doWhile
  deriving DecidableEq, Repr

inductive Jump where
  | break_ | continue_
  deriving DecidableEq, Repr

def Jump.spelling : Jump → String
  | break_ => "break"
  | continue_ => "continue"

inductive Stmt (α : Type) where
  | ret (span : Span) (value : Option (Expr α))
  | assign (span : Span) (target : Ident) (value : Expr α)
  | declare (span : Span) (name : Ident) (ty : Ty) (init : Option (Expr α))
  | store (span : Span) (base offset value : Expr α)
  | branch (span : Span) (cond : Expr α) (thenBody elseBody : List (Stmt α))
  | loop (span : Span) (kind : LoopKind) (cond : Expr α) (body : List (Stmt α))
  | forLoop (span : Span) (init : Option (Stmt α)) (cond : Option (Expr α))
      (update : Option (Stmt α)) (body : List (Stmt α))
  | jump (span : Span) (jump : Jump)
  | expr (span : Span) (value : Expr α)

namespace Stmt

variable {α : Type}

def span : Stmt α → Span
  | ret s .. | assign s .. | declare s .. | store s .. | branch s .. | loop s .. | forLoop s ..
  | jump s .. | expr s .. => s

def withSpan (s : Span) : Stmt α → Stmt α
  | ret _ value => ret s value
  | assign _ target value => assign s target value
  | declare _ name ty init => declare s name ty init
  | store _ base offset value => store s base offset value
  | branch _ cond thenBody elseBody => branch s cond thenBody elseBody
  | loop _ kind cond body => loop s kind cond body
  | forLoop _ init cond update body => forLoop s init cond update body
  | jump _ j => jump s j
  | expr _ value => expr s value

end Stmt

structure Param where
  name : Ident
  ty : Ty
  deriving DecidableEq, Repr

structure Global (α : Type) where
  name : Ident
  ty : Ty
  init : Option (Expr α)

structure Function (α : Type) where
  name : Ident
  returnTy : Ty
  params : List Param
  body : List (Stmt α)

inductive Item (α : Type) where
  | global (g : Global α)
  | function (f : Function α)

structure Program (α : Type) where
  items : List (Item α)

def Program.functions {α : Type} (p : Program α) : List (Function α) :=
  p.items.filterMap fun
    | .function f => some f
    | .global _ => none

end MiniC
