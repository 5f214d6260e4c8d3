import MiniC.Tree.Basic

/-! # The spans of a tree

All spans that a tree carries, parents before children and children in source order; only the body
of a `do` loop comes after its condition.
-/
namespace MiniC
set_option autoImplicit false

namespace Expr

variable {α : Type}

mutual

def spans : Expr α → List Span
  | const _ s _ => [s]
  | string _ s _ => [s]
  | var _ s name => [s, name.span]
  | call _ s callee args => s :: callee.span :: spansAll args
  | binary _ s _ lhs rhs => s :: (lhs.spans ++ rhs.spans)
  | unary _ s _ _ operand => s :: operand.spans
  | index _ s base offset => s :: (base.spans ++ offset.spans)

def spansAll : List (Expr α) → List Span
  | [] => []
  | e :: es => e.spans ++ spansAll es

end

def optionSpans : Option (Expr α) → List Span
  | none => []
  | some e => e.spans

end Expr

namespace Stmt

variable {α : Type}

mutual

def spans : Stmt α → List Span
  | ret s value => s :: Expr.optionSpans value
  | assign s target value => s :: target.span :: value.spans
  | declare s name _ init => s :: name.span :: Expr.optionSpans init
  | store s base offset value => s :: (base.spans ++ offset.spans ++ value.spans)
  | branch s cond thenBody elseBody =>
    s :: (cond.spans ++ spansAll thenBody ++ spansAll elseBody)
  | loop s _ cond body => s :: (cond.spans ++ spansAll body)
  | forLoop s init cond update body =>
    s :: (optionSpans init ++ Expr.optionSpans cond ++ optionSpans update ++ spansAll body)
  | jump s _ => [s]
  | expr s value => s :: value.spans

def spansAll : List (Stmt α) → List Span
  | [] => []
  | x :: xs => x.spans ++ spansAll xs

def optionSpans : Option (Stmt α) → List Span
  | none => []
  | some x => x.spans

end

end Stmt

def Item.spans {α : Type} : Item α → List Span
  | global g => g.name.span :: Expr.optionSpans g.init
  | function f => f.name.span :: (f.params.map (·.name.span) ++ Stmt.spansAll f.body)

def Program.spans {α : Type} (p : Program α) : List Span := p.items.flatMap Item.spans

end MiniC
