import MiniC.Binary32.Write
import MiniC.Text.Outline
import MiniC.Text.Quote
import MiniC.Tree.Basic

/-! # Printed trees

A tree is printed one node a line, children indented below their parent.  The parts of a statement
that may be missing stand under labels.  A note about each expression ends its line: its type in a
checked tree, nothing in an unchecked one.
-/
namespace MiniC
set_option autoImplicit false

def Constant.text : Constant → String
  | int value => Text.ofInt value.toInt
  | float value => value.text

/-- What marks an operator that stands after its operand. -/
def Fixity.mark : Fixity → String
  | before => ""
  | after => " (postfix)"

namespace Expr

variable {α : Type} (note : α → String)

mutual

def lines (depth : Nat) : Expr α → List Line
  | const i _ value => [⟨depth, "const " ++ value.text ++ note i⟩]
  | string i _ text => [⟨depth, "string " ++ Text.quote text ++ note i⟩]
  | var i _ name => [⟨depth, "variable " ++ name.name ++ note i⟩]
  | call i _ callee args =>
    ⟨depth, "call " ++ callee.name ++ note i⟩ :: linesAll (depth + 1) args
  | binary i _ op lhs rhs =>
    ⟨depth, "binary " ++ op.symbol ++ note i⟩ ::
      (lhs.lines (depth + 1) ++ rhs.lines (depth + 1))
  | unary i _ op fixity operand =>
    ⟨depth, "unary " ++ op.symbol ++ fixity.mark ++ note i⟩ :: operand.lines (depth + 1)
  | index i _ base offset =>
    ⟨depth, "index" ++ note i⟩ :: (base.lines (depth + 1) ++ offset.lines (depth + 1))

def linesAll (depth : Nat) : List (Expr α) → List Line
  | [] => []
  | e :: es => e.lines depth ++ linesAll depth es

end

def optionLines (depth : Nat) : Option (Expr α) → List Line
  | none => []
  | some e => e.lines note depth

def labelledLines (label : String) (depth : Nat) : Option (Expr α) → List Line
  | none => []
  | some e => ⟨depth, label⟩ :: e.lines note (depth + 1)

end Expr

def LoopKind.label : LoopKind → String
  | whileDo => "while"
  | doWhile => "do-while"

namespace Stmt

variable {α : Type} (note : α → String)

mutual

def lines (depth : Nat) : Stmt α → List Line
  | ret _ value => ⟨depth, "return"⟩ :: Expr.optionLines note (depth + 1) value
  | assign _ target value => ⟨depth, "set " ++ target.name⟩ :: value.lines note (depth + 1)
  | declare _ name ty init =>
    ⟨depth, "declare " ++ name.name ++ ": " ++ ty.name⟩ ::
      Expr.optionLines note (depth + 1) init
  | store _ base offset value =>
    ⟨depth, "set-array"⟩ :: (base.lines note (depth + 1) ++ offset.lines note (depth + 1) ++
      value.lines note (depth + 1))
  | branch _ cond thenBody elseBody =>
    ⟨depth, "if"⟩ :: (cond.lines note (depth + 1) ++
      ⟨depth + 1, "then"⟩ :: linesAll (depth + 2) thenBody ++
      if elseBody.isEmpty then [] else ⟨depth + 1, "else"⟩ :: linesAll (depth + 2) elseBody)
  | loop _ kind cond body =>
    ⟨depth, kind.label⟩ :: (cond.lines note (depth + 1) ++
      ⟨depth + 1, "body"⟩ :: linesAll (depth + 2) body)
  | forLoop _ init cond update body =>
    ⟨depth, "for"⟩ :: (labelledLines "init" (depth + 1) init ++
      Expr.labelledLines note "cond" (depth + 1) cond ++
      labelledLines "update" (depth + 1) update ++
      ⟨depth + 1, "body"⟩ :: linesAll (depth + 2) body)
  | jump _ j => [⟨depth, j.spelling⟩]
  | expr _ value => value.lines note depth

def linesAll (depth : Nat) : List (Stmt α) → List Line
  | [] => []
  | x :: xs => x.lines depth ++ linesAll depth xs

def labelledLines (label : String) (depth : Nat) : Option (Stmt α) → List Line
  | none => []
  | some x => ⟨depth, label⟩ :: x.lines (depth + 1)

end

end Stmt

def Param.text (p : Param) : String := p.name.name ++ ": " ++ p.ty.name

section

variable {α : Type} (note : α → String)

def Global.lines (g : Global α) : List Line :=
  ⟨0, "global " ++ g.name.name ++ ": " ++ g.ty.name⟩ :: Expr.optionLines note 1 g.init

def Function.lines (f : Function α) : List Line :=
  ⟨0, "function " ++ f.name.name ++ "(" ++ String.intercalate ", " (f.params.map Param.text) ++
      ") -> " ++ f.returnTy.name⟩ ::
    Stmt.linesAll note 1 f.body

def Item.lines : Item α → List Line
  | global g => g.lines note
  | function f => f.lines note

def Program.renderWith (p : Program α) : String :=
  renderLines (p.items.flatMap (Item.lines note))

end

def Program.render {α : Type} (p : Program α) : String := p.renderWith fun _ => ""

def Program.renderTyped (p : Program Ty) : String := p.renderWith fun t => " : " ++ t.name

end MiniC
