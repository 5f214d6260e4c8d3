import Mathlib.Data.List.Forall2
import MiniC.Proofs.Declarations
import MiniC.Proofs.Printing.Nodes

/-! # Programs that are alike

Two programs are alike if they are equal but for the places in the source, and for floats with one
text.  Such programs have the same outline.
-/
namespace MiniC
set_option autoImplicit false

/-- The constants are equal, or they are floats with one text. -/
inductive Constant.Alike : Constant → Constant → Prop
  | int (n : Int32) : Alike (int n) (int n)
  | float {x y : Binary32} : x.text = y.text → Alike (float x) (float y)

namespace Expr

variable {α : Type}

mutual

/-- The expressions are equal but for spans and for floats with one text. -/
inductive Alike : Expr α → Expr α → Prop
  | const {i : α} {s t : Span} {a b : Constant} : a.Alike b → Alike (const i s a) (const i t b)
  | string {i : α} {s t : Span} {text : String} : Alike (string i s text) (string i t text)
  | var {i : α} {s t : Span} {x y : Ident} : x.name = y.name → Alike (var i s x) (var i t y)
  | call {i : α} {s t : Span} {f g : Ident} {es ds : List (Expr α)} : f.name = g.name →
      AlikeAll es ds → Alike (call i s f es) (call i t g ds)
  | binary {i : α} {s t : Span} {op : BinaryOp} {a b c d : Expr α} : Alike a c → Alike b d →
      Alike (binary i s op a b) (binary i t op c d)
  | unary {i : α} {s t : Span} {op : UnaryOp} {fixity : Fixity} {a b : Expr α} : Alike a b →
      Alike (unary i s op fixity a) (unary i t op fixity b)
  | index {i : α} {s t : Span} {a b c d : Expr α} : Alike a c → Alike b d →
      Alike (index i s a b) (index i t c d)

inductive AlikeAll : List (Expr α) → List (Expr α) → Prop
  | nil : AlikeAll [] []
  | cons {e d : Expr α} {es ds : List (Expr α)} : Alike e d → AlikeAll es ds →
      AlikeAll (e :: es) (d :: ds)

end

end Expr

namespace Stmt

variable {α : Type}

mutual

/-- The statements are equal but for spans and for floats with one text. -/
inductive Alike : Stmt α → Stmt α → Prop
  | ret {s t : Span} {a b : Option (Expr α)} : Option.Rel Expr.Alike a b → Alike (ret s a) (ret t b)
  | assign {s t : Span} {x y : Ident} {a b : Expr α} : x.name = y.name → a.Alike b →
      Alike (assign s x a) (assign t y b)
  | declare {s t : Span} {x y : Ident} {ty : Ty} {a b : Option (Expr α)} : x.name = y.name →
      Option.Rel Expr.Alike a b → Alike (declare s x ty a) (declare t y ty b)
  | store {s t : Span} {a b c a' b' c' : Expr α} : a.Alike a' → b.Alike b' → c.Alike c' →
      Alike (store s a b c) (store t a' b' c')
  | branch {s t : Span} {a b : Expr α} {xs ys xs' ys' : List (Stmt α)} : a.Alike b →
      AlikeAll xs xs' → AlikeAll ys ys' → Alike (branch s a xs ys) (branch t b xs' ys')
  | loop {s t : Span} {kind : LoopKind} {a b : Expr α} {xs ys : List (Stmt α)} : a.Alike b →
      AlikeAll xs ys → Alike (loop s kind a xs) (loop t kind b ys)
  | forLoop {s t : Span} {x y x' y' : Option (Stmt α)} {a b : Option (Expr α)}
      {xs ys : List (Stmt α)} : AlikeOption x x' → Option.Rel Expr.Alike a b →
      AlikeOption y y' → AlikeAll xs ys → Alike (forLoop s x a y xs) (forLoop t x' b y' ys)
  | jump {s t : Span} {j : Jump} : Alike (jump s j) (jump t j)
  | expr {s t : Span} {a b : Expr α} : a.Alike b → Alike (expr s a) (expr t b)

inductive AlikeAll : List (Stmt α) → List (Stmt α) → Prop
  | nil : AlikeAll [] []
  | cons {x y : Stmt α} {xs ys : List (Stmt α)} : Alike x y → AlikeAll xs ys →
      AlikeAll (x :: xs) (y :: ys)

inductive AlikeOption : Option (Stmt α) → Option (Stmt α) → Prop
  | none : AlikeOption none none
  | some {x y : Stmt α} : Alike x y → AlikeOption (some x) (some y)

end

end Stmt

/-- The items are equal but for spans and for floats with one text. -/
inductive Item.Alike {α : Type} : Item α → Item α → Prop
  | global {g h : Global α} : g.name.name = h.name.name → g.ty = h.ty →
      Option.Rel Expr.Alike g.init h.init → Alike (global g) (global h)
  | function {f g : Function α} : f.name.name = g.name.name → f.returnTy = g.returnTy →
      f.parameters = g.parameters → Stmt.AlikeAll f.body g.body → Alike (function f) (function g)

/-- The programs are equal but for spans and for floats with one text. -/
def Program.Alike {α : Type} (p q : Program α) : Prop := List.Forall₂ Item.Alike p.items q.items

theorem Constant.Alike.text_eq {a b : Constant} (h : a.Alike b) : a.text = b.text := by
  cases h with
  | int n => rfl
  | float h => exact h

section

variable {α : Type} (note : α → String)

mutual

theorem Expr.node_eq_of_alike {e d : Expr α} (h : e.Alike d) : e.node note = d.node note := by
  cases h with
  | const h => simp [node, title, keyword, detail, h.text_eq]
  | string => rfl
  | var h => simp [node, title, keyword, detail, h]
  | call h hArgs => simp [node, title, keyword, detail, h, nodes_eq_of_alike hArgs]
  | binary hLhs hRhs =>
    simp [node, title, keyword, detail, node_eq_of_alike hLhs, node_eq_of_alike hRhs]
  | unary h => simp [node, title, keyword, detail, node_eq_of_alike h]
  | index hBase hOffset =>
    simp [node, title, keyword, detail, node_eq_of_alike hBase, node_eq_of_alike hOffset]

theorem Expr.nodes_eq_of_alike {es ds : List (Expr α)} (h : AlikeAll es ds) :
    nodes note es = nodes note ds := by
  cases h with
  | nil => rfl
  | cons h hs => rw [nodes, nodes, node_eq_of_alike h, nodes_eq_of_alike hs]

end

theorem Expr.map_node_eq_of_alike {a b : Option (Expr α)} (h : Option.Rel Alike a b) :
    a.map (node note) = b.map (node note) := by
  cases h with
  | none => rfl
  | some h => exact congrArg some (node_eq_of_alike note h)

mutual

theorem Stmt.node_eq_of_alike {x y : Stmt α} (h : x.Alike y) : x.node note = y.node note := by
  cases h with
  | ret h =>
    simp [node, title, keyword, detail, Expr.optionNodes, Expr.map_node_eq_of_alike note h]
  | assign hName h => simp [node, title, keyword, detail, hName, Expr.node_eq_of_alike note h]
  | declare hName h =>
    simp [node, title, keyword, detail, hName, Expr.optionNodes,
      Expr.map_node_eq_of_alike note h]
  | store hBase hOffset hValue =>
    simp [node, title, keyword, detail, Expr.node_eq_of_alike note hBase,
      Expr.node_eq_of_alike note hOffset, Expr.node_eq_of_alike note hValue]
  | branch hCond hThen hElse =>
    simp [node, title, keyword, detail, Expr.node_eq_of_alike note hCond, nodes_eq_of_alike hThen,
      nodes_eq_of_alike hElse]
  | loop hCond hBody =>
    simp [node, title, keyword, detail, Expr.node_eq_of_alike note hCond, nodes_eq_of_alike hBody]
  | forLoop hInit hCond hUpdate hBody =>
    simp only [node, title, keyword, detail, Expr.map_node_eq_of_alike note hCond,
      optionNode_eq_of_alike hInit, optionNode_eq_of_alike hUpdate, nodes_eq_of_alike hBody]
  | jump => rfl
  | expr h => exact Expr.node_eq_of_alike note h

theorem Stmt.nodes_eq_of_alike {xs ys : List (Stmt α)} (h : AlikeAll xs ys) :
    nodes note xs = nodes note ys := by
  cases h with
  | nil => rfl
  | cons h hs => rw [nodes, nodes, node_eq_of_alike h, nodes_eq_of_alike hs]

theorem Stmt.optionNode_eq_of_alike {x? y? : Option (Stmt α)} (h : AlikeOption x? y?) :
    optionNode note x? = optionNode note y? := by
  cases h with
  | none => rfl
  | some h => rw [optionNode, optionNode, node_eq_of_alike h]

end

end

theorem Item.node_eq_of_alike {α : Type} (note : α → String) {a b : Item α} (h : a.Alike b) :
    a.node note = b.node note := by
  cases h with
  | global hName hTy hInit =>
    simp [node, hName, hTy, Expr.optionNodes, Expr.map_node_eq_of_alike note hInit]
  | @function f g hName hReturn hParams hBody =>
    have hTexts (f : Function α) :
        f.params.map Param.text = f.parameters.map fun d => d.1 ++ ": " ++ d.2.name := by
      simp [Function.parameters, Param.text]
    simp only [node, hName, hReturn, hTexts, hParams, Stmt.nodes_eq_of_alike note hBody]

end MiniC
