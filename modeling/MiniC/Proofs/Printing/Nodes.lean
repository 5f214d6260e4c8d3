import MiniC.Proofs.Printing.Names
import MiniC.Proofs.Printing.Outlines

/-! # The nodes of printed trees

The outline of a program is that of one node for every item, statement, expression and label.  The
text of a node is a keyword, which tells its constructor, and a detail, which is empty or starts
with a blank.
-/
namespace MiniC
set_option autoImplicit false

namespace Expr

variable {α : Type} (note : α → String)

def keyword : Expr α → String
  | const .. => "const"
  | string .. => "string"
  | var .. => "variable"
  | call .. => "call"
  | binary .. => "binary"
  | unary .. => "unary"
  | index .. => "index"

def detail : Expr α → String
  | const i _ value => " " ++ value.text ++ note i
  | string i _ text => " " ++ Text.quote text ++ note i
  | var i _ name => " " ++ name.name ++ note i
  | call i _ callee _ => " " ++ callee.name ++ note i
  | binary i _ op _ _ => " " ++ op.symbol ++ note i
  | unary i _ op fixity _ => " " ++ op.symbol ++ (fixity.mark ++ note i)
  | index i _ _ _ => note i

def title (e : Expr α) : String := e.keyword ++ e.detail note

mutual

def node : Expr α → Node
  | const i s value => .mk (title note (const i s value)) []
  | string i s text => .mk (title note (string i s text)) []
  | var i s name => .mk (title note (var i s name)) []
  | call i s callee args => .mk (title note (call i s callee args)) (nodes args)
  | binary i s op lhs rhs => .mk (title note (binary i s op lhs rhs)) [lhs.node, rhs.node]
  | unary i s op fixity operand => .mk (title note (unary i s op fixity operand)) [operand.node]
  | index i s base offset => .mk (title note (index i s base offset)) [base.node, offset.node]

def nodes : List (Expr α) → List Node
  | [] => []
  | e :: es => e.node :: nodes es

end

mutual

theorem lines_eq (e : Expr α) (depth : Nat) : e.lines note depth = (e.node note).lines depth := by
  cases e with
  | const i s value | string i s text | var i s name =>
    simp [lines, node, Node.lines, Node.linesAll, title, keyword, detail, ← String.append_assoc]
  | call i s callee args =>
    simp [lines, node, Node.lines, title, keyword, detail, ← String.append_assoc,
      linesAll_eq args]
  | binary i s op lhs rhs =>
    simp [lines, node, Node.lines, Node.linesAll, title, keyword, detail, ← String.append_assoc,
      lines_eq lhs, lines_eq rhs]
  | unary i s op fixity operand =>
    simp [lines, node, Node.lines, Node.linesAll, title, keyword, detail, ← String.append_assoc,
      lines_eq operand]
  | index i s base offset =>
    simp [lines, node, Node.lines, Node.linesAll, title, keyword, detail, lines_eq base,
      lines_eq offset]

theorem linesAll_eq (es : List (Expr α)) (depth : Nat) :
    linesAll note depth es = Node.linesAll depth (nodes note es) := by
  cases es with
  | nil => rfl
  | cons e es => rw [linesAll, nodes, Node.linesAll, lines_eq e, linesAll_eq es]

end

section

variable {note} {P : α → Prop}

theorem fits_title (hNotes : Notes P note) {e : Expr α} (h : e.Legible P) :
    Line.Fits (e.title note) where
  oneLine := by
    have hNote := hNotes.oneLine e.info
    cases e with
    | const i s value =>
      have hValue := value.not_mem_text (c := '\n') rfl rfl
      simp_all [title, keyword, detail, info]
    | string i s text =>
      simp_all [title, keyword, detail, info, Text.newline_not_mem_quote]
    | var i s x =>
      have hName := h.2.not_mem (c := '\n') rfl
      simp_all [title, keyword, detail, info]
    | call i s f args =>
      have hName := h.2.1.not_mem (c := '\n') rfl
      simp_all [title, keyword, detail, info]
    | binary i s op lhs rhs => cases op <;> simp_all [title, keyword, detail, info, BinaryOp.symbol]
    | unary i s op fixity operand =>
      cases op <;> cases fixity <;>
        simp_all [title, keyword, detail, info, UnaryOp.symbol, Fixity.mark]
    | index i s base offset => simp_all [title, keyword, detail, info]
  flush := by cases e <;> simp [title, keyword]

mutual

theorem fits_node (hNotes : Notes P note) (e : Expr α) (h : e.Legible P) : (e.node note).Fits := by
  have hTitle := fits_title hNotes h
  cases e with
  | const i s value | string i s text | var i s name => exact ⟨hTitle, trivial⟩
  | call i s callee args => exact ⟨hTitle, fitsAll_nodes hNotes args h.2.2⟩
  | binary i s op lhs rhs =>
    exact ⟨hTitle, fits_node hNotes lhs h.2.1, fits_node hNotes rhs h.2.2, trivial⟩
  | unary i s op fixity operand => exact ⟨hTitle, fits_node hNotes operand h.2, trivial⟩
  | index i s base offset =>
    exact ⟨hTitle, fits_node hNotes base h.2.1, fits_node hNotes offset h.2.2, trivial⟩

theorem fitsAll_nodes (hNotes : Notes P note) (es : List (Expr α)) (h : LegibleAll P es) :
    Node.FitsAll (nodes note es) := by
  cases es with
  | nil => trivial
  | cons e es => exact ⟨fits_node hNotes e h.1, fitsAll_nodes hNotes es h.2⟩

end

end

def optionNodes (e? : Option (Expr α)) : List Node := (e?.map (node note)).toList

theorem optionLines_eq (e? : Option (Expr α)) (depth : Nat) :
    optionLines note depth e? = Node.linesAll depth (optionNodes note e?) := by
  cases e? with
  | none => rfl
  | some e => simp [optionLines, optionNodes, Node.linesAll, lines_eq]

theorem fitsAll_optionNodes {note : α → String} {P : α → Prop} (hNotes : Notes P note)
    {e? : Option (Expr α)} (h : LegibleOption P e?) : Node.FitsAll (optionNodes note e?) := by
  cases e? with
  | none => trivial
  | some e => exact ⟨fits_node hNotes e (h e rfl), trivial⟩

end Expr

namespace Node

/-- An optional node under a label. -/
def labelled (label : String) : Option Node → List Node
  | none => []
  | some n => [mk label [n]]

/-- The nodes of what is done otherwise, under a label if there are any. -/
def otherwise : List Node → List Node
  | [] => []
  | n :: ns => [mk "else" (n :: ns)]

theorem fitsAll_append {ns ms : List Node} (hNs : FitsAll ns) (hMs : FitsAll ms) :
    FitsAll (ns ++ ms) :=
  fitsAll_iff.mpr (List.forall_mem_append.mpr ⟨fitsAll_iff.mp hNs, fitsAll_iff.mp hMs⟩)

theorem fitsAll_labelled {label : String} (hLabel : Line.Fits label) {n? : Option Node}
    (h : ∀ n ∈ n?, n.Fits) : FitsAll (labelled label n?) := by
  cases n? with
  | none => trivial
  | some n => exact ⟨⟨hLabel, h n rfl, trivial⟩, trivial⟩

theorem fitsAll_otherwise {ns : List Node} (h : FitsAll ns) : FitsAll (otherwise ns) := by
  cases ns with
  | nil => trivial
  | cons n ns => exact ⟨⟨⟨by decide, by decide⟩, h⟩, trivial⟩

theorem linesAll_append (depth : Nat) (ns ms : List Node) :
    linesAll depth (ns ++ ms) = linesAll depth ns ++ linesAll depth ms := by
  induction ns with
  | nil => rfl
  | cons n ns ih => rw [List.cons_append, linesAll, linesAll, ih, List.append_assoc]

end Node

theorem Expr.labelledLines_eq {α : Type} (note : α → String) (label : String)
    (e? : Option (Expr α)) (depth : Nat) :
    labelledLines note label depth e? =
      Node.linesAll depth (Node.labelled label (e?.map (node note))) := by
  cases e? with
  | none => rfl
  | some e => simp [labelledLines, Node.labelled, Node.linesAll, Node.lines, lines_eq]

namespace Stmt

variable {α : Type} (note : α → String)

def keyword : Stmt α → String
  | ret .. => "return"
  | assign .. => "set"
  | declare .. => "declare"
  | store .. => "set-array"
  | branch .. => "if"
  | loop _ kind _ _ => kind.label
  | forLoop .. => "for"
  | jump _ j => j.spelling
  | expr _ value => value.keyword

def detail : Stmt α → String
  | assign _ target _ => " " ++ target.name
  | declare _ name ty _ => " " ++ name.name ++ (": " ++ ty.name)
  | expr _ value => value.detail note
  | _ => ""

def title (x : Stmt α) : String := x.keyword ++ x.detail note

mutual

def node : Stmt α → Node
  | ret s value => .mk (title note (ret s value)) (Expr.optionNodes note value)
  | assign s target value => .mk (title note (assign s target value)) [value.node note]
  | declare s name ty init =>
    .mk (title note (declare s name ty init)) (Expr.optionNodes note init)
  | store s base offset value =>
    .mk (title note (store s base offset value))
      [base.node note, offset.node note, value.node note]
  | branch s cond thenBody elseBody =>
    .mk (title note (branch s cond thenBody elseBody))
      (cond.node note :: .mk "then" (nodes thenBody) :: Node.otherwise (nodes elseBody))
  | loop s kind cond body =>
    .mk (title note (loop s kind cond body)) [cond.node note, .mk "body" (nodes body)]
  | forLoop s init cond update body =>
    .mk (title note (forLoop s init cond update body))
      (Node.labelled "init" (optionNode init) ++ (Node.labelled "cond" (cond.map (Expr.node note)) ++
        (Node.labelled "update" (optionNode update) ++ [.mk "body" (nodes body)])))
  | jump s j => .mk (title note (jump s j)) []
  | expr _ value => value.node note

def nodes : List (Stmt α) → List Node
  | [] => []
  | x :: xs => x.node :: nodes xs

def optionNode : Option (Stmt α) → Option Node
  | none => none
  | some x => some x.node

end

mutual

theorem lines_eq (x : Stmt α) (depth : Nat) : x.lines note depth = (x.node note).lines depth := by
  cases x with
  | ret s value => simp [lines, node, Node.lines, title, keyword, detail, Expr.optionLines_eq]
  | assign s target value =>
    simp [lines, node, Node.lines, Node.linesAll, title, keyword, detail, ← String.append_assoc,
      Expr.lines_eq]
  | declare s name ty init =>
    simp [lines, node, Node.lines, title, keyword, detail, ← String.append_assoc,
      Expr.optionLines_eq]
  | store s base offset value =>
    simp [lines, node, Node.lines, Node.linesAll, title, keyword, detail, Expr.lines_eq]
  | branch s cond thenBody elseBody =>
    have hElse : (if elseBody.isEmpty then []
        else ⟨depth + 1, "else"⟩ :: linesAll note (depth + 2) elseBody) =
        Node.linesAll (depth + 1) (Node.otherwise (nodes note elseBody)) := by
      rw [linesAll_eq elseBody]
      cases elseBody with
      | nil => rfl
      | cons x xs => simp [nodes, Node.otherwise, Node.linesAll, Node.lines]
    rw [lines, hElse]
    simp [node, Node.lines, Node.linesAll, title, keyword, detail, Expr.lines_eq,
      linesAll_eq thenBody]
  | loop s kind cond body =>
    simp [lines, node, Node.lines, Node.linesAll, title, keyword, detail, Expr.lines_eq,
      linesAll_eq body]
  | forLoop s init cond update body =>
    simp [lines, node, Node.lines, Node.linesAll_append, Node.linesAll, title, keyword, detail,
      Expr.labelledLines_eq, labelledLines_eq init, labelledLines_eq update, linesAll_eq body]
  | jump s j => simp [lines, node, Node.lines, Node.linesAll, title, keyword, detail]
  | expr s value => exact Expr.lines_eq note value depth

theorem linesAll_eq (xs : List (Stmt α)) (depth : Nat) :
    linesAll note depth xs = Node.linesAll depth (nodes note xs) := by
  cases xs with
  | nil => rfl
  | cons x xs => rw [linesAll, nodes, Node.linesAll, lines_eq x, linesAll_eq xs]

theorem labelledLines_eq (x? : Option (Stmt α)) (label : String) (depth : Nat) :
    labelledLines note label depth x? =
      Node.linesAll depth (Node.labelled label (optionNode note x?)) := by
  cases x? with
  | none => rfl
  | some x =>
    simp [labelledLines, optionNode, Node.labelled, Node.linesAll, Node.lines, lines_eq x]

end

section

variable {note} {P : α → Prop}

theorem fits_title (hNotes : Notes P note) {x : Stmt α} (h : x.Legible P) :
    Line.Fits (x.title note) := by
  cases x with
  | expr s value => exact Expr.fits_title hNotes h
  | assign s target value =>
    have hName := h.1.not_mem (c := '\n') rfl
    exact ⟨by simpa [title, keyword, detail] using hName, by simp [title, keyword]⟩
  | declare s name ty init =>
    have hName := h.1.not_mem (c := '\n') rfl
    have hType := ty.not_mem_name (c := '\n') rfl
    exact ⟨by simp [title, keyword, detail, hName, hType], by simp [title, keyword]⟩
  | loop s kind cond body =>
    cases kind <;> constructor <;> simp [title, keyword, detail, LoopKind.label]
  | jump s j => cases j <;> constructor <;> simp [title, keyword, detail, Jump.spelling]
  | _ => constructor <;> simp [title, keyword, detail]

mutual

theorem fits_node (hNotes : Notes P note) (x : Stmt α) (h : x.Legible P) : (x.node note).Fits := by
  have hTitle := fits_title hNotes h
  cases x with
  | ret s value => exact ⟨hTitle, Expr.fitsAll_optionNodes hNotes h⟩
  | assign s target value => exact ⟨hTitle, Expr.fits_node hNotes value h.2, trivial⟩
  | declare s name ty init => exact ⟨hTitle, Expr.fitsAll_optionNodes hNotes h.2.2⟩
  | store s base offset value =>
    exact ⟨hTitle, Expr.fits_node hNotes base h.1, Expr.fits_node hNotes offset h.2.1,
      Expr.fits_node hNotes value h.2.2, trivial⟩
  | branch s cond thenBody elseBody =>
    exact ⟨hTitle, Expr.fits_node hNotes cond h.1,
      ⟨⟨by decide, by decide⟩, fitsAll_nodes hNotes thenBody h.2.1⟩,
      Node.fitsAll_otherwise (fitsAll_nodes hNotes elseBody h.2.2)⟩
  | loop s kind cond body =>
    exact ⟨hTitle, Expr.fits_node hNotes cond h.1,
      ⟨⟨by decide, by decide⟩, fitsAll_nodes hNotes body h.2⟩, trivial⟩
  | forLoop s init cond update body =>
    obtain ⟨hInit, hCond, hUpdate, hBody⟩ := h
    have hCondNode : ∀ n ∈ cond.map (Expr.node note), n.Fits := by
      intro n hn
      obtain ⟨e, he, rfl⟩ := Option.map_eq_some_iff.mp hn
      exact Expr.fits_node hNotes e (hCond e he)
    refine ⟨hTitle, Node.fitsAll_append (Node.fitsAll_labelled ⟨by decide, by decide⟩
      (fits_optionNode hNotes init hInit)) (Node.fitsAll_append (Node.fitsAll_labelled
      ⟨by decide, by decide⟩ hCondNode) (Node.fitsAll_append (Node.fitsAll_labelled
      ⟨by decide, by decide⟩ (fits_optionNode hNotes update hUpdate)) ?_))⟩
    exact ⟨⟨⟨by decide, by decide⟩, fitsAll_nodes hNotes body hBody⟩, trivial⟩
  | jump s j => exact ⟨hTitle, trivial⟩
  | expr s value => exact Expr.fits_node hNotes value h

theorem fitsAll_nodes (hNotes : Notes P note) (xs : List (Stmt α)) (h : LegibleAll P xs) :
    Node.FitsAll (nodes note xs) := by
  cases xs with
  | nil => trivial
  | cons x xs => exact ⟨fits_node hNotes x h.1, fitsAll_nodes hNotes xs h.2⟩

theorem fits_optionNode (hNotes : Notes P note) (x? : Option (Stmt α)) (h : LegibleOption P x?) :
    ∀ n ∈ optionNode note x?, n.Fits := by
  cases x? with
  | none => simp [optionNode]
  | some x =>
    rintro _ ⟨⟩
    exact fits_node hNotes x h

end

end

end Stmt

/-! ## Items -/

theorem Param.texts_cons (p : Param) (ps : List Param) :
    (String.intercalate ", " ((p :: ps).map text)).toList =
      p.text.toList ++ ps.flatMap fun q => ',' :: ' ' :: q.text.toList := by
  rw [String.toList_intercalate]
  induction ps generalizing p with
  | nil => simp [List.intercalate]
  | cons q ps ih => simpa [List.intercalate_cons_cons] using ih q

theorem Param.newline_not_mem_texts {ps : List Param} (h : ∀ p ∈ ps, p.Legible) :
    '\n' ∉ (String.intercalate ", " (ps.map text)).toList := by
  have hText : ∀ p ∈ ps, '\n' ∉ p.text.toList := by
    intro p hp
    have hName := (h p hp).1.not_mem (c := '\n') rfl
    have hType := p.ty.not_mem_name (c := '\n') rfl
    simp [text, hName, hType]
  cases ps with
  | nil => simp
  | cons p ps =>
    rw [List.forall_mem_cons] at hText
    rw [texts_cons, List.mem_append, List.mem_flatMap]
    rintro (hp | ⟨q, hq, hMem⟩)
    · exact hText.1 hp
    · exact hText.2 q hq (by simpa using hMem)

namespace Item

variable {α : Type} (note : α → String)

def node : Item α → Node
  | global g =>
    .mk ("global " ++ g.name.name ++ (": " ++ g.ty.name)) (Expr.optionNodes note g.init)
  | function f =>
    .mk ("function " ++ f.name.name ++ ("(" ++ String.intercalate ", " (f.params.map Param.text) ++
      (") -> " ++ f.returnTy.name))) (Stmt.nodes note f.body)

theorem lines_eq (item : Item α) : item.lines note = (item.node note).lines 0 := by
  cases item with
  | global g =>
    simp [lines, Global.lines, node, Node.lines, Expr.optionLines_eq, String.append_assoc]
  | function f =>
    simp [lines, Function.lines, node, Node.lines, Stmt.linesAll_eq, String.append_assoc]

theorem fits_node {note} {P : α → Prop} (hNotes : Notes P note) {item : Item α}
    (h : item.Legible P) : (item.node note).Fits := by
  cases item with
  | global g =>
    have hName := h.1.not_mem (c := '\n') rfl
    have hType := g.ty.not_mem_name (c := '\n') rfl
    exact ⟨⟨by simp [hName, hType], by simp⟩, Expr.fitsAll_optionNodes hNotes h.2.2⟩
  | function f =>
    obtain ⟨hName, -, hParams, hBody⟩ := h
    have hName := hName.not_mem (c := '\n') rfl
    have hReturn := f.returnTy.not_mem_name (c := '\n') rfl
    have hTexts := Param.newline_not_mem_texts hParams
    exact ⟨⟨by simp [hName, hReturn, hTexts, -String.toList_intercalate], by simp⟩,
      Stmt.fitsAll_nodes hNotes f.body hBody⟩

end Item

theorem Program.renderWith_eq {α : Type} (note : α → String) (p : Program α) :
    p.renderWith note = renderLines (Node.linesAll 0 (p.items.map (Item.node note))) := by
  obtain ⟨items⟩ := p
  rw [renderWith]
  congr 1
  induction items with
  | nil => rfl
  | cons item items ih =>
    rw [List.flatMap_cons, List.map_cons, Node.linesAll, Item.lines_eq]
    exact congrArg _ ih

end MiniC
