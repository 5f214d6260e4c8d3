import MiniC.Proofs.Printing.Alike
import MiniC.Proofs.Printing.Checked

/-! # What a printed tree tells

Two programs that come from sources have the same outline if and only if they are alike.  The
outline gives the nodes; the keyword of a node tells the constructor, its detail the names, types
and constants, and the nodes below it are read on in the same way.
-/
namespace MiniC
set_option autoImplicit false

theorem Constant.alike_of_text_eq {a b : Constant} (h : a.text = b.text) : a.Alike b := by
  have hApart (n : Int32) (x : Binary32) : (int n).text ≠ (float x).text := by
    intro h
    obtain ⟨c, hc, hDigit, hMinus⟩ := x.exists_mem_text
    have hMem : c ∈ Text.intDigits n.toInt := by
      rw [← Text.toList_ofInt, show Text.ofInt n.toInt = x.text from h]
      exact hc
    rcases Text.of_mem_intDigits hMem with hc | hc
    · rw [hc] at hDigit
      cases hDigit
    · exact hMinus hc
  cases a with
  | int n =>
    cases b with
    | int m =>
      have hDigits : Text.intDigits n.toInt = Text.intDigits m.toInt := String.ofList_injective h
      have hInt : n.toInt = m.toInt := by
        rw [← Text.readInt_intDigits n.toInt, hDigits, Text.readInt_intDigits]
      rw [Int32.toInt_inj.mp hInt]
      exact .int m
    | float x => exact absurd h (hApart n x)
  | float x =>
    cases b with
    | int n => exact absurd h.symm (hApart n x)
    | float y => exact .float h

namespace Notes

variable {α : Type} {P : α → Prop} {note : α → String} {i j : α}

theorem detail_inj (h : Notes P note) {a b : String} (ha : ' ' ∉ a.toList) (hb : ' ' ∉ b.toList)
    (hi : P i) (hj : P j) (hEq : " " ++ a ++ note i = " " ++ b ++ note j) : a = b ∧ i = j := by
  rw [String.append_assoc, String.append_assoc, String.append_right_inj] at hEq
  obtain ⟨hFirst, hNote⟩ := append_inj_at ' ' ha hb (h.ends i) (h.ends j) hEq
  exact ⟨hFirst, h.inj i j hi hj hNote⟩

theorem ends_mark (h : Notes P note) (i : α) (f : Fixity) :
    Text.Ends (· == ' ') (f.mark ++ note i).toList := by
  cases f with
  | before => simpa [Fixity.mark] using h.ends i
  | after => simp [Fixity.mark, Text.Ends]

theorem mark_inj (h : Notes P note) {a b : Fixity} (hi : P i) (hj : P j)
    (hEq : a.mark ++ note i = b.mark ++ note j) : a = b ∧ i = j := by
  have hApart {i j : α} : Fixity.before.mark ++ note i ≠ Fixity.after.mark ++ note j := by
    intro hEq
    have hList := congrArg String.toList hEq
    rcases h.apart i with hNone | ⟨cs, hSome⟩ <;> simp_all [Fixity.mark]
  cases a <;> cases b
  · exact ⟨rfl, h.inj i j hi hj (String.append_right_inj _ |>.mp hEq)⟩
  · exact absurd hEq hApart
  · exact absurd hEq.symm hApart
  · exact ⟨rfl, h.inj i j hi hj (String.append_right_inj _ |>.mp hEq)⟩

end Notes

theorem BinaryOp.blank_not_mem_symbol (op : BinaryOp) : ' ' ∉ op.symbol.toList := by
  cases op <;> decide

theorem BinaryOp.symbol_inj {a b : BinaryOp} (h : a.symbol = b.symbol) : a = b := by
  revert h
  cases a <;> cases b <;> decide

theorem UnaryOp.blank_not_mem_symbol (op : UnaryOp) : ' ' ∉ op.symbol.toList := by
  cases op <;> decide

theorem UnaryOp.symbol_inj {a b : UnaryOp} (h : a.symbol = b.symbol) : a = b := by
  revert h
  cases a <;> cases b <;> decide

namespace Expr

variable {α : Type} {P : α → Prop} {note : α → String}

theorem ends_detail (hNotes : Notes P note) (e : Expr α) :
    Text.Ends (· == ' ') (e.detail note).toList := by
  cases e with
  | index i s base offset => exact hNotes.ends i
  | _ => simp [detail, Text.Ends]

theorem blank_not_mem_keyword (e : Expr α) : ' ' ∉ e.keyword.toList := by
  cases e <;> simp [keyword]

mutual

theorem alike_of_node_eq (hNotes : Notes P note) {e d : Expr α} (he : e.Legible P)
    (hd : d.Legible P) (h : e.node note = d.node note) : e.Alike d := by
  have hTitle : e.keyword ++ e.detail note = d.keyword ++ d.detail note := by
    cases e <;> cases d <;> exact (Node.mk.inj h).1
  obtain ⟨hKeyword, hDetail⟩ := append_inj_at ' ' e.blank_not_mem_keyword d.blank_not_mem_keyword
    (ends_detail hNotes e) (ends_detail hNotes d) hTitle
  cases e with
  | const i s a =>
    cases d with
    | const j t b =>
      obtain ⟨hText, rfl⟩ := hNotes.detail_inj (a.not_mem_text rfl rfl) (b.not_mem_text rfl rfl)
        he hd hDetail
      exact .const (Constant.alike_of_text_eq hText)
    | _ => simp [keyword] at hKeyword
  | string i s a =>
    cases d with
    | string j t b =>
      have hLists : (Text.quote a).toList ++ (note i).toList =
          (Text.quote b).toList ++ (note j).toList := by
        simpa [detail] using congrArg String.toList hDetail
      obtain ⟨rfl, hNote⟩ := Text.quote_append_inj hLists
      obtain rfl := hNotes.inj i j he hd (String.toList_inj.mp hNote)
      exact .string
    | _ => simp [keyword] at hKeyword
  | var i s x =>
    cases d with
    | var j t y =>
      obtain ⟨hName, rfl⟩ := hNotes.detail_inj (he.2.not_mem rfl) (hd.2.not_mem rfl) he.1 hd.1
        hDetail
      exact .var hName
    | _ => simp [keyword] at hKeyword
  | call i s f es =>
    cases d with
    | call j t g ds =>
      obtain ⟨hName, rfl⟩ := hNotes.detail_inj (he.2.1.not_mem rfl) (hd.2.1.not_mem rfl) he.1 hd.1
        hDetail
      exact .call hName (alikeAll_of_nodes_eq hNotes he.2.2 hd.2.2 (Node.mk.inj h).2)
    | _ => simp [keyword] at hKeyword
  | binary i s op a b =>
    cases d with
    | binary j t op' c d =>
      obtain ⟨hSymbol, rfl⟩ := hNotes.detail_inj op.blank_not_mem_symbol op'.blank_not_mem_symbol
        he.1 hd.1 hDetail
      obtain rfl := BinaryOp.symbol_inj hSymbol
      obtain ⟨hLhs, hRest⟩ := List.cons.inj (Node.mk.inj h).2
      obtain ⟨hRhs, -⟩ := List.cons.inj hRest
      exact .binary (alike_of_node_eq hNotes he.2.1 hd.2.1 hLhs)
        (alike_of_node_eq hNotes he.2.2 hd.2.2 hRhs)
    | _ => simp [keyword] at hKeyword
  | unary i s op fixity a =>
    cases d with
    | unary j t op' fixity' b =>
      simp only [detail, String.append_assoc, String.append_right_inj] at hDetail
      obtain ⟨hSymbol, hMark⟩ := append_inj_at ' ' op.blank_not_mem_symbol
        op'.blank_not_mem_symbol (hNotes.ends_mark i fixity) (hNotes.ends_mark j fixity') hDetail
      obtain rfl := UnaryOp.symbol_inj hSymbol
      obtain ⟨rfl, rfl⟩ := hNotes.mark_inj he.1 hd.1 hMark
      exact .unary (alike_of_node_eq hNotes he.2 hd.2 (List.cons.inj (Node.mk.inj h).2).1)
    | _ => simp [keyword] at hKeyword
  | index i s a b =>
    cases d with
    | index j t c d =>
      obtain rfl := hNotes.inj i j he.1 hd.1 hDetail
      obtain ⟨hBase, hRest⟩ := List.cons.inj (Node.mk.inj h).2
      obtain ⟨hOffset, -⟩ := List.cons.inj hRest
      exact .index (alike_of_node_eq hNotes he.2.1 hd.2.1 hBase)
        (alike_of_node_eq hNotes he.2.2 hd.2.2 hOffset)
    | _ => simp [keyword] at hKeyword

theorem alikeAll_of_nodes_eq (hNotes : Notes P note) {es ds : List (Expr α)}
    (hes : LegibleAll P es) (hds : LegibleAll P ds) (h : nodes note es = nodes note ds) :
    AlikeAll es ds := by
  cases es with
  | nil =>
    cases ds with
    | nil => exact .nil
    | cons d ds => cases h
  | cons e es =>
    cases ds with
    | nil => cases h
    | cons d ds =>
      obtain ⟨hFirst, hRest⟩ := List.cons.inj h
      exact .cons (alike_of_node_eq hNotes hes.1 hds.1 hFirst)
        (alikeAll_of_nodes_eq hNotes hes.2 hds.2 hRest)

end

end Expr

theorem Expr.rel_of_map_eq {α : Type} {P : α → Prop} {note : α → String} (hNotes : Notes P note)
    {a b : Option (Expr α)} (ha : LegibleOption P a) (hb : LegibleOption P b)
    (h : a.map (node note) = b.map (node note)) : Option.Rel Alike a b := by
  cases a with
  | none =>
    cases b with
    | none => exact .none
    | some b => cases h
  | some a =>
    cases b with
    | none => cases h
    | some b => exact .some (alike_of_node_eq hNotes (ha a rfl) (hb b rfl) (Option.some.inj h))

theorem Expr.rel_of_optionNodes_eq {α : Type} {P : α → Prop} {note : α → String}
    (hNotes : Notes P note) {a b : Option (Expr α)} (ha : LegibleOption P a)
    (hb : LegibleOption P b) (h : optionNodes note a = optionNodes note b) :
    Option.Rel Alike a b := by
  refine rel_of_map_eq hNotes ha hb ?_
  cases a <;> cases b <;> simp_all [optionNodes]

namespace Node

/-- The first of the nodes has another text. -/
def HeadNot (text : String) (ns : List Node) : Prop := ∀ n ∈ ns.head?, n.text ≠ text

theorem HeadNot.labelled {text label : String} (hLabel : label ≠ text) {a : Option Node}
    {r : List Node} (hr : HeadNot text r) : HeadNot text (labelled label a ++ r) := by
  cases a with
  | none => exact hr
  | some n =>
    rintro _ ⟨⟩
    exact hLabel

theorem labelled_append_inj {label : String} {a b : Option Node} {r s : List Node}
    (hr : HeadNot label r) (hs : HeadNot label s)
    (h : labelled label a ++ r = labelled label b ++ s) : a = b ∧ r = s := by
  cases a with
  | none =>
    cases b with
    | none => exact ⟨rfl, h⟩
    | some m =>
      subst h
      exact absurd rfl (hr (mk label [m]) rfl)
  | some n =>
    cases b with
    | none =>
      subst h
      exact absurd rfl (hs (mk label [n]) rfl)
    | some m =>
      obtain ⟨hFirst, hRest⟩ := List.cons.inj h
      obtain ⟨hNode, -⟩ := List.cons.inj (mk.inj hFirst).2
      exact ⟨congrArg some hNode, hRest⟩

theorem otherwise_inj {ns ms : List Node} (h : otherwise ns = otherwise ms) : ns = ms := by
  cases ns <;> cases ms
  · rfl
  · cases h
  · cases h
  · exact (mk.inj (List.cons.inj h).1).2

end Node

namespace Stmt

variable {α : Type} {P : α → Prop} {note : α → String}

/-- The constructors, numbered as they are declared, by their keywords. -/
def kindOf : String → Nat
  | "return" => 0
  | "set" => 1
  | "declare" => 2
  | "set-array" => 3
  | "if" => 4
  | "while" | "do-while" => 5
  | "for" => 6
  | "break" | "continue" => 7
  | _ => 8

theorem kindOf_keyword (x : Stmt α) : kindOf x.keyword = x.ctorIdx := by
  cases x with
  | loop s kind cond body => cases kind <;> rfl
  | jump s j => cases j <;> rfl
  | expr s value => cases value <;> rfl
  | _ => rfl

theorem ends_detail (hNotes : Notes P note) (x : Stmt α) :
    Text.Ends (· == ' ') (x.detail note).toList := by
  cases x with
  | expr s value => exact Expr.ends_detail hNotes value
  | _ => simp [detail, Text.Ends]

theorem blank_not_mem_keyword (x : Stmt α) : ' ' ∉ x.keyword.toList := by
  cases x with
  | loop s kind cond body => cases kind <;> simp [keyword, LoopKind.label]
  | jump s j => cases j <;> simp [keyword, Jump.spelling]
  | expr s value => exact value.blank_not_mem_keyword
  | _ => simp [keyword]

/-- The text of the node of a statement. -/
theorem text_node (x : Stmt α) : (x.node note).text = x.title note := by
  cases x with
  | expr s value => cases value <;> rfl
  | _ => rfl

mutual

theorem alike_of_node_eq (hNotes : Notes P note) {x y : Stmt α} (hx : x.Legible P)
    (hy : y.Legible P) (h : x.node note = y.node note) : x.Alike y := by
  have hTitle : x.title note = y.title note := by rw [← text_node, h, text_node]
  obtain ⟨hKeyword, hDetail⟩ := append_inj_at ' ' x.blank_not_mem_keyword y.blank_not_mem_keyword
    (ends_detail hNotes x) (ends_detail hNotes y) hTitle
  have hKind : x.ctorIdx = y.ctorIdx := by rw [← kindOf_keyword, hKeyword, kindOf_keyword]
  have hChildren := congrArg Node.children h
  cases x with
  | ret s a =>
    cases y with
    | ret t b => exact .ret (Expr.rel_of_optionNodes_eq hNotes hx hy hChildren)
    | _ => cases hKind
  | assign s x a =>
    cases y with
    | assign t y b =>
      exact .assign (String.append_right_inj _ |>.mp hDetail)
        (Expr.alike_of_node_eq hNotes hx.2 hy.2 (List.cons.inj hChildren).1)
    | _ => cases hKind
  | declare s x ty a =>
    cases y with
    | declare t y ty' b =>
      simp only [detail, String.append_assoc, String.append_right_inj] at hDetail
      obtain ⟨hName, hType⟩ := append_inj_at ':' (hx.1.not_mem rfl) (hy.1.not_mem rfl)
        (by simp [Text.Ends]) (by simp [Text.Ends]) hDetail
      obtain rfl := Ty.name_inj hx.2.1 hy.2.1 (String.append_right_inj _ |>.mp hType)
      exact .declare hName (Expr.rel_of_optionNodes_eq hNotes hx.2.2 hy.2.2 hChildren)
    | _ => cases hKind
  | store s a b c =>
    cases y with
    | store t a' b' c' =>
      obtain ⟨hBase, hRest⟩ := List.cons.inj hChildren
      obtain ⟨hOffset, hRest⟩ := List.cons.inj hRest
      obtain ⟨hValue, -⟩ := List.cons.inj hRest
      exact .store (Expr.alike_of_node_eq hNotes hx.1 hy.1 hBase)
        (Expr.alike_of_node_eq hNotes hx.2.1 hy.2.1 hOffset)
        (Expr.alike_of_node_eq hNotes hx.2.2 hy.2.2 hValue)
    | _ => cases hKind
  | branch s a xs ys =>
    cases y with
    | branch t b xs' ys' =>
      obtain ⟨hCond, hRest⟩ := List.cons.inj hChildren
      obtain ⟨hThen, hElse⟩ := List.cons.inj hRest
      exact .branch (Expr.alike_of_node_eq hNotes hx.1 hy.1 hCond)
        (alikeAll_of_nodes_eq hNotes hx.2.1 hy.2.1 (Node.mk.inj hThen).2)
        (alikeAll_of_nodes_eq hNotes hx.2.2 hy.2.2 (Node.otherwise_inj hElse))
    | _ => cases hKind
  | loop s kind a xs =>
    cases y with
    | loop t kind' b ys =>
      obtain ⟨hCond, hRest⟩ := List.cons.inj hChildren
      obtain ⟨hBody, -⟩ := List.cons.inj hRest
      obtain rfl : kind = kind' := by
        revert hKeyword
        cases kind <;> cases kind' <;> simp [keyword, LoopKind.label]
      exact .loop (Expr.alike_of_node_eq hNotes hx.1 hy.1 hCond)
        (alikeAll_of_nodes_eq hNotes hx.2 hy.2 (Node.mk.inj hBody).2)
    | _ => cases hKind
  | forLoop s init a update xs =>
    cases y with
    | forLoop t init' b update' ys =>
      have hBody (other : String) (hOther : "body" ≠ other) (zs : List (Stmt α)) :
          Node.HeadNot other [Node.mk "body" (nodes note zs)] := by
        rintro _ ⟨⟩
        exact hOther
      obtain ⟨hInit, hRest⟩ := Node.labelled_append_inj
        (.labelled (by decide) (.labelled (by decide) (hBody "init" (by decide) xs)))
        (.labelled (by decide) (.labelled (by decide) (hBody "init" (by decide) ys))) hChildren
      obtain ⟨hCond, hRest⟩ := Node.labelled_append_inj
        (.labelled (by decide) (hBody "cond" (by decide) xs))
        (.labelled (by decide) (hBody "cond" (by decide) ys)) hRest
      obtain ⟨hUpdate, hRest⟩ := Node.labelled_append_inj (hBody "update" (by decide) xs)
        (hBody "update" (by decide) ys) hRest
      exact .forLoop (alikeOption_of_optionNode_eq hNotes hx.1 hy.1 hInit)
        (Expr.rel_of_map_eq hNotes hx.2.1 hy.2.1 hCond)
        (alikeOption_of_optionNode_eq hNotes hx.2.2.1 hy.2.2.1 hUpdate)
        (alikeAll_of_nodes_eq hNotes hx.2.2.2 hy.2.2.2 (Node.mk.inj (List.cons.inj hRest).1).2)
    | _ => cases hKind
  | jump s j =>
    cases y with
    | jump t j' =>
      obtain rfl : j = j' := by
        revert hKeyword
        cases j <;> cases j' <;> simp [keyword, Jump.spelling]
      exact .jump
    | _ => cases hKind
  | expr s a =>
    cases y with
    | expr t b => exact .expr (Expr.alike_of_node_eq hNotes hx hy h)
    | _ => cases hKind

theorem alikeAll_of_nodes_eq (hNotes : Notes P note) {xs ys : List (Stmt α)}
    (hxs : LegibleAll P xs) (hys : LegibleAll P ys) (h : nodes note xs = nodes note ys) :
    AlikeAll xs ys := by
  cases xs with
  | nil =>
    cases ys with
    | nil => exact .nil
    | cons y ys => cases h
  | cons x xs =>
    cases ys with
    | nil => cases h
    | cons y ys =>
      obtain ⟨hFirst, hRest⟩ := List.cons.inj h
      exact .cons (alike_of_node_eq hNotes hxs.1 hys.1 hFirst)
        (alikeAll_of_nodes_eq hNotes hxs.2 hys.2 hRest)

theorem alikeOption_of_optionNode_eq (hNotes : Notes P note) {x? y? : Option (Stmt α)}
    (hx : LegibleOption P x?) (hy : LegibleOption P y?)
    (h : optionNode note x? = optionNode note y?) : AlikeOption x? y? := by
  cases x? with
  | none =>
    cases y? with
    | none => exact .none
    | some y => cases h
  | some x =>
    cases y? with
    | none => cases h
    | some y => exact .some (alike_of_node_eq hNotes hx hy (Option.some.inj h))

end

end Stmt

namespace Param

theorem text_append_inj {p q : Param} (hp : p.Legible) (hq : q.Legible) {r s : List Char}
    (hr : Text.Ends (fun c => !Ty.isNameChar c) r) (hs : Text.Ends (fun c => !Ty.isNameChar c) s)
    (h : p.text.toList ++ r = q.text.toList ++ s) :
    (p.name.name, p.ty) = (q.name.name, q.ty) ∧ r = s := by
  have hWord {x : String} (hx : IsWord x) : ∀ c ∈ x.toList, (!Lexeme.isWordChar c) = false := by
    intro c hc
    rw [hx.2 c hc]
    rfl
  have hType (ty : Ty) : ∀ c ∈ ty.nameChars, (!Ty.isNameChar c) = false := by
    intro c hc
    rw [Ty.isNameChar_of_mem hc]
    rfl
  have hColon (t : List Char) : Text.Ends (fun c => !Lexeme.isWordChar c) (':' :: t) := .cons rfl t
  have hTexts : p.name.name.toList ++ ':' :: ' ' :: (p.ty.nameChars ++ r) =
      q.name.name.toList ++ ':' :: ' ' :: (q.ty.nameChars ++ s) := by
    simpa [text, Ty.name] using h
  obtain ⟨hName, hRest⟩ := Text.append_inj_of_ends (hWord hp.1) (hWord hq.1) (hColon _)
    (hColon _) hTexts
  obtain ⟨hChars, hRest⟩ := Text.append_inj_of_ends (hType p.ty) (hType q.ty) hr hs
    (List.cons.inj (List.cons.inj hRest).2).2
  rw [String.toList_inj.mp hName, Ty.nameChars_inj hp.2 hq.2 hChars]
  exact ⟨rfl, hRest⟩

variable {ps qs : List Param} {r s : List Char}

theorem ends_tail (ps : List Param) (r : List Char) :
    Text.Ends (fun c => !Ty.isNameChar c)
      ((ps.flatMap fun q => ',' :: ' ' :: q.text.toList) ++ ')' :: r) := by
  cases ps <;> exact .cons rfl _

theorem tail_append_inj (hps : ∀ p ∈ ps, p.Legible) (hqs : ∀ q ∈ qs, q.Legible)
    (h : (ps.flatMap fun q => ',' :: ' ' :: q.text.toList) ++ ')' :: r =
      (qs.flatMap fun q => ',' :: ' ' :: q.text.toList) ++ ')' :: s) :
    ps.map (fun p => (p.name.name, p.ty)) = qs.map (fun q => (q.name.name, q.ty)) ∧ r = s := by
  induction ps generalizing qs with
  | nil =>
    cases qs with
    | nil => exact ⟨rfl, (List.cons.inj h).2⟩
    | cons q qs => simp at h
  | cons p ps ih =>
    cases qs with
    | nil => simp at h
    | cons q qs =>
      rw [List.forall_mem_cons] at hps hqs
      simp only [List.flatMap_cons, List.cons_append, List.append_assoc, List.cons.injEq,
        true_and] at h
      obtain ⟨hFirst, hRest⟩ := text_append_inj hps.1 hqs.1 (ends_tail ps r) (ends_tail qs s) h
      obtain ⟨hOthers, hEnd⟩ := ih hps.2 hqs.2 hRest
      rw [List.map_cons, List.map_cons, hFirst, hOthers]
      exact ⟨rfl, hEnd⟩

theorem texts_append_inj (hps : ∀ p ∈ ps, p.Legible) (hqs : ∀ q ∈ qs, q.Legible)
    (h : (String.intercalate ", " (ps.map text)).toList ++ ')' :: r =
      (String.intercalate ", " (qs.map text)).toList ++ ')' :: s) :
    ps.map (fun p => (p.name.name, p.ty)) = qs.map (fun q => (q.name.name, q.ty)) ∧ r = s := by
  -- A name is not empty and no parenthesis starts it.
  have hHead {p : Param} {ps : List Param} (hp : p.Legible) {r s : List Char} :
      (String.intercalate ", " ((p :: ps).map text)).toList ++ r ≠ ')' :: s := by
    intro h
    obtain ⟨c, cs, hName⟩ := List.exists_cons_of_ne_nil hp.1.1
    have hc : c = ')' := by
      rw [texts_cons] at h
      simp only [text, String.toList_append, hName, List.cons_append, List.cons.injEq] at h
      exact h.1
    exact hp.1.not_mem (c := ')') rfl (by rw [hName, hc]; exact List.mem_cons_self)
  cases ps with
  | nil =>
    cases qs with
    | nil => exact ⟨rfl, by simpa using h⟩
    | cons q qs => exact absurd h.symm (by simpa using hHead (hqs q List.mem_cons_self))
  | cons p ps =>
    cases qs with
    | nil => exact absurd h (by simpa using hHead (hps p List.mem_cons_self))
    | cons q qs =>
      rw [List.forall_mem_cons] at hps hqs
      rw [texts_cons, texts_cons, List.append_assoc, List.append_assoc] at h
      obtain ⟨hFirst, hRest⟩ := text_append_inj hps.1 hqs.1 (ends_tail ps r) (ends_tail qs s) h
      obtain ⟨hOthers, hEnd⟩ := tail_append_inj hps.2 hqs.2 hRest
      rw [List.map_cons, List.map_cons, hFirst, hOthers]
      exact ⟨rfl, hEnd⟩

end Param

section

variable {α : Type} {P : α → Prop} {note : α → String}

theorem Item.alike_of_node_eq (hNotes : Notes P note) {a b : Item α} (ha : a.Legible P)
    (hb : b.Legible P) (h : a.node note = b.node note) : a.Alike b := by
  have hText := congrArg Node.text h
  have hChildren := congrArg Node.children h
  cases a with
  | global g =>
    cases b with
    | global g' =>
      simp only [node, String.append_assoc, String.append_right_inj] at hText
      obtain ⟨hName, hType⟩ := append_inj_at ':' (ha.1.not_mem rfl) (hb.1.not_mem rfl)
        (by simp [Text.Ends]) (by simp [Text.Ends]) hText
      exact .global hName (Ty.name_inj ha.2.1 hb.2.1 (String.append_right_inj _ |>.mp hType))
        (Expr.rel_of_optionNodes_eq hNotes ha.2.2 hb.2.2 hChildren)
    | function f =>
      have hList := congrArg String.toList hText
      simp [node] at hList
  | function f =>
    cases b with
    | global g =>
      have hList := congrArg String.toList hText
      simp [node] at hList
    | function f' =>
      obtain ⟨hWord, hReturn, hParams, hBody⟩ := ha
      obtain ⟨hWord', hReturn', hParams', hBody'⟩ := hb
      simp only [node, String.append_assoc, String.append_right_inj] at hText
      obtain ⟨hName, hRest⟩ := append_inj_at '(' (hWord.not_mem rfl) (hWord'.not_mem rfl)
        (by simp [Text.Ends]) (by simp [Text.Ends]) hText
      have hLists := congrArg String.toList (String.append_right_inj _ |>.mp hRest)
      simp only [String.toList_append] at hLists
      obtain ⟨hEntries, hEnd⟩ := Param.texts_append_inj hParams hParams' hLists
      have hType : f.returnTy.name = f'.returnTy.name := by
        refine String.toList_inj.mp ?_
        simpa using hEnd
      exact .function hName (Ty.name_inj hReturn hReturn' hType) hEntries
        (Stmt.alikeAll_of_nodes_eq hNotes hBody hBody' hChildren)

theorem Item.map_node_eq_iff (hNotes : Notes P note) {as bs : List (Item α)}
    (has : ∀ a ∈ as, a.Legible P) (hbs : ∀ b ∈ bs, b.Legible P) :
    as.map (node note) = bs.map (node note) ↔ List.Forall₂ Alike as bs := by
  induction as generalizing bs with
  | nil => cases bs <;> simp
  | cons a as ih =>
    cases bs with
    | nil => simp
    | cons b bs =>
      rw [List.forall_mem_cons] at has hbs
      rw [List.map_cons, List.map_cons, List.cons_eq_cons, ih has.2 hbs.2, List.forall₂_cons]
      exact and_congr_left fun _ => ⟨alike_of_node_eq hNotes has.1 hbs.1, node_eq_of_alike note⟩

theorem Program.renderWith_eq_iff (hNotes : Notes P note) {p q : Program α} (hp : p.Legible P)
    (hq : q.Legible P) : p.renderWith note = q.renderWith note ↔ p.Alike q := by
  have hFits {p : Program α} (hp : p.Legible P) : Node.FitsAll (p.items.map (Item.node note)) :=
    Node.fitsAll_iff.mpr fun n hn => by
      obtain ⟨item, hItem, rfl⟩ := List.mem_map.mp hn
      exact Item.fits_node hNotes (hp item hItem)
  rw [renderWith_eq, renderWith_eq, Alike, ← Item.map_node_eq_iff hNotes hp hq]
  exact ⟨Node.renderLines_inj (hFits hp) (hFits hq), fun h => by rw [h]⟩

end

namespace Program

/-- The outline of a program that was parsed determines it but for spans and for floats with one
text, and so does that of a program that was checked, which shows the types too. -/
theorem render_eq_iff_alike :
    (∀ (source source' : String) (p q : Program Unit), Program.parse source = .ok p →
      Program.parse source' = .ok q → (p.render = q.render ↔ p.Alike q)) ∧
    ∀ (source source' : String) (p q : Program Ty), checkSource source = .ok p →
      checkSource source' = .ok q → (p.renderTyped = q.renderTyped ↔ p.Alike q) := by
  refine ⟨fun _ _ p q hp hq => ?_, fun _ _ p q hp hq => ?_⟩
  · exact renderWith_eq_iff (.none _) (legible_of_parse hp) (legible_of_parse hq)
  · exact renderWith_eq_iff .types (legible_of_checkSource hp) (legible_of_checkSource hq)

/-- A function, with much space between its tokens. -/
def spacedIdentity : String := "int f ( int x )\n\x7b return x ; \x7d"

/-- The same function with hardly any. -/
def denseIdentity : String := "int f(int x)\x7breturn x;\x7d"

theorem render_eq_iff_alike_identity :
    ∃ (p q : Program Unit) (p' q' : Program Ty), Program.parse spacedIdentity = .ok p ∧
      Program.parse denseIdentity = .ok q ∧ checkSource spacedIdentity = .ok p' ∧
      checkSource denseIdentity = .ok q' ∧ p.Alike q ∧ p'.Alike q' := by
  let test (p : Program Unit) (p' : Program Ty) : Bool := decide
    (p.render = "function f(x: int) -> int\n  return\n    variable x\n" ∧
      p'.renderTyped = "function f(x: int) -> int\n  return\n    variable x : int\n")
  have hSpaced : checksTo test spacedIdentity = true := checksTo_ofList (by decide +kernel)
  have hDense : checksTo test denseIdentity = true := checksTo_ofList (by decide +kernel)
  obtain ⟨p, p', hParse, hCheck, hTest⟩ := exists_of_checksTo hSpaced
  obtain ⟨q, q', hParse', hCheck', hTest'⟩ := exists_of_checksTo hDense
  obtain ⟨hRender, hTyped⟩ := of_decide_eq_true hTest
  obtain ⟨hRender', hTyped'⟩ := of_decide_eq_true hTest'
  have hSource := checkSource_eq_ok_iff.mpr ⟨p, hParse, hCheck⟩
  have hSource' := checkSource_eq_ok_iff.mpr ⟨q, hParse', hCheck'⟩
  refine ⟨p, q, p', q', hParse, hParse', hSource, hSource', ?_, ?_⟩
  · exact (render_eq_iff_alike.1 _ _ p q hParse hParse').mp (hRender.trans hRender'.symm)
  · exact (render_eq_iff_alike.2 _ _ p' q' hSource hSource').mp (hTyped.trans hTyped'.symm)

end Program

end MiniC
