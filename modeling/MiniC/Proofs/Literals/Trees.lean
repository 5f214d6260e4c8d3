import MiniC.Proofs.Places.Trees

/-! # The string literals of a program

The literals of a tree are listed in source order.  In a parsed program they are, one by one, the
string tokens of the source, and each starts at an offset of its own; parentheses around a literal
belong to it.  Checking keeps them.
-/
namespace MiniC
set_option autoImplicit false

variable {α : Type}

namespace Expr

mutual

/-- The string literals of an expression, each with the span of its node. -/
def literals : Expr α → List (Located String)
  | string _ s text => [⟨s, text⟩]
  | call _ _ _ args => literalsAll args
  | binary _ _ _ lhs rhs => lhs.literals ++ rhs.literals
  | unary _ _ _ _ operand => operand.literals
  | index _ _ base offset => base.literals ++ offset.literals
  | const .. | var .. => []

def literalsAll : List (Expr α) → List (Located String)
  | [] => []
  | e :: es => e.literals ++ literalsAll es

end

def optionLiterals : Option (Expr α) → List (Located String)
  | none => []
  | some e => e.literals

end Expr

namespace Stmt

mutual

def literals : Stmt α → List (Located String)
  | ret _ value => Expr.optionLiterals value
  | assign _ _ value => value.literals
  | declare _ _ _ init => Expr.optionLiterals init
  | store _ base offset value => base.literals ++ (offset.literals ++ value.literals)
  | branch _ cond thenBody elseBody =>
    cond.literals ++ (literalsAll thenBody ++ literalsAll elseBody)
  | loop _ .whileDo cond body => cond.literals ++ literalsAll body
  | loop _ .doWhile cond body => literalsAll body ++ cond.literals
  | forLoop _ init cond update body =>
    optionLiterals init ++ (Expr.optionLiterals cond ++ (optionLiterals update ++ literalsAll body))
  | jump .. => []
  | expr _ value => value.literals

def literalsAll : List (Stmt α) → List (Located String)
  | [] => []
  | x :: xs => x.literals ++ literalsAll xs

def optionLiterals : Option (Stmt α) → List (Located String)
  | none => []
  | some x => x.literals

end

end Stmt

def Item.literals : Item α → List (Located String)
  | .global g => Expr.optionLiterals g.init
  | .function f => Stmt.literalsAll f.body

def Program.literals (p : Program α) : List (Located String) := p.items.flatMap Item.literals

section

open SpanTree (leaves leavesAll leavesAll_append leavesAll_sublist)

mutual

/-- Literals are leaves of the tree of spans. -/
theorem Expr.literals_sublist : (e : Expr α) →
    (e.literals.map Located.span).Sublist e.spanTree.leaves
  | .const .. => List.nil_sublist _
  | .string .. => List.Sublist.refl _
  | .var .. => List.nil_sublist _
  | .call _ _ callee args => (Expr.literalsAll_sublist args).cons callee.span
  | .binary _ _ _ lhs rhs => by
    refine List.Sublist.trans ?_ (leavesAll_sublist _ _)
    simpa [Expr.literals, Expr.spanTree, Expr.spanParts, leavesAll] using
      lhs.literals_sublist.append rhs.literals_sublist
  | .unary _ _ _ _ operand => by
    refine List.Sublist.trans ?_ (leavesAll_sublist _ _)
    simpa [Expr.literals, Expr.spanTree, Expr.spanParts, leavesAll] using operand.literals_sublist
  | .index _ _ base offset => by
    refine List.Sublist.trans ?_ (leavesAll_sublist _ _)
    simpa [Expr.literals, Expr.spanTree, Expr.spanParts, leavesAll] using
      base.literals_sublist.append offset.literals_sublist

theorem Expr.literalsAll_sublist : (es : List (Expr α)) →
    ((Expr.literalsAll es).map Located.span).Sublist (leavesAll (Expr.spanTreesAll es))
  | [] => List.Sublist.refl _
  | e :: es => by
    rw [Expr.literalsAll, List.map_append]
    exact e.literals_sublist.append (Expr.literalsAll_sublist es)

end

theorem Expr.optionLiterals_sublist (e : Option (Expr α)) :
    ((Expr.optionLiterals e).map Located.span).Sublist (leavesAll (Expr.optionSpanTrees e)) := by
  cases e with
  | none => exact List.Sublist.refl _
  | some e => simpa [Expr.optionLiterals, Expr.optionSpanTrees, leavesAll] using e.literals_sublist

mutual

theorem Stmt.literals_sublist : (x : Stmt α) →
    (x.literals.map Located.span).Sublist (leavesAll x.spanParts)
  | .ret _ value => Expr.optionLiterals_sublist value
  | .assign _ target value => by
    simpa [Stmt.literals, Stmt.spanParts, leavesAll, leaves] using
      value.literals_sublist.cons target.span
  | .declare _ name _ init => (Expr.optionLiterals_sublist init).cons name.span
  | .store _ base offset value => by
    simpa [Stmt.literals, Stmt.spanParts, leavesAll] using
      base.literals_sublist.append (offset.literals_sublist.append value.literals_sublist)
  | .branch _ cond thenBody elseBody => by
    simpa [Stmt.literals, Stmt.spanParts, leavesAll, leavesAll_append] using
      cond.literals_sublist.append
        ((Stmt.literalsAll_sublist thenBody).append (Stmt.literalsAll_sublist elseBody))
  | .loop _ .whileDo cond body => by
    simpa [Stmt.literals, Stmt.spanParts, leavesAll] using
      cond.literals_sublist.append (Stmt.literalsAll_sublist body)
  | .loop _ .doWhile cond body => by
    simpa [Stmt.literals, Stmt.spanParts, leavesAll, leavesAll_append] using
      (Stmt.literalsAll_sublist body).append cond.literals_sublist
  | .forLoop _ init cond update body => by
    simpa [Stmt.literals, Stmt.spanParts, leavesAll_append] using
      (Stmt.optionLiterals_sublist init).append ((Expr.optionLiterals_sublist cond).append
        ((Stmt.optionLiterals_sublist update).append (Stmt.literalsAll_sublist body)))
  | .jump .. => List.Sublist.refl _
  | .expr _ value => by
    simpa [Stmt.literals, Stmt.spanParts, leavesAll] using value.literals_sublist

theorem Stmt.literalsAll_sublist : (xs : List (Stmt α)) →
    ((Stmt.literalsAll xs).map Located.span).Sublist (leavesAll (Stmt.spanTreesAll xs))
  | [] => List.Sublist.refl _
  | x :: xs => by
    rw [Stmt.literalsAll, List.map_append]
    exact (x.literals_sublist.trans (leavesAll_sublist _ _)).append (Stmt.literalsAll_sublist xs)

theorem Stmt.optionLiterals_sublist : (x : Option (Stmt α)) →
    ((Stmt.optionLiterals x).map Located.span).Sublist (leavesAll (Stmt.optionSpanTrees x))
  | none => List.Sublist.refl _
  | some x => by
    simpa [Stmt.optionLiterals, Stmt.optionSpanTrees, leavesAll] using
      x.literals_sublist.trans (leavesAll_sublist x.span x.spanParts)

end

theorem Item.literals_sublist (item : Item α) :
    (item.literals.map Located.span).Sublist (leavesAll item.spanTrees) := by
  cases item with
  | global g => exact (Expr.optionLiterals_sublist g.init).cons g.name.span
  | function f =>
    rw [Item.spanTrees, leavesAll, leavesAll_append]
    exact ((Stmt.literalsAll_sublist f.body).trans (List.sublist_append_right _ _)).cons f.name.span

theorem Program.literals_sublist (p : Program α) :
    (p.literals.map Located.span).Sublist (leavesAll p.spanTrees) := by
  obtain ⟨items⟩ := p
  induction items with
  | nil => exact List.Sublist.refl _
  | cons item items ih =>
    simp only [Program.literals, Program.spanTrees, List.flatMap_cons, List.map_append,
      leavesAll_append] at ih ⊢
    exact item.literals_sublist.append ih

end

/-- Each literal of a parsed program starts after the ones before it. -/
theorem Program.literals_increase {source : String} {p : Program Unit}
    (h : Program.parse source = .ok p) :
    p.literals.Pairwise fun a b => a.span.lo < b.span.lo := by
  have hPairs := (SpanTree.NestedAll.leaves_pairwise _ (Program.spanTrees_nested h)).sublist
    p.literals_sublist
  refine (List.pairwise_map.mp hPairs).imp_of_mem fun {a b} ha _ hLe => ?_
  have hMem : a.span ∈ p.spans := (Program.mem_spans_iff p).mpr
    (SpanTree.mem_spansAll_of_mem_leavesAll _
      (p.literals_sublist.subset (List.mem_map_of_mem ha)))
  obtain ⟨t, ht, u, -, hLo, -, hHi, hEnd⟩ := Program.exists_tokens_of_mem_spans h hMem
  have hPos := Token.significant_lo_lt_hi (Program.firstFlaw?_of_parse h) ht
  omega

/-- What the text of a string token stands for. -/
def Token.literal? (t : Token) : Option String :=
  match t.kind with
  | .string => some (Token.stringValue t.text)
  | .escapedString => some (Token.escapedStringValue t.text)
  | _ => none

namespace Expr

/-- The texts of the literals, without their places. -/
def texts (e : Expr α) : List String := e.literals.map Located.value

theorem texts_withSpan (s : Span) (e : Expr α) : (e.withSpan s).texts = e.texts := by
  cases e <;> rfl

end Expr

namespace Grammar

/-- The values of the string tokens. -/
def strings (ts : List Token) : List String := ts.filterMap Token.literal?

@[simp] theorem strings_nil : strings [] = [] := rfl

@[simp] theorem strings_append (a b : List Token) : strings (a ++ b) = strings a ++ strings b :=
  List.filterMap_append

theorem strings_cons_of_ne {t : Token} (h : t.kind ≠ .string) (h' : t.kind ≠ .escapedString)
    (ts : List Token) : strings (t :: ts) = strings ts := by
  refine List.filterMap_cons_none ?_
  rw [Token.literal?]
  split <;> simp_all

@[simp] theorem strings_mark {s : Symbol} (t : Mark s) (ts : List Token) :
    strings (t.1 :: ts) = strings ts :=
  strings_cons_of_ne (by simp [t.2]) (by simp [t.2]) ts

@[simp] theorem strings_word {k : Keyword} (t : Word k) (ts : List Token) :
    strings (t.1 :: ts) = strings ts :=
  strings_cons_of_ne (by simp [t.2]) (by simp [t.2]) ts

@[simp] theorem strings_name (t : Name) (ts : List Token) : strings (t.1 :: ts) = strings ts :=
  strings_cons_of_ne (by simp [t.2]) (by simp [t.2]) ts

@[simp] theorem strings_unary {op : UnaryOp} (t : Terminal op.kind) (ts : List Token) :
    strings (t.1 :: ts) = strings ts := by
  cases op <;> exact strings_mark t ts

@[simp] theorem strings_binary {op : BinaryOp} (t : Terminal op.kind) (ts : List Token) :
    strings (t.1 :: ts) = strings ts := by
  cases op <;> exact strings_mark t ts

theorem strings_number {t : Token} (h : t.kind = .number) (ts : List Token) :
    strings (t :: ts) = strings ts :=
  strings_cons_of_ne (by simp [h]) (by simp [h]) ts

mutual

/-- The literals of an expression are its string tokens. -/
theorem Expression.texts_tree : (d : Expression) → d.tree.texts = strings d.tokens
  | .before _ sign operand => by
    rw [Expression.tokens, strings_unary]
    exact operand.texts_tree
  | .least minus literal tail => by
    rw [Expression.tokens, strings_mark, strings_number literal.2.1]
    exact (tail.texts_applyTo _).trans (List.nil_append _)
  | .chain atom tail => by
    rw [Expression.tree, tail.texts_applyTo, atom.texts_tree, Expression.tokens, strings_append]

theorem Tail.texts_applyTo (lhs : Expr Unit) :
    (d : Tail) → (d.applyTo lhs).texts = lhs.texts ++ strings d.tokens
  | .none => (List.append_nil _).symm
  | .operator _ sign rhs => by
    rw [Tail.tokens, strings_binary, ← rhs.texts_tree]
    exact List.map_append

theorem Atom.texts_tree : (d : Atom) → d.tree.texts = strings d.tokens
  | .string t => by
    simp [Atom.tree, Atom.tokens, Expr.texts, Expr.literals, strings, Token.literal?, t.2]
  | .escapedString t => by
    simp [Atom.tree, Atom.tokens, Expr.texts, Expr.literals, strings, Token.literal?, t.2]
  | .number t => (strings_number t.2.1 []).symm
  | .decimal t => (strings_cons_of_ne (by simp [t.2]) (by simp [t.2]) []).symm
  | .parens l inner r => by
    rw [Atom.tree, Expr.texts_withSpan, inner.texts_tree]
    simp [Atom.tokens]
  | .name x => (strings_name x []).symm
  | .call x l args r => by
    simp only [Atom.tokens, strings_name, strings_mark, strings_append, strings_nil,
      List.append_nil]
    exact Expression.texts_treesAll args
  | .index x subscripts => by
    rw [Atom.tokens, strings_name]
    exact (subscripts.texts_split _).trans (List.nil_append _)
  | .increment x sign => by simp [Atom.tokens]; rfl
  | .decrement x sign => by simp [Atom.tokens]; rfl

theorem Expression.texts_treesAll : (d : Separated Expression) →
    (Expr.literalsAll (Expression.treesAll d)).map Located.value = strings (Expression.tokensAll d)
  | .empty => rfl
  | .last e => by
    rw [Expression.tokensAll, ← e.texts_tree]
    exact congrArg (List.map Located.value) (List.append_nil _)
  | .more e comma rest => by
    rw [Expression.tokensAll, strings_append, strings_mark, ← e.texts_tree,
      ← Expression.texts_treesAll rest]
    exact List.map_append

theorem Subscripts.texts_split (base : Expr Unit) : (d : Subscripts) →
    ((d.split base).1.literals ++ (d.split base).2.literals).map Located.value =
      base.texts ++ strings d.tokens
  | .last l offset r => by
    rw [Subscripts.split, List.map_append, Subscripts.tokens, strings_mark, strings_append,
      strings_mark, strings_nil, List.append_nil, ← offset.texts_tree]
    rfl
  | .more l offset r rest => by
    rw [Subscripts.split, rest.texts_split, Subscripts.tokens, strings_mark, strings_append,
      strings_mark, ← offset.texts_tree, ← List.append_assoc]
    exact congrArg (· ++ _) List.map_append

end

theorem TypeName.strings_tokens (d : TypeName) : strings d.tokens = [] := by
  have hBase (ts : List Token) : strings (d.base.token :: ts) = strings ts := by
    cases d.base with
    | int t | float t | char t | void t => exact strings_word t ts
  have hStars (stars : List (Mark .star)) : strings (stars.map (·.1)) = [] := by
    induction stars with
    | nil => rfl
    | cons star stars ih => rw [List.map_cons, strings_mark, ih]
  rw [TypeName.tokens, hBase, hStars]

theorem Dimension.strings_tokens (sizes : List Dimension) :
    strings (sizes.flatMap Dimension.tokens) = [] := by
  induction sizes with
  | nil => rfl
  | cons d sizes ih =>
    rw [List.flatMap_cons, strings_append, ih, Dimension.tokens, strings_mark,
      strings_number d.size.2.1, strings_mark]
    rfl

theorem Expression.texts_option (d : Option Expression) :
    (Expr.optionLiterals (d.map Expression.tree)).map Located.value =
      strings (optionTokens Expression.tokens d) := by
  cases d with
  | none => rfl
  | some e => exact e.texts_tree

theorem Initial.texts_tree (d : Initial) :
    (Expr.optionLiterals d.tree).map Located.value = strings d.tokens := by
  cases d with
  | none => rfl
  | value sign e =>
    rw [Initial.tokens, strings_mark]
    exact e.texts_tree

theorem Simple.texts_form (d : Simple) (s : Span) :
    (d.form s).literals.map Located.value = strings d.tokens := by
  cases d with
  | declare type x sizes init =>
    rw [Simple.tokens, strings_append, strings_name, strings_append, type.strings_tokens,
      Dimension.strings_tokens]
    exact init.texts_tree
  | assign x sign value =>
    rw [Simple.tokens, strings_name, strings_mark]
    exact value.texts_tree
  | store x d sign value =>
    rw [Simple.tokens, strings_name, strings_append, strings_mark, ← value.texts_tree,
      ← List.nil_append (strings d.tokens)]
    refine Eq.trans ?_ (congrArg (· ++ _) (d.texts_split (Parser.variableOf (Parser.identOf x.1))))
    simp [Simple.form, Stmt.literals, Expr.texts]
  | expr e => exact e.texts_tree

theorem Simple.texts_option (d : Option Simple) :
    (Stmt.optionLiterals (d.map Simple.tree)).map Located.value =
      strings (optionTokens Simple.tokens d) := by
  cases d with
  | none => rfl
  | some x => exact x.texts_form _

theorem Condition.strings_tokens (d : Condition) : strings d.tokens = d.value.tree.texts := by
  rw [Condition.tokens, strings_mark, strings_append, strings_mark, strings_nil, List.append_nil,
    d.value.texts_tree]

mutual

theorem Statement.texts_tree : (d : Statement) →
    d.tree.literals.map Located.value = strings d.tokens
  | .ret word value semicolon => by
    rw [Statement.tokens, strings_word, strings_append, strings_mark, strings_nil, List.append_nil]
    exact Expression.texts_option value
  | .branch b => b.texts_tree
  | .whileDo word cond body => by
    rw [Statement.tokens, strings_word, strings_append, cond.strings_tokens, ← body.texts_trees]
    exact List.map_append
  | .doWhile word body word' cond semicolon => by
    rw [Statement.tokens, strings_word, strings_append, strings_word, strings_append,
      cond.strings_tokens, strings_mark, strings_nil, List.append_nil, ← body.texts_trees]
    exact List.map_append
  | .forLoop word head body => by
    simp only [Statement.tokens, ForHead.tokens, strings_word, strings_append, strings_mark,
      strings_nil, List.append_nil, ← Simple.texts_option, ← Expression.texts_option,
      ← body.texts_trees]
    simp [Statement.tree, Stmt.literals]
  | .jump _ word semicolon => by
    rw [Statement.tokens, strings_word, strings_mark]
    rfl
  | .simple x semicolon => by
    rw [Statement.tokens, strings_append, strings_mark, strings_nil, List.append_nil]
    exact x.texts_form _

theorem Branch.texts_tree : (d : Branch) → d.tree.literals.map Located.value = strings d.tokens
  | .mk word cond body otherwise => by
    rw [Branch.tokens, strings_word, strings_append, strings_append, cond.strings_tokens,
      ← body.texts_trees, ← otherwise.texts_trees]
    simp [Branch.tree, Stmt.literals, Expr.texts]

theorem Otherwise.texts_trees : (d : Otherwise) →
    (Stmt.literalsAll d.trees).map Located.value = strings d.tokens
  | .none => rfl
  | .branch word b => by
    rw [Otherwise.tokens, strings_word, ← b.texts_tree]
    exact congrArg (List.map Located.value) (List.append_nil _)
  | .block word b => by
    rw [Otherwise.tokens, strings_word]
    exact b.texts_trees

theorem Braces.texts_trees : (d : Braces) →
    (Stmt.literalsAll d.trees).map Located.value = strings d.tokens
  | .mk l body r => by
    rw [Braces.tokens, strings_mark, strings_append, strings_mark, strings_nil, List.append_nil]
    exact Statement.texts_treesAll body

theorem Statement.texts_treesAll : (d : List Statement) →
    (Stmt.literalsAll (Statement.treesAll d)).map Located.value =
      strings (Statement.tokensAll d)
  | [] => rfl
  | x :: xs => by
    rw [Statement.tokensAll, strings_append, ← x.texts_tree, ← Statement.texts_treesAll xs]
    exact List.map_append

end

theorem Parameter.strings_tokens (d : Separated Parameter) :
    strings (d.tokens Parameter.tokens) = [] := by
  have hOne (p : Parameter) : strings p.tokens = [] := by
    rw [Parameter.tokens, strings_append, p.type.strings_tokens, strings_name]
    rfl
  induction d with
  | empty => rfl
  | last p => exact hOne p
  | more p comma rest ih => rw [Separated.tokens, strings_append, strings_mark, hOne, ih]; rfl

theorem Definition.texts_tree (d : Definition) :
    d.tree.literals.map Located.value = strings d.tokens := by
  cases d with
  | function type x l params r body =>
    rw [Definition.tokens, strings_append, strings_name, strings_mark, strings_append, strings_mark,
      type.strings_tokens, Parameter.strings_tokens]
    exact body.texts_trees
  | global type x init semicolon =>
    rw [Definition.tokens, strings_append, strings_name, strings_append, strings_mark, strings_nil,
      List.append_nil, type.strings_tokens]
    exact init.texts_tree

theorem Derivation.texts_tree (d : Derivation) :
    d.tree.literals.map Located.value = strings d.tokens := by
  obtain ⟨definitions⟩ := d
  induction definitions with
  | nil => rfl
  | cons d ds ih =>
    simp only [Derivation.tree, Derivation.tokens, Program.literals, List.map_cons,
      List.flatMap_cons, List.map_append, strings_append] at ih ⊢
    rw [d.texts_tree, ih]

end Grammar

/-- The literals of a parsed program are the string tokens of its source. -/
theorem Program.values_literals {source : String} {p : Program Unit}
    (h : Program.parse source = .ok p) :
    p.literals.map Located.value = (Token.significant source).filterMap Token.literal? := by
  obtain ⟨d, hTokens, rfl⟩ := Program.exists_derivation (Program.firstFlaw?_of_parse h) h
  rw [← hTokens]
  exact d.texts_tree

end MiniC
