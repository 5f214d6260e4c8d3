import MiniC.Proofs.Grammar.Program
import MiniC.Proofs.Places.Nesting
import MiniC.Tree.Spans

/-! # The spans of a parsed program

The spans of a program form trees: below an expression or a statement are its names, expressions and
statements, in source order.  The trees of a parsed program fit its tokens.
-/
namespace MiniC
set_option autoImplicit false

open Grammar SpanTree

namespace Expr

variable {α : Type}

mutual

/-- What stands below an expression, in source order. -/
def spanParts : Expr α → List SpanTree
  | const .. => []
  | string .. => []
  | var _ _ x => [.node x.span []]
  | call _ _ callee args => .node callee.span [] :: spanTreesAll args
  | binary _ _ _ lhs rhs => [.node lhs.span lhs.spanParts, .node rhs.span rhs.spanParts]
  | unary _ _ _ _ operand => [.node operand.span operand.spanParts]
  | index _ _ base offset => [.node base.span base.spanParts, .node offset.span offset.spanParts]

def spanTreesAll : List (Expr α) → List SpanTree
  | [] => []
  | e :: es => .node e.span e.spanParts :: spanTreesAll es

end

def spanTree (e : Expr α) : SpanTree := .node e.span e.spanParts

def optionSpanTrees : Option (Expr α) → List SpanTree
  | none => []
  | some e => [e.spanTree]

@[simp] theorem spanParts_withSpan (s : Span) (e : Expr α) :
    (e.withSpan s).spanParts = e.spanParts := by
  cases e <;> rfl

end Expr

namespace Stmt

variable {α : Type}

mutual

/-- What stands below a statement, in source order. -/
def spanParts : Stmt α → List SpanTree
  | ret _ value => Expr.optionSpanTrees value
  | assign _ target value => [.node target.span [], value.spanTree]
  | declare _ name _ init => .node name.span [] :: Expr.optionSpanTrees init
  | store _ base offset value => [base.spanTree, offset.spanTree, value.spanTree]
  | branch _ cond thenBody elseBody =>
    cond.spanTree :: (spanTreesAll thenBody ++ spanTreesAll elseBody)
  | loop _ .whileDo cond body => cond.spanTree :: spanTreesAll body
  | loop _ .doWhile cond body => spanTreesAll body ++ [cond.spanTree]
  | forLoop _ init cond update body =>
    optionSpanTrees init ++ (Expr.optionSpanTrees cond ++ (optionSpanTrees update ++
      spanTreesAll body))
  | jump .. => []
  | expr _ value => [value.spanTree]

def spanTreesAll : List (Stmt α) → List SpanTree
  | [] => []
  | x :: xs => .node x.span x.spanParts :: spanTreesAll xs

def optionSpanTrees : Option (Stmt α) → List SpanTree
  | none => []
  | some x => [.node x.span x.spanParts]

end

end Stmt

def Item.spanTrees {α : Type} : Item α → List SpanTree
  | .global g => .node g.name.span [] :: Expr.optionSpanTrees g.init
  | .function f =>
    .node f.name.span [] :: (f.params.map (fun p => .node p.name.span []) ++
      Stmt.spanTreesAll f.body)

def Program.spanTrees {α : Type} (p : Program α) : List SpanTree := p.items.flatMap Item.spanTrees

mutual

theorem Expr.spansAll_spanParts {α : Type} : (e : Expr α) →
    e.spans = e.span :: SpanTree.spansAll e.spanParts
  | .const .. => rfl
  | .string .. => rfl
  | .var .. => rfl
  | .call _ s callee args => by
    rw [Expr.spans, Expr.spansAll_spanTreesAll args]
    rfl
  | .binary _ s _ lhs rhs => by
    rw [Expr.spans, lhs.spansAll_spanParts, rhs.spansAll_spanParts]
    simp [Expr.spanParts, SpanTree.spansAll, SpanTree.spans, Expr.span]
  | .unary _ s _ _ operand => by
    rw [Expr.spans, operand.spansAll_spanParts]
    simp [Expr.spanParts, SpanTree.spansAll, SpanTree.spans, Expr.span]
  | .index _ s base offset => by
    rw [Expr.spans, base.spansAll_spanParts, offset.spansAll_spanParts]
    simp [Expr.spanParts, SpanTree.spansAll, SpanTree.spans, Expr.span]

theorem Expr.spansAll_spanTreesAll {α : Type} :
    (es : List (Expr α)) → Expr.spansAll es = SpanTree.spansAll (Expr.spanTreesAll es)
  | [] => rfl
  | e :: es => by
    rw [Expr.spansAll, e.spansAll_spanParts, Expr.spansAll_spanTreesAll es]
    rfl

end

theorem Expr.spans_spanTree {α : Type} (e : Expr α) : e.spanTree.spans = e.spans := by
  rw [e.spansAll_spanParts, Expr.spanTree, SpanTree.spans]

theorem Expr.spansAll_optionSpanTrees {α : Type} (e : Option (Expr α)) :
    SpanTree.spansAll (Expr.optionSpanTrees e) = Expr.optionSpans e := by
  cases e with
  | none => rfl
  | some e =>
    rw [Expr.optionSpanTrees, SpanTree.spansAll, SpanTree.spansAll, List.append_nil,
      e.spans_spanTree, Expr.optionSpans]

mutual

/-- The trees of a statement have exactly its spans. -/
theorem Stmt.mem_spans_iff {α : Type} {s : Span} :
    (x : Stmt α) → (s ∈ x.spans ↔ s = x.span ∨ s ∈ SpanTree.spansAll x.spanParts)
  | .ret _ value => by
    simp [Stmt.spans, Stmt.span, Stmt.spanParts, Expr.spansAll_optionSpanTrees]
  | .assign _ target value => by
    simp [Stmt.spans, Stmt.span, Stmt.spanParts, SpanTree.spansAll, SpanTree.spans,
      Expr.spans_spanTree]
  | .declare _ name _ init => by
    simp [Stmt.spans, Stmt.span, Stmt.spanParts, SpanTree.spansAll, SpanTree.spans,
      Expr.spansAll_optionSpanTrees]
  | .store _ base offset value => by
    simp [Stmt.spans, Stmt.span, Stmt.spanParts, SpanTree.spansAll, Expr.spans_spanTree]
  | .branch _ cond thenBody elseBody => by
    simp [Stmt.spans, Stmt.span, Stmt.spanParts, SpanTree.spansAll, SpanTree.spansAll_append,
      Expr.spans_spanTree, Stmt.mem_spansAll_iff thenBody, Stmt.mem_spansAll_iff elseBody]
  | .loop _ .whileDo cond body => by
    simp [Stmt.spans, Stmt.span, Stmt.spanParts, SpanTree.spansAll, Expr.spans_spanTree,
      Stmt.mem_spansAll_iff body]
  | .loop _ .doWhile cond body => by
    simp [Stmt.spans, Stmt.span, Stmt.spanParts, SpanTree.spansAll, SpanTree.spansAll_append,
      Expr.spans_spanTree, Stmt.mem_spansAll_iff body, or_comm]
  | .forLoop _ init cond update body => by
    simp [Stmt.spans, Stmt.span, Stmt.spanParts, SpanTree.spansAll_append,
      Expr.spansAll_optionSpanTrees, Stmt.mem_optionSpans_iff init, Stmt.mem_optionSpans_iff update,
      Stmt.mem_spansAll_iff body]
  | .jump _ _ => by simp [Stmt.spans, Stmt.span, Stmt.spanParts, SpanTree.spansAll]
  | .expr _ value => by
    simp [Stmt.spans, Stmt.span, Stmt.spanParts, SpanTree.spansAll, Expr.spans_spanTree]

theorem Stmt.mem_spansAll_iff {α : Type} {s : Span} :
    (xs : List (Stmt α)) → (s ∈ Stmt.spansAll xs ↔ s ∈ SpanTree.spansAll (Stmt.spanTreesAll xs))
  | [] => Iff.rfl
  | x :: xs => by
    simp [Stmt.spansAll, Stmt.spanTreesAll, SpanTree.spansAll, SpanTree.spans, Stmt.mem_spans_iff x,
      Stmt.mem_spansAll_iff xs, or_assoc]

theorem Stmt.mem_optionSpans_iff {α : Type} {s : Span} :
    (x : Option (Stmt α)) →
      (s ∈ Stmt.optionSpans x ↔ s ∈ SpanTree.spansAll (Stmt.optionSpanTrees x))
  | none => Iff.rfl
  | some x => by
    simp [Stmt.optionSpans, Stmt.optionSpanTrees, SpanTree.spansAll, SpanTree.spans,
      Stmt.mem_spans_iff x]

end

theorem Item.mem_spans_iff {α : Type} {s : Span} (item : Item α) :
    s ∈ item.spans ↔ s ∈ SpanTree.spansAll item.spanTrees := by
  cases item with
  | global g =>
    simp [Item.spans, Item.spanTrees, SpanTree.spansAll, SpanTree.spans,
      Expr.spansAll_optionSpanTrees]
  | function f =>
    have hParams (params : List Param) :
        SpanTree.spansAll (params.map fun p => .node p.name.span []) =
          params.map (·.name.span) := by
      induction params with
      | nil => rfl
      | cons p params ih => simp [SpanTree.spansAll, SpanTree.spans, ih]
    simp [Item.spans, Item.spanTrees, SpanTree.spansAll, SpanTree.spans, SpanTree.spansAll_append,
      hParams, Stmt.mem_spansAll_iff]

theorem Program.mem_spans_iff {α : Type} {s : Span} (p : Program α) :
    s ∈ p.spans ↔ s ∈ SpanTree.spansAll p.spanTrees := by
  obtain ⟨items⟩ := p
  induction items with
  | nil => exact Iff.rfl
  | cons item items ih =>
    have hItems : s ∈ items.flatMap Item.spans ↔
        s ∈ SpanTree.spansAll (items.flatMap Item.spanTrees) := ih
    simp only [Program.spans, Program.spanTrees, List.flatMap_cons, List.mem_append,
      SpanTree.spansAll_append, hItems, Item.mem_spans_iff]

/-- The expression covers exactly the given tokens. -/
structure Expr.FitsIn (e : Expr Unit) (ts : List Token) : Prop where
  span : e.span = cover ts
  parts : Fits ts e.spanParts
  ne_nil : ts ≠ []

theorem Expr.FitsIn.fits {e : Expr Unit} {ts : List Token} (h : e.FitsIn ts) :
    Fits ts [e.spanTree] := by
  rw [Expr.spanTree, h.span]
  exact .single h.ne_nil h.parts

namespace Grammar

theorem fitsIn_name (x : Name) : (Parser.variableOf (Parser.identOf x.1)).FitsIn [x.1] where
  span := (cover_singleton x.1).symm
  parts := .leaf x.1
  ne_nil := List.cons_ne_nil _ _

/-- A list of tokens and what follows it, with one more token between them. -/
theorem ordered_middle {a b : List Token} {t : Token} (h : Token.Ordered (a ++ t :: b)) :
    Token.Ordered a ∧ Token.Ordered b :=
  ⟨(List.pairwise_append.mp h).1,
    (List.pairwise_cons.mp (List.pairwise_append.mp h).2.1).2⟩

mutual

theorem Expression.fitsIn : (d : Expression) → Token.Ordered d.tokens → d.tree.FitsIn d.tokens
  | .before op sign operand, h => by
    have hInner := operand.fitsIn (List.pairwise_cons.mp h).2
    refine ⟨?_, .skip _ hInner.fits, List.cons_ne_nil _ _⟩
    have hJoin := cover_join (a := [sign.1]) (b := []) (List.cons_ne_nil _ _) hInner.ne_nil h
    rw [cover_singleton] at hJoin
    rw [Expression.tree, Expr.span, hInner.span, hJoin]
    rfl
  | .least minus literal tail, h => by
    have hLiteral : (Expr.const () literal.1.span (.int Int32.minValue)).FitsIn [literal.1] :=
      ⟨(cover_singleton _).symm, .none _, List.cons_ne_nil _ _⟩
    have hInner := tail.fitsIn hLiteral (List.pairwise_cons.mp h).2
    refine ⟨?_, .skip _ hInner.fits, List.cons_ne_nil _ _⟩
    have hJoin := cover_join (a := [minus.1]) (b := []) (List.cons_ne_nil _ _) hInner.ne_nil h
    rw [cover_singleton] at hJoin
    rw [Expression.tree, Expr.span, hInner.span, hJoin]
    rfl
  | .chain atom tail, h => tail.fitsIn (atom.fitsIn (List.pairwise_append.mp h).1) h

theorem Tail.fitsIn {lhs : Expr Unit} {ts : List Token} : (d : Tail) → lhs.FitsIn ts →
    Token.Ordered (ts ++ d.tokens) → (d.applyTo lhs).FitsIn (ts ++ d.tokens)
  | .none, hLhs, _ => by
    rw [Tail.tokens, List.append_nil]
    exact hLhs
  | .operator op sign rhs, hLhs, h => by
    have hRhs := rhs.fitsIn (ordered_middle h).2
    refine ⟨?_, hLhs.fits.append (.skip _ hRhs.fits),
      List.append_ne_nil_of_left_ne_nil hLhs.ne_nil _⟩
    rw [Tail.applyTo, Expr.span, hLhs.span, hRhs.span]
    exact cover_join (b := [sign.1]) hLhs.ne_nil hRhs.ne_nil h

theorem Atom.fitsIn : (a : Atom) → Token.Ordered a.tokens → a.tree.FitsIn a.tokens
  | .string t, _ => ⟨(cover_singleton _).symm, .none _, List.cons_ne_nil _ _⟩
  | .escapedString t, _ => ⟨(cover_singleton _).symm, .none _, List.cons_ne_nil _ _⟩
  | .number t, _ => ⟨(cover_singleton _).symm, .none _, List.cons_ne_nil _ _⟩
  | .decimal t, _ => ⟨(cover_singleton _).symm, .none _, List.cons_ne_nil _ _⟩
  | .parens l inner r, h => by
    have hInner := inner.fitsIn (List.pairwise_append.mp (List.pairwise_cons.mp h).2).1
    refine ⟨?_, ?_, List.cons_ne_nil _ _⟩
    · simp [Atom.tree, Atom.tokens, cover]
    · rw [Atom.tree, Expr.spanParts_withSpan, Atom.tokens, ← List.append_nil (Expr.spanParts _)]
      exact .skip _ (hInner.parts.append (.none _))
  | .name x, _ => fitsIn_name x
  | .call x l args r, h => by
    have hArgs := Expression.fitsAll args
      (List.pairwise_append.mp (List.pairwise_cons.mp (List.pairwise_cons.mp h).2).2).1
    refine ⟨?_, ?_, List.cons_ne_nil _ _⟩
    · simp [Atom.tree, Atom.tokens, cover, Expr.span]
    · have hRest : Fits (l.1 :: (Expression.tokensAll args ++ [r.1]))
          (Expr.spanTreesAll (Expression.treesAll args)) := by
        rw [← List.append_nil (Expr.spanTreesAll _)]
        exact .skip _ (hArgs.append (.none _))
      exact (Fits.leaf x.1).append hRest
  | .index x d, h => by
    refine ⟨?_, d.fitsIn (fitsIn_name x) h, List.cons_ne_nil _ _⟩
    simp [Atom.tree, Atom.tokens, cover, Expr.span, Subscripts.lastSpan_tokens]
  | .increment x sign, _ =>
    ⟨rfl, (fitsIn_name x).fits.append (.none [sign.1]), List.cons_ne_nil _ _⟩
  | .decrement x sign, _ =>
    ⟨rfl, (fitsIn_name x).fits.append (.none [sign.1]), List.cons_ne_nil _ _⟩

theorem Expression.fitsAll : (args : Separated Expression) →
    Token.Ordered (Expression.tokensAll args) →
      Fits (Expression.tokensAll args) (Expr.spanTreesAll (Expression.treesAll args))
  | .empty, _ => .nil
  | .last e, h => (e.fitsIn h).fits
  | .more e comma rest, h => by
    obtain ⟨hE, hRest⟩ := ordered_middle h
    exact (e.fitsIn hE).fits.append (.skip _ (Expression.fitsAll rest hRest))

/-- The tree that is indexed and the last index stand next to one another. -/
theorem Subscripts.fitsIn {base : Expr Unit} {ts : List Token} : (d : Subscripts) →
    base.FitsIn ts → Token.Ordered (ts ++ d.tokens) →
      Fits (ts ++ d.tokens) [(d.split base).1.spanTree, (d.split base).2.spanTree]
  | .last l offset r, hBase, h => by
    have hOffset := offset.fitsIn (List.pairwise_append.mp (ordered_middle h).2).1
    exact hBase.fits.append (.skip _ (hOffset.fits.append (.none [r.1])))
  | .more l offset r rest, hBase, h => by
    have hSplit : ts ++ (Subscripts.more l offset r rest).tokens =
        (ts ++ l.1 :: (offset.tokens ++ [r.1])) ++ rest.tokens := by simp [Subscripts.tokens]
    rw [hSplit] at h ⊢
    have hAll := (List.pairwise_append.mp h).1
    have hOffset := offset.fitsIn (List.pairwise_append.mp (ordered_middle hAll).2).1
    have hIndex : (Expr.index () (base.span.join r.1.span) base offset.tree).FitsIn
        (ts ++ l.1 :: (offset.tokens ++ [r.1])) := by
      refine ⟨?_, hBase.fits.append (.skip _ (hOffset.fits.append (.none [r.1]))),
        List.append_ne_nil_of_left_ne_nil hBase.ne_nil _⟩
      rw [Expr.span, hBase.span, ← cover_singleton r.1]
      exact cover_join (b := l.1 :: offset.tokens) hBase.ne_nil (List.cons_ne_nil _ _) hAll
    exact rest.fitsIn hIndex h

end

theorem Expression.fits_option (e : Option Expression)
    (h : Token.Ordered (optionTokens Expression.tokens e)) :
    Fits (optionTokens Expression.tokens e) (Expr.optionSpanTrees (e.map Expression.tree)) := by
  cases e with
  | none => exact .nil
  | some e => exact (e.fitsIn h).fits

theorem Initial.fits (d : Initial) (h : Token.Ordered d.tokens) :
    Fits d.tokens (Expr.optionSpanTrees d.tree) := by
  cases d with
  | none => exact .nil
  | value sign e => exact .skip _ (e.fitsIn (List.pairwise_cons.mp h).2).fits

theorem Simple.fits (d : Simple) (s : Span) (h : Token.Ordered d.tokens) :
    Fits d.tokens (d.form s).spanParts := by
  cases d with
  | declare type x sizes init =>
    have hInit := init.fits (List.pairwise_append.mp (ordered_middle h).2).2.1
    exact (Fits.none type.tokens).append
      ((Fits.leaf x.1).append ((Fits.none _).append hInit))
  | assign x sign value =>
    have hValue := value.fitsIn (List.pairwise_cons.mp (List.pairwise_cons.mp h).2).2
    exact (Fits.leaf x.1).append (.skip _ hValue.fits)
  | store x d sign value =>
    have hAll : Token.Ordered ((x.1 :: d.tokens) ++ sign.1 :: value.tokens) := h
    have hParts := d.fitsIn (fitsIn_name x) (ordered_middle hAll).1
    exact hParts.append (.skip _ (value.fitsIn (ordered_middle hAll).2).fits)
  | expr e => exact (e.fitsIn h).fits

theorem Simple.fits_tree (d : Simple) (h : Token.Ordered d.tokens) :
    Fits d.tokens [.node d.tree.span d.tree.spanParts] := by
  have hSpan : d.tree.span = cover d.tokens := by cases d <;> rfl
  rw [hSpan]
  exact .single d.starts.ne_nil (d.fits _ h)

theorem Simple.fits_option (d : Option Simple)
    (h : Token.Ordered (optionTokens Simple.tokens d)) :
    Fits (optionTokens Simple.tokens d) (Stmt.optionSpanTrees (d.map Simple.tree)) := by
  cases d with
  | none => exact .nil
  | some d => exact d.fits_tree h

theorem Condition.fits (d : Condition) (h : Token.Ordered d.tokens) :
    Fits d.tokens [d.value.tree.spanTree] := by
  have hValue := d.value.fitsIn (List.pairwise_append.mp (List.pairwise_cons.mp h).2).1
  exact .skip _ (hValue.fits.append (.none [d.r.1]))

theorem ForHead.fits (d : ForHead) (h : Token.Ordered d.tokens) :
    Fits d.tokens (Stmt.optionSpanTrees (d.init.map Simple.tree) ++
      (Expr.optionSpanTrees (d.cond.map Expression.tree) ++
        Stmt.optionSpanTrees (d.update.map Simple.tree))) := by
  obtain ⟨hInit, hRest⟩ := ordered_middle (List.pairwise_cons.mp h).2
  obtain ⟨hCond, hRest⟩ := ordered_middle hRest
  have hUpdate := (List.pairwise_append.mp hRest).1
  have hEnd : Fits (optionTokens Simple.tokens d.update ++ [d.r.1])
      (Stmt.optionSpanTrees (d.update.map Simple.tree)) := by
    rw [← List.append_nil (Stmt.optionSpanTrees _)]
    exact (Simple.fits_option d.update hUpdate).append (.none _)
  exact .skip _ ((Simple.fits_option d.init hInit).append (.skip _
    ((Expression.fits_option d.cond hCond).append (.skip _ hEnd))))

theorem Statement.span_tree (d : Statement) : d.tree.span = cover d.tokens := by
  cases d with
  | branch b => cases b; rfl
  | simple x semicolon => cases x <;> rfl
  | _ => rfl

mutual

theorem Statement.fits : (d : Statement) → Token.Ordered d.tokens → Fits d.tokens d.tree.spanParts
  | .ret word value semicolon, h => by
    have hValue := Expression.fits_option value
      (List.pairwise_append.mp (List.pairwise_cons.mp h).2).1
    have hAll := Fits.skip word.1 (hValue.append (.none [semicolon.1]))
    rwa [List.append_nil] at hAll
  | .branch b, h => b.fits h
  | .whileDo word cond body, h => by
    obtain ⟨hCond, hBody, -⟩ := List.pairwise_append.mp (List.pairwise_cons.mp h).2
    exact .skip _ ((cond.fits hCond).append (body.fits hBody))
  | .doWhile word body word' cond semicolon, h => by
    obtain ⟨hBody, hRest⟩ := ordered_middle (List.pairwise_cons.mp h).2
    have hCond := cond.fits (List.pairwise_append.mp hRest).1
    exact .skip _ ((body.fits hBody).append (.skip _ (hCond.append (.none [semicolon.1]))))
  | .forLoop word head body, h => by
    obtain ⟨hHead, hBody, -⟩ := List.pairwise_append.mp (List.pairwise_cons.mp h).2
    have hAll := Fits.skip word.1 ((head.fits hHead).append (body.fits hBody))
    simpa [Statement.tree, Stmt.spanParts, Statement.tokens] using hAll
  | .jump j word semicolon, _ => .none _
  | .simple x semicolon, h => by
    have hX := (x.fits (cover (Statement.simple x semicolon).tokens)
      (List.pairwise_append.mp h).1).append (.none [semicolon.1])
    rwa [List.append_nil] at hX

theorem Branch.fits : (d : Branch) → Token.Ordered d.tokens → Fits d.tokens d.tree.spanParts
  | .mk word cond body otherwise, h => by
    obtain ⟨hCond, hRest, -⟩ := List.pairwise_append.mp (List.pairwise_cons.mp h).2
    obtain ⟨hBody, hElse, -⟩ := List.pairwise_append.mp hRest
    exact .skip _ ((cond.fits hCond).append ((body.fits hBody).append (otherwise.fits hElse)))

theorem Otherwise.fits : (d : Otherwise) → Token.Ordered d.tokens →
    Fits d.tokens (Stmt.spanTreesAll d.trees)
  | .none, _ => .nil
  | .branch word b, h => by
    have hB := b.fits (List.pairwise_cons.mp h).2
    have hSpan : b.tree.span = cover b.tokens := by cases b; rfl
    have hNe : b.tokens ≠ [] := by
      cases b
      exact List.cons_ne_nil _ _
    have hNode := Fits.single hNe hB
    rw [← hSpan] at hNode
    exact .skip _ hNode
  | .block word b, h => .skip _ (b.fits (List.pairwise_cons.mp h).2)

theorem Braces.fits : (d : Braces) → Token.Ordered d.tokens →
    Fits d.tokens (Stmt.spanTreesAll d.trees)
  | .mk l body r, h => by
    have hBody := Statement.fitsAll body (List.pairwise_append.mp (List.pairwise_cons.mp h).2).1
    have hAll := Fits.skip l.1 (hBody.append (.none [r.1]))
    rwa [List.append_nil] at hAll

theorem Statement.fitsAll : (ds : List Statement) → Token.Ordered (Statement.tokensAll ds) →
    Fits (Statement.tokensAll ds) (Stmt.spanTreesAll (Statement.treesAll ds))
  | [], _ => .nil
  | d :: ds, h => by
    obtain ⟨hD, hDs, -⟩ := List.pairwise_append.mp h
    have hNode := Fits.single d.starts.ne_nil (d.fits hD)
    rw [← d.span_tree] at hNode
    exact hNode.append (Statement.fitsAll ds hDs)

end

theorem Parameter.fits (d : Parameter) : Fits d.tokens [.node d.tree.name.span []] :=
  (Fits.none d.type.tokens).append (.leaf d.x.1)

theorem Parameter.fits_separated (ds : Separated Parameter) :
    Fits (ds.tokens Parameter.tokens)
      ((ds.items Parameter.tree).map fun p => .node p.name.span []) := by
  induction ds with
  | empty => exact .nil
  | last d => exact d.fits
  | more d comma ds ih => exact d.fits.append (.skip _ ih)

theorem Definition.fits (d : Definition) (h : Token.Ordered d.tokens) :
    Fits d.tokens d.tree.spanTrees := by
  cases d with
  | function type x l params r body =>
    have hRest := (List.pairwise_cons.mp (ordered_middle h).2).2
    have hBody := body.fits (ordered_middle hRest).2
    exact (Fits.none type.tokens).append ((Fits.leaf x.1).append
      (.skip _ ((Parameter.fits_separated params).append (.skip _ hBody))))
  | global type x init semicolon =>
    have hInit := init.fits (List.pairwise_append.mp (ordered_middle h).2).1
    have hEnd := hInit.append (.none [semicolon.1])
    rw [List.append_nil] at hEnd
    exact (Fits.none type.tokens).append ((Fits.leaf x.1).append hEnd)

theorem Derivation.fits (d : Derivation) (h : Token.Ordered d.tokens) :
    Fits d.tokens d.tree.spanTrees := by
  obtain ⟨definitions⟩ := d
  induction definitions with
  | nil => exact .nil
  | cons d ds ih =>
    obtain ⟨hD, hDs, -⟩ := List.pairwise_append.mp h
    exact (d.fits hD).append (ih hDs)

end Grammar

section

variable {source : String} {p : Program Unit}

theorem Program.firstFlaw?_of_parse (h : Program.parse source = .ok p) :
    Token.firstFlaw? (Token.scan source) = none := by
  rw [Program.parse] at h
  cases hFlaw : Token.firstFlaw? (Token.scan source) with
  | none => rfl
  | some e =>
    simp only [hFlaw] at h
    cases h

variable (h : Program.parse source = .ok p)

include h

theorem Program.spanTrees_fit : Fits (Token.significant source) p.spanTrees := by
  have hFlawless := Program.firstFlaw?_of_parse h
  obtain ⟨d, hTokens, rfl⟩ := Program.exists_derivation hFlawless h
  rw [← hTokens]
  exact d.fits (by rw [hTokens]; exact (Stream.proper_ofTokens hFlawless).ordered)

theorem Program.spanTrees_nested : NestedAll p.spanTrees :=
  (Program.spanTrees_fit h).nested
    (Stream.proper_ofTokens (Program.firstFlaw?_of_parse h)).ordered

/-- Every span of a parsed program reaches from the start of a token to the end of one. -/
theorem Program.exists_tokens_of_mem_spans {s : Span} (hs : s ∈ p.spans) :
    ∃ t ∈ Token.significant source, ∃ u ∈ Token.significant source,
      s.lo = t.span.lo ∧ s.line = t.span.line ∧ s.hi = u.span.hi ∧ t.span.hi ≤ u.span.hi := by
  have hOrdered := (Stream.proper_ofTokens (Program.firstFlaw?_of_parse h)).ordered
  obtain ⟨ts, hNe, hSub, rfl⟩ :=
    (Program.spanTrees_fit h).exists_cover s ((Program.mem_spans_iff p).mp hs)
  obtain ⟨t, ht, u, hu, hLo, hLine, hHi, hAll⟩ := cover_spec hNe (hOrdered.sublist hSub)
  exact ⟨t, hSub.subset ht, u, hSub.subset hu, hLo, hLine, hHi, (hAll t ht).2⟩

end

end MiniC
