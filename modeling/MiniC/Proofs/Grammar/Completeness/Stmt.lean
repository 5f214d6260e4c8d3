import MiniC.Proofs.Grammar.Completeness.Expr

/-! # Derived statements and programs are accepted

A statement may be followed by anything but `else`, and whatever follows it in a block or a program
is not that word.
-/
namespace MiniC
set_option autoImplicit false

open Grammar

namespace Parser

theorem spanned_parses {α : Type} {p : Parser (Span → α)} {f : Kind → Prop} {ts : List Token}
    {form : Span → α} (h : Parses p f ts form) (hNe : ts ≠ []) :
    Parses (spanned p) f ts (form (cover ts)) := by
  intro r eof prev hr
  cases ts with
  | nil => cases hNe rfl
  | cons t ts =>
    rw [spanned, peek_bind, bind_of_ok (h r eof prev hr)]
    rfl

theorem pointers_parses (stars : List (Mark .star)) {n : Nat} (hn : stars.length < n) :
    Parses (pointers n) (· ≠ .symbol .star) (stars.map (·.1)) stars.length := by
  induction stars generalizing n with
  | nil =>
    obtain ⟨n, rfl⟩ : ∃ n', n = n' + 1 := ⟨n - 1, by omega⟩
    exact .take_ite_of_ne (.nil fun k hk => hk) (.pure _ 0)
  | cons star stars ih =>
    rw [List.length_cons] at hn
    obtain ⟨n, rfl⟩ : ∃ n', n = n' + 1 := ⟨n - 1, by omega⟩
    exact .take_ite_cons star ((ih (n := n) (by omega)).map (· + 1))

theorem type_parses (d : TypeName) : Parses type (· ≠ .symbol .star) d.tokens d.ty := by
  have hBase : Parses (expectAny baseTypes) (fun _ => True) [d.base.token] d.base.token := by
    intro r eof prev _
    have hMem : d.base.token.kind ∈ baseTypes := by
      cases d.base with
      | int t | float t | char t | void t => rw [BaseType.token, t.2]; decide
    rw [expectAny_run]
    exact if_pos hMem
  have hTy : d.base.ty = baseTy d.base.token.kind := by
    cases d.base with
    | int t | float t | char t | void t => rw [BaseType.token, t.2]; rfl
  have hStars : Parses (budgeted pointers) (· ≠ .symbol .star) (d.stars.map (·.1))
      d.stars.length := .budgeted fun n hn => pointers_parses d.stars (by simpa using hn)
  rw [TypeName.ty, hTy]
  exact .andThen hBase (hStars.map _)

theorem ident_parses (x : Name) : Parses ident (fun _ => True) [x.1] (identOf x.1) :=
  (expect_parses x).map _

theorem initializer_parses (d : Initial) :
    Parses initializer (fun k => k.closesExpr = true) d.tokens d.tree := by
  cases d with
  | none => exact .take_ite_of_ne (.nil fun k hk => by rintro rfl; cases hk) (.pure _ _)
  | value sign e => exact .take_ite_cons sign ((expr_parses e).map _)

theorem arraySize_parses (d : Numeral) :
    Parses arraySize (fun _ => True) [d.1] (digitsValue d.1.text) := by
  have hValue : Token.intValue? d.1.text = some (Int32.ofNat (digitsValue d.1.text)) :=
    if_pos d.2.2
  intro r eof prev _
  rw [List.cons_append, arraySize, advance_bind, Stream.head_cons, d.2.1]
  simp only [hValue]
  rfl

theorem arraySizes_parses (ds : List Dimension) {n : Nat}
    (hn : (ds.flatMap Dimension.tokens).length < n) :
    Parses (arraySizes n) (· ≠ .symbol .lbracket) (ds.flatMap Dimension.tokens)
      (ds.map Dimension.value) := by
  induction ds generalizing n with
  | nil =>
    obtain ⟨n, rfl⟩ : ∃ n', n = n' + 1 := ⟨n - 1, by omega⟩
    exact .take_ite_of_ne (.nil fun k hk => hk) (.pure _ [])
  | cons d ds ih =>
    rw [List.flatMap_cons, List.length_append] at hn
    obtain ⟨n, rfl⟩ : ∃ n', n = n' + 1 := ⟨n - 1, by omega⟩
    have hPos : 0 < d.tokens.length := Nat.succ_pos _
    refine .take_ite_cons d.l ?_
    change Parses _ _ (d.size.1 :: d.r.1 :: ds.flatMap Dimension.tokens) _
    refine .andThen (arraySize_parses d.size) ?_
    refine .andThen (discard_expect_parses d.r) ?_
    exact (ih (n := n) (by omega)).map (d.value :: ·)

/-- What follows the name of a variable is no bracket. -/
theorem Initial.leads (d : Initial) :
    Leads (fun k => k.closesExpr = true) d.tokens (· ≠ .symbol .lbracket) := by
  cases d with
  | none => exact .nil fun k hk => by rintro rfl; cases hk
  | value sign e => exact .cons _ (by rw [sign.2]; decide)

theorem declaration_parses (type : TypeName) (x : Name) (sizes : List Dimension) (init : Initial) :
    Parses declaration (fun k => k.closesExpr = true) (Simple.declare type x sizes init).tokens
      (Simple.declare type x sizes init).form := by
  refine .bind (type_parses type) (.cons _ (by rw [x.2]; decide)) ?_
  refine .andThen (ident_parses x) ?_
  refine .bind (.budgeted fun n hn => arraySizes_parses sizes hn) (Initial.leads init) ?_
  exact (initializer_parses init).map _

/-- A name that is neither indexed nor assigned to is read as in an expression. -/
theorem afterIdent_parses_expr {a : Atom} {x : Name} {ts : List Token}
    (hName : a.afterName? = some (x, ts)) (hIndex : ∀ d, a ≠ .index x d) (tail : Tail) :
    Parses (afterIdent (identOf x.1)) (fun k => k.closesExpr = true) (ts ++ tail.tokens)
      (fun s => .expr s (tail.applyTo a.tree)) := by
  have hTs : Leads (fun k => k.closesAtom = true) ts
      fun k => k ≠ .symbol .assign ∧ k ≠ .symbol .lbracket := by
    cases a with
    | name x =>
      cases hName
      exact .nil fun k hk => ⟨(Kind.of_closesAtom hk).2.2.1, (Kind.of_closesAtom hk).2.1⟩
    | call x l args r =>
      cases hName
      exact .cons _ (by rw [l.2]; decide)
    | index x d =>
      cases hName
      exact absurd rfl (hIndex d)
    | increment x sign | decrement x sign =>
      cases hName
      exact .cons _ (by rw [sign.2]; decide)
    | _ => cases hName
  have hLeads := hTs.append tail.leads
  refine .take_ite_of_ne (fun r eof hr => (hLeads r eof hr).1) ?_
  refine .sees_ite_of_ne (fun r eof hr => (hLeads r eof hr).2) ?_
  refine .bind (nameSuffix_parses (fun d _ => expr_parses d) hName (Nat.le_refl _)) tail.leads ?_
  exact (operatorChain_parses (fun d _ => expr_parses d) _ tail (Nat.le_refl _)).map _

theorem subscripts_parses_all (d : Subscripts) (base : Expr Unit) :
    Parses (budgeted fun n => subscripts expr n base) (· ≠ .symbol .lbracket) d.tokens
      (d.split base) :=
  .budgeted fun _ hn => subscripts_parses (fun e _ => expr_parses e) d (Nat.le_refl _) base hn

theorem afterIdent_parses_store (x : Name) (d : Subscripts) (sign : Mark .assign)
    (value : Expression) :
    Parses (afterIdent (identOf x.1)) (fun k => k.closesExpr = true)
      (d.tokens ++ sign.1 :: value.tokens) (Simple.store x d sign value).form := by
  have hOpen : Leads (fun k => k.closesExpr = true) (d.tokens ++ sign.1 :: value.tokens)
      (· = .symbol .lbracket) := (d.leads fun _ => True).append fun _ _ _ => trivial
  refine .take_ite_of_ne (fun r eof hr => by rw [hOpen r eof hr]; decide) ?_
  refine .sees_ite_of_eq hOpen ?_
  refine .bind (subscripts_parses_all d _) (.cons _ (by rw [sign.2]; decide)) ?_
  exact .take_ite_cons sign ((expr_parses value).map _)

/-- An indexed name that is not assigned to is the start of an expression. -/
theorem afterIdent_parses_index (x : Name) (d : Subscripts) (tail : Tail)
    (hOrdered : Token.Ordered (x.1 :: d.tokens)) :
    Parses (afterIdent (identOf x.1)) (fun k => k.closesExpr = true) (d.tokens ++ tail.tokens)
      (fun s => .expr s (tail.applyTo (Atom.index x d).tree)) := by
  have hOpen : Leads (fun k => k.closesExpr = true) (d.tokens ++ tail.tokens)
      (· = .symbol .lbracket) := (d.leads fun _ => True).append fun _ _ _ => trivial
  refine .take_ite_of_ne (fun r eof hr => by rw [hOpen r eof hr]; decide) ?_
  refine .sees_ite_of_eq hOpen ?_
  obtain ⟨hAfter, hOrdered⟩ := List.pairwise_cons.mp hOrdered
  have hJoin := d.join_split (variableOf (identOf x.1)) (fun t ht => by
    have hT := hAfter t ht
    simp only [variableOf, identOf, Expr.span, Span.hi] at hT ⊢
    omega) hOrdered
  intro r eof prev hr
  have hClosed := tail.leads r eof hr
  rw [List.append_assoc]
  refine (bind_of_ok (subscripts_parses_all d _ _ eof prev (Kind.of_closesAtom hClosed).2.1)).trans
    ?_
  have hChain := operatorChain_parses (fun e _ => expr_parses e)
    (.index () ((d.split (variableOf (identOf x.1))).1.span.join (lastSpan prev d.tokens))
      (d.split (variableOf (identOf x.1))).1 (d.split (variableOf (identOf x.1))).2) tail
    (Nat.le_refl _)
  refine (take_ite _ _ _ _).trans ((if_neg (Kind.of_closesAtom hClosed).2.2.1).trans ?_)
  refine ((hChain.map fun e s => Stmt.expr s e) r eof _ hr).trans ?_
  rw [d.lastSpan_tokens, hJoin, lastSpan_append, d.lastSpan_tokens]
  rfl

theorem simpleForm_of_type {s : Stream} (h : s.head.kind.isBaseType = true) :
    simpleForm s = declaration s := by
  rw [simpleForm, peekKind_bind, ite_run]
  exact if_pos h

theorem simpleForm_parses_name (x : Name) {f : Kind → Prop} {ts : List Token}
    {form : Span → Stmt Unit} (h : Parses (afterIdent (identOf x.1)) f ts form) :
    Parses simpleForm f (x.1 :: ts) form := by
  have hBoth : Parses (ident >>= afterIdent) f (x.1 :: ts) form := .andThen (ident_parses x) h
  intro r eof prev hr
  rw [simpleForm, List.cons_append, peekKind_bind, Stream.head_cons, x.2]
  exact hBoth r eof prev hr

theorem simpleForm_of_other {s : Stream}
    (h : s.head.kind.isBaseType = false ∧ s.head.kind ≠ .identifier) :
    simpleForm s = (expr >>= fun e => pure fun span => .expr span e) s := by
  rw [simpleForm, peekKind_bind, ite_run, if_neg (by rw [h.1]; decide), ite_run, if_neg h.2]

theorem simpleForm_parses_expr (e : Expression) (hOrdered : Token.Ordered e.tokens) :
    Parses simpleForm (fun k => k.closesExpr = true) e.tokens (Simple.expr e).form := by
  have hOther (hLeads : Leads (fun k => k.closesExpr = true) e.tokens
      fun k => k.isBaseType = false ∧ k ≠ .identifier) :
      Parses simpleForm (fun k => k.closesExpr = true) e.tokens (Simple.expr e).form :=
    .congr (fun _ hs => simpleForm_of_other hs) hLeads
      ((expr_parses e).map fun e span => Stmt.expr span e)
  cases e with
  | before op sign operand => exact hOther (.cons _ (by rw [sign.2]; cases op <;> decide))
  | least minus literal tail => exact hOther (.cons _ (by rw [minus.2]; decide))
  | chain a tail =>
    cases a with
    | string t | escapedString t | decimal t => exact hOther (.cons _ (by rw [t.2]; decide))
    | number t => exact hOther (.cons _ (by rw [t.2.1]; decide))
    | parens l inner r => exact hOther (.cons _ (by rw [l.2]; decide))
    | index x d =>
      have hIndex : Token.Ordered (x.1 :: d.tokens) := (List.pairwise_append.mp hOrdered).1
      exact simpleForm_parses_name x (afterIdent_parses_index x d tail hIndex)
    | name x | call x l args r | increment x sign | decrement x sign =>
      exact simpleForm_parses_name x
        (afterIdent_parses_expr rfl (fun d hEq => by cases hEq) tail)

theorem simpleForm_parses (d : Simple) (hOrdered : Token.Ordered d.tokens) :
    Parses simpleForm (fun k => k.closesExpr = true) d.tokens d.form := by
  cases d with
  | declare type x sizes init =>
    exact .congr (fun _ hs => simpleForm_of_type hs)
      (.ofStart (type.starts.append _) fun _ hk => hk) (declaration_parses type x sizes init)
  | assign x sign value =>
    exact simpleForm_parses_name x (.take_ite_cons sign ((expr_parses value).map _))
  | store x subscripts sign value =>
    exact simpleForm_parses_name x (afterIdent_parses_store x subscripts sign value)
  | expr e => exact simpleForm_parses_expr e hOrdered

theorem simple_parses (d : Simple) (hOrdered : Token.Ordered d.tokens) :
    Parses simple (fun k => k.closesExpr = true) d.tokens d.tree :=
  spanned_parses (simpleForm_parses d hOrdered) d.starts.ne_nil

/-- A phrase that may be missing, where `k` follows and starts no such phrase. -/
theorem unlessSees_parses {α δ : Type} {p : Parser α} {leaves : δ → List Token} {value : δ → α}
    {f : Kind → Prop} {test : Kind → Bool} {k : Kind} (d : Option δ)
    (hp : ∀ x ∈ d, Parses p f (leaves x) (value x)) (hf : f k)
    (hStarts : ∀ x, StartsWith test (leaves x)) (hTest : test k = false) :
    Parses (unlessSees k p) (· = k) (optionTokens leaves d) (d.map value) := by
  cases d with
  | none => exact .sees_ite_of_eq (.nil fun _ hk => hk) (.pure _ none)
  | some x =>
    refine .sees_ite_of_ne (.ofStart (hStarts x) ?_) (((hp x rfl).imp ?_).map some)
    · rintro _ hk rfl
      rw [hTest] at hk
      cases hk
    · rintro _ rfl
      exact hf

theorem semicolon_parses (t : Mark .semicolon) :
    Parses semicolon (fun _ => True) [t.1] () := discard_expect_parses t

theorem condition_parses (d : Condition) :
    Parses condition (fun _ => True) d.tokens d.value.tree := by
  refine .andThen (discard_expect_parses d.l) ?_
  refine .bind (expr_parses d.value) (.cons _ (by rw [d.r.2]; rfl)) ?_
  exact .bind_nil (discard_expect_parses d.r) (fun _ _ => trivial) (.pure _ _)

section

variable {stmt : Parser (Stmt Unit)} {m : Nat}
  (hStmt : ∀ d : Statement, d.tokens.length < m → Token.Ordered d.tokens →
    Parses stmt (· ≠ .keyword .else_) d.tokens d.tree)

include hStmt

theorem block_parses (d : Braces) (h : d.tokens.length ≤ m) (hOrdered : Token.Ordered d.tokens) :
    Parses (block stmt) (fun _ => True) d.tokens d.trees := by
  cases d with
  | mk l body r =>
    rw [Braces.tokens, Statement.tokensAll_eq] at h hOrdered ⊢
    rw [Braces.trees, Statement.treesAll_eq]
    rw [List.length_cons, List.length_append] at h
    have hBody : ∀ d ∈ body, Parses stmt (· ≠ .keyword .else_) d.tokens d.tree := by
      intro d hd
      have hSub : d.tokens.Sublist (body.flatMap Statement.tokens) :=
        List.sublist_flatten_of_mem (List.mem_map_of_mem hd)
      have hLength := hSub.length_le
      exact hStmt d (by omega)
        (hOrdered.sublist ((hSub.trans (List.sublist_append_left _ _)).cons _))
    refine .andThen (discard_expect_parses l) ?_
    refine .bind (.budgeted fun n hn => many_parses hBody Statement.starts ?_ ?_ hn)
      (.cons _ (.inr r.2)) ?_
    · intro k hk
      refine ⟨?_, ?_⟩
      · rintro (rfl | rfl) <;> cases hk
      · rintro rfl
        cases hk
    · rintro k (rfl | rfl) <;> decide
    · exact .bind_nil (discard_expect_parses r) (fun _ _ => trivial) (.pure _ _)

theorem elseBody_parses (d : Otherwise) (h : d.tokens.length ≤ m)
    (hOrdered : Token.Ordered d.tokens) :
    Parses (elseBody stmt) (· ≠ .keyword .else_) d.tokens d.trees := by
  cases d with
  | none => exact .take_ite_of_ne (.nil fun k hk => hk) (.pure _ [])
  | branch word b =>
    obtain ⟨t, r, hTokens, hKind⟩ := b.exists_tokens_eq
    have hIf : Leads (· ≠ .keyword .else_) b.tokens (· = .keyword .if_) := by
      rw [hTokens]
      exact .cons _ hKind
    refine .take_ite_cons word (.sees_ite_of_eq hIf ?_)
    exact (hStmt (.branch b) h (List.pairwise_cons.mp hOrdered).2).map fun x => [x]
  | block word b =>
    rw [Otherwise.tokens, List.length_cons] at h
    have hBlock := block_parses hStmt b (Nat.le_of_succ_le h) (List.pairwise_cons.mp hOrdered).2
    have hOpen : Leads (· ≠ .keyword .else_) b.tokens (· ≠ .keyword .if_) := by
      cases b with
      | mk l body r => exact .cons _ (by rw [l.2]; decide)
    exact .take_ite_cons word (.sees_ite_of_ne hOpen (hBlock.imp fun _ _ => trivial))

theorem forForm_parses (head : ForHead) (body : Braces)
    (h : (head.tokens ++ body.tokens).length ≤ m)
    (hOrdered : Token.Ordered (head.tokens ++ body.tokens)) :
    Parses (forForm stmt) (fun _ => True) (head.tokens ++ body.tokens) fun span =>
      .forLoop span (head.init.map Simple.tree) (head.cond.map Expression.tree)
        (head.update.map Simple.tree) body.trees := by
  obtain ⟨l, init, first, cond, second, update, r⟩ := head
  rw [List.length_append] at h
  obtain ⟨hHead, hBody, -⟩ := List.pairwise_append.mp hOrdered
  -- The order of the tokens is used for statements that start with an indexed name.
  have hSimple {x : Option Simple} (hSub : (optionTokens Simple.tokens x).Sublist
      (ForHead.tokens ⟨l, init, first, cond, second, update, r⟩)) :
      ∀ d ∈ x, Parses simple (fun k => k.closesExpr = true) d.tokens d.tree := by
    rintro d hd
    obtain rfl := Option.mem_def.mp hd
    exact simple_parses d (hHead.sublist hSub)
  have hInit := unlessSees_parses (k := .symbol .semicolon) init
    (hSimple ((List.sublist_append_left _ _).cons _)) rfl Simple.starts rfl
  have hCond := unlessSees_parses (k := .symbol .semicolon) cond
    (fun e _ => expr_parses e) rfl Expression.starts rfl
  have hUpdate := unlessSees_parses (k := .symbol .rparen) update
    (hSimple (((((List.sublist_append_left _ _).cons _).trans
      (List.sublist_append_right _ _)).cons _).trans (List.sublist_append_right _ _) |>.cons _))
    rfl Simple.starts rfl
  simp only [ForHead.tokens, List.cons_append, List.append_assoc, List.nil_append]
  refine .andThen (discard_expect_parses l) ?_
  refine .bind hInit (.cons _ first.2) ?_
  refine .andThen (semicolon_parses first) ?_
  refine .bind hCond (.cons _ second.2) ?_
  refine .andThen (semicolon_parses second) ?_
  refine .bind hUpdate (.cons _ r.2) ?_
  refine .andThen (discard_expect_parses r) ?_
  exact (block_parses hStmt body (by omega) hBody).map _

omit hStmt in
/-- The word with which a statement starts decides how the rest is read. -/
theorem stmtForm_parses_word {w : Keyword} (word : Word w) {p : Parser (Span → Stmt Unit)}
    {f : Kind → Prop} {ts : List Token} {form : Span → Stmt Unit} (h : Parses p f ts form)
    (hRun : ∀ s : Stream, s.head.kind = .keyword w → stmtForm stmt s = p s.tail) :
    Parses (stmtForm stmt) f (word.1 :: ts) form := by
  intro r eof prev hr
  exact (hRun ⟨word.1 :: (ts ++ r), eof, prev⟩ word.2).trans (h r eof _ hr)

theorem stmtForm_parses (d : Statement) (h : d.tokens.length ≤ m + 1)
    (hOrdered : Token.Ordered d.tokens) :
    ∃ form, Parses (stmtForm stmt) (· ≠ .keyword .else_) d.tokens form ∧
      form (cover d.tokens) = d.tree := by
  cases d with
  | ret word value semi =>
    have hRest : Parses (do
        let value ← unlessSees (.symbol .semicolon) expr
        semicolon
        return fun s => Stmt.ret s value) (· ≠ .keyword .else_)
          (optionTokens Expression.tokens value ++ [semi.1])
          fun s => Stmt.ret s (value.map Expression.tree) :=
      .bind (unlessSees_parses value (fun e _ => expr_parses e) rfl Expression.starts rfl)
        (.cons _ semi.2) (.bind_nil (semicolon_parses semi) (fun _ _ => trivial) (.pure _ _))
    exact ⟨_, stmtForm_parses_word word hRest fun s hs => by rw [stmtForm, peekKind_bind, hs]; rfl,
      rfl⟩
  | branch b =>
    obtain ⟨word, cond, body, otherwise⟩ := b
    simp only [Statement.tokens, Branch.tokens, List.length_cons, List.length_append] at h
    obtain ⟨-, hOrdered⟩ := List.pairwise_cons.mp hOrdered
    obtain ⟨-, hOrdered, -⟩ := List.pairwise_append.mp hOrdered
    obtain ⟨hBody, hElse, -⟩ := List.pairwise_append.mp hOrdered
    have hRest : Parses (do
        let cond ← condition
        let thenBody ← block stmt
        let otherwise ← elseBody stmt
        return fun s => Stmt.branch s cond thenBody otherwise) (· ≠ .keyword .else_)
          (cond.tokens ++ (body.tokens ++ otherwise.tokens))
          fun s => Stmt.branch s cond.value.tree body.trees otherwise.trees :=
      .andThen (condition_parses cond) (.andThen (block_parses hStmt body (by omega) hBody)
        ((elseBody_parses hStmt otherwise (by omega) hElse).map _))
    exact ⟨_, stmtForm_parses_word word hRest fun s hs => by rw [stmtForm, peekKind_bind, hs]; rfl,
      rfl⟩
  | whileDo word cond body =>
    simp only [Statement.tokens, List.length_cons, List.length_append] at h
    obtain ⟨-, hOrdered⟩ := List.pairwise_cons.mp hOrdered
    obtain ⟨-, hBody, -⟩ := List.pairwise_append.mp hOrdered
    have hRest : Parses (do
        let cond ← condition
        let body ← block stmt
        return fun s => Stmt.loop s .whileDo cond body) (fun _ => True) (cond.tokens ++ body.tokens)
          fun s => Stmt.loop s .whileDo cond.value.tree body.trees :=
      .andThen (condition_parses cond) ((block_parses hStmt body (by omega) hBody).map _)
    exact ⟨_, stmtForm_parses_word word (hRest.imp fun _ _ => trivial)
      fun s hs => by rw [stmtForm, peekKind_bind, hs]; rfl, rfl⟩
  | doWhile word body word' cond semi =>
    simp only [Statement.tokens, List.length_cons, List.length_append] at h
    obtain ⟨-, hOrdered⟩ := List.pairwise_cons.mp hOrdered
    obtain ⟨hBody, -, -⟩ := List.pairwise_append.mp hOrdered
    have hRest : Parses (do
        let body ← block stmt
        discard <| expect (.keyword .while_)
        let cond ← condition
        semicolon
        return fun s => Stmt.loop s .doWhile cond body) (· ≠ .keyword .else_)
          (body.tokens ++ word'.1 :: (cond.tokens ++ [semi.1]))
          fun s => Stmt.loop s .doWhile cond.value.tree body.trees :=
      .andThen (block_parses hStmt body (by omega) hBody)
        (.andThen (discard_expect_parses word') (.andThen (condition_parses cond)
          (.bind_nil (semicolon_parses semi) (fun _ _ => trivial) (.pure _ _))))
    exact ⟨_, stmtForm_parses_word word hRest fun s hs => by rw [stmtForm, peekKind_bind, hs]; rfl,
      rfl⟩
  | forLoop word head body =>
    have hRest := forForm_parses hStmt head body (Nat.le_of_succ_le_succ h)
      (List.pairwise_cons.mp hOrdered).2
    exact ⟨_, stmtForm_parses_word word (hRest.imp fun _ _ => trivial)
      fun s hs => by rw [stmtForm, peekKind_bind, hs]; rfl, rfl⟩
  | jump j word semi =>
    have hRest : Parses (do
        semicolon
        return fun s => Stmt.jump (α := Unit) s j) (· ≠ .keyword .else_) [semi.1]
          fun s => .jump s j :=
      .bind_nil (semicolon_parses semi) (fun _ _ => trivial) (.pure _ _)
    exact ⟨_, stmtForm_parses_word word hRest fun s hs => by
      rw [stmtForm, peekKind_bind, hs]; cases j <;> rfl, rfl⟩
  | simple x semi =>
    have hX := simpleForm_parses x (List.pairwise_append.mp hOrdered).1
    have hLeads : Leads (· ≠ .keyword .else_) (x.tokens ++ [semi.1])
        fun k => k.isStmtWord = false := by
      refine .ofStart (x.starts.append _) fun k hk => ?_
      cases hWord : k.isStmtWord with
      | false => rfl
      | true =>
        rw [startsSimple_of_isStmtWord hWord] at hk
        cases hk
    refine ⟨x.form, .congr (fun s hs => stmtForm_of_not_isStmtWord stmt hs) hLeads ?_, rfl⟩
    refine .bind hX (.cons _ (by rw [semi.2]; rfl)) ?_
    exact .bind_nil (semicolon_parses semi) (fun _ _ => trivial) (.pure _ _)

end

theorem stmtWithin_parses (n : Nat) (d : Statement) (h : d.tokens.length < n)
    (hOrdered : Token.Ordered d.tokens) :
    Parses (stmtWithin n) (· ≠ .keyword .else_) d.tokens d.tree := by
  induction n generalizing d with
  | zero => exact absurd h (Nat.not_lt_zero _)
  | succ n ih =>
    obtain ⟨form, hForm, hTree⟩ := stmtForm_parses ih d (Nat.le_of_lt h) hOrdered
    rw [← hTree]
    exact spanned_parses hForm d.starts.ne_nil

theorem stmt_parses (d : Statement) (hOrdered : Token.Ordered d.tokens) :
    Parses stmt (· ≠ .keyword .else_) d.tokens d.tree :=
  .budgeted fun n hn => stmtWithin_parses n d hn hOrdered

theorem param_parses (d : Parameter) : Parses param (fun _ => True) d.tokens d.tree :=
  .bind (type_parses d.type) (.cons _ (by rw [d.x.2]; decide)) ((ident_parses d.x).map _)

theorem item_parses (d : Definition) (hOrdered : Token.Ordered d.tokens) :
    Parses item (fun _ => True) d.tokens d.tree := by
  cases d with
  | function type x l params r body =>
    have hBody : Token.Ordered body.tokens :=
      hOrdered.sublist (((((List.sublist_cons_self r.1 body.tokens).trans
        (List.sublist_append_right _ _)).cons l.1).cons x.1).trans
          (List.sublist_append_right type.tokens _))
    refine .bind (type_parses type) (.cons _ (by rw [x.2]; decide)) ?_
    refine .andThen (ident_parses x) (.take_ite_cons l ?_)
    refine .bind (.budgeted fun n hn => sepList_parses (fun p _ => param_parses p)
      (fun p => p.type.starts.append _) (fun k hk => ?_) trivial trivial (by decide) params
      (Nat.lt_succ_self _) hn) (.cons _ r.2) ?_
    · rintro (rfl | rfl) <;> cases hk
    · refine .andThen (discard_expect_parses r) ?_
      exact (block_parses (fun d _ => stmt_parses d) body (Nat.le_refl _) hBody).map _
  | global type x init semi =>
    have hLeads : Leads (fun _ => True) (init.tokens ++ [semi.1]) (· ≠ .symbol .lparen) := by
      cases init with
      | none => exact .cons _ (by rw [semi.2]; decide)
      | value sign e => exact .cons _ (by rw [sign.2]; decide)
    refine .bind (type_parses type) (.cons _ (by rw [x.2]; decide)) ?_
    refine .andThen (ident_parses x) (.take_ite_of_ne hLeads ?_)
    refine .bind (initializer_parses init) (.cons _ (by rw [semi.2]; rfl)) ?_
    exact .bind_nil (semicolon_parses semi) (fun _ _ => trivial) (.pure _ _)

theorem program_run (d : Derivation) (hOrdered : Token.Ordered d.tokens) (eof : Token)
    (hEof : eof.kind = .eof) (prev : Span) :
    ∃ s', program ⟨d.tokens, eof, prev⟩ = .ok (d.tree, s') := by
  have hItems : Parses (budgeted (many .eof item)) (fun k => k = .eof ∨ k = .eof) d.tokens
      (d.definitions.map Definition.tree) := by
    refine .budgeted fun n hn => many_parses (fun x hx => ?_) Definition.starts ?_
      (fun _ _ => trivial) hn
    · exact item_parses x
        (hOrdered.sublist (List.sublist_flatten_of_mem (List.mem_map_of_mem hx)))
    · intro k hk
      refine ⟨?_, trivial⟩
      rintro (rfl | rfl) <;> cases hk
  have hRun := hItems [] eof prev (.inl hEof)
  rw [List.append_nil] at hRun
  have hEnd (prev : Span) : (discard (expect .eof)) ⟨[], eof, prev⟩ =
      .ok ((), Stream.tail ⟨[], eof, prev⟩) := by
    rw [discard_run, expect_run, if_pos (by exact hEof)]
    rfl
  rw [program, bind_of_ok hRun, bind_of_ok (hEnd _)]
  exact ⟨_, rfl⟩

end Parser

end MiniC
