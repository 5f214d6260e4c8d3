import MiniC.Proofs.Grammar.Lookahead
import MiniC.Proofs.Grammar.Soundness.Expr

/-! # Accepted statements are derived by the grammar

A statement that starts with an indexed name is read without the parser of expressions.  The span
that it gives to the indexed name is the same, since tokens are in source order.
-/
namespace MiniC
set_option autoImplicit false

open Grammar

namespace Grammar

theorem BaseType.exists_of_mem {t : Token} (h : t.kind ∈ Parser.baseTypes) :
    ∃ d : BaseType, d.token = t ∧ d.ty = Parser.baseTy t.kind := by
  simp only [Parser.baseTypes, List.mem_cons, List.not_mem_nil, or_false] at h
  rcases h with h | h | h | h
  · exact ⟨.int ⟨t, h⟩, rfl, by rw [h]; rfl⟩
  · exact ⟨.float ⟨t, h⟩, rfl, by rw [h]; rfl⟩
  · exact ⟨.char ⟨t, h⟩, rfl, by rw [h]; rfl⟩
  · exact ⟨.void ⟨t, h⟩, rfl, by rw [h]; rfl⟩

end Grammar

theorem Stream.Reads.join_prev {s s' : Stream} {ts : List Token} (h : s.Reads ts s')
    (hNe : ts ≠ []) : s.head.span.join s'.prev = cover ts := by
  cases ts with
  | nil => cases hNe rfl
  | cons t ts =>
    have hHead : s.head = t := by rw [Stream.head, h.rest]; rfl
    rw [hHead, h.prev]
    rfl

/-- The span of the part that is indexed, extended to the last bracket, starts at the name. -/
theorem Stream.Proper.join_subscripts {s s' : Stream} (hs : s.Proper) {x : Name} {d : Subscripts}
    (h : s.Reads (x.1 :: d.tokens) s') :
    (d.split (Parser.variableOf (Parser.identOf x.1))).1.span.join d.close.span =
      x.1.span.join d.close.span := by
  have hOrdered : Token.Ordered (x.1 :: d.tokens) := by
    have hAll := hs.ordered
    rw [h.rest] at hAll
    exact (List.pairwise_append.mp hAll).1
  obtain ⟨hAfter, hOrdered⟩ := List.pairwise_cons.mp hOrdered
  refine d.join_split _ (fun t ht => ?_) hOrdered
  have hT := hAfter t ht
  simp only [Parser.variableOf, Parser.identOf, Expr.span, Span.hi] at hT ⊢
  omega

namespace Parser

theorem pointers_accepts (n : Nat) :
    Accepts (pointers n) (List.map Subtype.val) (List.length (α := Mark .star)) := by
  induction n with
  | zero =>
    intro s s' m hs h
    cases h
    exact ⟨[], .refl s, rfl⟩
  | succ n ih =>
    intro s s' m hs h
    rw [pointers, take_ite] at h
    split at h
    · next hStar =>
      have hRead := hs.reads_head (by simp [hStar])
      obtain ⟨m, s₁, hRest, h⟩ := bind_eq_ok_iff.mp h
      cases h
      obtain ⟨stars, hReads, rfl⟩ := ih (hRead.proper hs) hRest
      exact ⟨⟨s.head, hStar⟩ :: stars, hRead.cons hReads, rfl⟩
    · cases h
      exact ⟨[], .refl s, rfl⟩

theorem type_accepts : Accepts type TypeName.tokens TypeName.ty := by
  intro s s' ty hs h
  obtain ⟨t, s₁, hBase, h⟩ := bind_eq_ok_iff.mp h
  rw [expectAny_run] at hBase
  split at hBase
  · next hMem =>
    cases hBase
    obtain ⟨base, hToken, hTy⟩ := BaseType.exists_of_mem hMem
    have hRead := hs.reads_head (by rintro hEof; rw [hEof] at hMem; simp [baseTypes] at hMem)
    obtain ⟨m, s₂, hStars, h⟩ := bind_eq_ok_iff.mp h
    obtain ⟨stars, hReads, rfl⟩ := pointers_accepts _ (hRead.proper hs) hStars
    cases h
    refine ⟨⟨base, stars⟩, ?_, ?_⟩
    · rw [TypeName.tokens, hToken]
      exact hRead.cons hReads
    · rw [TypeName.ty, hTy]
  · cases hBase

theorem ident_accepts : Accepts ident (fun x : Name => [x.1]) (fun x => identOf x.1) := by
  intro s s' x hs h
  obtain ⟨t, s₁, hName, h⟩ := bind_eq_ok_iff.mp h
  cases h
  obtain ⟨d, rfl, hRead⟩ := expect_accepts (by simp) hs hName
  exact ⟨d, hRead, rfl⟩

theorem initializer_accepts : Accepts initializer Initial.tokens Initial.tree := by
  intro s s' init hs h
  rw [initializer, take_ite] at h
  split at h
  · next hSign =>
    have hRead := hs.reads_head (by simp [hSign])
    obtain ⟨e, s₁, hExpr, h⟩ := bind_eq_ok_iff.mp h
    cases h
    obtain ⟨d, hReads, rfl⟩ := expr_accepts (hRead.proper hs) hExpr
    exact ⟨.value ⟨s.head, hSign⟩ d, hRead.cons hReads, rfl⟩
  · cases h
    exact ⟨.none, .refl s, rfl⟩

theorem arraySize_accepts :
    Accepts arraySize (fun d : Numeral => [d.1]) (fun d => digitsValue d.1.text) := by
  intro s s' n hs h
  rw [arraySize, advance_bind] at h
  cases hKind : s.head.kind with
  | number =>
    rw [hKind] at h
    by_cases hRange : digitsValue s.head.text < 0x80000000
    · have hValue : Token.intValue? s.head.text = some (Int32.ofNat (digitsValue s.head.text)) :=
        if_pos hRange
      simp only [hValue] at h
      cases h
      exact ⟨⟨s.head, hKind, hRange⟩, hs.reads_head (by simp [hKind]), rfl⟩
    · have hValue : Token.intValue? s.head.text = none := if_neg hRange
      simp only [hValue] at h
      cases h
  | _ =>
    rw [hKind] at h
    cases h

theorem arraySizes_accepts (n : Nat) :
    Accepts (arraySizes n) (List.flatMap Dimension.tokens) (List.map Dimension.value) := by
  induction n with
  | zero =>
    intro s s' sizes hs h
    cases h
  | succ n ih =>
    intro s s' sizes hs h
    rw [arraySizes, take_ite] at h
    split at h
    · next hOpen =>
      have hL := hs.reads_head (by simp [hOpen])
      obtain ⟨size, s₁, hSize, h⟩ := bind_eq_ok_iff.mp h
      obtain ⟨d, hD, rfl⟩ := arraySize_accepts (hL.proper hs) hSize
      obtain ⟨_, s₂, hClose, h⟩ := bind_eq_ok_iff.mp h
      obtain ⟨r, hR⟩ := discard_expect_accepts (by simp) (hD.proper (hL.proper hs)) hClose
      obtain ⟨sizes, s₃, hSizes, h⟩ := bind_eq_ok_iff.mp h
      obtain ⟨ds, hDs, rfl⟩ := ih (hR.proper (hD.proper (hL.proper hs))) hSizes
      cases h
      exact ⟨⟨⟨s.head, hOpen⟩, d, r⟩ :: ds, hL.cons (hD.cons (hR.cons hDs)), rfl⟩
    · cases h
      exact ⟨[], .refl s, rfl⟩

theorem declaration_accepts : Accepts declaration Simple.tokens Simple.form := by
  intro s s' form hs h
  obtain ⟨ty, s₁, hTy, h⟩ := bind_eq_ok_iff.mp h
  obtain ⟨type, hType, rfl⟩ := type_accepts hs hTy
  have hs₁ := hType.proper hs
  obtain ⟨x, s₂, hX, h⟩ := bind_eq_ok_iff.mp h
  obtain ⟨x, hName, rfl⟩ := ident_accepts hs₁ hX
  have hs₂ := hName.proper hs₁
  obtain ⟨sizes, s₃, hSizes, h⟩ := bind_eq_ok_iff.mp h
  obtain ⟨dims, hDims, rfl⟩ := arraySizes_accepts _ hs₂ hSizes
  have hs₃ := hDims.proper hs₂
  obtain ⟨init, s₄, hInit, h⟩ := bind_eq_ok_iff.mp h
  obtain ⟨init, hReads, rfl⟩ := initializer_accepts hs₃ hInit
  cases h
  exact ⟨.declare type x dims init, hType.append (hName.cons (hDims.append hReads)), rfl⟩

theorem afterIdent_accepts (x : Name) {s₀ s s' : Stream} {form : Span → Stmt Unit}
    (hs₀ : s₀.Proper) (hName : s₀.Reads [x.1] s)
    (h : afterIdent (identOf x.1) s = .ok (form, s')) :
    ∃ d : Simple, s₀.Reads d.tokens s' ∧ d.form = form := by
  have hs := hName.proper hs₀
  simp only [afterIdent, take_ite] at h
  split at h
  · next hSign =>
    have hRead := hs.reads_head (by simp [hSign])
    obtain ⟨e, s₁, hExpr, h⟩ := bind_eq_ok_iff.mp h
    cases h
    obtain ⟨d, hReads, rfl⟩ := expr_accepts (hRead.proper hs) hExpr
    exact ⟨.assign x ⟨s.head, hSign⟩ d, hName.cons (hRead.cons hReads), rfl⟩
  · rw [sees_ite] at h
    split at h
    · obtain ⟨⟨base, offset⟩, s₁, hSubscripts, h⟩ := bind_eq_ok_iff.mp h
      obtain ⟨d, hReads, hSplit⟩ := subscripts_accepts expr_accepts hs hSubscripts
      have hs₁ := hReads.proper hs
      rw [take_ite] at h
      split at h
      · next hSign =>
        have hRead := hs₁.reads_head (by simp [hSign])
        obtain ⟨e, s₂, hExpr, h⟩ := bind_eq_ok_iff.mp h
        cases h
        obtain ⟨value, hValue, rfl⟩ := expr_accepts (hRead.proper hs₁) hExpr
        refine ⟨.store x d ⟨s₁.head, hSign⟩ value,
          hName.cons (hReads.append (hRead.cons hValue)), ?_⟩
        funext span
        rw [Simple.form, hSplit]
      · -- Here the span ends with the token read last; it is the span that `tree` gives.
        rw [prevSpan_bind] at h
        obtain ⟨e, s₂, hChain, h⟩ := bind_eq_ok_iff.mp h
        cases h
        obtain ⟨tail, hTail, rfl⟩ := operatorChain_accepts expr_accepts hs₁ hChain
        refine ⟨.expr (.chain (.index x d) tail), hName.cons (hReads.append hTail), ?_⟩
        have hJoin := hs₀.join_subscripts (hName.cons hReads)
        rw [hSplit] at hJoin
        funext span
        rw [Simple.form, Expression.tree, Atom.tree, hSplit, hReads.prev,
          Subscripts.lastSpan_tokens, hJoin]
    · obtain ⟨lhs, s₁, hSuffix, h⟩ := bind_eq_ok_iff.mp h
      obtain ⟨a, ts, hTokens, hReads, rfl⟩ := nameSuffix_accepts expr_accepts x hs hSuffix
      obtain ⟨e, s₂, hChain, h⟩ := bind_eq_ok_iff.mp h
      cases h
      obtain ⟨tail, hTail, rfl⟩ :=
        operatorChain_accepts expr_accepts (hReads.proper hs) hChain
      refine ⟨.expr (.chain a tail), ?_, rfl⟩
      rw [Simple.tokens, Expression.tokens, hTokens]
      exact hName.cons (hReads.append hTail)

theorem simpleForm_accepts : Accepts simpleForm Simple.tokens Simple.form := by
  intro s s' form hs h
  simp only [simpleForm, peekKind_bind, ite_run] at h
  split at h
  · exact declaration_accepts hs h
  · split at h
    · obtain ⟨x, s₁, hX, h⟩ := bind_eq_ok_iff.mp h
      obtain ⟨x, hName, rfl⟩ := ident_accepts hs hX
      exact afterIdent_accepts x hs hName h
    · obtain ⟨e, s₁, hExpr, h⟩ := bind_eq_ok_iff.mp h
      cases h
      obtain ⟨d, hReads, rfl⟩ := expr_accepts hs hExpr
      exact ⟨.expr d, hReads, rfl⟩

theorem simple_accepts : Accepts simple Simple.tokens Simple.tree := by
  intro s s' x hs h
  rw [simple, spanned, peek_bind] at h
  obtain ⟨form, s₁, hForm, h⟩ := bind_eq_ok_iff.mp h
  cases h
  obtain ⟨d, hReads, rfl⟩ := simpleForm_accepts hs hForm
  exact ⟨d, hReads, by rw [Simple.tree, hReads.join_prev d.starts.ne_nil]⟩

theorem unlessSees_accepts {α δ : Type} {p : Parser α} {leaves : δ → List Token} {value : δ → α}
    (hp : Accepts p leaves value) (k : Kind) :
    Accepts (unlessSees k p) (optionTokens leaves) (Option.map value) := by
  intro s s' a hs h
  rw [unlessSees, sees_ite] at h
  split at h
  · cases h
    exact ⟨none, .refl s, rfl⟩
  · obtain ⟨a, s₁, hA, h⟩ := bind_eq_ok_iff.mp h
    cases h
    obtain ⟨d, hReads, rfl⟩ := hp hs hA
    exact ⟨some d, hReads, rfl⟩

theorem semicolon_accepts {s s' : Stream} {u : Unit} (hs : s.Proper)
    (h : semicolon s = .ok (u, s')) : ∃ d : Mark .semicolon, s.Reads [d.1] s' :=
  discard_expect_accepts (by simp) hs h

theorem condition_accepts : Accepts condition Condition.tokens (fun c => c.value.tree) := by
  intro s s' e hs h
  obtain ⟨_, s₁, hOpen, h⟩ := bind_eq_ok_iff.mp h
  obtain ⟨l, hL⟩ := discard_expect_accepts (by simp) hs hOpen
  have hs₁ := hL.proper hs
  obtain ⟨e, s₂, hExpr, h⟩ := bind_eq_ok_iff.mp h
  obtain ⟨d, hD, rfl⟩ := expr_accepts hs₁ hExpr
  obtain ⟨_, s₃, hClose, h⟩ := bind_eq_ok_iff.mp h
  obtain ⟨r, hR⟩ := discard_expect_accepts (by simp) (hD.proper hs₁) hClose
  cases h
  exact ⟨⟨l, d, r⟩, hL.cons (hD.append hR), rfl⟩

section

variable {stmt : Parser (Stmt Unit)} (hStmt : Accepts stmt Statement.tokens Statement.tree)

include hStmt

theorem block_accepts : Accepts (block stmt) Braces.tokens Braces.trees := by
  intro s s' body hs h
  obtain ⟨_, s₁, hOpen, h⟩ := bind_eq_ok_iff.mp h
  obtain ⟨l, hL⟩ := discard_expect_accepts (by simp) hs hOpen
  have hs₁ := hL.proper hs
  obtain ⟨body, s₂, hBody, h⟩ := bind_eq_ok_iff.mp h
  obtain ⟨ds, hDs, rfl⟩ := many_accepts hStmt _ _ hs₁ hBody
  obtain ⟨_, s₃, hClose, h⟩ := bind_eq_ok_iff.mp h
  obtain ⟨r, hR⟩ := discard_expect_accepts (by simp) (hDs.proper hs₁) hClose
  cases h
  rw [← Statement.tokensAll_eq] at hDs
  exact ⟨.mk l ds r, hL.cons (hDs.append hR), Statement.treesAll_eq ds⟩

theorem elseBody_accepts : Accepts (elseBody stmt) Otherwise.tokens Otherwise.trees := by
  intro s s' body hs h
  rw [elseBody, take_ite] at h
  split at h
  · next hElse =>
    have hWord := hs.reads_head (by simp [hElse])
    have hs₁ := hWord.proper hs
    rw [sees_ite] at h
    split at h
    · next hIf =>
      obtain ⟨x, s₂, hX, h⟩ := bind_eq_ok_iff.mp h
      cases h
      obtain ⟨d, hReads, rfl⟩ := hStmt hs₁ hX
      obtain ⟨t, ts, hTokens, -⟩ := d.starts
      have hHead : s.tail.head = t := by rw [Stream.head, hReads.rest, hTokens]; rfl
      have hBranch := Statement.word?_of_tokens hTokens (hHead ▸ hIf) rfl
      cases d with
      | branch b => exact ⟨.branch ⟨s.head, hElse⟩ b, hWord.cons hReads, rfl⟩
      | jump j word semicolon => cases j <;> cases hBranch
      | _ => cases hBranch
    · obtain ⟨b, hReads, rfl⟩ := block_accepts hStmt hs₁ h
      exact ⟨.block ⟨s.head, hElse⟩ b, hWord.cons hReads, rfl⟩
  · cases h
    exact ⟨.none, .refl s, rfl⟩

theorem forForm_accepts {s s' : Stream} {form : Span → Stmt Unit} (hs : s.Proper)
    (h : forForm stmt s = .ok (form, s')) :
    ∃ (head : ForHead) (body : Braces), s.Reads (head.tokens ++ body.tokens) s' ∧
      form = fun span => .forLoop span (head.init.map Simple.tree)
        (head.cond.map Expression.tree) (head.update.map Simple.tree) body.trees := by
  obtain ⟨_, s₁, hOpen, h⟩ := bind_eq_ok_iff.mp h
  obtain ⟨l, hL⟩ := discard_expect_accepts (by simp) hs hOpen
  have hs := hL.proper hs
  obtain ⟨init, s₂, hInit, h⟩ := bind_eq_ok_iff.mp h
  obtain ⟨init, hI, rfl⟩ := unlessSees_accepts simple_accepts _ hs hInit
  have hs := hI.proper hs
  obtain ⟨_, s₃, hFirst, h⟩ := bind_eq_ok_iff.mp h
  obtain ⟨first, hF⟩ := semicolon_accepts hs hFirst
  have hs := hF.proper hs
  obtain ⟨cond, s₄, hCond, h⟩ := bind_eq_ok_iff.mp h
  obtain ⟨cond, hC, rfl⟩ := unlessSees_accepts expr_accepts _ hs hCond
  have hs := hC.proper hs
  obtain ⟨_, s₅, hSecond, h⟩ := bind_eq_ok_iff.mp h
  obtain ⟨second, hS⟩ := semicolon_accepts hs hSecond
  have hs := hS.proper hs
  obtain ⟨update, s₆, hUpdate, h⟩ := bind_eq_ok_iff.mp h
  obtain ⟨update, hU, rfl⟩ := unlessSees_accepts simple_accepts _ hs hUpdate
  have hs := hU.proper hs
  obtain ⟨_, s₇, hClose, h⟩ := bind_eq_ok_iff.mp h
  obtain ⟨r, hR⟩ := discard_expect_accepts (by simp) hs hClose
  have hs := hR.proper hs
  obtain ⟨body, s₈, hBody, h⟩ := bind_eq_ok_iff.mp h
  obtain ⟨body, hB, rfl⟩ := block_accepts hStmt hs hBody
  cases h
  have hHead : s.Reads (ForHead.tokens ⟨l, init, first, cond, second, update, r⟩) s₇ :=
    hL.cons (hI.append (hF.cons (hC.append (hS.cons (hU.append hR)))))
  exact ⟨_, body, hHead.append hB, rfl⟩

theorem stmtForm_accepts {s s' : Stream} {form : Span → Stmt Unit} (hs : s.Proper)
    (h : stmtForm stmt s = .ok (form, s')) :
    ∃ d : Statement, s.Reads d.tokens s' ∧ form (cover d.tokens) = d.tree := by
  cases hWord : s.head.kind.isStmtWord with
  | false =>
    rw [stmtForm_of_not_isStmtWord stmt hWord] at h
    obtain ⟨form, s₁, hForm, h⟩ := bind_eq_ok_iff.mp h
    obtain ⟨x, hX, rfl⟩ := simpleForm_accepts hs hForm
    obtain ⟨_, s₂, hSemicolon, h⟩ := bind_eq_ok_iff.mp h
    obtain ⟨semicolon, hS⟩ := semicolon_accepts (hX.proper hs) hSemicolon
    cases h
    exact ⟨.simple x semicolon, hX.append hS, rfl⟩
  | true =>
    have hRead := hs.reads_head (by rintro hEof; rw [hEof] at hWord; cases hWord)
    have hs₁ := hRead.proper hs
    rw [stmtForm, peekKind_bind] at h
    cases hKind : s.head.kind with
    | keyword w =>
      rw [hKind] at h hWord
      cases w with
      | return_ =>
        simp only [discard_advance_bind] at h
        obtain ⟨value, s₂, hValue, h⟩ := bind_eq_ok_iff.mp h
        obtain ⟨value, hV, rfl⟩ := unlessSees_accepts expr_accepts _ hs₁ hValue
        obtain ⟨_, s₃, hSemicolon, h⟩ := bind_eq_ok_iff.mp h
        obtain ⟨semicolon, hS⟩ := semicolon_accepts (hV.proper hs₁) hSemicolon
        cases h
        exact ⟨.ret ⟨s.head, hKind⟩ value semicolon, hRead.cons (hV.append hS), rfl⟩
      | if_ =>
        simp only [discard_advance_bind] at h
        obtain ⟨cond, s₂, hCond, h⟩ := bind_eq_ok_iff.mp h
        obtain ⟨cond, hC, rfl⟩ := condition_accepts hs₁ hCond
        have hs₂ := hC.proper hs₁
        obtain ⟨body, s₃, hBody, h⟩ := bind_eq_ok_iff.mp h
        obtain ⟨body, hB, rfl⟩ := block_accepts hStmt hs₂ hBody
        obtain ⟨otherwise, s₄, hElse, h⟩ := bind_eq_ok_iff.mp h
        obtain ⟨otherwise, hE, rfl⟩ := elseBody_accepts hStmt (hB.proper hs₂) hElse
        cases h
        exact ⟨.branch (.mk ⟨s.head, hKind⟩ cond body otherwise),
          hRead.cons (hC.append (hB.append hE)), rfl⟩
      | while_ =>
        simp only [discard_advance_bind] at h
        obtain ⟨cond, s₂, hCond, h⟩ := bind_eq_ok_iff.mp h
        obtain ⟨cond, hC, rfl⟩ := condition_accepts hs₁ hCond
        obtain ⟨body, s₃, hBody, h⟩ := bind_eq_ok_iff.mp h
        obtain ⟨body, hB, rfl⟩ := block_accepts hStmt (hC.proper hs₁) hBody
        cases h
        exact ⟨.whileDo ⟨s.head, hKind⟩ cond body, hRead.cons (hC.append hB), rfl⟩
      | do_ =>
        simp only [discard_advance_bind] at h
        obtain ⟨body, s₂, hBody, h⟩ := bind_eq_ok_iff.mp h
        obtain ⟨body, hB, rfl⟩ := block_accepts hStmt hs₁ hBody
        have hs₂ := hB.proper hs₁
        obtain ⟨_, s₃, hWhile, h⟩ := bind_eq_ok_iff.mp h
        obtain ⟨word, hW⟩ := discard_expect_accepts (by simp) hs₂ hWhile
        have hs₃ := hW.proper hs₂
        obtain ⟨cond, s₄, hCond, h⟩ := bind_eq_ok_iff.mp h
        obtain ⟨cond, hC, rfl⟩ := condition_accepts hs₃ hCond
        obtain ⟨_, s₅, hSemicolon, h⟩ := bind_eq_ok_iff.mp h
        obtain ⟨semicolon, hS⟩ := semicolon_accepts (hC.proper hs₃) hSemicolon
        cases h
        exact ⟨.doWhile ⟨s.head, hKind⟩ body word cond semicolon,
          hRead.cons (hB.append (hW.cons (hC.append hS))), rfl⟩
      | for_ =>
        simp only [discard_advance_bind] at h
        obtain ⟨head, body, hReads, rfl⟩ := forForm_accepts hStmt hs₁ h
        exact ⟨.forLoop ⟨s.head, hKind⟩ head body, hRead.cons hReads, rfl⟩
      | continue_ =>
        simp only [discard_advance_bind] at h
        obtain ⟨_, s₂, hSemicolon, h⟩ := bind_eq_ok_iff.mp h
        obtain ⟨semicolon, hS⟩ := semicolon_accepts hs₁ hSemicolon
        cases h
        exact ⟨.jump .continue_ ⟨s.head, hKind⟩ semicolon, hRead.cons hS, rfl⟩
      | break_ =>
        simp only [discard_advance_bind] at h
        obtain ⟨_, s₂, hSemicolon, h⟩ := bind_eq_ok_iff.mp h
        obtain ⟨semicolon, hS⟩ := semicolon_accepts hs₁ hSemicolon
        cases h
        exact ⟨.jump .break_ ⟨s.head, hKind⟩ semicolon, hRead.cons hS, rfl⟩
      | _ => cases hWord
    | _ =>
      rw [hKind] at hWord
      cases hWord

end

theorem stmtWithin_accepts (n : Nat) :
    Accepts (stmtWithin n) Statement.tokens Statement.tree := by
  induction n with
  | zero =>
    intro s s' x hs h
    cases h
  | succ n ih =>
    intro s s' x hs h
    rw [stmtWithin, spanned, peek_bind] at h
    obtain ⟨form, s₁, hForm, h⟩ := bind_eq_ok_iff.mp h
    cases h
    obtain ⟨d, hReads, hTree⟩ := stmtForm_accepts ih hs hForm
    exact ⟨d, hReads, by rw [← hTree, hReads.join_prev d.starts.ne_nil]⟩

theorem stmt_accepts : Accepts stmt Statement.tokens Statement.tree :=
  fun hs h => stmtWithin_accepts _ hs h

theorem param_accepts : Accepts param Parameter.tokens Parameter.tree := by
  intro s s' p hs h
  obtain ⟨ty, s₁, hTy, h⟩ := bind_eq_ok_iff.mp h
  obtain ⟨type, hType, rfl⟩ := type_accepts hs hTy
  obtain ⟨x, s₂, hX, h⟩ := bind_eq_ok_iff.mp h
  obtain ⟨x, hName, rfl⟩ := ident_accepts (hType.proper hs) hX
  cases h
  exact ⟨⟨type, x⟩, hType.append hName, rfl⟩

theorem item_accepts : Accepts item Definition.tokens Definition.tree := by
  intro s s' d hs h
  obtain ⟨ty, s₁, hTy, h⟩ := bind_eq_ok_iff.mp h
  obtain ⟨type, hType, rfl⟩ := type_accepts hs hTy
  have hs₁ := hType.proper hs
  obtain ⟨x, s₂, hX, h⟩ := bind_eq_ok_iff.mp h
  obtain ⟨x, hName, rfl⟩ := ident_accepts hs₁ hX
  have hs₂ := hName.proper hs₁
  rw [take_ite] at h
  split at h
  · next hOpen =>
    have hL := hs₂.reads_head (by simp [hOpen])
    have hs₃ := hL.proper hs₂
    obtain ⟨params, s₄, hParams, h⟩ := bind_eq_ok_iff.mp h
    obtain ⟨params, hP, rfl⟩ := sepList_accepts param_accepts _ _ hs₃ hParams
    have hs₄ := hP.proper hs₃
    obtain ⟨_, s₅, hClose, h⟩ := bind_eq_ok_iff.mp h
    obtain ⟨r, hR⟩ := discard_expect_accepts (by simp) hs₄ hClose
    obtain ⟨body, s₆, hBody, h⟩ := bind_eq_ok_iff.mp h
    obtain ⟨body, hB, rfl⟩ := block_accepts stmt_accepts (hR.proper hs₄) hBody
    cases h
    exact ⟨.function type x ⟨s₂.head, hOpen⟩ params r body,
      hType.append (hName.cons (hL.cons (hP.append (hR.cons hB)))), rfl⟩
  · obtain ⟨init, s₃, hInit, h⟩ := bind_eq_ok_iff.mp h
    obtain ⟨init, hI, rfl⟩ := initializer_accepts hs₂ hInit
    obtain ⟨_, s₄, hSemicolon, h⟩ := bind_eq_ok_iff.mp h
    obtain ⟨semicolon, hS⟩ := semicolon_accepts (hI.proper hs₂) hSemicolon
    cases h
    exact ⟨.global type x init semicolon,
      hType.append (hName.cons (hI.append hS)), rfl⟩

/-- A program is read up to the end of the file. -/
theorem program_accepts {s s' : Stream} {p : Program Unit} (hs : s.Proper)
    (h : program s = .ok (p, s')) : ∃ d : Derivation, d.tokens = s.rest ∧ d.tree = p := by
  obtain ⟨items, s₁, hItems, h⟩ := bind_eq_ok_iff.mp h
  obtain ⟨ds, hReads, rfl⟩ := many_accepts item_accepts _ _ hs hItems
  obtain ⟨_, s₂, hEof, h⟩ := bind_eq_ok_iff.mp h
  cases h
  have hEnd : s₁.head.kind = .eof := by
    rw [discard_run, expect_run] at hEof
    split at hEof
    · assumption
    · cases hEof
  have hNil := (hReads.proper hs).rest_eq_nil hEnd
  refine ⟨⟨ds⟩, ?_, rfl⟩
  rw [hReads.rest, hNil, List.append_nil]
  rfl

end Parser

end MiniC
