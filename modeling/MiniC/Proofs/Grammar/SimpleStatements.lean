import MiniC.Proofs.Grammar.Program
import MiniC.Proofs.Grammar.Rounds

/-! # Statements that start with a name

An equals sign may follow a name or its indices, so a statement that starts with a name is read
without the parser of expressions.  Where no equals sign follows, what is read is still the
expression that the parser of expressions reads there, to the same token and with the same spans.
-/
namespace MiniC
set_option autoImplicit false

open Grammar

/-- A position of the parser in a source: some of the last tokens that matter are left.  The parser
runs on sources without faulty tokens only. -/
structure Stream.Within (source : String) (s : Stream) : Prop where
  flawless : Token.firstFlaw? (Token.scan source) = none
  rest : s.rest <:+ Token.significant source
  eof : s.eof = Token.endOf source

theorem Stream.Within.proper {source : String} {s : Stream} (hs : s.Within source) : s.Proper where
  eof := hs.eof ▸ rfl
  rest _ ht := Token.significant_kind_ne_eof hs.flawless (hs.rest.subset ht)
  ordered := (Stream.proper_ofTokens hs.flawless).ordered.sublist hs.rest.sublist

namespace Parser

theorem bind_pure_run {α β : Type} (p : Parser α) (f : α → β) (s : Stream) :
    (p >>= fun a => pure (f a)) s = (p s).map fun r => (f r.1, r.2) := by
  rw [run_bind]
  cases p s <;> rfl

theorem simple_run (s : Stream) :
    simple s = (simpleForm s).map fun r => (r.1 (s.head.span.join r.2.prev), r.2) := by
  rw [simple, spanned, peek_bind, run_bind]
  cases simpleForm s <;> rfl

theorem nameSuffix_of_assign (p : Parser (Expr Unit)) (x : Ident) {s : Stream}
    (h : s.head.kind = .symbol .assign) : nameSuffix p x s = .ok (variableOf x, s) := by
  rw [nameSuffix, take_ite, if_neg (by simp [h]), sees_ite, if_neg (by simp [h]), peekKind_bind, h]
  rfl

theorem nameSuffix_of_lbracket (p : Parser (Expr Unit)) (x : Ident) {s : Stream}
    (h : s.head.kind = .symbol .lbracket) :
    nameSuffix p x s = (budgeted (fun n => subscripts p n (variableOf x)) s).map fun r =>
      (.index () (x.span.join r.2.prev) r.1.1 r.1.2, r.2) := by
  rw [nameSuffix, take_ite, if_neg (by simp [h]), sees_ite, if_pos h, run_bind]
  cases budgeted (fun n => subscripts p n (variableOf x)) s <;> rfl

theorem afterIdent_of_lbracket (x : Ident) {s s₁ : Stream} {base offset : Expr Unit}
    (h : s.head.kind = .symbol .lbracket)
    (hRun : budgeted (fun n => subscripts expr n (variableOf x)) s = .ok ((base, offset), s₁)) :
    afterIdent x s =
      if s₁.head.kind = .symbol .assign then
        (expr s₁.tail).map fun r => (fun span => .store span base offset r.1, r.2)
      else
        (operatorChain expr (.index () (base.span.join s₁.prev) base offset) s₁).map fun r =>
          (fun span => .expr span r.1, r.2) := by
  rw [afterIdent, take_ite, if_neg (by simp [h]), sees_ite, if_pos h, bind_of_ok hRun]
  change (take _ >>= _) s₁ = _
  rw [take_ite, prevSpan_bind, bind_pure_run]
  rfl

section

variable {s : Stream} (hs : s.Proper) (hName : s.head.kind = .identifier)

include hName

theorem simpleForm_of_identifier : simpleForm s = afterIdent (identOf s.head) s.tail := by
  rw [simpleForm, peekKind_bind, hName]
  change (ident >>= afterIdent) s = _
  rw [run_bind, ident, run_bind, expect_run, if_pos hName]
  rfl

include hs

theorem expr_of_identifier :
    expr s = (nameSuffix expr (identOf s.head) >>= operatorChain expr) s.tail := by
  rw [expr_eq hs, run_bind, primary, advance_bind, hName, run_bind]

/-- What is indexed starts at the name, also where only its own span is looked at. -/
theorem subscripts_join {base offset : Expr Unit} {s₁ : Stream}
    (h : budgeted (fun n => subscripts expr n (variableOf (identOf s.head))) s.tail =
      .ok ((base, offset), s₁)) :
    base.span.join s₁.prev = s.head.span.join s₁.prev := by
  have hRead := hs.reads_head (by simp [hName])
  obtain ⟨d, hReads, hSplit⟩ := subscripts_accepts expr_accepts (hRead.proper hs) h
  have hJoin := hs.join_subscripts (x := ⟨s.head, hName⟩) (hRead.cons hReads)
  rw [hSplit] at hJoin
  rw [hReads.prev, Subscripts.lastSpan_tokens]
  exact hJoin

/-- Either an equals sign follows the expression, and the statement writes what comes after it, or
the expression is the statement. -/
theorem simpleForm_cases :
    (∃ (e : Expr Unit) (s₁ : Stream) (write : Expr Unit → Span → Stmt Unit),
      expr s = .ok (e, s₁) ∧ s₁.head.kind = .symbol .assign ∧
        (∀ value span span' e', write value span ≠ .expr span' e') ∧
        simpleForm s = (expr s₁.tail).map fun r => (write r.1, r.2)) ∨
      simpleForm s = (expr s).map fun r => (fun span => .expr span r.1, r.2) := by
  rw [simpleForm_of_identifier hName, expr_of_identifier hs hName, run_bind]
  by_cases hSign : s.tail.head.kind = .symbol .assign
  · refine .inl ⟨variableOf (identOf s.head), s.tail,
      fun value span => .assign span (identOf s.head) value, ?_, hSign, ?_, ?_⟩
    · rw [nameSuffix_of_assign _ _ hSign]
      exact operatorChain_of_none _ _ (by rw [hSign]; rfl)
    · intro value span span' e h
      cases h
    · rw [afterIdent, take_ite, if_pos hSign, bind_pure_run]
  · by_cases hOpen : s.tail.head.kind = .symbol .lbracket
    · rw [nameSuffix_of_lbracket _ _ hOpen]
      cases hRun : budgeted (fun n => subscripts expr n (variableOf (identOf s.head))) s.tail with
      | error e =>
        right
        rw [afterIdent, take_ite, if_neg hSign, sees_ite, if_pos hOpen, run_bind, hRun]
        rfl
      | ok r =>
        obtain ⟨⟨base, offset⟩, s₁⟩ := r
        rw [afterIdent_of_lbracket _ hOpen hRun, subscripts_join hs hName hRun]
        split
        · next hSign =>
          refine .inl ⟨_, s₁, fun value span => .store span base offset value,
            operatorChain_of_none _ _ (by rw [hSign]; rfl), hSign, ?_, rfl⟩
          intro value span span' e h
          cases h
        · exact .inr rfl
    · right
      rw [afterIdent, take_ite, if_neg hSign, sees_ite, if_neg hOpen, run_bind]
      cases nameSuffix expr (identOf s.head) s.tail with
      | error e => rfl
      | ok r => exact bind_pure_run ..

end

/-- Where a name is next, the statement that is an expression is the expression that the parser of
expressions reads.  Where no equals sign stops that parser, the statement is its expression, and
where that parser fails, reading the statement fails in the same way. -/
theorem simple_agrees_with_expr {source : String} {s : Stream} (hs : s.Within source)
    (hName : s.head.kind = .identifier) :
    (∀ span e s', simple s = .ok (.expr span e, s') → expr s = .ok (e, s')) ∧
    (∀ e s', expr s = .ok (e, s') → s'.head.kind ≠ .symbol .assign →
      simple s = .ok (.expr (s.head.span.join s'.prev) e, s')) ∧
    ∀ e, expr s = .error e → simple s = .error e := by
  rw [simple_run]
  rcases simpleForm_cases hs.proper hName with
    ⟨e₁, s₁, write, hExpr, hSign, hWrite, hForm⟩ | hForm
  · rw [hForm, hExpr]
    refine ⟨fun span e s' h => ?_, fun e s' h hNot => ?_, fun e h => ?_⟩
    · cases hValue : expr s₁.tail with
      | error e =>
        rw [hValue] at h
        cases h
      | ok r =>
        rw [hValue] at h
        injection h with h
        injection h with hStmt
        exact absurd hStmt (hWrite _ _ _ _)
    · cases h
      exact absurd hSign hNot
    · cases h
  · rw [hForm]
    cases expr s with
    | error e =>
      refine ⟨fun span e s' h => ?_, fun e s' h _ => ?_, fun e' h => ?_⟩
      · cases h
      · cases h
      · cases h
        rfl
    | ok r =>
      refine ⟨fun span e s' h => ?_, fun e s' h _ => ?_, fun e h => ?_⟩
      · cases h
        rfl
      · cases h
        rfl
      · cases h

/-- A statement that starts with an indexed name. -/
theorem simple_agrees_with_expr_indexed :
    let source := "void f() { g[1][2] + h(3) * 2; }"
    let s : Stream := ⟨(Token.significant source).drop 5, Token.endOf source, ⟨9, 1, 1⟩⟩
    s.Within source ∧ s.head.kind = .identifier ∧
      ∃ e s', expr s = .ok (e, s') ∧ s'.head.kind = .symbol .semicolon ∧
        simple s = .ok (.expr (s.head.span.join s'.prev) e, s') := by
  intro source s
  have hWithin : s.Within source :=
    ⟨(congrArg Token.firstFlaw? (Token.scan_ofList _)).trans (by decide +kernel),
      List.drop_suffix _ _, rfl⟩
  let from5 (ts : List Token) : Stream := ⟨ts.drop 5, Token.endOf source, ⟨9, 1, 1⟩⟩
  have hName : s.head.kind = .identifier :=
    (congrArg (fun ts => (from5 ts).head.kind) (Token.significant_ofList _)).trans
      (by decide +kernel)
  have hEnds : ((expr s).toOption.map fun r => r.2.head.kind) = some (.symbol .semicolon) :=
    (congrArg (fun ts => (expr (from5 ts)).toOption.map fun r => r.2.head.kind)
      (Token.significant_ofList _)).trans (by decide +kernel)
  refine ⟨hWithin, hName, ?_⟩
  cases hRun : expr s with
  | error e =>
    rw [hRun] at hEnds
    cases hEnds
  | ok r =>
    rw [hRun] at hEnds
    have hKind : r.2.head.kind = .symbol .semicolon := Option.some.inj hEnds
    exact ⟨r.1, r.2, rfl, hKind,
      (simple_agrees_with_expr hWithin hName).2.1 r.1 r.2 hRun (by simp [hKind])⟩

end Parser

end MiniC
