import MiniC.Proofs.Grammar.Reading

/-! # Accepted expressions are derived by the grammar

A parser that succeeds has read exactly the leaves of a phrase, and what it returns is the tree of
that phrase.
-/
namespace MiniC
set_option autoImplicit false

open Grammar

namespace Parser

/-- Whatever the parser accepts is a phrase of the given kind. -/
def Accepts {α δ : Type} (p : Parser α) (leaves : δ → List Token) (value : δ → α) : Prop :=
  ∀ {s s' : Stream} {a : α}, s.Proper → p s = .ok (a, s') →
    ∃ d, s.Reads (leaves d) s' ∧ value d = a

/-- After what the parser accepts there is no binary operator. -/
def Exhausts {α : Type} (p : Parser α) : Prop :=
  ∀ {s s' : Stream} {a : α}, p s = .ok (a, s') → BinaryOp.ofKind? s'.head.kind = none

theorem expect_accepts {k : Kind} (hk : k ≠ .eof) {s s' : Stream} {t : Token} (hs : s.Proper)
    (h : expect k s = .ok (t, s')) : ∃ d : Terminal k, d.1 = t ∧ s.Reads [d.1] s' := by
  rw [expect_run] at h
  split at h
  · next hKind =>
    cases h
    exact ⟨⟨s.head, hKind⟩, rfl, hs.reads_head (hKind ▸ hk)⟩
  · cases h

theorem discard_expect_accepts {k : Kind} (hk : k ≠ .eof) {s s' : Stream} {u : Unit}
    (hs : s.Proper) (h : (discard (expect k)) s = .ok (u, s')) :
    ∃ d : Terminal k, s.Reads [d.1] s' := by
  rw [discard_run] at h
  cases hExpect : expect k s with
  | error e => rw [hExpect] at h; cases h
  | ok r =>
    rw [hExpect] at h
    cases h
    obtain ⟨d, -, hReads⟩ := expect_accepts hk hs hExpect
    exact ⟨d, hReads⟩

theorem many_accepts {α δ : Type} {item : Parser α} {leaves : δ → List Token} {value : δ → α}
    (hItem : Accepts item leaves value) (stop : Kind) (n : Nat) :
    Accepts (many stop item n) (List.flatMap leaves) (List.map value) := by
  induction n with
  | zero =>
    intro s s' as hs h
    cases h
  | succ n ih =>
    intro s s' as hs h
    simp only [many, peekKind_bind, ite_run] at h
    split at h
    · cases h
      exact ⟨[], .refl s, rfl⟩
    · obtain ⟨a, s₁, hA, h⟩ := bind_eq_ok_iff.mp h
      obtain ⟨as, s₂, hAs, h⟩ := bind_eq_ok_iff.mp h
      cases h
      obtain ⟨d, hRead, rfl⟩ := hItem hs hA
      obtain ⟨ds, hReads, rfl⟩ := ih (hRead.proper hs) hAs
      exact ⟨d :: ds, hRead.append hReads, rfl⟩

theorem sepList_accepts {α δ : Type} {item : Parser α} {leaves : δ → List Token} {value : δ → α}
    (hItem : Accepts item leaves value) (close : Kind) (n : Nat) :
    Accepts (sepList close (.symbol .comma) item n) (Separated.tokens leaves)
      (Separated.items value) := by
  induction n with
  | zero =>
    intro s s' as hs h
    cases h
  | succ n ih =>
    intro s s' as hs h
    simp only [sepList, peekKind_bind, ite_run] at h
    split at h
    · cases h
      exact ⟨.empty, .refl s, rfl⟩
    · obtain ⟨a, s₁, hA, h⟩ := bind_eq_ok_iff.mp h
      obtain ⟨d, hRead, rfl⟩ := hItem hs hA
      rw [take_ite] at h
      split at h
      · next hComma =>
        obtain ⟨as, s₂, hAs, h⟩ := bind_eq_ok_iff.mp h
        cases h
        have hMark := (hRead.proper hs).reads_head (by simp [hComma])
        obtain ⟨ds, hReads, rfl⟩ := ih (hMark.proper (hRead.proper hs)) hAs
        exact ⟨.more d ⟨s₁.head, hComma⟩ ds, hRead.append (hMark.cons hReads), rfl⟩
      · simp only [peek_bind, ite_run] at h
        split at h
        · cases h
          exact ⟨.last d, hRead, rfl⟩
        · cases h

section

variable {expr : Parser (Expr Unit)} (hExpr : Accepts expr Expression.tokens Expression.tree)

include hExpr

theorem args_accepts {s s' : Stream} {es : List (Expr Unit)} (hs : s.Proper)
    (h : budgeted (sepList (.symbol .rparen) (.symbol .comma) expr) s = .ok (es, s')) :
    ∃ args, s.Reads (Expression.tokensAll args) s' ∧ Expression.treesAll args = es := by
  obtain ⟨args, hReads, rfl⟩ := sepList_accepts hExpr _ _ hs h
  exact ⟨args, Expression.tokensAll_eq args ▸ hReads, Expression.treesAll_eq args⟩

theorem subscripts_accepts {n : Nat} {base : Expr Unit} {parts : Expr Unit × Expr Unit}
    {s s' : Stream} (hs : s.Proper) (h : subscripts expr n base s = .ok (parts, s')) :
    ∃ d : Subscripts, s.Reads d.tokens s' ∧ d.split base = parts := by
  induction n generalizing base s with
  | zero => cases h
  | succ n ih =>
    obtain ⟨_, s₁, hOpen, h⟩ := bind_eq_ok_iff.mp h
    obtain ⟨l, hL⟩ := discard_expect_accepts (by simp) hs hOpen
    obtain ⟨offset, s₂, hOffset, h⟩ := bind_eq_ok_iff.mp h
    obtain ⟨d, hD, rfl⟩ := hExpr (hL.proper hs) hOffset
    obtain ⟨_, s₃, hClose, h⟩ := bind_eq_ok_iff.mp h
    obtain ⟨r, hR⟩ := discard_expect_accepts (by simp) (hD.proper (hL.proper hs)) hClose
    have hProper := hR.proper (hD.proper (hL.proper hs))
    rw [sees_ite] at h
    split at h
    · rw [prevSpan_bind, hR.prev] at h
      obtain ⟨rest, hRest, hSplit⟩ := ih hProper h
      exact ⟨.more l d r rest, hL.cons (hD.append (hR.cons hRest)), hSplit⟩
    · cases h
      exact ⟨.last l d r, hL.cons (hD.append hR), rfl⟩

theorem nameSuffix_accepts (x : Name) {s s' : Stream} {e : Expr Unit} (hs : s.Proper)
    (h : nameSuffix expr (identOf x.1) s = .ok (e, s')) :
    ∃ (a : Atom) (ts : List Token), a.tokens = x.1 :: ts ∧ s.Reads ts s' ∧ a.tree = e := by
  simp only [nameSuffix, take_ite] at h
  split at h
  · next hOpen =>
    have hL := hs.reads_head (by simp [hOpen])
    obtain ⟨es, s₁, hArgs, h⟩ := bind_eq_ok_iff.mp h
    obtain ⟨args, hReads, rfl⟩ := args_accepts hExpr (hL.proper hs) hArgs
    obtain ⟨_, s₂, hClose, h⟩ := bind_eq_ok_iff.mp h
    obtain ⟨r, rfl, hR⟩ := expect_accepts (by simp) (hReads.proper (hL.proper hs)) hClose
    cases h
    exact ⟨.call x ⟨s.head, hOpen⟩ args r, _, rfl, hL.cons (hReads.append hR), rfl⟩
  · rw [sees_ite] at h
    split at h
    · obtain ⟨⟨base, offset⟩, s₁, hSubscripts, h⟩ := bind_eq_ok_iff.mp h
      obtain ⟨d, hReads, hSplit⟩ := subscripts_accepts hExpr hs hSubscripts
      cases h
      refine ⟨.index x d, _, rfl, hReads, ?_⟩
      rw [Atom.tree, hSplit, hReads.prev, Subscripts.lastSpan_tokens]
      rfl
    · rw [peekKind_bind] at h
      cases hOp : UnaryOp.ofKindAfter? s.head.kind with
      | some op =>
        rw [hOp] at h
        cases h
        have hKind : s.head.kind = op.kind ∧ (op = .increment ∨ op = .decrement) := by
          unfold UnaryOp.ofKindAfter? at hOp
          split at hOp <;> cases hOp <;> simp [*, UnaryOp.kind]
        obtain ⟨hKind, rfl | rfl⟩ := hKind
        · exact ⟨.increment x ⟨s.head, hKind⟩, _, rfl,
            hs.reads_head (by simp [hKind, UnaryOp.kind]), rfl⟩
        · exact ⟨.decrement x ⟨s.head, hKind⟩, _, rfl,
            hs.reads_head (by simp [hKind, UnaryOp.kind]), rfl⟩
      | none =>
        rw [hOp] at h
        cases h
        exact ⟨.name x, [], rfl, .refl s, rfl⟩

theorem operatorChain_accepts {lhs e : Expr Unit} {s s' : Stream} (hs : s.Proper)
    (h : operatorChain expr lhs s = .ok (e, s')) :
    ∃ d : Tail, s.Reads d.tokens s' ∧ d.applyTo lhs = e := by
  cases hOp : BinaryOp.ofKind? s.head.kind with
  | none =>
    rw [operatorChain_of_none expr lhs hOp] at h
    cases h
    exact ⟨.none, .refl s, rfl⟩
  | some op =>
    rw [operatorChain_of_some expr lhs hOp] at h
    have hKind := BinaryOp.kind_of_ofKind? hOp
    have hRead := hs.reads_head (by cases op <;> simp [hKind, BinaryOp.kind])
    obtain ⟨rhs, s₂, hRhs, h⟩ := bind_eq_ok_iff.mp h
    obtain ⟨d, hReads, rfl⟩ := hExpr (hRead.proper hs) hRhs
    cases h
    exact ⟨.operator op ⟨s.head, hKind⟩ d, hRead.cons hReads, rfl⟩

end

section

variable {expr : Parser (Expr Unit)} (hExpr : Accepts expr Expression.tokens Expression.tree)
  (hExhausts : Exhausts expr)

include hExhausts in
theorem operatorChain_exhausts (lhs : Expr Unit) : Exhausts (operatorChain expr lhs) := by
  intro s s' e h
  cases hOp : BinaryOp.ofKind? s.head.kind with
  | none =>
    rw [operatorChain_of_none expr lhs hOp] at h
    cases h
    exact hOp
  | some op =>
    rw [operatorChain_of_some expr lhs hOp] at h
    obtain ⟨rhs, s₁, hRhs, h⟩ := bind_eq_ok_iff.mp h
    cases h
    exact hExhausts hRhs

include hExpr hExhausts

/-- An operator and its operand are a whole expression: no operator can follow. -/
theorem operand_accepts {op : UnaryOp} (sign : Terminal op.kind) {e : Expr Unit} {s s' : Stream}
    (hs : s.Proper) (h : operand expr op s = .ok (e, s')) :
    ∃ (d : Expression) (ts : List Token), d.tokens = sign.1 :: ts ∧ s.Reads ts s' ∧
      d.tree = .unary () (sign.1.span.join e.span) op .before e ∧
      BinaryOp.ofKind? s'.head.kind = none := by
  have hPlain (h : expr s = .ok (e, s')) :
      ∃ (d : Expression) (ts : List Token), d.tokens = sign.1 :: ts ∧ s.Reads ts s' ∧
        d.tree = .unary () (sign.1.span.join e.span) op .before e ∧
        BinaryOp.ofKind? s'.head.kind = none := by
    obtain ⟨d, hReads, rfl⟩ := hExpr hs h
    exact ⟨.before op sign d, _, rfl, hReads, rfl, hExhausts h⟩
  simp only [operand, ite_run] at h
  split at h
  · next hNegate =>
    subst hNegate
    rw [seesMinMagnitude_ite] at h
    split at h
    · next hLeast =>
      rw [advance_bind] at h
      have hRead := hs.reads_head (by simp [hLeast.1])
      obtain ⟨tail, hReads, rfl⟩ := operatorChain_accepts hExpr (hRead.proper hs) h
      exact ⟨.least sign ⟨s.head, hLeast⟩ tail, _, rfl, hRead.cons hReads, rfl,
        operatorChain_exhausts hExhausts _ h⟩
    · exact hPlain h
  · exact hPlain h

theorem primary_accepts {e : Expr Unit} {s s' : Stream} (hs : s.Proper)
    (h : primary expr s = .ok (e, s')) :
    (∃ a : Atom, s.Reads a.tokens s' ∧ a.tree = e) ∨
      ∃ d : Expression, s.Reads d.tokens s' ∧ d.tree = e ∧
        BinaryOp.ofKind? s'.head.kind = none := by
  rw [primary, advance_bind] at h
  have hRead := hs.reads_head (s := s)
  cases hKind : s.head.kind with
  | string =>
    rw [hKind] at h
    cases h
    exact .inl ⟨.string ⟨s.head, hKind⟩, hRead (by simp [hKind]), rfl⟩
  | escapedString =>
    rw [hKind] at h
    cases h
    exact .inl ⟨.escapedString ⟨s.head, hKind⟩, hRead (by simp [hKind]), rfl⟩
  | number =>
    rw [hKind] at h
    by_cases hRange : digitsValue s.head.text < 0x80000000
    · have hValue : Token.intValue? s.head.text = some (Int32.ofNat (digitsValue s.head.text)) :=
        if_pos hRange
      simp only [hValue] at h
      cases h
      exact .inl ⟨.number ⟨s.head, hKind, hRange⟩, hRead (by simp [hKind]), rfl⟩
    · have hValue : Token.intValue? s.head.text = none := if_neg hRange
      simp only [hValue] at h
      cases h
  | decimal =>
    rw [hKind] at h
    cases h
    exact .inl ⟨.decimal ⟨s.head, hKind⟩, hRead (by simp [hKind]), rfl⟩
  | identifier =>
    rw [hKind] at h
    have hName := hRead (by simp [hKind])
    obtain ⟨a, ts, hTokens, hReads, rfl⟩ :=
      nameSuffix_accepts hExpr ⟨s.head, hKind⟩ (hName.proper hs) h
    exact .inl ⟨a, hTokens ▸ hName.cons hReads, rfl⟩
  | symbol m =>
    rw [hKind] at h
    have hSign := hRead (by simp [hKind])
    by_cases hOpen : m = .lparen
    · subst hOpen
      obtain ⟨inner, s₁, hInner, h⟩ := bind_eq_ok_iff.mp h
      obtain ⟨d, hReads, rfl⟩ := hExpr (hSign.proper hs) hInner
      obtain ⟨_, s₂, hClose, h⟩ := bind_eq_ok_iff.mp h
      obtain ⟨r, rfl, hR⟩ :=
        expect_accepts (by simp) (hReads.proper (hSign.proper hs)) hClose
      cases h
      exact .inl ⟨.parens ⟨s.head, hKind⟩ d r, hSign.cons (hReads.append hR), rfl⟩
    · cases hOp : UnaryOp.ofSymbol? m with
      | none =>
        simp only [hOp] at h
        cases h
      | some op =>
        simp only [hOp] at h
        obtain ⟨inner, s₁, hInner, h⟩ := bind_eq_ok_iff.mp h
        cases h
        have hSignKind := hKind.trans (UnaryOp.kind_of_ofSymbol? hOp)
        obtain ⟨d, ts, hTokens, hReads, hTree, hEnd⟩ :=
          operand_accepts hExpr hExhausts ⟨s.head, hSignKind⟩ (hSign.proper hs) hInner
        exact .inr ⟨d, hTokens ▸ hSign.cons hReads, hTree, hEnd⟩
  | keyword _ | whitespace | lineComment | blockComment | eof | flaw _ =>
    rw [hKind] at h
    cases h

end

theorem exprWithin_accepts (n : Nat) :
    Accepts (exprWithin n) Expression.tokens Expression.tree ∧ Exhausts (exprWithin n) := by
  induction n with
  | zero =>
    constructor
    · intro s s' e hs h
      cases h
    · intro s s' e h
      cases h
  | succ n ih =>
    obtain ⟨hExpr, hExhausts⟩ := ih
    constructor
    · intro s s' e hs h
      obtain ⟨lhs, s₁, hPrimary, h⟩ := bind_eq_ok_iff.mp h
      rcases primary_accepts hExpr hExhausts hs hPrimary with
        ⟨a, hReads, rfl⟩ | ⟨d, hReads, rfl, hEnd⟩
      · obtain ⟨tail, hTail, rfl⟩ := operatorChain_accepts hExpr (hReads.proper hs) h
        exact ⟨.chain a tail, hReads.append hTail, rfl⟩
      · rw [operatorChain_of_none _ _ hEnd] at h
        cases h
        exact ⟨d, hReads, rfl⟩
    · intro s s' e h
      obtain ⟨lhs, s₁, -, h⟩ := bind_eq_ok_iff.mp h
      exact operatorChain_exhausts hExhausts lhs h

theorem expr_accepts : Accepts expr Expression.tokens Expression.tree :=
  fun hs h => (exprWithin_accepts _).1 hs h

end Parser

end MiniC
