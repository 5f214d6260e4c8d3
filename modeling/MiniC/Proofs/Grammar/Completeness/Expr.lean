import MiniC.Proofs.Grammar.Reading

/-! # Derived expressions are accepted

From a stream that starts with the leaves of a phrase, the parser reads exactly these, provided that
what follows cannot belong to the phrase.  The bound on the rounds only has to exceed the number of
leaves.
-/
namespace MiniC
set_option autoImplicit false

open Grammar

/-- Where a kind in `f` follows the given tokens, the kind that is seen first is one in `g`. -/
def Grammar.Leads (f : Kind → Prop) (ts : List Token) (g : Kind → Prop) : Prop :=
  ∀ (r : List Token) (eof : Token), f (r.headD eof).kind → g ((ts ++ r).headD eof).kind

namespace Grammar.Leads

variable {f g : Kind → Prop}

theorem nil (h : ∀ k, f k → g k) : Leads f [] g := fun _ _ hr => h _ hr

theorem cons {t : Token} (ts : List Token) (h : g t.kind) : Leads f (t :: ts) g := fun _ _ _ => h

theorem append {h : Kind → Prop} {ts us : List Token} (hTs : Leads g ts h) (hUs : Leads f us g) :
    Leads f (ts ++ us) h := by
  intro r eof hr
  rw [List.append_assoc]
  exact hTs (us ++ r) eof (hUs r eof hr)

theorem ofStart {test : Kind → Bool} {ts : List Token} (h : StartsWith test ts)
    (hTest : ∀ k, test k = true → g k) : Leads f ts g := by
  obtain ⟨t, r, rfl, hKind⟩ := h
  exact .cons r (hTest _ hKind)

end Grammar.Leads

theorem Grammar.Tail.leads (d : Tail) :
    Leads (fun k => k.closesExpr = true) d.tokens fun k => k.closesAtom = true := by
  cases d with
  | none => exact .nil fun k hk => Kind.closesAtom_of_closesExpr hk
  | operator op sign rhs => exact .cons _ (by rw [sign.2]; exact Kind.closesAtom_kind op)

theorem Grammar.Subscripts.leads (f : Kind → Prop) (d : Subscripts) :
    Leads f d.tokens (· = .symbol .lbracket) :=
  .ofStart d.starts fun _ hk => of_decide_eq_true hk

namespace Parser

variable {α β : Type}

/-- The parser reads the tokens `ts` wherever a kind in `f` follows them. -/
def Parses (p : Parser α) (f : Kind → Prop) (ts : List Token) (a : α) : Prop :=
  ∀ (r : List Token) (eof : Token) (prev : Span), f (r.headD eof).kind →
    p ⟨ts ++ r, eof, prev⟩ = .ok (a, ⟨r, eof, lastSpan prev ts⟩)

namespace Parses

variable {p : Parser α} {q : α → Parser β} {f g : Kind → Prop} {ts us : List Token} {a : α} {b : β}

theorem pure (f : Kind → Prop) (a : α) : Parses (pure a) f [] a := fun _ _ _ _ => rfl

theorem imp (h : Parses p f ts a) (hImp : ∀ k, g k → f k) : Parses p g ts a :=
  fun r eof prev hr => h r eof prev (hImp _ hr)

theorem bind (hp : Parses p f ts a) (hLeads : Leads g us f) (hq : Parses (q a) g us b) :
    Parses (p >>= q) g (ts ++ us) b := by
  intro r eof prev hr
  rw [List.append_assoc, bind_of_ok (hp (us ++ r) eof prev (hLeads r eof hr)), lastSpan_append]
  exact hq r eof _ hr

theorem bind_nil (hp : Parses p f ts a) (hImp : ∀ k, g k → f k) (hq : Parses (q a) g [] b) :
    Parses (p >>= q) g ts b := by
  intro r eof prev hr
  rw [bind_of_ok (hp r eof prev (hImp _ hr))]
  exact hq r eof _ hr

/-- A parser that does not look beyond what it reads. -/
theorem andThen (hp : Parses p (fun _ => True) ts a) (hq : Parses (q a) g us b) :
    Parses (p >>= q) g (ts ++ us) b := hp.bind (fun _ _ _ => trivial) hq

theorem map (hp : Parses p f ts a) (h : α → β) :
    Parses (p >>= fun a => Pure.pure (h a)) f ts (h a) := by
  intro r eof prev hr
  exact bind_of_ok (hp r eof prev hr)

/-- A parser may be replaced by what it comes down to on what it sees. -/
theorem congr {p p' : Parser α} (hRun : ∀ s : Stream, g s.head.kind → p s = p' s)
    (hLeads : Leads f ts g) (h : Parses p' f ts a) : Parses p f ts a := by
  intro r eof prev hr
  exact (hRun ⟨ts ++ r, eof, prev⟩ (hLeads r eof hr)).trans (h r eof prev hr)

theorem budgeted {p : Nat → Parser α} (h : ∀ n, ts.length < n → Parses (p n) f ts a) :
    Parses (budgeted p) f ts a := by
  intro r eof prev hr
  exact h _ (by rw [List.length_append]; omega) r eof prev hr

/-- A token that decides by its kind what is read next. -/
theorem take_ite_cons {k : Kind} {p q : Parser α} (t : Terminal k) (h : Parses p f ts a) :
    Parses (take k >>= fun taken => if taken = true then p else q) f (t.1 :: ts) a := by
  intro r eof prev hr
  rw [take_ite]
  exact (if_pos t.2).trans (h r eof _ hr)

theorem take_ite_of_ne {k : Kind} {p q : Parser α} (hNe : Leads f ts (· ≠ k))
    (h : Parses q f ts a) :
    Parses (take k >>= fun taken => if taken = true then p else q) f ts a :=
  h.congr (fun s hs => (take_ite k p q s).trans (if_neg hs)) hNe

theorem sees_ite_of_eq {k : Kind} {p q : Parser α} (hSeen : Leads f ts (· = k))
    (h : Parses p f ts a) :
    Parses (sees k >>= fun seen => if seen = true then p else q) f ts a :=
  h.congr (fun s hs => (sees_ite k p q s).trans (if_pos hs)) hSeen

theorem sees_ite_of_ne {k : Kind} {p q : Parser α} (hNe : Leads f ts (· ≠ k))
    (h : Parses q f ts a) :
    Parses (sees k >>= fun seen => if seen = true then p else q) f ts a :=
  h.congr (fun s hs => (sees_ite k p q s).trans (if_neg hs)) hNe

end Parses

theorem expect_parses {k : Kind} (t : Terminal k) :
    Parses (expect k) (fun _ => True) [t.1] t.1 := by
  intro r eof prev _
  rw [expect_run]
  exact if_pos t.2

theorem discard_expect_parses {k : Kind} (t : Terminal k) :
    Parses (discard (expect k)) (fun _ => True) [t.1] () := by
  intro r eof prev _
  rw [discard_run, expect_parses t r eof prev trivial]
  rfl

/-- Items that each read their own leaves, where another item or the end of the list follows. -/
theorem many_parses {δ : Type} {item : Parser α} {leaves : δ → List Token} {value : δ → α}
    {test : Kind → Bool} {f : Kind → Prop} {stop : Kind} {ds : List δ}
    (hItem : ∀ d ∈ ds, Parses item f (leaves d) (value d))
    (hStarts : ∀ d, StartsWith test (leaves d))
    (hTest : ∀ k, test k = true → ¬ (k = .eof ∨ k = stop) ∧ f k)
    (hStop : ∀ k, k = .eof ∨ k = stop → f k) {n : Nat}
    (hn : (ds.flatMap leaves).length < n) :
    Parses (many stop item n) (fun k => k = .eof ∨ k = stop) (ds.flatMap leaves)
      (ds.map value) := by
  induction ds generalizing n with
  | nil =>
    obtain ⟨n, rfl⟩ : ∃ n', n = n' + 1 := ⟨n - 1, by omega⟩
    intro r eof prev hr
    rw [List.flatMap_nil, many, peekKind_bind, ite_run]
    exact if_pos hr
  | cons d ds ih =>
    have hPos := (hStarts d).length_pos
    rw [List.flatMap_cons, List.length_append] at hn
    obtain ⟨n, rfl⟩ : ∃ n', n = n' + 1 := ⟨n - 1, by omega⟩
    have hLeads : Leads (fun k => k = .eof ∨ k = stop) (ds.flatMap leaves) f := by
      cases ds with
      | nil => exact .nil hStop
      | cons d' ds =>
        exact .ofStart ((hStarts d').append _) fun k hk => (hTest k hk).2
    have hStart : Leads (fun k => k = .eof ∨ k = stop) ((d :: ds).flatMap leaves)
        fun k => ¬ (k = .eof ∨ k = stop) :=
      .ofStart ((hStarts d).append _) fun k hk => (hTest k hk).1
    refine .congr (fun s hs => many_of_item stop item n hs) hStart ?_
    refine .bind (hItem d List.mem_cons_self) hLeads ?_
    have hRest := ih (fun d' hd' => hItem d' (List.mem_cons_of_mem d hd')) (n := n) (by omega)
    exact hRest.map (value d :: ·)

theorem sepList_parses {δ : Type} {item : Parser α} {leaves : δ → List Token} {value : δ → α}
    {test : Kind → Bool} {f : Kind → Prop} {close : Kind} {m : Nat}
    (hItem : ∀ d, (leaves d).length < m → Parses item f (leaves d) (value d))
    (hStarts : ∀ d, StartsWith test (leaves d))
    (hTest : ∀ k, test k = true → ¬ (k = .eof ∨ k = close))
    (hComma : f (.symbol .comma)) (hClose : f close) (hNe : close ≠ .symbol .comma)
    (ds : Separated δ) (hLength : (ds.tokens leaves).length < m) {n : Nat}
    (hn : (ds.tokens leaves).length < n) :
    Parses (sepList close (.symbol .comma) item n) (· = close) (ds.tokens leaves)
      (ds.items value) := by
  induction ds generalizing n with
  | empty =>
    obtain ⟨n, rfl⟩ : ∃ n', n = n' + 1 := ⟨n - 1, by omega⟩
    intro r eof prev hr
    rw [sepList, peekKind_bind, ite_run]
    exact if_pos (.inr hr)
  | last d =>
    obtain ⟨n, rfl⟩ : ∃ n', n = n' + 1 := ⟨n - 1, by omega⟩
    have hAfter : Parses (do
        let t ← peek
        if t.kind = close then return [value d]
        fail t.span (.unexpectedAny [.symbol .comma, close] t.kind)) (· = close) []
          [value d] := by
      intro r eof prev hr
      rw [peek_bind, ite_run]
      exact if_pos hr
    refine .congr (fun s hs => sepList_of_item close _ item n hs) (.ofStart (hStarts d) hTest) ?_
    refine .bind_nil (hItem d hLength) (fun k hk => hk ▸ hClose) ?_
    exact .take_ite_of_ne (.nil fun k hk => hk ▸ hNe) hAfter
  | more d comma ds ih =>
    obtain ⟨n, rfl⟩ : ∃ n', n = n' + 1 := ⟨n - 1, by omega⟩
    simp only [Separated.tokens, List.length_append, List.length_cons] at hLength hn
    refine .congr (fun s hs => sepList_of_item close _ item n hs)
      (.ofStart ((hStarts d).append _) hTest) ?_
    refine .bind (hItem d (by omega)) (.cons _ (by rwa [comma.2])) ?_
    exact .take_ite_cons comma ((ih (by omega) (by omega)).map (value d :: ·))

section

variable {expr : Parser (Expr Unit)} {m : Nat}
  (hExpr : ∀ d : Expression, d.tokens.length < m →
    Parses expr (fun k => k.closesExpr = true) d.tokens d.tree)

include hExpr

theorem operatorChain_parses (lhs : Expr Unit) (d : Tail) (h : d.tokens.length ≤ m) :
    Parses (operatorChain expr lhs) (fun k => k.closesExpr = true) d.tokens (d.applyTo lhs) := by
  cases d with
  | none =>
    intro r eof prev hr
    exact operatorChain_of_none expr lhs (Kind.ofKind?_of_closesExpr hr)
  | operator op sign rhs =>
    intro r eof prev hr
    have hOp : BinaryOp.ofKind? sign.1.kind = some op := by rw [sign.2, BinaryOp.ofKind?_kind]
    have hRhs := (hExpr rhs h).map fun e => Expr.binary () (lhs.span.join e.span) op lhs e
    refine (operatorChain_of_some expr lhs ?_).trans (hRhs r eof sign.1.span hr)
    exact hOp

theorem args_parses (args : Separated Expression) (h : (Expression.tokensAll args).length < m) :
    Parses (budgeted (sepList (.symbol .rparen) (.symbol .comma) expr)) (· = .symbol .rparen)
      (Expression.tokensAll args) (Expression.treesAll args) := by
  rw [Expression.tokensAll_eq] at h ⊢
  rw [Expression.treesAll_eq]
  refine .budgeted fun n hn => ?_
  refine sepList_parses hExpr Expression.starts (fun k hk => ?_) rfl rfl (by decide) args h hn
  rintro (rfl | rfl) <;> cases hk

/-- Each subscript but the last is followed by another bracket. -/
theorem subscripts_parses (d : Subscripts) (h : d.tokens.length ≤ m) (base : Expr Unit) {n : Nat}
    (hn : d.tokens.length < n) :
    Parses (subscripts expr n base) (· ≠ .symbol .lbracket) d.tokens (d.split base) := by
  obtain ⟨n, rfl⟩ : ∃ n', n = n' + 1 := ⟨n - 1, by omega⟩
  cases d with
  | last l offset r =>
    simp only [Subscripts.tokens, List.length_cons, List.length_append] at h
    refine .andThen (discard_expect_parses l) ?_
    refine .bind (hExpr offset (by omega)) (.cons _ (by rw [r.2]; rfl)) ?_
    refine .bind_nil (discard_expect_parses r) (fun _ _ => trivial) ?_
    exact .sees_ite_of_ne (.nil fun k hk => hk) (.pure _ _)
  | more l offset r rest =>
    simp only [Subscripts.tokens, List.length_cons, List.length_append] at h hn
    have hRest := subscripts_parses rest (by omega)
      (.index () (base.span.join r.1.span) base offset.tree) (n := n) (by omega)
    refine .andThen (discard_expect_parses l) ?_
    refine .bind (hExpr offset (by omega)) (.cons _ (by rw [r.2]; rfl)) ?_
    -- the span of the bracket just read becomes part of the tree
    intro s eof prev hs
    refine (bind_of_ok (discard_expect_parses r _ eof prev trivial)).trans ?_
    rw [sees_ite]
    exact (if_pos (rest.leads (· ≠ .symbol .lbracket) s eof hs)).trans (hRest s eof _ hs)

theorem nameSuffix_parses {a : Atom} {x : Name} {ts : List Token}
    (hName : a.afterName? = some (x, ts)) (h : ts.length ≤ m) :
    Parses (nameSuffix expr (identOf x.1)) (fun k => k.closesAtom = true) ts a.tree := by
  cases a with
  | name x =>
    cases hName
    refine .take_ite_of_ne (.nil fun k hk => (Kind.of_closesAtom hk).1) ?_
    refine .sees_ite_of_ne (.nil fun k hk => (Kind.of_closesAtom hk).2.1) ?_
    intro r eof prev hr
    have hAfter : UnaryOp.ofKindAfter? (Stream.mk r eof prev).head.kind = none :=
      (Kind.of_closesAtom hr).2.2.2
    rw [List.nil_append, peekKind_bind, hAfter]
    rfl
  | call x l args r =>
    cases hName
    simp only [List.length_cons, List.length_append] at h
    refine .take_ite_cons l ?_
    refine .bind (args_parses hExpr args (by omega)) (.cons _ r.2) ?_
    exact ((expect_parses r).imp fun _ _ => trivial).map _
  | index x d =>
    cases hName
    have hOpen := d.leads fun k => k.closesAtom = true
    have hSplit : Parses (budgeted fun n => subscripts expr n (variableOf (identOf x.1)))
        (· ≠ .symbol .lbracket) d.tokens (d.split (variableOf (identOf x.1))) :=
      .budgeted fun n hn => subscripts_parses hExpr d h _ hn
    refine .take_ite_of_ne (fun r eof hr => by rw [hOpen r eof hr]; decide) ?_
    refine .sees_ite_of_eq hOpen ?_
    intro r eof prev hr
    refine (bind_of_ok (hSplit r eof prev (Kind.of_closesAtom hr).2.1)).trans ?_
    have hPrev := d.lastSpan_tokens prev
    change Except.ok (Expr.index () (x.1.span.join (lastSpan prev d.tokens)) _ _, _) = _
    rw [Atom.tree, hPrev]
  | increment x sign | decrement x sign =>
    cases hName
    refine .take_ite_of_ne (.cons _ (by rw [sign.2]; decide)) ?_
    refine .sees_ite_of_ne (.cons _ (by rw [sign.2]; decide)) ?_
    intro r eof prev hr
    rw [peekKind_bind]
    simp only [List.cons_append, Stream.head_cons, sign.2]
    rfl
  | _ => cases hName

/-- An atom is read, where it cannot go on. -/
theorem primary_parses_atom (a : Atom) (h : a.tokens.length ≤ m + 1) :
    Parses (primary expr) (fun k => k.closesAtom = true) a.tokens a.tree := by
  have hNamed {x : Name} {ts : List Token} (hName : a.afterName? = some (x, ts))
      (hTokens : a.tokens = x.1 :: ts) :
      Parses (primary expr) (fun k => k.closesAtom = true) a.tokens a.tree := by
    rw [hTokens] at h ⊢
    intro r eof prev hr
    rw [List.cons_append, primary, advance_bind, Stream.head_cons, x.2]
    exact nameSuffix_parses hExpr hName (Nat.le_of_succ_le_succ h) r eof _ hr
  cases a with
  | name x | call x l args r | index x d | increment x sign | decrement x sign =>
    exact hNamed rfl rfl
  | string t | escapedString t | decimal t =>
    intro r eof prev hr
    rw [Atom.tokens, List.cons_append, primary, advance_bind, Stream.head_cons, t.2]
    rfl
  | number t =>
    have hValue : Token.intValue? t.1.text = some (Int32.ofNat (digitsValue t.1.text)) :=
      if_pos t.2.2
    intro r eof prev hr
    rw [Atom.tokens, List.cons_append, primary, advance_bind, Stream.head_cons, t.2.1]
    simp only [hValue]
    rfl
  | parens l inner close =>
    simp only [Atom.tokens, List.length_cons, List.length_append] at h
    have hInner : Parses (expr >>= fun e => expect (.symbol .rparen) >>= fun t =>
        pure (e.withSpan (l.1.span.join t.span))) (fun _ => True) (inner.tokens ++ [close.1])
          (inner.tree.withSpan (l.1.span.join close.1.span)) := by
      refine .bind (hExpr inner (by omega)) (.cons _ (by rw [close.2]; rfl)) ?_
      exact (expect_parses close).map _
    intro r eof prev hr
    rw [Atom.tokens, List.cons_append, primary, advance_bind, Stream.head_cons, l.2]
    exact hInner r eof _ trivial

theorem operand_parses (op : UnaryOp) (d : Expression) (h : d.tokens.length < m) :
    Parses (operand expr op) (fun k => k.closesExpr = true) d.tokens d.tree := by
  intro r eof prev hr
  rw [operand, ite_run]
  split
  · obtain ⟨t, ts, hEq, -⟩ := d.starts
    have hLeast : ¬ ((Stream.mk (d.tokens ++ r) eof prev).head.kind = .number ∧
        digitsValue (Stream.mk (d.tokens ++ r) eof prev).head.text = 0x80000000) := by
      rw [hEq]
      exact Expression.head_ne_least hEq
    rw [seesMinMagnitude_ite, if_neg hLeast]
    exact hExpr d h r eof prev hr
  · exact hExpr d h r eof prev hr

theorem operand_parses_least (literal : Least) (d : Tail) (h : d.tokens.length ≤ m) :
    Parses (operand expr .negate) (fun k => k.closesExpr = true) (literal.1 :: d.tokens)
      (d.applyTo (.const () literal.1.span (.int Int32.minValue))) := by
  intro r eof prev hr
  rw [operand, ite_run, if_pos rfl, seesMinMagnitude_ite]
  exact (if_pos literal.2).trans (operatorChain_parses hExpr _ d h r eof _ hr)

omit hExpr in
theorem primary_parses_before (op : UnaryOp) (sign : Terminal op.kind) {ts : List Token}
    {e : Expr Unit} (h : Parses (operand expr op) (fun k => k.closesExpr = true) ts e) :
    Parses (primary expr) (fun k => k.closesExpr = true) (sign.1 :: ts)
      (.unary () (sign.1.span.join e.span) op .before e) := by
  have hMap := h.map fun e => Expr.unary () (sign.1.span.join e.span) op .before e
  intro r eof prev hr
  rw [List.cons_append, primary, advance_bind, Stream.head_cons, sign.2]
  cases op <;> exact hMap r eof _ hr

end

theorem exprWithin_parses (n : Nat) (d : Expression) (h : d.tokens.length < n) :
    Parses (exprWithin n) (fun k => k.closesExpr = true) d.tokens d.tree := by
  induction n generalizing d with
  | zero => exact absurd h (Nat.not_lt_zero _)
  | succ n ih =>
    cases d with
    | before op sign operand =>
      rw [Expression.tokens, List.length_cons] at h
      have hOperand := operand_parses ih op operand (by omega)
      exact .bind_nil (primary_parses_before op sign hOperand) (fun _ hk => hk)
        (operatorChain_parses ih _ .none (Nat.zero_le n))
    | least minus literal tail =>
      rw [Expression.tokens, List.length_cons, List.length_cons] at h
      have hOperand := operand_parses_least ih literal tail (by omega)
      exact .bind_nil (primary_parses_before .negate minus hOperand) (fun _ hk => hk)
        (operatorChain_parses ih _ .none (Nat.zero_le n))
    | chain atom tail =>
      rw [Expression.tokens, List.length_append] at h
      have hPos := atom.starts.length_pos
      exact .bind (primary_parses_atom ih atom (by omega)) tail.leads
        (operatorChain_parses ih _ tail (by omega))

theorem expr_parses (d : Expression) :
    Parses expr (fun k => k.closesExpr = true) d.tokens d.tree :=
  .budgeted fun n hn => exprWithin_parses n d hn

end Parser

end MiniC
