import MiniC.Proofs.Grammar.Reading
import MiniC.Proofs.Relocation.Check

/-! # Parsing moved tokens

The parser decides by the kinds and the texts of tokens alone; spans it only copies and joins.  So
tokens that are moved, in a way that goes together with joining, give the moved tree, or an error at
the moved token.
-/
namespace MiniC
set_option autoImplicit false

def Token.mapSpan (φ : Span → Span) (t : Token) : Token := { t with span := φ t.span }

def Stream.mapSpan (φ : Span → Span) (s : Stream) : Stream :=
  ⟨s.rest.map (Token.mapSpan φ), s.eof.mapSpan φ, φ s.prev⟩

/-- A way to move what a parser reads, and the places of its errors. -/
structure Motion where
  move : Span → Span
  place : Span → Span
  move_join : ∀ a b : Span, move (a.join b) = (move a).join (move b)

namespace Motion

variable {α β γ δ : Type} (M : Motion)

/-- An error at the token is placed where the token is moved. -/
def Places (t : Token) : Prop := M.place t.span = M.move t.span

def PlacesAll (s : Stream) : Prop := ∀ t ∈ s.eof :: s.rest, M.Places t

/-- The token is moved, and so is an error at it. -/
def OnToken (t t' : Token) : Prop := t' = t.mapSpan M.move ∧ M.Places t

/-- The two parsers do the same, one of them with everything moved: results as `r` says. -/
def Moves (r : α → β → Prop) (p : Parser α) (p' : Parser β) : Prop :=
  ∀ s, M.PlacesAll s →
    match p s with
    | .ok (a, s') =>
      M.PlacesAll s' ∧ ∃ a', r a a' ∧ p' (s.mapSpan M.move) = .ok (a', s'.mapSpan M.move)
    | .error e => p' (s.mapSpan M.move) = .error (e.mapSpan M.place)

/-- Results that are moved by a function. -/
abbrev MovesBy (g : α → β) (p : Parser α) (p' : Parser β) : Prop :=
  M.Moves (fun a a' => a' = g a) p p'

variable {M}

@[simp] theorem head_mapSpan (φ : Span → Span) (s : Stream) :
    (s.mapSpan φ).head = s.head.mapSpan φ := by
  obtain ⟨rest, eof, prev⟩ := s
  cases rest <;> rfl

@[simp] theorem tail_mapSpan (φ : Span → Span) (s : Stream) :
    (s.mapSpan φ).tail = s.tail.mapSpan φ := by
  obtain ⟨rest, eof, prev⟩ := s
  cases rest <;> rfl

theorem PlacesAll.head {s : Stream} (h : M.PlacesAll s) : M.Places s.head := by
  obtain ⟨rest, eof, prev⟩ := s
  cases rest with
  | nil => exact h eof List.mem_cons_self
  | cons t rest => exact h t (List.mem_cons_of_mem _ List.mem_cons_self)

theorem PlacesAll.tail {s : Stream} (h : M.PlacesAll s) : M.PlacesAll s.tail := by
  intro t ht
  rcases List.mem_cons.mp ht with rfl | ht
  · exact h _ List.mem_cons_self
  · exact h t (List.mem_cons_of_mem _ (List.mem_of_mem_tail ht))

namespace Moves

variable {r : α → β → Prop} {r' : γ → δ → Prop}

theorem pure {a : α} {a' : β} (h : r a a') : M.Moves r (Pure.pure a) (Pure.pure a') :=
  fun _ hs => ⟨hs, a', h, rfl⟩

theorem bind {p : Parser α} {p' : Parser β} {k : α → Parser γ} {k' : β → Parser δ}
    (hp : M.Moves r p p') (hk : ∀ a a', r a a' → M.Moves r' (k a) (k' a')) :
    M.Moves r' (p >>= k) (p' >>= k') := by
  intro s hs
  have hRun := hp s hs
  rw [Parser.run_bind, Parser.run_bind]
  cases h : p s with
  | ok x =>
    rw [h] at hRun
    obtain ⟨hPlaces, a', hr, hRun⟩ := hRun
    rw [hRun]
    exact hk x.1 a' hr x.2 hPlaces
  | error e =>
    rw [h] at hRun
    rw [hRun]
    rfl

theorem bindBy {p : Parser α} {p' : Parser β} {k : α → Parser γ} {k' : β → Parser δ} {g : α → β}
    (hp : M.MovesBy g p p') (hk : ∀ a, M.Moves r' (k a) (k' (g a))) :
    M.Moves r' (p >>= k) (p' >>= k') :=
  hp.bind fun a _ h => h ▸ hk a

theorem discard {p : Parser α} {p' : Parser β} (hp : M.Moves r p p') :
    M.MovesBy id (discard p) (discard p') :=
  hp.bind fun _ _ _ => pure rfl

theorem ite {c : Prop} [Decidable c] {p q : Parser α} {p' q' : Parser β} (hp : M.Moves r p p')
    (hq : M.Moves r q q') : M.Moves r (if c then p else q) (if c then p' else q') := by
  split
  · exact hp
  · exact hq

theorem budgeted {p : Nat → Parser α} {p' : Nat → Parser β} (hp : ∀ n, M.Moves r (p n) (p' n)) :
    M.Moves r (Parser.budgeted p) (Parser.budgeted p') := by
  intro s hs
  have hLength : (s.mapSpan M.move).rest.length = s.rest.length := List.length_map _
  simp only [Parser.budgeted, hLength]
  exact hp _ s hs

theorem run_eq {p : Parser α} {p' : Parser β} {g : α → β} (h : M.MovesBy g p p') {s : Stream}
    (hs : M.PlacesAll s) :
    p' (s.mapSpan M.move) = relocate M.place (Prod.map g (Stream.mapSpan M.move)) (p s) := by
  have hRun := h s hs
  cases hp : p s with
  | ok x =>
    rw [hp] at hRun
    obtain ⟨-, _, rfl, hRun⟩ := hRun
    exact hRun
  | error e =>
    rw [hp] at hRun
    exact hRun

end Moves

open MiniC.Parser

variable {r : α → β → Prop}

theorem peek_moves : M.Moves M.OnToken peek peek := by
  intro s hs
  refine ⟨hs, _, ⟨rfl, hs.head⟩, ?_⟩
  rw [← head_mapSpan]
  rfl

theorem advance_moves : M.Moves M.OnToken advance advance := by
  intro s hs
  refine ⟨hs.tail, _, ⟨rfl, hs.head⟩, ?_⟩
  rw [advance, head_mapSpan, tail_mapSpan]

theorem peekKind_moves : M.MovesBy id peekKind peekKind := by
  intro s hs
  refine ⟨hs, _, rfl, ?_⟩
  change Except.ok ((s.mapSpan M.move).head.kind, _) = _
  rw [head_mapSpan]
  rfl

theorem prevSpan_moves : M.MovesBy M.move prevSpan prevSpan :=
  fun _ hs => ⟨hs, _, rfl, rfl⟩

theorem fail_moves {t t' : Token} (h : M.OnToken t t') {e : ParseError} :
    M.Moves r (fail t.span e) (fail t'.span e) := by
  obtain ⟨rfl, hPlace⟩ := h
  intro s hs
  change Except.error _ = Except.error _
  rw [Located.mapSpan, hPlace]
  rfl

theorem exhausted_moves : M.Moves r exhausted exhausted :=
  peek_moves.bind fun _ _ ht => fail_moves ht

theorem sees_moves (k : Kind) : M.MovesBy id (sees k) (sees k) :=
  peekKind_moves.bindBy fun _ => .pure rfl

theorem take_moves (k : Kind) : M.MovesBy id (take k) (take k) :=
  (sees_moves k).bindBy fun _ => .ite (advance_moves.discard.bindBy fun _ => .pure rfl) (.pure rfl)

theorem expect_moves (k : Kind) : M.Moves M.OnToken (expect k) (expect k) := by
  refine peek_moves.bind ?_
  rintro t _ ⟨rfl, hPlace⟩
  exact .ite advance_moves (fail_moves ⟨rfl, hPlace⟩)

theorem expectAny_moves (kinds : List Kind) :
    M.Moves M.OnToken (expectAny kinds) (expectAny kinds) := by
  refine peek_moves.bind ?_
  rintro t _ ⟨rfl, hPlace⟩
  exact .ite advance_moves (fail_moves ⟨rfl, hPlace⟩)

theorem many_moves {item : Parser α} {item' : Parser β} {g : α → β} (stop : Kind)
    (h : M.MovesBy g item item') (n : Nat) :
    M.MovesBy (List.map g) (many stop item n) (many stop item' n) := by
  induction n with
  | zero => exact exhausted_moves
  | succ n ih =>
    exact peekKind_moves.bindBy fun _ => .ite (.pure rfl)
      (h.bindBy fun _ => ih.bindBy fun _ => .pure rfl)

theorem sepList_moves {item : Parser α} {item' : Parser β} {g : α → β} (close sep : Kind)
    (h : M.MovesBy g item item') (n : Nat) :
    M.MovesBy (List.map g) (sepList close sep item n) (sepList close sep item' n) := by
  induction n with
  | zero => exact exhausted_moves
  | succ n ih =>
    refine peekKind_moves.bindBy fun _ => .ite (.pure rfl) (h.bindBy fun x => ?_)
    refine (take_moves sep).bindBy fun _ => .ite (ih.bindBy fun _ => .pure rfl) ?_
    refine peek_moves.bind ?_
    rintro t _ ⟨rfl, hPlace⟩
    exact .ite (.pure rfl) (fail_moves ⟨rfl, hPlace⟩)

theorem unlessSees_moves {p : Parser α} {p' : Parser β} {g : α → β} (k : Kind)
    (h : M.MovesBy g p p') : M.MovesBy (Option.map g) (unlessSees k p) (unlessSees k p') :=
  (sees_moves k).bindBy fun _ => .ite (.pure rfl) (h.bindBy fun _ => .pure rfl)

/-- Trees that wait for their span. -/
def OnForm (b b' : Span → Stmt Unit) : Prop := ∀ s, b' (M.move s) = (b s).mapSpan M.move

theorem spanned_moves {p p' : Parser (Span → Stmt Unit)} (h : M.Moves M.OnForm p p') :
    M.MovesBy (Stmt.mapSpan M.move) (spanned p) (spanned p') := by
  refine peek_moves.bind ?_
  rintro t _ ⟨rfl, -⟩
  refine h.bind fun b b' hb => prevSpan_moves.bindBy fun last => .pure ?_
  rw [← hb, M.move_join]
  rfl

theorem ident_moves : M.MovesBy (Ident.mapSpan M.move) ident ident := by
  refine (expect_moves _).bind ?_
  rintro t _ ⟨rfl, -⟩
  exact .pure rfl

theorem seesMinMagnitude_moves : M.MovesBy id seesMinMagnitude seesMinMagnitude := by
  refine peek_moves.bind ?_
  rintro t _ ⟨rfl, -⟩
  exact .pure rfl

section

variable {expr expr' : Parser (Expr Unit)} (hExpr : M.MovesBy (Expr.mapSpan M.move) expr expr')

include hExpr

theorem operatorChain_moves (lhs : Expr Unit) :
    M.MovesBy (Expr.mapSpan M.move) (operatorChain expr lhs)
      (operatorChain expr' (lhs.mapSpan M.move)) := by
  refine peekKind_moves.bindBy fun k => ?_
  simp only [id]
  split
  · exact .pure rfl
  · refine advance_moves.discard.bindBy fun _ => hExpr.bindBy fun rhs => .pure ?_
    simp only [Expr.mapSpan, Expr.span_mapSpan, M.move_join]

theorem subscripts_moves (n : Nat) (base : Expr Unit) :
    M.MovesBy (Prod.map (Expr.mapSpan M.move) (Expr.mapSpan M.move)) (subscripts expr n base)
      (subscripts expr' n (base.mapSpan M.move)) := by
  induction n generalizing base with
  | zero => exact exhausted_moves
  | succ n ih =>
    refine (expect_moves _).discard.bindBy fun _ => hExpr.bindBy fun offset =>
      (expect_moves _).discard.bindBy fun _ => (sees_moves _).bindBy fun _ => .ite ?_ (.pure rfl)
    refine prevSpan_moves.bindBy fun last => ?_
    have hIndex : Expr.index () ((base.mapSpan M.move).span.join (M.move last))
        (base.mapSpan M.move) (offset.mapSpan M.move) =
        (Expr.index () (base.span.join last) base offset).mapSpan M.move := by
      rw [Expr.mapSpan, Expr.span_mapSpan, M.move_join]
    rw [hIndex]
    exact ih _

theorem nameSuffix_moves (x : Ident) :
    M.MovesBy (Expr.mapSpan M.move) (nameSuffix expr x)
      (nameSuffix expr' (x.mapSpan M.move)) := by
  refine (take_moves _).bindBy fun _ => .ite ?_ ?_
  · refine (Moves.budgeted (sepList_moves _ _ hExpr)).bindBy fun args => (expect_moves _).bind ?_
    rintro t _ ⟨rfl, -⟩
    refine .pure ?_
    rw [Expr.mapSpan, M.move_join, Expr.mapSpanAll_eq_map]
    rfl
  refine (sees_moves _).bindBy fun _ => .ite ?_ ?_
  · refine (Moves.budgeted fun n => subscripts_moves hExpr n (variableOf x)).bindBy fun parts =>
      prevSpan_moves.bindBy fun last => .pure ?_
    rw [Expr.mapSpan, M.move_join]
    rfl
  · refine peekKind_moves.bindBy fun k => ?_
    simp only [id]
    split
    · refine advance_moves.bind ?_
      rintro t _ ⟨rfl, -⟩
      refine .pure ?_
      rw [Expr.mapSpan, M.move_join]
      rfl
    · exact .pure rfl

theorem operand_moves (op : UnaryOp) :
    M.MovesBy (Expr.mapSpan M.move) (operand expr op) (operand expr' op) := by
  refine .ite ((seesMinMagnitude_moves).bindBy fun _ => .ite ?_ hExpr) hExpr
  refine advance_moves.bind ?_
  rintro t _ ⟨rfl, -⟩
  exact operatorChain_moves hExpr (.const () t.span (.int Int32.minValue))

theorem parenthesized_moves (span : Span) :
    M.MovesBy (Expr.mapSpan M.move)
      (do
        let inner ← expr
        let close ← expect (.symbol .rparen)
        return inner.withSpan (span.join close.span))
      (do
        let inner ← expr'
        let close ← expect (.symbol .rparen)
        return inner.withSpan ((M.move span).join close.span)) := by
  refine hExpr.bindBy fun inner => (expect_moves _).bind ?_
  rintro t _ ⟨rfl, -⟩
  refine .pure ?_
  rw [Expr.mapSpan_withSpan, M.move_join]
  rfl

theorem prefixed_moves (span : Span) (op : UnaryOp) :
    M.MovesBy (Expr.mapSpan M.move)
      (do
        let inner ← operand expr op
        return .unary () (span.join inner.span) op .before inner)
      (do
        let inner ← operand expr' op
        return .unary () ((M.move span).join inner.span) op .before inner) := by
  refine (operand_moves hExpr op).bindBy fun inner => .pure ?_
  rw [Expr.mapSpan, Expr.span_mapSpan, M.move_join]

theorem primary_moves : M.MovesBy (Expr.mapSpan M.move) (primary expr) (primary expr') := by
  refine advance_moves.bind ?_
  rintro t _ ⟨rfl, hPlace⟩
  have hFail (e : ParseError) : M.MovesBy (Expr.mapSpan M.move (α := Unit)) (fail t.span e)
      (fail (t.mapSpan M.move).span e) := fail_moves ⟨rfl, hPlace⟩
  obtain ⟨kind, span, text⟩ := t
  simp only [Token.mapSpan] at hFail ⊢
  cases kind with
  | string => exact .pure rfl
  | escapedString => exact .pure rfl
  | number =>
    simp only
    split
    · exact .pure rfl
    · exact hFail _
  | decimal => exact .pure rfl
  | identifier => exact nameSuffix_moves hExpr (identOf ⟨.identifier, span, text⟩)
  | symbol s =>
    cases s with
    | lparen => exact parenthesized_moves hExpr span
    | plusPlus => exact prefixed_moves hExpr span .increment
    | minusMinus => exact prefixed_moves hExpr span .decrement
    | bang => exact prefixed_moves hExpr span .not
    | star => exact prefixed_moves hExpr span .deref
    | minus => exact prefixed_moves hExpr span .negate
    | _ => exact hFail _
  | _ => exact hFail _

end

theorem exprWithin_moves (n : Nat) :
    M.MovesBy (Expr.mapSpan M.move) (exprWithin n) (exprWithin n) := by
  induction n with
  | zero => exact exhausted_moves
  | succ n ih => exact (primary_moves ih).bindBy fun lhs => operatorChain_moves ih lhs

theorem expr_moves : M.MovesBy (Expr.mapSpan M.move) expr expr := .budgeted exprWithin_moves

theorem pointers_moves (n : Nat) : M.MovesBy id (pointers n) (pointers n) := by
  induction n with
  | zero => exact .pure rfl
  | succ n ih =>
    exact (take_moves _).bindBy fun _ => .ite (ih.bindBy fun _ => .pure rfl) (.pure rfl)

theorem type_moves : M.MovesBy id type type := by
  refine (expectAny_moves _).bind ?_
  rintro t _ ⟨rfl, -⟩
  exact (Moves.budgeted pointers_moves).bindBy fun _ => .pure rfl

theorem initializer_moves :
    M.MovesBy (Option.map (Expr.mapSpan M.move)) initializer initializer :=
  (take_moves _).bindBy fun _ => .ite (expr_moves.bindBy fun _ => .pure rfl) (.pure rfl)

theorem arraySize_moves : M.MovesBy id arraySize arraySize := by
  refine advance_moves.bind ?_
  rintro t _ ⟨rfl, hPlace⟩
  have hFail (e : ParseError) : M.MovesBy id (fail t.span e : Parser Nat)
      (fail (t.mapSpan M.move).span e) := fail_moves ⟨rfl, hPlace⟩
  obtain ⟨kind, span, text⟩ := t
  simp only [Token.mapSpan] at hFail ⊢
  cases kind with
  | number =>
    simp only
    split
    · exact .pure rfl
    · exact hFail _
  | _ => exact hFail _

theorem arraySizes_moves (n : Nat) : M.MovesBy id (arraySizes n) (arraySizes n) := by
  induction n with
  | zero => exact exhausted_moves
  | succ n ih =>
    refine (take_moves _).bindBy fun _ => .ite ?_ (.pure rfl)
    exact arraySize_moves.bindBy fun _ => (expect_moves _).discard.bindBy fun _ =>
      ih.bindBy fun _ => .pure rfl

theorem declaration_moves : M.Moves M.OnForm declaration declaration :=
  type_moves.bindBy fun _ => ident_moves.bindBy fun _ =>
    (Moves.budgeted arraySizes_moves).bindBy fun _ => initializer_moves.bindBy fun _ =>
      .pure fun _ => rfl

theorem afterIdent_moves (x : Ident) :
    M.Moves M.OnForm (afterIdent x) (afterIdent (x.mapSpan M.move)) := by
  refine (take_moves _).bindBy fun _ => .ite (expr_moves.bindBy fun _ => .pure fun _ => rfl) ?_
  refine (sees_moves _).bindBy fun _ => .ite ?_ ?_
  · refine (Moves.budgeted fun n =>
      subscripts_moves expr_moves n (variableOf x)).bindBy fun parts =>
      (take_moves _).bindBy fun _ => .ite (expr_moves.bindBy fun _ => .pure fun _ => rfl) ?_
    refine prevSpan_moves.bindBy fun last => ?_
    have hIndex : Expr.index () ((parts.1.mapSpan M.move).span.join (M.move last))
        (parts.1.mapSpan M.move) (parts.2.mapSpan M.move) =
        (Expr.index () (parts.1.span.join last) parts.1 parts.2).mapSpan M.move := by
      rw [Expr.mapSpan, Expr.span_mapSpan, M.move_join]
    simp only [hIndex]
    exact (operatorChain_moves expr_moves _).bindBy fun _ => .pure fun _ => rfl
  · exact (nameSuffix_moves expr_moves x).bindBy fun lhs =>
      (operatorChain_moves expr_moves lhs).bindBy fun _ => .pure fun _ => rfl

theorem simpleForm_moves : M.Moves M.OnForm simpleForm simpleForm :=
  peekKind_moves.bindBy fun _ => .ite declaration_moves
    (.ite (ident_moves.bindBy afterIdent_moves) (expr_moves.bindBy fun _ => .pure fun _ => rfl))

theorem simple_moves : M.MovesBy (Stmt.mapSpan M.move) simple simple :=
  spanned_moves simpleForm_moves

theorem semicolon_moves : M.MovesBy id semicolon semicolon := (expect_moves _).discard

theorem condition_moves : M.MovesBy (Expr.mapSpan M.move) condition condition :=
  (expect_moves _).discard.bindBy fun _ => expr_moves.bindBy fun _ =>
    (expect_moves _).discard.bindBy fun _ => .pure rfl

section

variable {stmt stmt' : Parser (Stmt Unit)} (hStmt : M.MovesBy (Stmt.mapSpan M.move) stmt stmt')

include hStmt

theorem block_moves : M.MovesBy (Stmt.mapSpanAll M.move) (block stmt) (block stmt') := by
  refine (expect_moves _).discard.bindBy fun _ =>
    (Moves.budgeted (many_moves _ hStmt)).bindBy fun _ => (expect_moves _).discard.bindBy fun _ =>
      .pure ?_
  rw [Stmt.mapSpanAll_eq_map]

theorem elseBody_moves : M.MovesBy (Stmt.mapSpanAll M.move) (elseBody stmt) (elseBody stmt') :=
  (take_moves _).bindBy fun _ => .ite ((sees_moves _).bindBy fun _ => .ite
    (hStmt.bindBy fun _ => .pure rfl) (block_moves hStmt)) (.pure rfl)

theorem forForm_moves : M.Moves M.OnForm (forForm stmt) (forForm stmt') := by
  refine (expect_moves _).discard.bindBy fun _ =>
    (unlessSees_moves _ simple_moves).bindBy fun init => semicolon_moves.bindBy fun _ =>
      (unlessSees_moves _ expr_moves).bindBy fun cond => semicolon_moves.bindBy fun _ =>
        (unlessSees_moves _ simple_moves).bindBy fun update =>
          (expect_moves _).discard.bindBy fun _ => (block_moves hStmt).bindBy fun body =>
            .pure fun s => ?_
  rw [Stmt.mapSpan, Stmt.mapSpanOption_eq_map, Stmt.mapSpanOption_eq_map]

theorem stmtForm_moves : M.Moves M.OnForm (stmtForm stmt) (stmtForm stmt') := by
  have hSimple : M.Moves M.OnForm
      (simpleForm >>= fun form => semicolon >>= fun _ => pure form)
      (simpleForm >>= fun form => semicolon >>= fun _ => pure form) :=
    simpleForm_moves.bind fun _ _ hForm => semicolon_moves.bindBy fun _ => .pure hForm
  refine peekKind_moves.bindBy fun k => ?_
  simp only [id]
  cases k with
  | keyword w =>
    cases w with
    | return_ =>
      exact advance_moves.discard.bindBy fun _ => (unlessSees_moves _ expr_moves).bindBy fun _ =>
        semicolon_moves.bindBy fun _ => .pure fun _ => rfl
    | if_ =>
      exact advance_moves.discard.bindBy fun _ => condition_moves.bindBy fun _ =>
        (block_moves hStmt).bindBy fun _ => (elseBody_moves hStmt).bindBy fun _ =>
          .pure fun _ => rfl
    | while_ =>
      exact advance_moves.discard.bindBy fun _ => condition_moves.bindBy fun _ =>
        (block_moves hStmt).bindBy fun _ => .pure fun _ => rfl
    | do_ =>
      exact advance_moves.discard.bindBy fun _ => (block_moves hStmt).bindBy fun _ =>
        (expect_moves _).discard.bindBy fun _ => condition_moves.bindBy fun _ =>
          semicolon_moves.bindBy fun _ => .pure fun _ => rfl
    | for_ => exact advance_moves.discard.bindBy fun _ => forForm_moves hStmt
    | continue_ =>
      exact advance_moves.discard.bindBy fun _ => semicolon_moves.bindBy fun _ =>
        .pure fun _ => rfl
    | break_ =>
      exact advance_moves.discard.bindBy fun _ => semicolon_moves.bindBy fun _ =>
        .pure fun _ => rfl
    | _ => exact hSimple
  | _ => exact hSimple

end

theorem stmtWithin_moves (n : Nat) :
    M.MovesBy (Stmt.mapSpan M.move) (stmtWithin n) (stmtWithin n) := by
  induction n with
  | zero => exact exhausted_moves
  | succ n ih => exact spanned_moves (stmtForm_moves ih)

theorem stmt_moves : M.MovesBy (Stmt.mapSpan M.move) stmt stmt := .budgeted stmtWithin_moves

theorem param_moves : M.MovesBy (Param.mapSpan M.move) param param :=
  type_moves.bindBy fun _ => ident_moves.bindBy fun _ => .pure rfl

theorem item_moves : M.MovesBy (Item.mapSpan M.move) item item := by
  refine type_moves.bindBy fun _ => ident_moves.bindBy fun _ =>
    (take_moves _).bindBy fun _ => .ite ?_ ?_
  · exact (Moves.budgeted (sepList_moves _ _ param_moves)).bindBy fun _ =>
      (expect_moves _).discard.bindBy fun _ => (block_moves stmt_moves).bindBy fun _ => .pure rfl
  · exact initializer_moves.bindBy fun _ => semicolon_moves.bindBy fun _ => .pure rfl

theorem program_moves : M.MovesBy (Program.mapSpan M.move) program program :=
  (Moves.budgeted (many_moves _ item_moves)).bindBy fun _ =>
    (expect_moves _).discard.bindBy fun _ => .pure rfl

end Motion

end MiniC
