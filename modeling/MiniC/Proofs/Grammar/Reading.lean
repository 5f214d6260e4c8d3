import MiniC.Proofs.Grammar.Lookahead
import MiniC.Proofs.Places.Tokens

/-! # Running a parser on a stream of tokens

How the basic parsers run, and what it means that a parser reads certain tokens.
-/
namespace MiniC
set_option autoImplicit false

open Grammar (lastSpan)

namespace Parser

variable {α β : Type} {p : Parser α} {f : α → Parser β}

theorem run_bind (p : Parser α) (f : α → Parser β) (s : Stream) :
    (p >>= f) s = (p s).bind fun r => f r.1 r.2 := rfl

theorem bind_of_ok {s s' : Stream} {a : α} (h : p s = .ok (a, s')) : (p >>= f) s = f a s' := by
  rw [run_bind, h]
  rfl

theorem bind_eq_ok_iff {s s' : Stream} {b : β} :
    (p >>= f) s = .ok (b, s') ↔ ∃ a s₁, p s = .ok (a, s₁) ∧ f a s₁ = .ok (b, s') := by
  rw [run_bind]
  cases p s with
  | error e => simp [Except.bind]
  | ok r =>
    constructor
    · intro h
      exact ⟨r.1, r.2, rfl, h⟩
    · rintro ⟨_, _, ⟨⟩, h⟩
      exact h

@[simp] theorem peek_bind (f : Token → Parser α) (s : Stream) : (peek >>= f) s = f s.head s := rfl

@[simp] theorem peekKind_bind (f : Kind → Parser α) (s : Stream) :
    (peekKind >>= f) s = f s.head.kind s := rfl

@[simp] theorem prevSpan_bind (f : Span → Parser α) (s : Stream) :
    (prevSpan >>= f) s = f s.prev s := rfl

@[simp] theorem sees_bind (k : Kind) (f : Bool → Parser α) (s : Stream) :
    (sees k >>= f) s = f (decide (s.head.kind = k)) s := rfl

@[simp] theorem advance_bind (f : Token → Parser α) (s : Stream) :
    (advance >>= f) s = f s.head s.tail := rfl

theorem discard_advance_bind (f : Unit → Parser α) (s : Stream) :
    (discard advance >>= f) s = f () s.tail := rfl

theorem take_run (k : Kind) (s : Stream) :
    take k s = if s.head.kind = k then .ok (true, s.tail) else .ok (false, s) := by
  simp only [take, sees_bind, decide_eq_true_eq]
  split <;> rfl

theorem expect_run (k : Kind) (s : Stream) :
    expect k s = if s.head.kind = k then .ok (s.head, s.tail)
      else .error ⟨s.head.span, .unexpected k s.head.kind⟩ := by
  simp only [expect, peek_bind]
  split <;> rfl

theorem expectAny_run (kinds : List Kind) (s : Stream) :
    expectAny kinds s = if s.head.kind ∈ kinds then .ok (s.head, s.tail)
      else .error ⟨s.head.span, .unexpectedAny kinds s.head.kind⟩ := by
  simp only [expectAny, peek_bind]
  split <;> rfl

theorem discard_run (p : Parser α) (s : Stream) :
    (discard p) s = (p s).map fun r => ((), r.2) := by
  change (p s).bind _ = _
  cases p s <;> rfl

theorem ite_run {c : Prop} [Decidable c] (p q : Parser α) (s : Stream) :
    (if c then p else q) s = if c then p s else q s := by
  split <;> rfl

/-- A choice by the next token, which is read in the first case. -/
theorem take_ite (k : Kind) (p q : Parser α) (s : Stream) :
    (take k >>= fun taken => if taken = true then p else q) s =
      if s.head.kind = k then p s.tail else q s := by
  rw [run_bind, take_run]
  split <;> rfl

/-- A choice by the next token, which is not read. -/
theorem sees_ite (k : Kind) (p q : Parser α) (s : Stream) :
    (sees k >>= fun seen => if seen = true then p else q) s =
      if s.head.kind = k then p s else q s := by
  rw [sees_bind]
  simp only [decide_eq_true_eq]
  split <;> rfl

theorem seesMinMagnitude_ite (p q : Parser α) (s : Stream) :
    (seesMinMagnitude >>= fun seen => if seen = true then p else q) s =
      if s.head.kind = .number ∧ digitsValue s.head.text = 0x80000000 then p s else q s := by
  change (if decide (_ ∧ _) = true then p else q) s = _
  rw [ite_run]
  simp only [decide_eq_true_eq]

theorem many_of_item (stop : Kind) (item : Parser α) (n : Nat) {s : Stream}
    (h : ¬ (s.head.kind = .eof ∨ s.head.kind = stop)) :
    many stop item (n + 1) s =
      (item >>= fun x => many stop item n >>= fun xs => pure (x :: xs)) s := by
  rw [many, peekKind_bind, ite_run]
  exact if_neg h

theorem sepList_of_item (close sep : Kind) (item : Parser α) (n : Nat) {s : Stream}
    (h : ¬ (s.head.kind = .eof ∨ s.head.kind = close)) :
    sepList close sep item (n + 1) s =
      (do
        let x ← item
        if ← take sep then return x :: (← sepList close sep item n)
        let t ← peek
        if t.kind = close then return [x]
        fail t.span (.unexpectedAny [sep, close] t.kind)) s := by
  rw [sepList, peekKind_bind, ite_run]
  exact if_neg h

section

variable (expr : Parser (Expr Unit))

theorem operatorChain_of_none (lhs : Expr Unit) {s : Stream}
    (h : BinaryOp.ofKind? s.head.kind = none) : operatorChain expr lhs s = .ok (lhs, s) := by
  rw [operatorChain, peekKind_bind, h]
  rfl

theorem operatorChain_of_some (lhs : Expr Unit) {s : Stream} {op : BinaryOp}
    (h : BinaryOp.ofKind? s.head.kind = some op) :
    operatorChain expr lhs s =
      (expr >>= fun rhs => pure (.binary () (lhs.span.join rhs.span) op lhs rhs)) s.tail := by
  rw [operatorChain, peekKind_bind, h]
  rfl

end

/-- What starts with no special word is read as a simple statement. -/
theorem stmtForm_of_not_isStmtWord (stmt : Parser (Stmt Unit)) {s : Stream}
    (h : s.head.kind.isStmtWord = false) :
    stmtForm stmt s =
      (simpleForm >>= fun form => semicolon >>= fun _ => pure form) s := by
  rw [stmtForm, peekKind_bind]
  cases hKind : s.head.kind with
  | keyword w =>
    rw [hKind] at h
    cases w <;> first | rfl | cases h
  | _ => rfl

end Parser

namespace Grammar

@[simp] theorem lastSpan_nil (s : Span) : lastSpan s [] = s := rfl

@[simp] theorem lastSpan_cons (s : Span) (t : Token) (ts : List Token) :
    lastSpan s (t :: ts) = lastSpan t.span ts := rfl

@[simp] theorem lastSpan_append (s : Span) (a b : List Token) :
    lastSpan s (a ++ b) = lastSpan (lastSpan s a) b := by
  induction a generalizing s with
  | nil => rfl
  | cons t a ih => exact ih t.span

theorem Subscripts.lastSpan_tokens (s : Span) :
    (d : Subscripts) → lastSpan s d.tokens = d.close.span
  | .last l offset r => by simp [Subscripts.tokens, Subscripts.close]
  | .more l offset r rest => by
    simp [Subscripts.tokens, Subscripts.close, Subscripts.lastSpan_tokens _ rest]

theorem Subscripts.close_mem : (d : Subscripts) → d.close ∈ d.tokens
  | .last l offset r => by simp [Subscripts.close, Subscripts.tokens]
  | .more l offset r rest => by
    have hRest := rest.close_mem
    simp [Subscripts.close, Subscripts.tokens, hRest]

/-- The span of the indexed part may stand for that of the name. -/
theorem Subscripts.join_split (base : Expr Unit) :
    (d : Subscripts) → (∀ t ∈ d.tokens, base.span.lo ≤ t.span.lo) → Token.Ordered d.tokens →
      (d.split base).1.span.join d.close.span = base.span.join d.close.span
  | .last l offset r, _, _ => rfl
  | .more l offset r rest, hBase, hOrdered => by
    have hR : base.span.lo ≤ r.1.span.lo := hBase r.1 (by simp [Subscripts.tokens])
    have hRest : Token.Ordered (r.1 :: rest.tokens) :=
      (List.pairwise_append.mp (List.pairwise_cons.mp hOrdered).2).2.1
    obtain ⟨hAfter, hRest⟩ := List.pairwise_cons.mp hRest
    have hClose := hAfter rest.close rest.close_mem
    rw [Subscripts.split, Subscripts.close, rest.join_split _ _ hRest]
    · simp only [Expr.span, Span.join, Span.hi, Span.mk.injEq, and_true] at hR hClose ⊢
      omega
    · intro t ht
      have hT := hAfter t ht
      simp only [Expr.span, Span.join, Span.hi] at hT ⊢
      omega

theorem Expression.tokensAll_eq (args : Separated Expression) :
    Expression.tokensAll args = args.tokens Expression.tokens := by
  induction args with
  | empty => rfl
  | last e => rfl
  | more e comma rest ih => rw [Separated.tokens, ← ih, Expression.tokensAll]

theorem Expression.treesAll_eq (args : Separated Expression) :
    Expression.treesAll args = args.items Expression.tree := by
  induction args with
  | empty => rfl
  | last e => rfl
  | more e comma rest ih => rw [Separated.items, ← ih, Expression.treesAll]

theorem Statement.tokensAll_eq (ds : List Statement) :
    Statement.tokensAll ds = ds.flatMap Statement.tokens := by
  induction ds with
  | nil => rfl
  | cons d ds ih => rw [Statement.tokensAll, ih, List.flatMap_cons]

theorem Statement.treesAll_eq (ds : List Statement) :
    Statement.treesAll ds = ds.map Statement.tree := by
  induction ds with
  | nil => rfl
  | cons d ds ih => rw [Statement.treesAll, ih, List.map_cons]

end Grammar

namespace Stream

@[simp] theorem head_cons (t : Token) (r : List Token) (eof : Token) (prev : Span) :
    (Stream.mk (t :: r) eof prev).head = t := rfl

/-- The stream ends with a token that marks the end, no other token does, and the tokens are in
source order. -/
structure Proper (s : Stream) : Prop where
  eof : s.eof.kind = .eof
  rest : ∀ t ∈ s.rest, t.kind ≠ .eof
  ordered : Token.Ordered s.rest

/-- Between the two streams exactly the given tokens are read. -/
structure Reads (s : Stream) (ts : List Token) (s' : Stream) : Prop where
  rest : s.rest = ts ++ s'.rest
  eof : s'.eof = s.eof
  prev : s'.prev = lastSpan s.prev ts

namespace Reads

variable {s s₁ s₂ : Stream} {ts ts' : List Token} {t : Token}

theorem refl (s : Stream) : s.Reads [] s := ⟨rfl, rfl, rfl⟩

theorem append (h : s.Reads ts s₁) (h' : s₁.Reads ts' s₂) : s.Reads (ts ++ ts') s₂ where
  rest := by rw [h.rest, h'.rest, List.append_assoc]
  eof := h'.eof.trans h.eof
  prev := by rw [h'.prev, h.prev, Grammar.lastSpan_append]

theorem cons (h : s.Reads [t] s₁) (h' : s₁.Reads ts s₂) : s.Reads (t :: ts) s₂ := h.append h'

theorem proper (h : s.Reads ts s₁) (hs : s.Proper) : s₁.Proper where
  eof := h.eof ▸ hs.eof
  rest t ht := hs.rest t (by rw [h.rest]; exact List.mem_append_right _ ht)
  ordered := (List.pairwise_append.mp (h.rest ▸ hs.ordered)).2.1

end Reads

/-- A token that is seen and does not mark the end can be read. -/
theorem Proper.reads_head {s : Stream} (hs : s.Proper) (h : s.head.kind ≠ .eof) :
    s.Reads [s.head] s.tail := by
  obtain ⟨rest, eof, prev⟩ := s
  cases rest with
  | nil => exact absurd hs.eof h
  | cons t rest => exact ⟨rfl, rfl, rfl⟩

/-- Once only the end is left, it is what is seen. -/
theorem Proper.rest_eq_nil {s : Stream} (hs : s.Proper) (h : s.head.kind = .eof) : s.rest = [] := by
  obtain ⟨rest, eof, prev⟩ := s
  cases rest with
  | nil => rfl
  | cons t rest => exact absurd h (hs.rest t List.mem_cons_self)

end Stream

end MiniC
