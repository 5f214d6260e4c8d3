import MiniC.Proofs.Guarded.Reading

/-! # The reader always has a result

Every action of the reader mirrors the parser of the same phrase.  A phrase that can be read uses up
at least one token, so that no loop and no recursion needs more rounds than there are tokens.
-/
namespace MiniC
set_option autoImplicit false

/-- The span ends inside the source. -/
def Span.EndsIn (source : String) (s : Span) : Prop := s.hi ≤ Text.byteLength source.toList

theorem Span.EndsIn.join {source : String} {a b : Span} (ha : a.EndsIn source)
    (hb : b.EndsIn source) : (a.join b).EndsIn source := by
  rw [EndsIn, hi_join]
  exact Nat.max_le.mpr ⟨ha, hb⟩

theorem Token.endsIn_of_mem_scan {source : String} {t : Token} (h : t ∈ Token.scan source) :
    t.span.EndsIn source := Token.hi_le_of_mem_scan h

def Expr.EndsIn (source : String) (e : Expr Unit) : Prop := e.span.EndsIn source

theorem UnaryOp.ofSymbol?_ne_none {y : Symbol} (h : y ∈ Reading.leadingSymbols) :
    ofSymbol? y ≠ none := by
  cases y <;> revert h <;> decide

theorem UnaryOp.mem_leadingSymbols {y : Symbol} {op : UnaryOp} (h : ofSymbol? y = some op) :
    y ∈ Reading.leadingSymbols := by
  cases y <;> first | cases h; done | decide

/-- The value of an integer literal is not negative. -/
theorem Token.toNat_of_intValue? {text : List Char} {value : Int32}
    (h : intValue? text = some value) :
    0 ≤ value ∧ value.toNatClampNeg = digitsValue text := by
  simp only [intValue?] at h
  split at h
  · next hLt =>
    cases h
    refine ⟨?_, Int32.toNatClampNeg_ofNat_of_lt hLt⟩
    rw [Int32.le_iff_toInt_le, Int32.toInt_ofNat_of_lt hLt]
    exact Int.natCast_nonneg _
  · cases h

namespace Mirrors

variable {source : String} {s : Stream}

theorem seesMinMagnitude :
    Mirrors source s (fun b s' => s' = s ∧ (b = true → s.head.kind = .number))
      Reading.seesMinMagnitude Parser.seesMinMagnitude := by
  refine peek fun hMem => ?_
  by_cases hKind : s.head.kind = .number
  · simp only [hKind, if_true, true_and]
    exact extract hMem hKind (pure ⟨rfl, fun _ => trivial⟩)
  · simp only [hKind, if_false, false_and, decide_false]
    exact pure ⟨rfl, by simp⟩

theorem arraySize :
    Mirrors source s (Later s 1 fun _ => True) Reading.arraySize Parser.arraySize := by
  refine advance.bind fun t s₁ hRead => ?_
  obtain ⟨-, -, hMem, hLength⟩ := hRead
  cases hKind : t.kind with
  | number =>
    refine intOf? hMem hKind ?_
    cases hValue : Token.intValue? t.text with
    | none => exact fail _ (by simp)
    | some value =>
      obtain ⟨hNonneg, hEq⟩ := Token.toNat_of_intValue? hValue
      simp only [hNonneg, if_true, hEq]
      exact pure ⟨trivial, hLength (by rw [hKind]; simp)⟩
  | _ => exact fail _ (by simp)

end Mirrors

namespace Handles

variable {α : Type} {source : String} {N : Nat} {Q : α → Prop}

section

variable {item : Reading α} {item' : Parser α}

theorem many (stop : Kind) (h : Handles source N 1 Q item item') :
    Handles source N 0 (fun _ => True) (Reading.budgeted (Reading.many stop item))
      (Parser.budgeted (Parser.many stop item')) := by
  refine loop fun n m hn ih s hs => Mirrors.peekKind ?_
  by_cases hStop : s.head.kind = .eof ∨ s.head.kind = stop
  · rw [if_pos hStop, if_pos hStop]
    exact .pure ⟨trivial, Nat.le_refl _⟩
  · rw [if_neg hStop, if_neg hStop]
    refine (h s (by omega)).bind fun x s₁ ⟨_, hx⟩ => ?_
    refine (ih s₁ (by omega)).bind fun xs s₂ ⟨_, hxs⟩ => .pure ⟨trivial, ?_⟩
    omega

theorem sepList {close sep : Kind} (hSep : sep ≠ .eof) (hClose : close ≠ sep)
    (h : Handles source N 1 Q item item') :
    Handles source N 0 (fun _ => True) (Reading.sepList close sep item)
      (Parser.budgeted (Parser.sepList close sep item')) := by
  have hItems : Handles source N 0 (fun _ => True)
      (Reading.budgeted (Reading.sepItems close sep item))
      (Parser.budgeted (Parser.sepList close sep item')) := by
    refine loop fun n m hn ih s hs => Mirrors.peekKind ?_
    by_cases hStop : s.head.kind = .eof ∨ s.head.kind = close
    · rw [if_pos hStop, if_pos hStop]
      exact .pure ⟨trivial, Nat.le_refl _⟩
    · rw [if_neg hStop, if_neg hStop]
      refine (h s (by omega)).bind fun x s₁ ⟨_, hx⟩ => ?_
      refine .ifTake hSep (fun hTail => ?_) fun _ => .peek fun _ => ?_
      · refine (ih s₁.tail (by omega)).bind fun xs s₂ ⟨_, hxs⟩ => .pure ⟨trivial, ?_⟩
        omega
      · by_cases hEnd : s₁.head.kind = close
        · rw [if_pos hEnd, if_pos hEnd]
          exact .pure ⟨trivial, by omega⟩
        · rw [if_neg hEnd, if_neg hEnd]
          exact .fail _ (by simp)
  intro s hs
  exact .gives_bind (fun r _ => .ensure hClose r) (hItems s hs)

end

section

variable {expr : Reading (Expr Unit)} {expr' : Parser (Expr Unit)}
  (hSource : Text.byteLength source.toList < 0x100000000)
  (h : Handles source N 1 (Expr.EndsIn source) expr expr')

include hSource h

theorem operatorChain {lhs : Expr Unit} (hLhs : lhs.EndsIn source) :
    Handles source (N + 1) 0 (Expr.EndsIn source) (Reading.operatorChain expr lhs)
      (Parser.operatorChain expr' lhs) := by
  intro s hs
  refine Mirrors.peekKind ?_
  cases hOp : BinaryOp.ofKind? s.head.kind with
  | none => exact .pure ⟨hLhs, Nat.le_refl _⟩
  | some op =>
    refine .skip (fun hEof => by rw [hEof] at hOp; cases hOp) fun hTail => ?_
    refine (h s.tail (by omega)).bind fun rhs s₂ ⟨hRhs, hLater⟩ => ?_
    exact .join hSource hLhs hRhs (.pure ⟨Span.EndsIn.join hLhs hRhs, by omega⟩)

theorem subscripts {base : Expr Unit} (hBase : base.EndsIn source) {n m : Nat} (hnm : n ≤ m)
    (hn : n ≤ N + 1) :
    Handles source n 1 (fun x => x.1.EndsIn source) (Reading.subscripts expr m base)
      (Parser.subscripts expr' n base) := by
  induction n generalizing m base with
  | zero =>
    intro s hs
    omega
  | succ n ih =>
    obtain ⟨m, rfl⟩ := Nat.exists_eq_add_one_of_ne_zero (Nat.ne_zero_of_lt hnm)
    intro s hs
    refine (Mirrors.expect (by simp)).discard fun t s₁ ⟨_, _, hOpen⟩ => ?_
    refine (h s₁ (by omega)).bind fun offset s₂ ⟨_, hOffset⟩ => ?_
    refine (Mirrors.expect (by simp)).discard fun u s₃ ⟨_, _, hClose⟩ => ?_
    refine .ifSees (fun _ => .prevSpan fun hPrev => .join hSource hBase hPrev ?_)
      fun _ => .pure ⟨hBase, by omega⟩
    have hIndex : (Expr.index () (base.span.join s₃.prev) base offset).EndsIn source :=
      Span.EndsIn.join hBase hPrev
    refine (ih hIndex (by omega) (by omega) s₃ (by omega)).mono fun x s₄ ⟨hIn, hx⟩ => ⟨hIn, ?_⟩
    omega

/-- The indices after a name. -/
theorem indices {x : Ident} (hx : x.span.EndsIn source) :
    Handles source (N + 1) 1 (fun y => y.1.EndsIn source)
      (Reading.budgeted fun n => Reading.subscripts expr n (Parser.variableOf x))
      (Parser.budgeted fun n => Parser.subscripts expr' n (Parser.variableOf x)) := by
  have hBase : (Parser.variableOf x).EndsIn source := hx
  exact budgeted fun _ _ hnm hn => subscripts hSource h hBase hnm hn

theorem nameSuffix {x : Ident} (hx : x.span.EndsIn source) :
    Handles source (N + 1) 0 (Expr.EndsIn source) (Reading.nameSuffix expr x)
      (Parser.nameSuffix expr' x) := by
  intro s hs
  refine .ifTake (by simp) (fun hTail => ?_) fun _ => .ifSees (fun _ => ?_) fun _ => ?_
  · refine (h.sepList (by simp) (by simp) s.tail (by omega)).bind fun args s₁ ⟨_, hArgs⟩ => ?_
    refine (Mirrors.expect (by simp)).bind fun close s₂ ⟨hMem, _, hLength⟩ => ?_
    have hEnds := Token.endsIn_of_mem_scan hMem
    exact .join hSource hx hEnds (.pure ⟨Span.EndsIn.join hx hEnds, by omega⟩)
  · refine (indices hSource h hx s hs).bind fun y s₁ ⟨_, hy⟩ => .prevSpan fun hPrev => ?_
    exact .join hSource hx hPrev (.pure ⟨Span.EndsIn.join hx hPrev, by omega⟩)
  · refine Mirrors.peekKind ?_
    cases hOp : UnaryOp.ofKindAfter? s.head.kind with
    | none => exact .pure ⟨hx, Nat.le_refl _⟩
    | some op =>
      refine Mirrors.advance.bind fun t s₁ hRead => ?_
      obtain ⟨rfl, rfl, hMem, hLength⟩ := hRead
      have hTail := hLength fun hEof => by rw [hEof] at hOp; cases hOp
      have hEnds := Token.endsIn_of_mem_scan hMem
      exact .join hSource hx hEnds (.pure ⟨Span.EndsIn.join hx hEnds, by omega⟩)

theorem operand (op : UnaryOp) :
    Handles source N 1 (Expr.EndsIn source) (Reading.operand expr op) (Parser.operand expr' op) := by
  intro s hs
  rw [Reading.operand, Parser.operand]
  by_cases hOp : op = .negate
  · simp only [hOp, if_true]
    refine Mirrors.seesMinMagnitude.bind fun b s₁ hb => ?_
    obtain ⟨rfl, hNumber⟩ := hb
    cases b with
    | false => exact h s₁ hs
    | true =>
      refine Mirrors.advance.bind fun t s₂ hRead => ?_
      obtain ⟨rfl, rfl, hMem, hLength⟩ := hRead
      have hTail := hLength (by rw [hNumber rfl]; simp)
      have hConst : (Expr.const () s₁.head.span (.int Int32.minValue)).EndsIn source :=
        Token.endsIn_of_mem_scan hMem
      refine (operatorChain hSource h hConst s₁.tail (by omega)).mono fun e s₃ ⟨hIn, he⟩ => ⟨hIn, ?_⟩
      omega
  · simp only [hOp, if_false]
    exact h s hs

theorem unary {t : Token} (ht : t.span.EndsIn source) (y : Symbol) :
    Handles source N 0 (Expr.EndsIn source) (Reading.unary expr t y)
      (match UnaryOp.ofSymbol? y with
        | some op => do
          let inner ← Parser.operand expr' op
          return .unary () (t.span.join inner.span) op .before inner
        | none => Parser.fail t.span (.unexpectedInExpr t.kind)) := by
  intro s hs
  rw [Reading.unary]
  cases hOp : UnaryOp.ofSymbol? y with
  | none =>
    rw [if_neg fun hMem => UnaryOp.ofSymbol?_ne_none hMem hOp]
    exact .fail _ (by simp)
  | some op =>
    rw [if_pos (UnaryOp.mem_leadingSymbols hOp)]
    refine .gives_bind (fun r _ => .demand rfl r) ?_
    refine (operand hSource h op s hs).bind fun inner s₁ ⟨hInner, hLength⟩ => ?_
    exact .join hSource ht hInner (.pure ⟨Span.EndsIn.join ht hInner, by omega⟩)

theorem primary :
    Handles source (N + 1) 1 (Expr.EndsIn source) (Reading.primary expr) (Parser.primary expr') := by
  intro s hs
  refine Mirrors.advance.bind fun t s₁ hRead => ?_
  obtain ⟨-, -, hMem, hLength⟩ := hRead
  have hEnds := Token.endsIn_of_mem_scan hMem
  cases hKind : t.kind with
  | string =>
    have hTail := hLength (by rw [hKind]; simp)
    exact .extractString hSource hMem hKind (.inl rfl) (.pure ⟨hEnds, hTail⟩)
  | escapedString =>
    have hTail := hLength (by rw [hKind]; simp)
    exact .extractString hSource hMem hKind (.inr rfl) (.pure ⟨hEnds, hTail⟩)
  | number =>
    have hTail := hLength (by rw [hKind]; simp)
    refine .intOf? hMem hKind ?_
    cases Token.intValue? t.text with
    | none => exact .fail _ (by simp)
    | some value => exact .pure ⟨hEnds, hTail⟩
  | decimal =>
    have hTail := hLength (by rw [hKind]; simp)
    exact .extract hMem hKind (.pure ⟨hEnds, hTail⟩)
  | identifier =>
    have hTail := hLength (by rw [hKind]; simp)
    refine .identOf hMem hKind ?_
    refine (nameSuffix hSource h hEnds s₁ (by omega)).mono fun e s₂ ⟨hIn, he⟩ => ⟨hIn, ?_⟩
    omega
  | symbol y =>
    have hTail := hLength (by rw [hKind]; simp)
    have hUnary : Mirrors source s₁ (Later s 1 (Expr.EndsIn source)) (Reading.unary expr t y) _ :=
      (unary hSource h hEnds y s₁ (by omega)).mono fun e s₂ ⟨hIn, he⟩ => ⟨hIn, by omega⟩
    rw [hKind] at hUnary
    cases y with
    | lparen =>
      refine (h s₁ (by omega)).bind fun inner s₂ ⟨_, hInner⟩ => ?_
      refine (Mirrors.expect (by simp)).bind fun close s₃ ⟨hMem', _, hClose⟩ => ?_
      have hEnds' := Token.endsIn_of_mem_scan hMem'
      refine .join hSource hEnds hEnds' (.pure ⟨?_, by omega⟩)
      rw [Expr.EndsIn, Expr.span_withSpan]
      exact hEnds.join hEnds'
    | _ => exact hUnary
  | _ => exact .fail _ (by simp)

end

theorem pointers : Handles source N 0 (fun _ => True) (Reading.budgeted Reading.pointers)
    (Parser.budgeted Parser.pointers) := by
  refine loop fun n m _ ih s hs => ?_
  refine .ifTake (by simp) (fun hTail => ?_) fun _ => .pure ⟨trivial, Nat.le_refl _⟩
  refine (ih s.tail (by omega)).bind fun k s₁ ⟨_, hk⟩ => .pure ⟨trivial, ?_⟩
  omega

theorem arraySizes : Handles source N 0 (fun _ => True) (Reading.budgeted Reading.arraySizes)
    (Parser.budgeted Parser.arraySizes) := by
  refine loop fun n m _ ih s hs => ?_
  refine .ifTake (by simp) (fun hTail => ?_) fun _ => .pure ⟨trivial, Nat.le_refl _⟩
  refine Mirrors.arraySize.bind fun size s₁ ⟨_, hSize⟩ => ?_
  refine (Mirrors.expect (by simp)).discard fun t s₂ ⟨_, _, hClose⟩ => ?_
  refine (ih s₂ (by omega)).bind fun sizes s₃ ⟨_, hSizes⟩ => .pure ⟨trivial, ?_⟩
  omega

theorem expr (hSource : Text.byteLength source.toList < 0x100000000) :
    Handles source N 1 (Expr.EndsIn source) Reading.expr Parser.expr := by
  refine loop fun n m _ ih s hs => ?_
  refine (primary hSource ih s hs).bind fun lhs s₁ ⟨hLhs, hLength⟩ => ?_
  refine (operatorChain hSource ih hLhs s₁ (by omega)).mono fun e s₂ ⟨hIn, he⟩ => ⟨hIn, ?_⟩
  omega

end Handles

namespace Mirrors

variable {α : Type} {source : String} {s : Stream}

/-- What the two do wherever few tokens are left, they do here. -/
theorem of_handles {k : Nat} {Q : α → Prop} {p : Reading α} {q : Parser α}
    (h : ∀ N, Handles source N k Q p q) : Mirrors source s (Later s k Q) p q :=
  h (s.rest.length + 1) s (Nat.lt_succ_self _)

theorem ident : Mirrors source s (Later s 1 fun x => x.span.EndsIn source) Reading.ident
    Parser.ident := by
  refine (expect (by simp)).bind fun t s₁ ⟨hMem, hKind, hLength⟩ => ?_
  exact gives ⟨Token.endsIn_of_mem_scan hMem, hLength⟩ fun r hr =>
    Reading.identOf_gives hr hMem hKind

theorem semicolon :
    Mirrors source s (Later s 1 fun _ => True) Reading.semicolon Parser.semicolon := by
  refine (expect (by simp)).discarded.mono ?_
  rintro _ s₁ ⟨t, -, -, hLength⟩
  exact ⟨trivial, hLength⟩

theorem unlessSees (k : Kind) {Q : α → Prop} {p : Reading α} {q : Parser α}
    (h : Mirrors source s (Later s 1 Q) p q) :
    Mirrors source s (Later s 0 fun _ => True) (Reading.unlessSees k p) (Parser.unlessSees k q) := by
  refine ifSees (fun _ => pure ⟨trivial, Nat.le_refl _⟩) fun _ => ?_
  refine h.bind fun a s₁ ⟨_, ha⟩ => pure ⟨trivial, ?_⟩
  omega

theorem type : Mirrors source s (Later s 1 fun _ => True) Reading.type Parser.type := by
  refine (expectAny (by decide)).bind fun t s₁ ⟨hKind, hLength⟩ => ?_
  have hBase (r : Reader) : Guarded.Gives (Reading.baseTy t.kind) r (Parser.baseTy t.kind) r := by
    simp only [Parser.baseTypes, List.mem_cons, List.not_mem_nil, or_false] at hKind
    rcases hKind with hKind | hKind | hKind | hKind <;> rw [hKind] <;> exact .pure _ _
  refine gives_bind (fun r _ => hBase r) ?_
  refine (of_handles fun _ => Handles.pointers).bind fun k s₂ ⟨_, hk⟩ => pure ⟨trivial, ?_⟩
  omega

section

variable (hSource : Text.byteLength source.toList < 0x100000000)

include hSource

theorem expr : Mirrors source s (Later s 1 (Expr.EndsIn source)) Reading.expr Parser.expr :=
  of_handles fun _ => Handles.expr hSource

theorem initializer :
    Mirrors source s (Later s 0 fun _ => True) Reading.initializer Parser.initializer := by
  refine ifTake (by simp) (fun hTail => ?_) fun _ => pure ⟨trivial, Nat.le_refl _⟩
  refine (expr hSource).bind fun e s₁ ⟨_, he⟩ => pure ⟨trivial, ?_⟩
  omega

theorem declaration :
    Mirrors source s (Later s 1 fun _ => True) Reading.declaration Parser.declaration := by
  refine type.bind fun ty s₁ ⟨_, hTy⟩ => ident.bind fun x s₂ ⟨_, hx⟩ => ?_
  refine (of_handles fun _ => Handles.arraySizes).bind fun sizes s₃ ⟨_, hSizes⟩ => ?_
  refine (initializer hSource).bind fun init s₄ ⟨_, hInit⟩ => pure ⟨trivial, ?_⟩
  omega

theorem afterIdent {x : Ident} (hx : x.span.EndsIn source) :
    Mirrors source s (Later s 0 fun _ => True) (Reading.afterIdent x) (Parser.afterIdent x) := by
  have hExpr : Handles source (s.rest.length + 1) 1 (Expr.EndsIn source) Reading.expr Parser.expr :=
    Handles.expr hSource
  refine ifTake (by simp) (fun hTail => ?_) fun _ => ifSees (fun _ => ?_) fun _ => ?_
  · refine (expr hSource).bind fun e s₁ ⟨_, he⟩ => pure ⟨trivial, ?_⟩
    omega
  · refine (Handles.indices hSource hExpr hx s (by omega)).bind fun y s₁ ⟨hBase, hLength⟩ => ?_
    refine ifTake (by simp) (fun hTail => ?_) fun _ => prevSpan fun hPrev => ?_
    · refine (expr hSource).bind fun e s₂ ⟨_, he⟩ => pure ⟨trivial, ?_⟩
      omega
    · have hIndex : (Expr.index () (y.1.span.join s₁.prev) y.1 y.2).EndsIn source :=
        Span.EndsIn.join hBase hPrev
      refine join hSource hBase hPrev ?_
      refine (Handles.operatorChain hSource hExpr hIndex s₁ (by omega)).bind fun e s₂ ⟨_, he⟩ =>
        pure ⟨trivial, ?_⟩
      omega
  · refine (Handles.nameSuffix hSource hExpr hx s (by omega)).bind fun lhs s₁ ⟨hLhs, hLength⟩ => ?_
    refine (Handles.operatorChain hSource hExpr hLhs s₁ (by omega)).bind fun e s₂ ⟨_, he⟩ =>
      pure ⟨trivial, ?_⟩
    omega

theorem simpleForm :
    Mirrors source s (Later s 1 fun _ => True) Reading.simpleForm Parser.simpleForm := by
  refine peekKind ?_
  by_cases hBase : s.head.kind.isBaseType = true
  · rw [if_pos hBase, if_pos hBase]
    exact declaration hSource
  · rw [if_neg hBase, if_neg hBase]
    by_cases hName : s.head.kind = .identifier
    · rw [if_pos hName, if_pos hName]
      refine ident.bind fun x s₁ ⟨hIn, hx⟩ => ?_
      refine (afterIdent hSource hIn).mono fun _ s₂ ⟨_, hAfter⟩ => ⟨trivial, ?_⟩
      omega
    · rw [if_neg hName, if_neg hName]
      exact (expr hSource).bind fun e s₁ ⟨_, he⟩ => pure ⟨trivial, he⟩

theorem spanned {k : Nat} {p : Reading (Span → α)} {q : Parser (Span → α)}
    (h : Mirrors source s (Later s k fun _ => True) p q) :
    Mirrors source s (Later s k fun _ => True) (Reading.spanned p) (Parser.spanned q) := by
  refine peek fun hMem => h.bind fun build s₁ hBuild => prevSpan fun hPrev => ?_
  exact join hSource (Token.endsIn_of_mem_scan hMem) hPrev (pure ⟨trivial, hBuild.2⟩)

theorem simple : Mirrors source s (Later s 1 fun _ => True) Reading.simple Parser.simple :=
  spanned hSource (simpleForm hSource)

theorem simpleWithEnd :
    Mirrors source s (Later s 1 fun _ => True) Reading.simpleWithEnd
      (Parser.simpleForm >>= fun form => Parser.semicolon >>= fun _ => Pure.pure form) := by
  refine peekOnly fun hMem => (simpleForm hSource).bind fun form s₁ ⟨_, hForm⟩ => ?_
  refine prevSpanOnly fun hPrev => ?_
  refine join hSource (Token.endsIn_of_mem_scan hMem) hPrev ?_
  refine semicolon.bind fun _ s₂ ⟨_, hEnd⟩ => pure ⟨trivial, ?_⟩
  omega

theorem condition :
    Mirrors source s (Later s 1 (Expr.EndsIn source)) Reading.condition Parser.condition := by
  refine (expect (by simp)).discard fun t s₁ ⟨_, _, ht⟩ => ?_
  refine (expr hSource).bind fun e s₂ ⟨hIn, he⟩ => ?_
  refine (expect (by simp)).discard fun u s₃ ⟨_, _, hu⟩ => pure ⟨hIn, ?_⟩
  omega

end

end Mirrors

namespace Handles

variable {source : String} {N : Nat} (hSource : Text.byteLength source.toList < 0x100000000)

section

variable {stmt : Reading (Stmt Unit)} {stmt' : Parser (Stmt Unit)}
  (h : Handles source N 1 (fun _ => True) stmt stmt')

include h

theorem block :
    Handles source (N + 1) 1 (fun _ => True) (Reading.block stmt) (Parser.block stmt') := by
  intro s hs
  refine (Mirrors.expect (by simp)).discard fun t s₁ ⟨_, _, ht⟩ => ?_
  refine (h.many _ s₁ (by omega)).bind fun body s₂ ⟨_, hBody⟩ => ?_
  refine (Mirrors.expect (by simp)).discard fun u s₃ ⟨_, _, hu⟩ => .pure ⟨trivial, ?_⟩
  omega

theorem elseBody :
    Handles source (N + 1) 0 (fun _ => True) (Reading.elseBody stmt) (Parser.elseBody stmt') := by
  intro s hs
  refine .ifTake (by simp) (fun hTail => ?_) fun _ => .pure ⟨trivial, Nat.le_refl _⟩
  refine .ifSees (fun _ => ?_) fun _ => ?_
  · refine (h s.tail (by omega)).bind fun x s₁ ⟨_, hx⟩ => .pure ⟨trivial, ?_⟩
    omega
  · refine (block h s.tail (by omega)).mono fun xs s₁ ⟨_, hxs⟩ => ⟨trivial, ?_⟩
    omega

include hSource

theorem forForm :
    Handles source (N + 1) 1 (fun _ => True) (Reading.forForm stmt) (Parser.forForm stmt') := by
  intro s hs
  refine (Mirrors.expect (by simp)).discard fun t s₁ ⟨_, _, ht⟩ => ?_
  refine (Mirrors.unlessSees _ (Mirrors.simple hSource)).bind fun init s₂ ⟨_, hInit⟩ => ?_
  refine Mirrors.semicolon.bind fun _ s₃ ⟨_, hEnd₁⟩ => ?_
  refine (Mirrors.unlessSees _ (Mirrors.expr hSource)).bind fun cond s₄ ⟨_, hCond⟩ => ?_
  refine Mirrors.semicolon.bind fun _ s₅ ⟨_, hEnd₂⟩ => ?_
  refine (Mirrors.unlessSees _ (Mirrors.simple hSource)).bind fun update s₆ ⟨_, hUpdate⟩ => ?_
  refine (Mirrors.expect (by simp)).discard fun u s₇ ⟨_, _, hu⟩ => ?_
  refine (block h s₇ (by omega)).bind fun body s₈ ⟨_, hBody⟩ => .pure ⟨trivial, ?_⟩
  omega

theorem stmtForm :
    Handles source (N + 1) 1 (fun _ => True) (Reading.stmtForm stmt) (Parser.stmtForm stmt') := by
  intro s hs
  have hSimple : Mirrors source s (Later s 1 fun _ => True) Reading.simpleWithEnd
      (Parser.simpleForm >>= fun form => Parser.semicolon >>= fun _ => pure form) :=
    Mirrors.simpleWithEnd hSource
  refine Mirrors.peekKind ?_
  cases hKind : s.head.kind with
  | keyword w =>
    have hSkip {x : Reading (Span → Stmt Unit)} {y : Parser (Span → Stmt Unit)}
        (hNext : s.tail.rest.length < s.rest.length →
          Mirrors source s.tail (Later s.tail 0 fun _ => True) x y) :
        Mirrors source s (Later s 1 fun _ => True) (Functor.discard Reading.advance >>= fun _ => x)
          (Functor.discard Parser.advance >>= fun _ => y) :=
      .skip (by rw [hKind]; simp) fun hTail =>
        (hNext hTail).mono fun _ s₁ hs₁ => ⟨trivial, Nat.lt_of_le_of_lt hs₁.2 hTail⟩
    cases w with
    | return_ =>
      refine hSkip fun hTail => ?_
      refine (Mirrors.unlessSees _ (Mirrors.expr hSource)).bind fun value s₁ ⟨_, hValue⟩ => ?_
      refine Mirrors.semicolon.bind fun _ s₂ ⟨_, hEnd⟩ => .pure ⟨trivial, ?_⟩
      omega
    | if_ =>
      refine hSkip fun hTail => (Mirrors.condition hSource).bind fun cond s₁ ⟨_, hCond⟩ => ?_
      refine (block h s₁ (by omega)).bind fun thenBody s₂ ⟨_, hThen⟩ => ?_
      refine (elseBody h s₂ (by omega)).bind fun otherwise s₃ ⟨_, hElse⟩ => .pure ⟨trivial, ?_⟩
      omega
    | while_ =>
      refine hSkip fun hTail => (Mirrors.condition hSource).bind fun cond s₁ ⟨_, hCond⟩ => ?_
      refine (block h s₁ (by omega)).bind fun body s₂ ⟨_, hBody⟩ => .pure ⟨trivial, ?_⟩
      omega
    | do_ =>
      refine hSkip fun hTail => (block h s.tail (by omega)).bind fun body s₁ ⟨_, hBody⟩ => ?_
      refine (Mirrors.expect (by simp)).discard fun t s₂ ⟨_, _, ht⟩ => ?_
      refine (Mirrors.condition hSource).bind fun cond s₃ ⟨_, hCond⟩ => ?_
      refine Mirrors.semicolon.bind fun _ s₄ ⟨_, hEnd⟩ => .pure ⟨trivial, ?_⟩
      omega
    | for_ =>
      refine hSkip fun hTail => ?_
      refine (forForm hSource h s.tail (by omega)).mono fun _ s₁ ⟨_, hs₁⟩ => ⟨trivial, ?_⟩
      omega
    | continue_ =>
      refine hSkip fun _ => Mirrors.semicolon.bind fun _ s₁ ⟨_, hEnd⟩ => .pure ⟨trivial, ?_⟩
      omega
    | break_ =>
      refine hSkip fun _ => Mirrors.semicolon.bind fun _ s₁ ⟨_, hEnd⟩ => .pure ⟨trivial, ?_⟩
      omega
    | _ => exact hSimple
  | _ => exact hSimple

end

include hSource

theorem stmt : Handles source N 1 (fun _ => True) Reading.stmt Parser.stmt :=
  loop fun _ _ _ ih s hs => Mirrors.spanned hSource (stmtForm hSource ih s hs)

end Handles

namespace Mirrors

variable {source : String} {s : Stream}

theorem param : Mirrors source s (Later s 1 fun _ => True) Reading.param Parser.param := by
  refine type.bind fun ty s₁ ⟨_, hTy⟩ => ident.bind fun x s₂ ⟨_, hx⟩ => pure ⟨trivial, ?_⟩
  omega

variable (hSource : Text.byteLength source.toList < 0x100000000)

include hSource

theorem item : Mirrors source s (Later s 1 fun _ => True) Reading.item Parser.item := by
  refine type.bind fun ty s₁ ⟨_, hTy⟩ => ident.bind fun x s₂ ⟨_, hx⟩ => ?_
  refine ifTake (by simp) (fun hTail => ?_) fun _ => ?_
  · have hParam : Handles source s₂.rest.length 1 (fun _ => True) Reading.param Parser.param :=
      fun _ _ => param
    have hStmt : Handles source s₂.rest.length 1 (fun _ => True) Reading.stmt Parser.stmt :=
      Handles.stmt hSource
    refine (hParam.sepList (by simp) (by simp) s₂.tail hTail).bind fun params s₃ ⟨_, hParams⟩ => ?_
    refine (expect (by simp)).discard fun t s₄ ⟨_, _, ht⟩ => ?_
    refine (hStmt.block s₄ (by omega)).bind fun body s₅ ⟨_, hBody⟩ => pure ⟨trivial, ?_⟩
    omega
  · refine (initializer hSource).bind fun init s₃ ⟨_, hInit⟩ => ?_
    refine semicolon.bind fun _ s₄ ⟨_, hEnd⟩ => pure ⟨trivial, ?_⟩
    omega

theorem items : Mirrors source s (fun _ _ => True) Reading.items Parser.program := by
  refine (of_handles fun _ => Handles.many .eof fun _ _ => item hSource).bind fun xs s₁ _ => ?_
  exact (expect_read .eof).discard fun _ _ _ => pure trivial

end Mirrors

namespace Reading

variable {source : String} (hSource : Text.byteLength source.toList < 0x100000000)

include hSource

end Reading

end MiniC
