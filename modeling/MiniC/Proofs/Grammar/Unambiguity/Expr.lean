import MiniC.Proofs.Grammar.Reading

/-! # Expressions are unambiguous

Two phrases of one kind whose leaves start the same tokens are equal, provided that neither can go
on after its leaves.  What follows a phrase in the grammar always ensures that.
-/
namespace MiniC.Grammar
set_option autoImplicit false

/-- No other phrase starts the tokens that start with the leaves of `d`, where only tokens that pass
`f` follow. -/
def Unique {δ : Type} (leaves : δ → List Token) (f : List Token → Prop) (d : δ) : Prop :=
  ∀ {d' : δ} {r r' : List Token}, f r → f r' → leaves d ++ r = leaves d' ++ r' → d = d' ∧ r = r'

theorem leaf_inj {p : Token → Prop} {t t' : { t // p t }} {r r' : List Token}
    (h : t.1 :: r = t'.1 :: r') : t = t' ∧ r = r' := by
  obtain ⟨hToken, hRest⟩ := List.cons.inj h
  exact ⟨Subtype.ext hToken, hRest⟩

/-- Lists of phrases up to a token that starts no such phrase. -/
theorem unique_flatMap {δ : Type} {leaves : δ → List Token} {f stop : List Token → Prop}
    {test : Kind → Bool} (hStarts : ∀ d, StartsWith test (leaves d))
    (hStop : ∀ {r}, stop r → ¬ StartsWith test r)
    (hFollow : ∀ {r}, stop r ∨ StartsWith test r → f r) (ds : List δ)
    (hItem : ∀ d ∈ ds, Unique leaves f d) : Unique (List.flatMap leaves) stop ds := by
  have hNext (ds : List δ) {r : List Token} (hr : stop r) : f (ds.flatMap leaves ++ r) := by
    cases ds with
    | nil => exact hFollow (.inl hr)
    | cons d ds => exact hFollow (.inr (((hStarts d).append _).append r))
  induction ds with
  | nil =>
    intro ds' r r' hr hr' h
    cases ds' with
    | nil => exact ⟨rfl, h⟩
    | cons d' ds' =>
      rw [List.flatMap_nil, List.nil_append] at h
      subst h
      exact absurd (((hStarts d').append _).append r') (hStop hr)
  | cons d ds ih =>
    intro ds' r r' hr hr' h
    cases ds' with
    | nil =>
      rw [List.flatMap_nil, List.nil_append] at h
      subst h
      exact absurd (((hStarts d).append _).append r) (hStop hr')
    | cons d' ds' =>
      rw [List.flatMap_cons, List.flatMap_cons, List.append_assoc, List.append_assoc] at h
      obtain ⟨rfl, hRest⟩ := hItem d List.mem_cons_self (hNext ds hr) (hNext ds' hr') h
      obtain ⟨rfl, rfl⟩ := ih (fun d hd => hItem d (List.mem_cons_of_mem _ hd)) hr hr' hRest
      exact ⟨rfl, rfl⟩

theorem unique_separated {δ : Type} {leaves : δ → List Token} {f : List Token → Prop}
    {test : Kind → Bool} {m : Nat} (hItem : ∀ d, (leaves d).length < m → Unique leaves f d)
    (hStarts : ∀ d, StartsWith test (leaves d)) (hTest : test (.symbol .rparen) = false)
    (hFollow : ∀ {t : Token} (r : List Token),
      t.kind = .symbol .rparen ∨ t.kind = .symbol .comma → f (t :: r))
    (ds : Separated δ) (hLength : (ds.tokens leaves).length < m) :
    Unique (Separated.tokens leaves) (StartsWith fun k => k = .symbol .rparen) ds := by
  have hClose {r : List Token} (hr : StartsWith (fun k => k = .symbol .rparen) r) : f r := by
    obtain ⟨t, us, rfl, hKind⟩ := hr
    exact hFollow us (.inl (of_decide_eq_true hKind))
  have hMore (comma : Mark .comma) (r : List Token) : f (comma.1 :: r) := hFollow r (.inr comma.2)
  have hTest (k : Kind) (hk : decide (k = .symbol .rparen) = true) : test k = false := by
    rw [of_decide_eq_true hk, hTest]
  induction ds with
  | empty =>
    intro ds' r r' hr hr' h
    cases ds' with
    | empty => exact ⟨rfl, h⟩
    | last d' => exact absurd h (hr.not_append (hStarts d') r' hTest)
    | more d' comma' ds' =>
      exact absurd h (hr.not_append ((hStarts d').append _) r' hTest)
  | last d =>
    intro ds' r r' hr hr' h
    cases ds' with
    | empty => exact absurd h.symm (hr'.not_append (hStarts d) r hTest)
    | last d' =>
      obtain ⟨rfl, rfl⟩ := hItem d hLength (hClose hr) (hClose hr') h
      exact ⟨rfl, rfl⟩
    | more d' comma' ds' =>
      simp only [Separated.tokens, List.append_assoc, List.cons_append] at h
      obtain ⟨-, h⟩ := hItem d hLength (hClose hr) (hMore comma' _) h
      exact absurd h (hr.ne_cons comma'.2 rfl _)
  | more d comma ds ih =>
    intro ds' r r' hr hr' h
    simp only [Separated.tokens, List.length_append, List.length_cons] at hLength
    simp only [Separated.tokens, List.append_assoc, List.cons_append] at h
    cases ds' with
    | empty => exact absurd h.symm (hr'.not_append (hStarts d) _ hTest)
    | last d' =>
      obtain ⟨-, h⟩ := hItem d (by omega) (hMore comma _) (hClose hr') h
      exact absurd h.symm (hr'.ne_cons comma.2 rfl _)
    | more d' comma' ds' =>
      simp only [Separated.tokens, List.append_assoc, List.cons_append] at h
      obtain ⟨rfl, hRest⟩ := hItem d (by omega) (hMore comma _) (hMore comma' _) h
      obtain ⟨rfl, hMore⟩ := leaf_inj hRest
      obtain ⟨rfl, rfl⟩ := ih (by omega) hr hr' hMore
      exact ⟨rfl, rfl⟩

theorem UnaryOp.kind_injective {op op' : UnaryOp} (h : op.kind = op'.kind) : op = op' := by
  cases op <;> cases op' <;> first | rfl | cases h

theorem BinaryOp.kind_injective {op op' : BinaryOp} (h : op.kind = op'.kind) : op = op' := by
  have hSome := BinaryOp.ofKind?_kind op
  rw [h, BinaryOp.ofKind?_kind, Option.some.injEq] at hSome
  exact hSome.symm

theorem Terminal.kind_eq {k k' : Kind} (t : Terminal k) (t' : Terminal k') (h : t.1 = t'.1) :
    k = k' := by rw [← t.2, ← t'.2, h]

/-- The kinds by which an atom is told from others: that of its first token and, if that is a name,
that of the next token, if it belongs to the atom. -/
def Atom.signature : Atom → Kind × Option Symbol
  | .string _ => (.string, none)
  | .escapedString _ => (.escapedString, none)
  | .number _ => (.number, none)
  | .decimal _ => (.decimal, none)
  | .parens .. => (.symbol .lparen, none)
  | .name _ => (.identifier, none)
  | .call .. => (.identifier, some .lparen)
  | .index .. => (.identifier, some .lbracket)
  | .increment .. => (.identifier, some .plusPlus)
  | .decrement .. => (.identifier, some .minusMinus)

/-- The signature of an atom, read off the tokens that it starts. -/
def signature : List Token → Kind × Option Symbol
  | t :: u :: _ =>
    (t.kind, match t.kind, u.kind with
      | .identifier, .symbol .lparen => some .lparen
      | .identifier, .symbol .lbracket => some .lbracket
      | .identifier, .symbol .plusPlus => some .plusPlus
      | .identifier, .symbol .minusMinus => some .minusMinus
      | _, _ => none)
  | _ => (.eof, none)

theorem Atom.signature_append (a : Atom) {r : List Token} (hr : StartsWith Kind.closesAtom r) :
    Grammar.signature (a.tokens ++ r) = a.signature := by
  obtain ⟨u, r, rfl, hClosed⟩ := hr
  cases a with
  | string t | escapedString t | decimal t =>
    simp only [Atom.tokens, List.cons_append, List.nil_append, Grammar.signature, t.2,
      Atom.signature]
  | number t =>
    simp only [Atom.tokens, List.cons_append, List.nil_append, Grammar.signature, t.2.1,
      Atom.signature]
  | parens l inner r =>
    obtain ⟨t, ts, hEq, -⟩ := inner.starts
    simp only [Atom.tokens, hEq, List.cons_append, Grammar.signature, l.2, Atom.signature]
  | name x =>
    obtain ⟨hParen, hBracket, -, hAfter⟩ := Kind.of_closesAtom hClosed
    simp only [Atom.tokens, List.cons_append, List.nil_append, Grammar.signature, x.2,
      Atom.signature]
    split <;> simp_all [UnaryOp.ofKindAfter?]
  | call x l args r =>
    simp only [Atom.tokens, List.cons_append, Grammar.signature, x.2, l.2, Atom.signature]
  | index x d =>
    cases d with
    | last l _ _ | more l _ _ _ =>
      simp only [Atom.tokens, Subscripts.tokens, List.cons_append, Grammar.signature, x.2, l.2,
        Atom.signature]
  | increment x sign | decrement x sign =>
    simp only [Atom.tokens, List.cons_append, Grammar.signature, x.2, sign.2, Atom.signature]

section

variable {m : Nat} (hExpr : ∀ d : Expression, d.tokens.length < m →
  Unique Expression.tokens (StartsWith Kind.closesExpr) d)

include hExpr

theorem Tail.unique (d : Tail) (hLength : d.tokens.length ≤ m) :
    Unique Tail.tokens (StartsWith Kind.closesExpr) d := by
  have hClosed (op : BinaryOp) : op.kind.closesExpr = false := by cases op <;> rfl
  intro d' r r' hr hr' h
  cases d with
  | none =>
    cases d' with
    | none => exact ⟨rfl, h⟩
    | operator op' sign' rhs' => exact absurd h (hr.ne_cons sign'.2 (hClosed op') _)
  | operator op sign rhs =>
    cases d' with
    | none => exact absurd h.symm (hr'.ne_cons sign.2 (hClosed op) _)
    | operator op' sign' rhs' =>
      obtain ⟨hSign, hRest⟩ := List.cons.inj h
      obtain rfl := BinaryOp.kind_injective (Terminal.kind_eq _ _ hSign)
      obtain rfl := Subtype.ext hSign
      obtain ⟨rfl, rfl⟩ := hExpr rhs hLength hr hr' hRest
      exact ⟨rfl, rfl⟩

theorem Subscripts.unique (d : Subscripts) (hLength : d.tokens.length ≤ m) :
    Unique Subscripts.tokens (fun r => ¬ StartsWith (fun k => k = .symbol .lbracket) r) d := by
  have hCloses (t : Mark .rbracket) (r : List Token) : StartsWith Kind.closesExpr (t.1 :: r) :=
    .intro t.2 rfl
  intro d' r r' hr hr' h
  cases d with
  | last l offset close =>
    simp only [Subscripts.tokens, List.length_cons, List.length_append] at hLength
    simp only [Subscripts.tokens, List.cons_append, List.append_assoc, List.nil_append] at h
    cases d' with
    | last l' offset' close' =>
      simp only [Subscripts.tokens, List.cons_append, List.append_assoc, List.nil_append] at h
      obtain ⟨rfl, hOffset⟩ := leaf_inj h
      obtain ⟨rfl, hClose⟩ := hExpr offset (by omega) (hCloses close _) (hCloses close' _) hOffset
      obtain ⟨rfl, rfl⟩ := leaf_inj hClose
      exact ⟨rfl, rfl⟩
    | more l' offset' close' rest' =>
      simp only [Subscripts.tokens, List.cons_append, List.append_assoc] at h
      obtain ⟨-, hOffset⟩ := leaf_inj h
      obtain ⟨-, hClose⟩ := hExpr offset (by omega) (hCloses close _) (hCloses close' _) hOffset
      obtain ⟨-, rfl⟩ := leaf_inj hClose
      exact absurd (rest'.starts.append r') hr
  | more l offset close rest =>
    simp only [Subscripts.tokens, List.length_cons, List.length_append] at hLength
    simp only [Subscripts.tokens, List.cons_append, List.append_assoc] at h
    cases d' with
    | last l' offset' close' =>
      simp only [Subscripts.tokens, List.cons_append, List.append_assoc, List.nil_append] at h
      obtain ⟨-, hOffset⟩ := leaf_inj h
      obtain ⟨-, hClose⟩ := hExpr offset (by omega) (hCloses close _) (hCloses close' _) hOffset
      obtain ⟨-, rfl⟩ := leaf_inj hClose
      exact absurd (rest.starts.append r) hr'
    | more l' offset' close' rest' =>
      simp only [Subscripts.tokens, List.cons_append, List.append_assoc] at h
      obtain ⟨rfl, hOffset⟩ := leaf_inj h
      obtain ⟨rfl, hClose⟩ := hExpr offset (by omega) (hCloses close _) (hCloses close' _) hOffset
      obtain ⟨rfl, hRest⟩ := leaf_inj hClose
      obtain ⟨rfl, rfl⟩ := Subscripts.unique rest (by omega) hr hr' hRest
      exact ⟨rfl, rfl⟩

omit hExpr in
theorem not_lbracket {r : List Token} (hr : StartsWith Kind.closesAtom r) :
    ¬ StartsWith (fun k => k = .symbol .lbracket) r :=
  hr.disjoint fun _ hk => decide_eq_false (Kind.of_closesAtom hk).2.1

theorem Atom.unique (a : Atom) (hLength : a.tokens.length ≤ m + 1) :
    Unique Atom.tokens (StartsWith Kind.closesAtom) a := by
  intro a' r r' hr hr' h
  -- Atoms that start the same tokens are of one alternative.
  have hSignature : a.signature = a'.signature := by
    rw [← a.signature_append hr, h, a'.signature_append hr']
  have hCloses (t : Mark .rparen) (r : List Token) : StartsWith Kind.closesExpr (t.1 :: r) :=
    .intro t.2 rfl
  cases a with
  | string t =>
    cases a' with
    | string t' =>
      obtain ⟨rfl, rfl⟩ := leaf_inj h
      exact ⟨rfl, rfl⟩
    | _ => cases hSignature
  | escapedString t =>
    cases a' with
    | escapedString t' =>
      obtain ⟨rfl, rfl⟩ := leaf_inj h
      exact ⟨rfl, rfl⟩
    | _ => cases hSignature
  | number t =>
    cases a' with
    | number t' =>
      obtain ⟨rfl, rfl⟩ := leaf_inj h
      exact ⟨rfl, rfl⟩
    | _ => cases hSignature
  | decimal t =>
    cases a' with
    | decimal t' =>
      obtain ⟨rfl, rfl⟩ := leaf_inj h
      exact ⟨rfl, rfl⟩
    | _ => cases hSignature
  | parens l inner close =>
    cases a' with
    | parens l' inner' close' =>
      simp only [Atom.tokens, List.length_cons, List.length_append] at hLength
      simp only [Atom.tokens, List.cons_append, List.append_assoc, List.nil_append] at h
      obtain ⟨rfl, hInner⟩ := leaf_inj h
      obtain ⟨rfl, hClose⟩ := hExpr inner (by omega) (hCloses close _) (hCloses close' _) hInner
      obtain ⟨rfl, rfl⟩ := leaf_inj hClose
      exact ⟨rfl, rfl⟩
    | _ => cases hSignature
  | name x =>
    cases a' with
    | name x' =>
      obtain ⟨rfl, rfl⟩ := leaf_inj h
      exact ⟨rfl, rfl⟩
    | _ => cases hSignature
  | call x l args close =>
    cases a' with
    | call x' l' args' close' =>
      simp only [Atom.tokens, Expression.tokensAll_eq, List.length_cons, List.length_append]
        at hLength
      simp only [Atom.tokens, Expression.tokensAll_eq, List.cons_append, List.append_assoc,
        List.nil_append] at h
      obtain ⟨rfl, hOpen⟩ := leaf_inj h
      obtain ⟨rfl, hRest⟩ := leaf_inj hOpen
      have hArgs : Unique _ _ args := unique_separated hExpr Expression.starts rfl
        (fun r ht => ht.elim (fun ht => .intro ht rfl) fun ht => .intro ht rfl) args (by omega)
      obtain ⟨rfl, hClose⟩ := hArgs (.intro close.2 (by simp)) (.intro close'.2 (by simp)) hRest
      obtain ⟨rfl, rfl⟩ := leaf_inj hClose
      exact ⟨rfl, rfl⟩
    | _ => cases hSignature
  | index x d =>
    cases a' with
    | index x' d' =>
      obtain ⟨rfl, hRest⟩ := leaf_inj h
      obtain ⟨rfl, rfl⟩ := Subscripts.unique hExpr d (Nat.le_of_succ_le_succ hLength)
        (not_lbracket hr) (not_lbracket hr') hRest
      exact ⟨rfl, rfl⟩
    | _ => cases hSignature
  | increment x sign =>
    cases a' with
    | increment x' sign' =>
      obtain ⟨rfl, hRest⟩ := leaf_inj h
      obtain ⟨rfl, rfl⟩ := leaf_inj hRest
      exact ⟨rfl, rfl⟩
    | _ => cases hSignature
  | decrement x sign =>
    cases a' with
    | decrement x' sign' =>
      obtain ⟨rfl, hRest⟩ := leaf_inj h
      obtain ⟨rfl, rfl⟩ := leaf_inj hRest
      exact ⟨rfl, rfl⟩
    | _ => cases hSignature

end

theorem Atom.ne_operator (a : Atom) (op : UnaryOp) (sign : Terminal op.kind)
    (r r' : List Token) : sign.1 :: r ≠ a.tokens ++ r' :=
  ((a.startsAtom.append r').ne_cons sign.2 (by cases op <;> rfl) r).symm

theorem Expression.ne_least (d : Expression) (literal : Least) (r r' : List Token) :
    d.tokens ++ r ≠ literal.1 :: r' := by
  obtain ⟨t, us, hEq, -⟩ := d.starts
  rintro h
  rw [hEq] at h
  cases h
  exact d.head_ne_least hEq literal.2

theorem Tail.closesAtom (tail : Tail) {r : List Token} (hr : StartsWith Kind.closesExpr r) :
    StartsWith Kind.closesAtom (tail.tokens ++ r) := by
  cases tail with
  | none => exact hr.imp fun k hk => Kind.closesAtom_of_closesExpr hk
  | operator op sign rhs => exact .intro sign.2 (Kind.closesAtom_kind op)

theorem Expression.unique (d : Expression) :
    Unique Expression.tokens (StartsWith Kind.closesExpr) d := by
  -- On the number of leaves, since the expressions in an atom are parts of its parts.
  induction hSize : d.tokens.length using Nat.strongRecOn generalizing d with
  | ind n ih =>
    have hExpr (e : Expression) (he : e.tokens.length < n) :
        Unique Expression.tokens (StartsWith Kind.closesExpr) e := ih _ he e rfl
    intro d' r r' hr hr' h
    cases d with
    | before op sign operand =>
      cases d' with
      | before op' sign' operand' =>
        obtain rfl := UnaryOp.kind_injective (Terminal.kind_eq _ _ (List.cons.inj h).1)
        obtain ⟨rfl, hRest⟩ := leaf_inj h
        obtain ⟨rfl, rfl⟩ := hExpr operand (by rw [← hSize]; exact Nat.lt_succ_self _) hr hr' hRest
        exact ⟨rfl, rfl⟩
      | least minus literal tail =>
        exact absurd (List.cons.inj h).2 (operand.ne_least literal r _)
      | chain atom tail =>
        rw [Expression.tokens, Expression.tokens, List.append_assoc] at h
        exact absurd h (atom.ne_operator _ sign _ _)
    | least minus literal tail =>
      cases d' with
      | before op' sign' operand' =>
        exact absurd (List.cons.inj h).2.symm (operand'.ne_least literal r' _)
      | least minus' literal' tail' =>
        obtain ⟨rfl, hLiteral⟩ := leaf_inj h
        obtain ⟨rfl, hRest⟩ := leaf_inj hLiteral
        have hLength : tail.tokens.length ≤ n := by
          rw [← hSize]
          exact Nat.le_succ_of_le (Nat.le_succ _)
        obtain ⟨rfl, rfl⟩ := Tail.unique hExpr tail hLength hr hr' hRest
        exact ⟨rfl, rfl⟩
      | chain atom' tail' =>
        rw [Expression.tokens, Expression.tokens, List.append_assoc] at h
        exact absurd h (atom'.ne_operator .negate minus _ _)
    | chain atom tail =>
      rw [Expression.tokens, List.length_append] at hSize
      cases d' with
      | before op' sign' operand' =>
        rw [Expression.tokens, Expression.tokens, List.append_assoc] at h
        exact absurd h.symm (atom.ne_operator _ sign' _ _)
      | least minus' literal' tail' =>
        rw [Expression.tokens, Expression.tokens, List.append_assoc] at h
        exact absurd h.symm (atom.ne_operator .negate minus' _ _)
      | chain atom' tail' =>
        rw [Expression.tokens, Expression.tokens, List.append_assoc, List.append_assoc] at h
        obtain ⟨rfl, hRest⟩ :=
          Atom.unique hExpr atom (by omega) (tail.closesAtom hr) (tail'.closesAtom hr') h
        obtain ⟨rfl, rfl⟩ := Tail.unique hExpr tail (by omega) hr hr' hRest
        exact ⟨rfl, rfl⟩

end MiniC.Grammar
