import MiniC.Proofs.Grammar.Phrases

/-! # What phrases start with and what follows them

The alternatives of the grammar are told apart by what the phrase starts with, and a phrase is known
to be complete by the token after it.
-/
namespace MiniC
set_option autoImplicit false

namespace Kind

/-- Whether an expression can start with a token of this kind. -/
def startsExpr : Kind → Bool
  | string | escapedString | number | decimal | identifier => true
  | symbol .lparen => true
  | symbol s => (UnaryOp.ofSymbol? s).isSome
  | _ => false

/-- Whether an atom can start with a token of this kind: no operator does. -/
def startsAtom : Kind → Bool
  | string | escapedString | number | decimal | identifier | symbol .lparen => true
  | _ => false

def startsSimple (k : Kind) : Bool := k.startsExpr || k.isBaseType

/-- The words with which all but the simple statements start. -/
def isStmtWord : Kind → Bool
  | keyword .return_ | keyword .if_ | keyword .while_ | keyword .do_ | keyword .for_
  | keyword .continue_ | keyword .break_ => true
  | _ => false

def startsStmt (k : Kind) : Bool := k.startsSimple || k.isStmtWord

/-- Whether a token of this kind can follow a whole expression. -/
def closesExpr : Kind → Bool
  | symbol .rparen | symbol .rbracket | symbol .semicolon | symbol .comma => true
  | _ => false

/-- Whether a token of this kind after a name does not belong to what the name starts. -/
def closesAtom (k : Kind) : Bool := k.closesExpr || (BinaryOp.ofKind? k).isSome

end Kind

theorem BinaryOp.ofKind?_kind (op : BinaryOp) : ofKind? op.kind = some op := by
  cases op <;> rfl

theorem BinaryOp.kind_of_ofKind? {k : Kind} {op : BinaryOp} (h : ofKind? k = some op) :
    k = op.kind := by
  cases k with
  | symbol s => cases s <;> cases h <;> rfl
  | _ => cases h

theorem UnaryOp.kind_of_ofSymbol? {s : Symbol} {op : UnaryOp} (h : ofSymbol? s = some op) :
    .symbol s = op.kind := by
  cases s <;> cases h <;> rfl

namespace Kind

theorem startsExpr_of_startsAtom {k : Kind} (h : k.startsAtom = true) : k.startsExpr = true := by
  cases k with
  | symbol s => cases s <;> first | rfl | cases h
  | _ => first | rfl | cases h

theorem ofKind?_of_closesExpr {k : Kind} (h : k.closesExpr = true) : BinaryOp.ofKind? k = none := by
  cases k with
  | symbol s => cases s <;> first | rfl | cases h
  | _ => cases h

theorem closesAtom_of_closesExpr {k : Kind} (h : k.closesExpr = true) : k.closesAtom = true := by
  rw [closesAtom, h, Bool.true_or]

theorem closesAtom_kind (op : BinaryOp) : op.kind.closesAtom = true := by
  rw [closesAtom, BinaryOp.ofKind?_kind, Option.isSome_some, Bool.or_true]

theorem of_closesAtom {k : Kind} (h : k.closesAtom = true) :
    k ≠ .symbol .lparen ∧ k ≠ .symbol .lbracket ∧ k ≠ .symbol .assign ∧
      UnaryOp.ofKindAfter? k = none := by
  cases k with
  | symbol s => cases s <;> revert h <;> decide
  | _ => cases h

end Kind

namespace Grammar

/-- The tokens start with one whose kind passes the test. -/
def StartsWith (test : Kind → Bool) (ts : List Token) : Prop :=
  ∃ t r, ts = t :: r ∧ test t.kind = true

namespace StartsWith

variable {test test' : Kind → Bool} {ts : List Token}

theorem intro {t : Token} {k : Kind} (hKind : t.kind = k) (h : test k = true) :
    StartsWith test (t :: ts) := ⟨t, ts, rfl, hKind ▸ h⟩

theorem append (h : StartsWith test ts) (r : List Token) : StartsWith test (ts ++ r) := by
  obtain ⟨t, ts, rfl, hKind⟩ := h
  exact ⟨t, ts ++ r, rfl, hKind⟩

theorem ne_nil (h : StartsWith test ts) : ts ≠ [] := by
  obtain ⟨t, ts, rfl, -⟩ := h
  exact List.cons_ne_nil t ts

theorem length_pos (h : StartsWith test ts) : 0 < ts.length := List.length_pos_iff.mpr h.ne_nil

theorem imp (h : StartsWith test ts) (hImp : ∀ k, test k = true → test' k = true) :
    StartsWith test' ts := by
  obtain ⟨t, ts, rfl, hKind⟩ := h
  exact ⟨t, ts, rfl, hImp _ hKind⟩

theorem disjoint (h : StartsWith test ts) (hTest : ∀ k, test k = true → test' k = false) :
    ¬ StartsWith test' ts := by
  obtain ⟨t, ts, rfl, hKind⟩ := h
  rintro ⟨t', ts', hEq, hKind'⟩
  cases hEq
  rw [hTest _ hKind] at hKind'
  cases hKind'

theorem ne_cons (h : StartsWith test ts) {t : Token} {k : Kind} (hKind : t.kind = k)
    (hTest : test k = false) (r : List Token) : ts ≠ t :: r := by
  rintro rfl
  obtain ⟨t', ts', hEq, hKind'⟩ := h
  cases hEq
  rw [hKind, hTest] at hKind'
  cases hKind'

theorem not_append (h : StartsWith test ts) {us : List Token} (h' : StartsWith test' us)
    (r : List Token) (hTest : ∀ k, test k = true → test' k = false) : ts ≠ us ++ r := by
  rintro rfl
  exact h.disjoint hTest (h'.append r)

end StartsWith

theorem Subscripts.starts (d : Subscripts) :
    StartsWith (fun k => k = .symbol .lbracket) d.tokens := by
  cases d with
  | last l _ _ | more l _ _ _ => exact .intro l.2 (by simp)

theorem Atom.startsAtom (a : Atom) : StartsWith Kind.startsAtom a.tokens := by
  cases a with
  | string t | escapedString t | decimal t => exact .intro t.2 rfl
  | number t => exact .intro t.2.1 rfl
  | parens l inner r => exact .intro l.2 rfl
  | name x | call x l args r | index x subscripts | increment x sign | decrement x sign =>
    exact .intro x.2 rfl

theorem Atom.starts (a : Atom) : StartsWith Kind.startsExpr a.tokens :=
  a.startsAtom.imp fun _ hk => Kind.startsExpr_of_startsAtom hk

/-- The name with which an atom starts, and what follows it. -/
def Atom.afterName? : Atom → Option (Name × List Token)
  | .name x => some (x, [])
  | .call x l args r => some (x, l.1 :: (Expression.tokensAll args ++ [r.1]))
  | .index x subscripts => some (x, subscripts.tokens)
  | .increment x sign => some (x, [sign.1])
  | .decrement x sign => some (x, [sign.1])
  | _ => none

theorem Expression.starts (d : Expression) : StartsWith Kind.startsExpr d.tokens := by
  cases d with
  | before op sign operand => exact .intro sign.2 (by cases op <;> rfl)
  | least minus literal tail => exact .intro minus.2 rfl
  | chain atom tail => exact atom.starts.append _

/-- The magnitude of the least integer does not start an expression. -/
theorem Expression.head_ne_least {d : Expression} {t : Token} {ts : List Token}
    (h : d.tokens = t :: ts) : ¬ (t.kind = .number ∧ digitsValue t.text = 0x80000000) := by
  rintro ⟨hKind, hValue⟩
  cases d with
  | before op sign operand =>
    cases h
    have hSign := sign.2
    rw [hKind] at hSign
    cases op <;> cases hSign
  | least minus literal tail =>
    cases h
    exact absurd (hKind.symm.trans minus.2) (by simp)
  | chain atom tail =>
    cases atom with
    | string x | escapedString x | decimal x =>
      cases h
      exact absurd (hKind.symm.trans x.2) (by simp)
    | parens x inner r =>
      cases h
      exact absurd (hKind.symm.trans x.2) (by simp)
    | number x =>
      cases h
      have hRange := x.2.2
      omega
    | name x | call x l args r | index x subscripts | increment x sign | decrement x sign =>
      cases h
      exact absurd (hKind.symm.trans x.2) (by simp)

theorem BaseType.isBaseType (d : BaseType) : d.token.kind.isBaseType = true := by
  cases d with
  | int t | float t | char t | void t =>
    rw [token, t.2]
    rfl

theorem TypeName.starts (d : TypeName) : StartsWith Kind.isBaseType d.tokens :=
  ⟨_, _, rfl, d.base.isBaseType⟩

theorem Simple.starts (d : Simple) : StartsWith Kind.startsSimple d.tokens := by
  cases d with
  | declare type x sizes init =>
    exact (type.starts.append _).imp fun k hk => by simp [Kind.startsSimple, hk]
  | assign x sign value | store x subscripts sign value => exact .intro x.2 rfl
  | expr e => exact e.starts.imp fun k hk => by simp [Kind.startsSimple, hk]

theorem Definition.starts (d : Definition) : StartsWith Kind.isBaseType d.tokens := by
  cases d with
  | function type | global type => exact type.starts.append _

/-- The word with which a statement starts, unless it is a simple one. -/
def Statement.word? : Statement → Option Keyword
  | .ret .. => some .return_
  | .branch .. => some .if_
  | .whileDo .. => some .while_
  | .doWhile .. => some .do_
  | .forLoop .. => some .for_
  | .jump j .. => some j.keyword
  | .simple .. => none

theorem Branch.exists_tokens_eq (b : Branch) :
    ∃ t r, b.tokens = t :: r ∧ t.kind = .keyword .if_ := by
  cases b with
  | mk word cond body otherwise => exact ⟨_, _, rfl, word.2⟩

theorem Statement.exists_tokens_eq {d : Statement} {w : Keyword} (h : d.word? = some w) :
    ∃ t r, d.tokens = t :: r ∧ t.kind = .keyword w := by
  cases d with
  | branch b =>
    cases h
    exact b.exists_tokens_eq
  | ret word _ _ | whileDo word _ _ | doWhile word _ _ _ _ | forLoop word _ _ | jump _ word _ =>
    cases h
    exact ⟨_, _, rfl, word.2⟩
  | simple x semicolon => cases h

theorem Statement.word?_isStmtWord {d : Statement} {w : Keyword} (h : d.word? = some w) :
    (Kind.keyword w).isStmtWord = true := by
  cases d with
  | jump j word semicolon =>
    cases h
    cases j <;> rfl
  | _ => cases h <;> rfl

theorem Statement.starts (d : Statement) : StartsWith Kind.startsStmt d.tokens := by
  cases hWord : d.word? with
  | some w =>
    obtain ⟨t, r, hTokens, hKind⟩ := exists_tokens_eq hWord
    rw [hTokens]
    exact .intro hKind (by simp [Kind.startsStmt, word?_isStmtWord hWord])
  | none =>
    cases d with
    | simple x semicolon =>
      exact (x.starts.append _).imp fun k hk => by simp [Kind.startsStmt, hk]
    | _ => cases hWord

/-- A word that starts a statement starts no simple statement. -/
theorem startsSimple_of_isStmtWord {k : Kind} (h : k.isStmtWord = true) :
    k.startsSimple = false := by
  cases k with
  | keyword w => cases w <;> first | rfl | cases h
  | _ => cases h

theorem Statement.word?_of_tokens {d : Statement} {t : Token} {r : List Token} {w : Keyword}
    (hTokens : d.tokens = t :: r) (hKind : t.kind = .keyword w)
    (hWord : (Kind.keyword w).isStmtWord = true) : d.word? = some w := by
  cases h : d.word? with
  | some w' =>
    obtain ⟨t', r', hTokens', hKind'⟩ := exists_tokens_eq h
    rw [hTokens'] at hTokens
    cases hTokens
    rw [hKind] at hKind'
    cases hKind'
    rfl
  | none =>
    cases d with
    | simple x semicolon =>
      obtain ⟨t', r', hEq, hStarts⟩ := x.starts.append [semicolon.1]
      rw [Statement.tokens, hEq] at hTokens
      cases hTokens
      rw [hKind, startsSimple_of_isStmtWord hWord] at hStarts
      cases hStarts
    | _ => cases h

end Grammar

end MiniC
