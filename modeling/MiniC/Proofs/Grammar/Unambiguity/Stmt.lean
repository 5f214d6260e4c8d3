import MiniC.Proofs.Grammar.Unambiguity.Expr

/-! # Statements and programs are unambiguous

A statement that starts with a special word is told by it, and a simple statement by its first
tokens; only a store has to be compared with an expression up to the end of the subscripts.
-/
namespace MiniC.Grammar
set_option autoImplicit false

theorem BaseType.ext_token {d d' : BaseType} (h : d.token = d'.token) : d = d' := by
  cases d with
  | int t =>
    cases d' with
    | int t' => rw [Subtype.ext h]
    | _ t' => cases Terminal.kind_eq t t' h
  | float t =>
    cases d' with
    | float t' => rw [Subtype.ext h]
    | _ t' => cases Terminal.kind_eq t t' h
  | char t =>
    cases d' with
    | char t' => rw [Subtype.ext h]
    | _ t' => cases Terminal.kind_eq t t' h
  | void t =>
    cases d' with
    | void t' => rw [Subtype.ext h]
    | _ t' => cases Terminal.kind_eq t t' h

theorem TypeName.unique (d : TypeName) :
    Unique TypeName.tokens (StartsWith fun k => k = .identifier) d := by
  have hStars : Unique (List.flatMap fun star : Mark .star => [star.1])
      (StartsWith fun k => k = .identifier) d.stars := by
    refine @unique_flatMap _ _ (fun _ => True) _ (fun k => k = .symbol .star)
      (fun star => .intro star.2 (by simp)) ?_ (fun _ => trivial) d.stars ?_
    · exact fun hr => hr.disjoint fun k hk => by rw [of_decide_eq_true hk]; rfl
    · intro star _ star' r r' _ _ h
      exact leaf_inj h
  intro d' r r' hr hr' h
  obtain ⟨base, stars⟩ := d
  obtain ⟨base', stars'⟩ := d'
  obtain ⟨hBase, hRest⟩ := List.cons.inj h
  obtain rfl := BaseType.ext_token hBase
  rw [List.map_eq_flatMap, List.map_eq_flatMap] at hRest
  obtain ⟨rfl, rfl⟩ := hStars hr hr' hRest
  exact ⟨rfl, rfl⟩

theorem Dimension.unique_list (ds : List Dimension) :
    Unique (List.flatMap Dimension.tokens)
      (fun r => ¬ StartsWith (fun k => k = .symbol .lbracket) r) ds := by
  refine unique_flatMap (f := fun _ => True) (fun d => .intro d.l.2 (by simp)) (fun h => h)
    (fun _ => trivial) ds ?_
  rintro ⟨l, size, close⟩ - ⟨l', size', close'⟩ r r' - - h
  obtain ⟨rfl, hSize⟩ := leaf_inj h
  obtain ⟨rfl, hClose⟩ := leaf_inj hSize
  obtain ⟨rfl, rfl⟩ := leaf_inj hClose
  exact ⟨rfl, rfl⟩

theorem Initial.unique (d : Initial) :
    Unique Initial.tokens (StartsWith Kind.closesExpr) d := by
  intro d' r r' hr hr' h
  cases d with
  | none =>
    cases d' with
    | none => exact ⟨rfl, h⟩
    | value sign' e' => exact absurd h (hr.ne_cons sign'.2 rfl _)
  | value sign e =>
    cases d' with
    | none => exact absurd h.symm (hr'.ne_cons sign.2 rfl _)
    | value sign' e' =>
      obtain ⟨rfl, hRest⟩ := leaf_inj h
      obtain ⟨rfl, rfl⟩ := e.unique hr hr' hRest
      exact ⟨rfl, rfl⟩

/-- An expression that starts with a name is that name, what belongs to it, and a tail. -/
theorem Expression.exists_of_name {e : Expression} {x : Name} {ts r : List Token}
    (h : x.1 :: ts = e.tokens ++ r) :
    ∃ a tail us, e = .chain a tail ∧ a.afterName? = some (x, us) ∧
      ts = us ++ (tail.tokens ++ r) := by
  have hOther {p : Token → Prop} {t : { t // p t }} {us : List Token} {k : Kind}
      (ht : t.1.kind = k) (hk : k ≠ .identifier) : x.1 :: ts ≠ t.1 :: us := by
    rintro hEq
    rw [← (List.cons.inj hEq).1, x.2] at ht
    exact hk ht.symm
  cases e with
  | before op sign operand => exact absurd h (hOther sign.2 (by cases op <;> decide))
  | least minus literal tail => exact absurd h (hOther minus.2 (by decide))
  | chain a tail =>
    rw [Expression.tokens, List.append_assoc] at h
    cases a with
    | string t | escapedString t | decimal t => exact absurd h (hOther t.2 (by decide))
    | number t => exact absurd h (hOther t.2.1 (by decide))
    | parens l inner r => exact absurd h (hOther l.2 (by decide))
    | name y | call y l args close | index y d | increment y sign | decrement y sign =>
      obtain ⟨rfl, rfl⟩ := leaf_inj h
      exact ⟨_, tail, _, rfl, rfl, rfl⟩

theorem assign_ne_subscripts (sign : Mark .assign) (d : Subscripts) (r r' : List Token) :
    sign.1 :: r ≠ d.tokens ++ r' :=
  ((d.starts.append r').ne_cons sign.2 rfl r).symm

theorem assign_ne_closed (sign : Mark .assign) (ts : List Token) {r : List Token}
    (hr : StartsWith Kind.closesAtom r) : sign.1 :: ts ≠ r :=
  (hr.ne_cons sign.2 rfl ts).symm

/-- No expression starts with a name and `=`. -/
theorem assign_ne_expr {x : Name} (sign : Mark .assign) (e : Expression) (ts : List Token)
    {r : List Token} (hr : StartsWith Kind.closesExpr r) : x.1 :: sign.1 :: ts ≠ e.tokens ++ r := by
  rintro h
  obtain ⟨a, tail, us, rfl, hName, hRest⟩ := Expression.exists_of_name h
  cases a with
  | name y =>
    cases hName
    exact assign_ne_closed sign ts (tail.closesAtom hr) hRest
  | call y l args close =>
    cases hName
    cases Terminal.kind_eq sign l (List.cons.inj hRest).1
  | index y d =>
    cases hName
    exact assign_ne_subscripts sign d ts _ hRest
  | increment y after | decrement y after =>
    cases hName
    cases Terminal.kind_eq sign after (List.cons.inj hRest).1
  | _ => cases hName

/-- No expression starts with an indexed name and `=`. -/
theorem store_ne_expr {x : Name} (d : Subscripts) (sign : Mark .assign) (e : Expression)
    (ts : List Token) {r : List Token} (hr : StartsWith Kind.closesExpr r) :
    x.1 :: (d.tokens ++ sign.1 :: ts) ≠ e.tokens ++ r := by
  rintro h
  obtain ⟨a, tail, us, rfl, hName, hRest⟩ := Expression.exists_of_name h
  have hOpens : StartsWith (fun k => k = .symbol .lbracket) (us ++ (tail.tokens ++ r)) := by
    rw [← hRest]
    exact d.starts.append _
  cases a with
  | name y =>
    cases hName
    exact not_lbracket (tail.closesAtom hr) hOpens
  | call y l args close =>
    cases hName
    exact hOpens.ne_cons l.2 rfl _ rfl
  | index y d' =>
    cases hName
    -- The subscripts are the same, so the expression goes on with `=`.
    obtain ⟨-, hSign⟩ := Subscripts.unique (fun e _ => e.unique) d (Nat.le_refl _)
      (fun hSign => hSign.ne_cons sign.2 rfl _ rfl) (not_lbracket (tail.closesAtom hr)) hRest
    exact assign_ne_closed sign ts (tail.closesAtom hr) hSign
  | increment y after | decrement y after =>
    cases hName
    exact hOpens.ne_cons after.2 rfl _ rfl
  | _ => cases hName

theorem Simple.startsExpr_of_ne_declare {d : Simple}
    (h : ∀ type x sizes init, d ≠ .declare type x sizes init) :
    StartsWith Kind.startsExpr d.tokens := by
  cases d with
  | declare type x sizes init => exact absurd rfl (h type x sizes init)
  | assign x sign value | store x d sign value => exact .intro x.2 rfl
  | expr e => exact e.starts

theorem Simple.declare_ne {type : TypeName} {x : Name} {sizes : List Dimension} {init : Initial}
    {d : Simple} (h : ∀ type x sizes init, d ≠ .declare type x sizes init) (r r' : List Token) :
    (Simple.declare type x sizes init).tokens ++ r ≠ d.tokens ++ r' := by
  refine StartsWith.not_append ((type.starts.append _).append r) (startsExpr_of_ne_declare h) r'
    fun k hk => ?_
  cases k with
  | keyword w => rfl
  | _ => cases hk

theorem Simple.unique (d : Simple) : Unique Simple.tokens (StartsWith Kind.closesExpr) d := by
  have hNotBracket (init : Initial) {r : List Token} (hr : StartsWith Kind.closesExpr r) :
      ¬ StartsWith (fun k => k = .symbol .lbracket) (init.tokens ++ r) := by
    cases init with
    | none => exact not_lbracket (hr.imp fun k hk => Kind.closesAtom_of_closesExpr hk)
    | value sign e => exact fun hSign => hSign.ne_cons sign.2 rfl _ rfl
  intro d' r r' hr hr' h
  cases d with
  | declare type x sizes init =>
    cases d' with
    | declare type' x' sizes' init' =>
      simp only [Simple.tokens, List.append_assoc, List.cons_append] at h
      obtain ⟨rfl, hName⟩ := type.unique (.intro x.2 (by simp)) (.intro x'.2 (by simp)) h
      obtain ⟨rfl, hSizes⟩ := leaf_inj hName
      obtain ⟨rfl, hInit⟩ :=
        Dimension.unique_list sizes (hNotBracket init hr) (hNotBracket init' hr') hSizes
      obtain ⟨rfl, rfl⟩ := init.unique hr hr' hInit
      exact ⟨rfl, rfl⟩
    | _ => exact absurd h (Simple.declare_ne (by simp) r r')
  | assign x sign value =>
    cases d' with
    | declare type' x' sizes' init' => exact absurd h.symm (Simple.declare_ne (by simp) r' r)
    | assign x' sign' value' =>
      obtain ⟨rfl, hSign⟩ := leaf_inj h
      obtain ⟨rfl, hValue⟩ := leaf_inj hSign
      obtain ⟨rfl, rfl⟩ := value.unique hr hr' hValue
      exact ⟨rfl, rfl⟩
    | store x' d' sign' value' =>
      simp only [Simple.tokens, List.cons_append, List.append_assoc] at h
      exact absurd (leaf_inj h).2 (assign_ne_subscripts sign d' _ _)
    | expr e' => exact absurd h (assign_ne_expr sign e' _ hr')
  | store x d sign value =>
    simp only [Simple.tokens, List.cons_append, List.append_assoc] at h
    cases d' with
    | declare type' x' sizes' init' =>
      have hNe : (Simple.declare type' x' sizes' init').tokens ++ r' ≠
          (Simple.store x d sign value).tokens ++ r := Simple.declare_ne (by simp) r' r
      exact absurd (by simpa [Simple.tokens] using h.symm) hNe
    | assign x' sign' value' =>
      exact absurd (leaf_inj h).2.symm (assign_ne_subscripts sign' d _ _)
    | store x' d' sign' value' =>
      have hAssign (sign : Mark .assign) (ts : List Token) :
          ¬ StartsWith (fun k => k = .symbol .lbracket) (sign.1 :: ts) :=
        fun hSign => hSign.ne_cons sign.2 rfl _ rfl
      simp only [List.cons_append, List.append_assoc] at h
      obtain ⟨rfl, hSubscripts⟩ := leaf_inj h
      obtain ⟨rfl, hSign⟩ := Subscripts.unique (fun e _ => e.unique) d (Nat.le_refl _)
        (hAssign sign _) (hAssign sign' _) hSubscripts
      obtain ⟨rfl, hValue⟩ := leaf_inj hSign
      obtain ⟨rfl, rfl⟩ := value.unique hr hr' hValue
      exact ⟨rfl, rfl⟩
    | expr e' => exact absurd h (store_ne_expr d sign e' _ hr')
  | expr e =>
    cases d' with
    | declare type' x' sizes' init' => exact absurd h.symm (Simple.declare_ne (by simp) r' r)
    | assign x' sign' value' => exact absurd h.symm (assign_ne_expr sign' e _ hr)
    | store x' d' sign' value' =>
      simp only [Simple.tokens, List.cons_append, List.append_assoc] at h
      exact absurd h.symm (store_ne_expr d' sign' e _ hr)
    | expr e' =>
      obtain ⟨rfl, rfl⟩ := e.unique hr hr' h
      exact ⟨rfl, rfl⟩

/-- The leaves of a simple statement determine it. -/
theorem Simple.ext_tokens {d d' : Simple} (h : d.tokens = d'.tokens) : d = d' := by
  have hEnd : StartsWith Kind.closesExpr [⟨.symbol .semicolon, .start, []⟩] := .intro rfl rfl
  exact (d.unique hEnd hEnd (congrArg (· ++ _) h)).1

/-- A phrase that may be missing, before a token that starts no such phrase. -/
theorem unique_option {δ : Type} {leaves : δ → List Token} {f : List Token → Prop}
    {test : Kind → Bool} {k : Kind} (hItem : ∀ d, Unique leaves f d)
    (hStarts : ∀ d, StartsWith test (leaves d)) (hTest : test k = false)
    (hFollow : ∀ {r}, StartsWith (fun k' => k' = k) r → f r) (d : Option δ) :
    Unique (optionTokens leaves) (StartsWith fun k' => k' = k) d := by
  have hOther (k' : Kind) (hk : decide (k' = k) = true) : test k' = false := by
    rw [of_decide_eq_true hk, hTest]
  intro d' r r' hr hr' h
  cases d with
  | none =>
    cases d' with
    | none => exact ⟨rfl, h⟩
    | some x' => exact absurd h (hr.not_append (hStarts x') r' hOther)
  | some x =>
    cases d' with
    | none => exact absurd h.symm (hr'.not_append (hStarts x) r hOther)
    | some x' =>
      obtain ⟨rfl, rfl⟩ := hItem x (hFollow hr) (hFollow hr') h
      exact ⟨rfl, rfl⟩

theorem Condition.unique (d : Condition) : Unique Condition.tokens (fun _ => True) d := by
  obtain ⟨l, value, close⟩ := d
  rintro ⟨l', value', close'⟩ r r' - - h
  simp only [Condition.tokens, List.cons_append, List.append_assoc, List.nil_append] at h
  obtain ⟨rfl, hValue⟩ := leaf_inj h
  obtain ⟨rfl, hClose⟩ := value.unique (.intro close.2 rfl) (.intro close'.2 rfl) hValue
  obtain ⟨rfl, rfl⟩ := leaf_inj hClose
  exact ⟨rfl, rfl⟩

theorem ForHead.unique (d : ForHead) : Unique ForHead.tokens (fun _ => True) d := by
  have hCloses {k : Kind} (hk : k.closesExpr = true) {r : List Token}
      (hr : StartsWith (fun k' => k' = k) r) : StartsWith Kind.closesExpr r :=
    hr.imp fun k' hk' => by rw [of_decide_eq_true hk', hk]
  have hSimple {k : Kind} (hk : k.closesExpr = true) (hStart : k.startsSimple = false)
      (d : Option Simple) : Unique (optionTokens Simple.tokens) (StartsWith fun k' => k' = k) d :=
    unique_option Simple.unique Simple.starts hStart (hCloses hk) d
  have hExpr (d : Option Expression) :
      Unique (optionTokens Expression.tokens) (StartsWith fun k => k = .symbol .semicolon) d :=
    unique_option Expression.unique Expression.starts rfl (hCloses rfl) d
  obtain ⟨l, init, first, cond, second, update, close⟩ := d
  rintro ⟨l', init', first', cond', second', update', close'⟩ r r' - - h
  simp only [ForHead.tokens, List.cons_append, List.append_assoc, List.nil_append] at h
  obtain ⟨rfl, hInit⟩ := leaf_inj h
  obtain ⟨rfl, hFirst⟩ := hSimple (k := .symbol .semicolon) rfl rfl init
    (.intro first.2 (by simp)) (.intro first'.2 (by simp)) hInit
  obtain ⟨rfl, hCond⟩ := leaf_inj hFirst
  obtain ⟨rfl, hSecond⟩ :=
    hExpr cond (.intro second.2 (by simp)) (.intro second'.2 (by simp)) hCond
  obtain ⟨rfl, hUpdate⟩ := leaf_inj hSecond
  obtain ⟨rfl, hClose⟩ := hSimple (k := .symbol .rparen) rfl rfl update
    (.intro close.2 (by simp)) (.intro close'.2 (by simp)) hUpdate
  obtain ⟨rfl, rfl⟩ := leaf_inj hClose
  exact ⟨rfl, rfl⟩

/-- The next token is not `else`. -/
def NotElse (r : List Token) : Prop := ¬ StartsWith (fun k => k = .keyword .else_) r

section

variable {m : Nat} (hStmt : ∀ d : Statement, d.tokens.length < m →
  Unique Statement.tokens NotElse d)

include hStmt

theorem Braces.unique (d : Braces) (hLength : d.tokens.length ≤ m) :
    Unique Braces.tokens (fun _ => True) d := by
  obtain ⟨l, body, close⟩ := d
  rintro ⟨l', body', close'⟩ r r' - - h
  simp only [Braces.tokens, Statement.tokensAll_eq, List.length_cons, List.length_append] at hLength
  simp only [Braces.tokens, Statement.tokensAll_eq, List.cons_append, List.append_assoc,
    List.nil_append] at h
  have hBody : Unique (List.flatMap Statement.tokens) (StartsWith fun k => k = .symbol .rbrace)
      body := by
    refine unique_flatMap Statement.starts ?_ ?_ body fun d hd => hStmt d ?_
    · exact fun hr => hr.disjoint fun k hk => by rw [of_decide_eq_true hk]; rfl
    · rintro r (hr | hr) hElse
      all_goals exact hElse.disjoint (fun k hk => by rw [of_decide_eq_true hk]; rfl) hr
    · have hSub : d.tokens.Sublist (body.flatMap Statement.tokens) :=
        List.sublist_flatten_of_mem (List.mem_map_of_mem hd)
      have hLe := hSub.length_le
      omega
  obtain ⟨rfl, hRest⟩ := leaf_inj h
  obtain ⟨rfl, hClose⟩ := hBody (.intro close.2 (by simp)) (.intro close'.2 (by simp)) hRest
  obtain ⟨rfl, rfl⟩ := leaf_inj hClose
  exact ⟨rfl, rfl⟩

theorem Otherwise.unique (d : Otherwise) (hLength : d.tokens.length ≤ m) :
    Unique Otherwise.tokens NotElse d := by
  have hElse (word : Word .else_) (ts : List Token) {r : List Token} (hr : NotElse r) :
      r ≠ word.1 :: ts := by
    rintro rfl
    exact hr (.intro word.2 (by simp))
  have hIf (b : Branch) (b' : Braces) (r r' : List Token) : b.tokens ++ r ≠ b'.tokens ++ r' := by
    obtain ⟨t, us, hEq, hKind⟩ := b.exists_tokens_eq
    obtain ⟨l, body, close⟩ := b'
    rw [hEq]
    rintro h
    have hToken : t = l.1 := (List.cons.inj h).1
    rw [hToken, l.2] at hKind
    cases hKind
  intro d' r r' hr hr' h
  cases d with
  | none =>
    cases d' with
    | none => exact ⟨rfl, h⟩
    | branch word' b' | block word' b' => exact absurd h (hElse word' _ hr)
  | branch word b =>
    cases d' with
    | none => exact absurd h.symm (hElse word _ hr')
    | branch word' b' =>
      obtain ⟨rfl, hRest⟩ := leaf_inj h
      obtain ⟨hEq, rfl⟩ : Statement.branch b = .branch b' ∧ r = r' :=
        hStmt (.branch b) hLength hr hr' hRest
      cases hEq
      exact ⟨rfl, rfl⟩
    | block word' b' => exact absurd (leaf_inj h).2 (hIf b b' r r')
  | block word b =>
    cases d' with
    | none => exact absurd h.symm (hElse word _ hr')
    | branch word' b' => exact absurd (leaf_inj h).2.symm (hIf b' b r' r)
    | block word' b' =>
      obtain ⟨rfl, hRest⟩ := leaf_inj h
      obtain ⟨rfl, rfl⟩ := Braces.unique hStmt b (Nat.le_of_succ_le hLength) trivial trivial hRest
      exact ⟨rfl, rfl⟩

theorem Branch.unique (d : Branch) (hLength : d.tokens.length ≤ m + 1) :
    Unique Branch.tokens NotElse d := by
  obtain ⟨word, cond, body, otherwise⟩ := d
  rintro ⟨word', cond', body', otherwise'⟩ r r' hr hr' h
  simp only [Branch.tokens, List.length_cons, List.length_append] at hLength
  simp only [Branch.tokens, List.cons_append, List.append_assoc] at h
  obtain ⟨rfl, hCond⟩ := leaf_inj h
  obtain ⟨rfl, hBody⟩ := cond.unique trivial trivial hCond
  obtain ⟨rfl, hElse⟩ := Braces.unique hStmt body (by omega) trivial trivial hBody
  obtain ⟨rfl, rfl⟩ := Otherwise.unique hStmt otherwise (by omega) hr hr' hElse
  exact ⟨rfl, rfl⟩

end

/-- Statements that start the same tokens start with the same word, if with any. -/
theorem Statement.word?_eq {d d' : Statement} {r r' : List Token}
    (h : d.tokens ++ r = d'.tokens ++ r') : d.word? = d'.word? := by
  have hOf {d d' : Statement} {r r' : List Token} {w : Keyword}
      (h : d.tokens ++ r = d'.tokens ++ r') (hWord : d.word? = some w) : d'.word? = some w := by
    obtain ⟨t, us, hTokens, hKind⟩ := Statement.exists_tokens_eq hWord
    obtain ⟨t', us', hTokens', -⟩ := d'.starts
    rw [hTokens, hTokens'] at h
    have hToken : t = t' := (List.cons.inj h).1
    exact Statement.word?_of_tokens hTokens' (hToken ▸ hKind) (Statement.word?_isStmtWord hWord)
  cases hWord : d.word? with
  | some w => exact (hOf h hWord).symm
  | none =>
    cases hWord' : d'.word? with
    | none => rfl
    | some w =>
      rw [hOf h.symm hWord'] at hWord
      cases hWord

theorem Statement.unique (d : Statement) : Unique Statement.tokens NotElse d := by
  induction hSize : d.tokens.length using Nat.strongRecOn generalizing d with
  | ind n ih =>
    have hStmt (x : Statement) (hx : x.tokens.length < n) : Unique Statement.tokens NotElse x :=
      ih _ hx x rfl
    intro d' r r' hr hr' h
    -- The first word leaves one alternative, or both statements are simple.
    have hWord := Statement.word?_eq h
    cases d with
    | ret word value semicolon =>
      cases d' with
      | ret word' value' semicolon' =>
        simp only [Statement.tokens, List.cons_append, List.append_assoc, List.nil_append] at h
        obtain ⟨rfl, hValue⟩ := leaf_inj h
        have hUnique : Unique (optionTokens Expression.tokens)
            (StartsWith fun k => k = .symbol .semicolon) value :=
          unique_option Expression.unique Expression.starts rfl
            (fun hr => hr.imp fun k hk => by rw [of_decide_eq_true hk]; rfl) value
        obtain ⟨rfl, hEnd⟩ :=
          hUnique (.intro semicolon.2 (by simp)) (.intro semicolon'.2 (by simp)) hValue
        obtain ⟨rfl, rfl⟩ := leaf_inj hEnd
        exact ⟨rfl, rfl⟩
      | jump j => cases j <;> cases hWord
      | _ => cases hWord
    | branch b =>
      cases d' with
      | branch b' =>
        obtain ⟨rfl, rfl⟩ :=
          Branch.unique hStmt b (by rw [← hSize]; exact Nat.le_succ _) hr hr' h
        exact ⟨rfl, rfl⟩
      | jump j => cases j <;> cases hWord
      | _ => cases hWord
    | whileDo word cond body =>
      cases d' with
      | whileDo word' cond' body' =>
        simp only [Statement.tokens, List.length_cons, List.length_append] at hSize
        simp only [Statement.tokens, List.cons_append, List.append_assoc] at h
        obtain ⟨rfl, hCond⟩ := leaf_inj h
        obtain ⟨rfl, hBody⟩ := cond.unique trivial trivial hCond
        obtain ⟨rfl, rfl⟩ := Braces.unique hStmt body (by omega) trivial trivial hBody
        exact ⟨rfl, rfl⟩
      | jump j => cases j <;> cases hWord
      | _ => cases hWord
    | doWhile word body loop cond semicolon =>
      cases d' with
      | doWhile word' body' loop' cond' semicolon' =>
        simp only [Statement.tokens, List.length_cons, List.length_append] at hSize
        simp only [Statement.tokens, List.cons_append, List.append_assoc, List.nil_append] at h
        obtain ⟨rfl, hBody⟩ := leaf_inj h
        obtain ⟨rfl, hLoop⟩ := Braces.unique hStmt body (by omega) trivial trivial hBody
        obtain ⟨rfl, hCond⟩ := leaf_inj hLoop
        obtain ⟨rfl, hEnd⟩ := cond.unique trivial trivial hCond
        obtain ⟨rfl, rfl⟩ := leaf_inj hEnd
        exact ⟨rfl, rfl⟩
      | jump j => cases j <;> cases hWord
      | _ => cases hWord
    | forLoop word head body =>
      cases d' with
      | forLoop word' head' body' =>
        simp only [Statement.tokens, List.length_cons, List.length_append] at hSize
        simp only [Statement.tokens, List.cons_append, List.append_assoc] at h
        obtain ⟨rfl, hHead⟩ := leaf_inj h
        obtain ⟨rfl, hBody⟩ := head.unique trivial trivial hHead
        obtain ⟨rfl, rfl⟩ := Braces.unique hStmt body (by omega) trivial trivial hBody
        exact ⟨rfl, rfl⟩
      | jump j => cases j <;> cases hWord
      | _ => cases hWord
    | jump j word semicolon =>
      cases d' with
      | jump j' word' semicolon' =>
        obtain rfl : j = j' := by cases j <;> cases j' <;> first | rfl | cases hWord
        obtain ⟨rfl, hEnd⟩ := leaf_inj h
        obtain ⟨rfl, rfl⟩ := leaf_inj hEnd
        exact ⟨rfl, rfl⟩
      | _ => cases j <;> cases hWord
    | simple x semicolon =>
      cases d' with
      | simple x' semicolon' =>
        simp only [Statement.tokens, List.append_assoc, List.cons_append, List.nil_append] at h
        obtain ⟨rfl, hEnd⟩ := x.unique (.intro semicolon.2 rfl) (.intro semicolon'.2 rfl) h
        obtain ⟨rfl, rfl⟩ := leaf_inj hEnd
        exact ⟨rfl, rfl⟩
      | _ => cases hWord

theorem Parameter.unique (d : Parameter) : Unique Parameter.tokens (fun _ => True) d := by
  obtain ⟨type, x⟩ := d
  rintro ⟨type', x'⟩ r r' - - h
  simp only [Parameter.tokens, List.append_assoc, List.cons_append, List.nil_append] at h
  obtain ⟨rfl, hName⟩ := type.unique (.intro x.2 (by simp)) (.intro x'.2 (by simp)) h
  obtain ⟨rfl, rfl⟩ := leaf_inj hName
  exact ⟨rfl, rfl⟩

theorem Definition.unique (d : Definition) : Unique Definition.tokens (fun _ => True) d := by
  have hOther (l : Mark .lparen) (init : Initial) (semicolon : Mark .semicolon)
      (ts r : List Token) : l.1 :: ts ≠ init.tokens ++ semicolon.1 :: r := by
    rintro h
    cases init with
    | none => cases Terminal.kind_eq l semicolon (List.cons.inj h).1
    | value sign e => cases Terminal.kind_eq l sign (List.cons.inj h).1
  intro d' r r' _ _ h
  cases d with
  | function type x l params close body =>
    simp only [Definition.tokens, List.append_assoc, List.cons_append] at h
    cases d' with
    | function type' x' l' params' close' body' =>
      simp only [List.append_assoc, List.cons_append] at h
      have hParams : Unique (Separated.tokens Parameter.tokens)
          (StartsWith fun k => k = .symbol .rparen) params :=
        unique_separated (fun p _ => p.unique) (fun p => p.type.starts.append _) rfl
          (fun _ _ => trivial) params (Nat.lt_succ_self _)
      obtain ⟨rfl, hName⟩ := type.unique (.intro x.2 (by simp)) (.intro x'.2 (by simp)) h
      obtain ⟨rfl, hOpen⟩ := leaf_inj hName
      obtain ⟨rfl, hRest⟩ := leaf_inj hOpen
      obtain ⟨rfl, hClose⟩ := hParams (.intro close.2 (by simp)) (.intro close'.2 (by simp)) hRest
      obtain ⟨rfl, hBody⟩ := leaf_inj hClose
      obtain ⟨rfl, rfl⟩ :=
        Braces.unique (fun x _ => x.unique) body (Nat.le_refl _) trivial trivial hBody
      exact ⟨rfl, rfl⟩
    | global type' x' init' semicolon' =>
      simp only [List.append_assoc, List.cons_append, List.nil_append] at h
      obtain ⟨rfl, hName⟩ := type.unique (.intro x.2 (by simp)) (.intro x'.2 (by simp)) h
      exact absurd (leaf_inj hName).2 (hOther l init' semicolon' _ _)
  | global type x init semicolon =>
    simp only [Definition.tokens, List.append_assoc, List.cons_append, List.nil_append] at h
    cases d' with
    | function type' x' l' params' close' body' =>
      simp only [List.append_assoc, List.cons_append] at h
      obtain ⟨rfl, hName⟩ := type.unique (.intro x.2 (by simp)) (.intro x'.2 (by simp)) h
      exact absurd (leaf_inj hName).2.symm (hOther l' init semicolon _ _)
    | global type' x' init' semicolon' =>
      simp only [List.append_assoc, List.cons_append, List.nil_append] at h
      obtain ⟨rfl, hName⟩ := type.unique (.intro x.2 (by simp)) (.intro x'.2 (by simp)) h
      obtain ⟨rfl, hInit⟩ := leaf_inj hName
      obtain ⟨rfl, hEnd⟩ := init.unique (.intro semicolon.2 rfl) (.intro semicolon'.2 rfl) hInit
      obtain ⟨rfl, rfl⟩ := leaf_inj hEnd
      exact ⟨rfl, rfl⟩

/-- The leaves of a derivation determine it. -/
theorem Derivation.ext_tokens {d d' : Derivation} (h : d.tokens = d'.tokens) : d = d' := by
  have hUnique : Unique (List.flatMap Definition.tokens) (fun r => r = []) d.definitions :=
    unique_flatMap Definition.starts (fun hr hStarts => hStarts.ne_nil hr) (fun _ => trivial)
      d.definitions fun x _ => x.unique
  obtain ⟨definitions⟩ := d
  obtain ⟨definitions'⟩ := d'
  obtain ⟨rfl, -⟩ := hUnique rfl rfl (congrArg (· ++ []) h)
  rfl

end MiniC.Grammar
