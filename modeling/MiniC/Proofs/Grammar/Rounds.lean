import MiniC.Proofs.Grammar.Soundness.Expr

/-! # The bound on the rounds does not matter

The parser of expressions is bounded by a number of rounds.  All bounds that exceed the number of
tokens left have the same outcome, failures included.  So the parser of a whole expression reads a
primary and what an operator adds to it, with itself as the parser of the expressions in them.
-/
namespace MiniC
set_option autoImplicit false

open Grammar

theorem Stream.Proper.tail {s : Stream} (hs : s.Proper) : s.tail.Proper where
  eof := hs.eof
  rest t ht := hs.rest t (List.mem_of_mem_tail ht)
  ordered := hs.ordered.sublist (List.tail_sublist s.rest)

theorem Stream.Proper.length_tail_lt {s : Stream} (hs : s.Proper) (h : s.head.kind ≠ .eof) :
    s.tail.rest.length < s.rest.length := by
  rw [(hs.reads_head h).rest]
  exact Nat.lt_succ_self _

namespace Parser

variable {α β : Type}

/-- What the parser leaves of a proper stream is proper and no longer. -/
def Shortens (p : Parser α) : Prop :=
  ∀ {s s' : Stream} {a : α}, s.Proper → p s = .ok (a, s') →
    s'.Proper ∧ s'.rest.length ≤ s.rest.length

theorem shortens_of_reads {s s' : Stream} {ts : List Token} (hs : s.Proper)
    (h : s.Reads ts s') : s'.Proper ∧ s'.rest.length ≤ s.rest.length := by
  refine ⟨h.proper hs, ?_⟩
  rw [h.rest, List.length_append]
  exact Nat.le_add_left _ _

theorem Accepts.shortens {δ : Type} {p : Parser α} {leaves : δ → List Token} {value : δ → α}
    (h : Accepts p leaves value) : Shortens p := by
  intro s s' a hs hRun
  obtain ⟨d, hReads, -⟩ := h hs hRun
  exact shortens_of_reads hs hReads

theorem shortens_tail {s : Stream} (hs : s.Proper) :
    s.tail.Proper ∧ s.tail.rest.length ≤ s.rest.length :=
  ⟨hs.tail, (List.tail_sublist s.rest).length_le⟩

theorem expect_shortens (k : Kind) : Shortens (expect k) := by
  intro s s' t hs h
  rw [expect_run] at h
  split at h
  · cases h
    exact shortens_tail hs
  · cases h

theorem discard_expect_shortens (k : Kind) : Shortens (discard (expect k)) := by
  intro s s' u hs h
  rw [discard_run] at h
  cases hRun : expect k s with
  | error e =>
    rw [hRun] at h
    cases h
  | ok r =>
    rw [hRun] at h
    cases h
    exact expect_shortens k hs hRun

theorem take_shortens (k : Kind) : Shortens (take k) := by
  intro s s' taken hs h
  rw [take_run] at h
  split at h
  · cases h
    exact shortens_tail hs
  · cases h
    exact ⟨hs, Nat.le_refl _⟩

/-- The parsers have the same outcome on every proper stream with fewer than `n` tokens. -/
def AgreeBelow (n : Nat) (p q : Parser α) : Prop :=
  ∀ s : Stream, s.Proper → s.rest.length < n → p s = q s

namespace AgreeBelow

variable {n : Nat} {p q : Parser α}

theorem refl (n : Nat) (p : Parser α) : AgreeBelow n p p := fun _ _ _ => rfl

theorem bind {f g : α → Parser β} (hp : AgreeBelow n p q) (hShortens : Shortens p)
    (hf : ∀ a, AgreeBelow n (f a) (g a)) : AgreeBelow n (p >>= f) (q >>= g) := by
  intro s hs hLess
  rw [run_bind, run_bind, ← hp s hs hLess]
  cases hRun : p s with
  | error e => rfl
  | ok r =>
    obtain ⟨hs', hLe⟩ := hShortens hs hRun
    exact hf r.1 r.2 hs' (Nat.lt_of_le_of_lt hLe hLess)

/-- The parsers end in the same way. -/
theorem before (h : AgreeBelow n p q) (f : α → Parser β) :
    AgreeBelow n (p >>= f) (q >>= f) := by
  intro s hs hLess
  rw [run_bind, run_bind, h s hs hLess]

/-- The parsers start in the same way. -/
theorem after {r : Parser β} {f g : β → Parser α} (hShortens : Shortens r)
    (hf : ∀ b, AgreeBelow n (f b) (g b)) : AgreeBelow n (r >>= f) (r >>= g) :=
  (refl n r).bind hShortens hf

theorem ite {c : Prop} [Decidable c] {p' q' : Parser α} (hp : AgreeBelow n p q)
    (hq : AgreeBelow n p' q') : AgreeBelow n (if c then p else p') (if c then q else q') := by
  split
  · exact hp
  · exact hq

theorem budgeted {p q : Nat → Parser α} (h : ∀ m, AgreeBelow n (p m) (q m)) :
    AgreeBelow n (budgeted p) (budgeted q) := fun s hs => h _ s hs

/-- A token is read first.  At the end of the file it stays, so the rest has to agree as it is. -/
theorem advance {f g : Token → Parser α} (hf : ∀ t, AgreeBelow n (f t) (g t))
    (hEnd : ∀ t, t.kind = .eof → f t = g t) :
    AgreeBelow (n + 1) (advance >>= f) (advance >>= g) := by
  intro s hs hLess
  rw [advance_bind, advance_bind]
  by_cases hEof : s.head.kind = .eof
  · rw [hEnd _ hEof]
  · have hTail := hs.length_tail_lt hEof
    exact hf s.head s.tail hs.tail (by omega)

end AgreeBelow

theorem sepList_agree {n : Nat} {item item' : Parser α} (h : AgreeBelow n item item')
    (hShortens : Shortens item) (close sep : Kind) (m : Nat) :
    AgreeBelow n (sepList close sep item m) (sepList close sep item' m) := by
  induction m with
  | zero => exact .refl n _
  | succ m ih =>
    intro s hs hLess
    by_cases hEnd : s.head.kind = .eof ∨ s.head.kind = close
    · simp only [sepList, peekKind_bind, ite_run, if_pos hEnd]
    · rw [sepList_of_item _ _ _ _ hEnd, sepList_of_item _ _ _ _ hEnd]
      exact h.bind hShortens
        (fun x => .after (take_shortens sep) fun taken => .ite (ih.before _) (.refl n _)) s hs hLess

section

variable {n : Nat} {p q : Parser (Expr Unit)} (h : AgreeBelow n p q)

include h

theorem operatorChain_agree (lhs : Expr Unit) :
    AgreeBelow (n + 1) (operatorChain p lhs) (operatorChain q lhs) := by
  intro s hs hLess
  cases hOp : BinaryOp.ofKind? s.head.kind with
  | none => rw [operatorChain_of_none p lhs hOp, operatorChain_of_none q lhs hOp]
  | some op =>
    rw [operatorChain_of_some p lhs hOp, operatorChain_of_some q lhs hOp]
    have hKind := BinaryOp.kind_of_ofKind? hOp
    have hTail := hs.length_tail_lt (by cases op <;> simp [hKind, BinaryOp.kind])
    exact h.before _ s.tail hs.tail (by omega)

theorem operand_agree (op : UnaryOp) : AgreeBelow n (operand p op) (operand q op) := by
  intro s hs hLess
  simp only [operand, ite_run, seesMinMagnitude_ite, advance_bind]
  split
  · split
    · exact operatorChain_agree h _ s.tail hs.tail
        (Nat.lt_succ_of_lt (Nat.lt_of_le_of_lt (shortens_tail hs).2 hLess))
    · exact h s hs hLess
  · exact h s hs hLess

variable (hShortens : Shortens p)

include hShortens

theorem subscripts_agree (m : Nat) (base : Expr Unit) :
    AgreeBelow n (subscripts p m base) (subscripts q m base) := by
  induction m generalizing base with
  | zero => exact .refl n _
  | succ m ih =>
    exact .after (discard_expect_shortens _) fun _ => h.bind hShortens fun offset =>
      .after (discard_expect_shortens _) fun _ s hs hLess => by
        rw [sees_ite, sees_ite]
        split
        · exact ih _ s hs hLess
        · rfl

theorem nameSuffix_agree (x : Ident) : AgreeBelow n (nameSuffix p x) (nameSuffix q x) := by
  intro s hs hLess
  have hTail := Nat.lt_of_le_of_lt (shortens_tail hs).2 hLess
  simp only [nameSuffix, take_ite, sees_ite]
  split
  · exact (AgreeBelow.budgeted (sepList_agree h hShortens _ _)).before _ s.tail hs.tail hTail
  · split
    · exact (AgreeBelow.budgeted fun m => subscripts_agree h hShortens m _).before _ s hs hLess
    · rfl

theorem primary_agree : AgreeBelow (n + 1) (primary p) (primary q) := by
  refine .advance (fun t => ?_) fun t hEnd => by simp only [hEnd]
  cases t.kind with
  | identifier => exact nameSuffix_agree h hShortens _
  | symbol m =>
    by_cases hOpen : m = .lparen
    · subst hOpen
      exact h.before _
    · cases hOp : UnaryOp.ofSymbol? m with
      | none =>
        simp only [hOp]
        exact .refl n _
      | some op =>
        simp only [hOp]
        exact (operand_agree h op).before _
  | _ => exact .refl n _

end

theorem primary_shortens {p : Parser (Expr Unit)}
    (hAccepts : Accepts p Expression.tokens Expression.tree) (hExhausts : Exhausts p) :
    Shortens (primary p) := by
  intro s s' e hs h
  rcases primary_accepts hAccepts hExhausts hs h with ⟨a, hReads, -⟩ | ⟨d, hReads, -⟩
  · exact shortens_of_reads hs hReads
  · exact shortens_of_reads hs hReads

/-- More rounds than there are tokens change nothing. -/
theorem exprWithin_agree {n m : Nat} (hLe : n ≤ m) :
    AgreeBelow n (exprWithin n) (exprWithin m) := by
  induction n generalizing m with
  | zero =>
    intro s hs hLess
    exact absurd hLess (Nat.not_lt_zero _)
  | succ n ih =>
    obtain ⟨m, rfl⟩ : ∃ k, m = k + 1 := ⟨m - 1, by omega⟩
    have hAgree := ih (Nat.le_of_succ_le_succ hLe)
    obtain ⟨hAccepts, hExhausts⟩ := exprWithin_accepts n
    exact (primary_agree hAgree (Accepts.shortens hAccepts)).bind
      (primary_shortens hAccepts hExhausts) (operatorChain_agree hAgree)

theorem exprWithin_agree_expr (n : Nat) : AgreeBelow n (exprWithin n) expr := by
  intro s hs hLess
  exact (exprWithin_agree (Nat.succ_le_of_lt hLess) s hs (Nat.lt_succ_self _)).symm

/-- The parser of a whole expression reads a primary and what an operator adds to it. -/
theorem expr_eq {s : Stream} (hs : s.Proper) :
    expr s = (primary expr >>= operatorChain expr) s := by
  have hAgree := exprWithin_agree_expr s.rest.length
  obtain ⟨hAccepts, hExhausts⟩ := exprWithin_accepts s.rest.length
  exact (primary_agree hAgree (Accepts.shortens hAccepts)).bind
    (primary_shortens hAccepts hExhausts) (operatorChain_agree hAgree) s hs (Nat.lt_succ_self _)

end Parser

end MiniC
