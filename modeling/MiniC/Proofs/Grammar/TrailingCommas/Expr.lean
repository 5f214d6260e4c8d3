import Mathlib.Data.List.Chain
import MiniC.Proofs.Grammar.Reading

/-! # Expressions without trailing commas

One comma may stand behind the last item of a list.  A phrase is strict if no list in it has such a
comma.  Without the commas that stand directly in front of a closing parenthesis the tokens of a
phrase are those of a strict phrase with the same tree, and a strict phrase has no such commas.
-/
namespace MiniC
set_option autoImplicit false

namespace Token

/-- The tokens without the commas that stand directly in front of a closing parenthesis. -/
def dropTrailing : List Token → List Token
  | [] => []
  | t :: ts =>
    if t.kind = .symbol .comma ∧ ts.head?.map kind = some (.symbol .rparen) then dropTrailing ts
    else t :: dropTrailing ts

/-- No comma stands directly in front of a closing parenthesis. -/
def NoTrailing (ts : List Token) : Prop :=
  ts.IsChain fun t r => ¬ (t.kind = .symbol .comma ∧ r.kind = .symbol .rparen)

instance (ts : List Token) : Decidable (NoTrailing ts) :=
  inferInstanceAs (Decidable (ts.IsChain fun t r =>
    ¬ (t.kind = .symbol .comma ∧ r.kind = .symbol .rparen)))

theorem dropTrailing_cons_of_ne {t : Token} (ts : List Token) (h : t.kind ≠ .symbol .comma) :
    dropTrailing (t :: ts) = t :: dropTrailing ts :=
  if_neg fun hBoth => h hBoth.1

theorem dropTrailing_comma_rparen {t r : Token} (ts : List Token) (h : t.kind = .symbol .comma)
    (hClose : r.kind = .symbol .rparen) : dropTrailing (t :: r :: ts) = dropTrailing (r :: ts) :=
  if_pos ⟨h, congrArg some hClose⟩

theorem dropTrailing_cons_of_starts {test : Kind → Bool} {ts : List Token} (t : Token)
    (h : Grammar.StartsWith test ts) (hTest : test (.symbol .rparen) = false) :
    dropTrailing (t :: ts) = t :: dropTrailing ts := by
  obtain ⟨u, us, rfl, hKind⟩ := h
  refine if_neg fun hBoth => ?_
  rw [Option.some.inj hBoth.2, hTest] at hKind
  cases hKind

theorem length_dropTrailing_le (ts : List Token) : (dropTrailing ts).length ≤ ts.length := by
  induction ts with
  | nil => exact Nat.le_refl _
  | cons t ts ih =>
    rw [dropTrailing]
    split
    · exact Nat.le_succ_of_le ih
    · exact Nat.succ_le_succ ih

theorem dropTrailing_eq_self_iff {ts : List Token} : dropTrailing ts = ts ↔ NoTrailing ts := by
  induction ts with
  | nil => exact iff_of_true rfl .nil
  | cons t ts ih =>
    cases ts with
    | nil => exact iff_of_true (if_neg fun hBoth => by cases hBoth.2) (.singleton t)
    | cons r us =>
      rw [NoTrailing, List.isChain_cons_cons, ← NoTrailing, ← ih]
      by_cases hBoth : t.kind = .symbol .comma ∧ r.kind = .symbol .rparen
      · rw [dropTrailing_comma_rparen us hBoth.1 hBoth.2]
        refine iff_of_false (fun hEq => ?_) fun hNot => hNot.1 hBoth
        have hLe := length_dropTrailing_le (r :: us)
        rw [hEq] at hLe
        exact Nat.not_succ_le_self _ hLe
      · have hKeep : dropTrailing (t :: r :: us) = t :: dropTrailing (r :: us) :=
          if_neg fun h => hBoth ⟨h.1, Option.some.inj h.2⟩
        rw [hKeep, List.cons.injEq]
        exact ⟨fun hEq => ⟨hBoth, hEq.2⟩, fun hEq => ⟨rfl, hEq.2⟩⟩

end Token

namespace Grammar

open Token (dropTrailing)

/-! ## Strict phrases -/

/-- `[item (',' item)*]`, with items that have the property `p`. -/
def Separated.Strict {α : Type} (p : α → Prop) : Separated α → Prop
  | .empty => True
  | .last a => p a
  | .more a _ rest => p a ∧ rest ≠ .empty ∧ rest.Strict p

mutual

def Expression.Strict : Expression → Prop
  | .before _ _ operand => operand.Strict
  | .least _ _ tail => tail.Strict
  | .chain atom tail => atom.Strict ∧ tail.Strict

def Tail.Strict : Tail → Prop
  | .none => True
  | .operator _ _ rhs => rhs.Strict

def Atom.Strict : Atom → Prop
  | .parens _ inner _ => inner.Strict
  | .call _ _ args _ => Expression.StrictAll args
  | .index _ subscripts => subscripts.Strict
  | _ => True

def Expression.StrictAll : Separated Expression → Prop
  | .empty => True
  | .last e => e.Strict
  | .more e _ rest => e.Strict ∧ rest ≠ .empty ∧ Expression.StrictAll rest

def Subscripts.Strict : Subscripts → Prop
  | .last _ offset _ => offset.Strict
  | .more _ offset _ rest => offset.Strict ∧ rest.Strict

end

theorem Expression.strictAll_eq (args : Separated Expression) :
    Expression.StrictAll args = args.Strict Expression.Strict := by
  induction args with
  | empty => rfl
  | last e => rfl
  | more e comma rest ih => rw [Separated.Strict, ← ih, Expression.StrictAll]

/-! ## Tokens without trailing commas -/

/-- Whatever follows the tokens `ts`, without trailing commas they are `ts'`. -/
def Drops (ts ts' : List Token) : Prop := ∀ r, dropTrailing (ts ++ r) = ts' ++ dropTrailing r

namespace Drops

variable {ts ts' us us' : List Token} {test : Kind → Bool}

theorem nil : Drops [] [] := fun _ => rfl

theorem append (h : Drops ts ts') (h' : Drops us us') : Drops (ts ++ us) (ts' ++ us') := by
  intro r
  rw [List.append_assoc, h, h', List.append_assoc]

theorem cons {t : Token} (ht : t.kind ≠ .symbol .comma) (h : Drops ts ts') :
    Drops (t :: ts) (t :: ts') := by
  intro r
  rw [List.cons_append, Token.dropTrailing_cons_of_ne _ ht, h, List.cons_append]

theorem terminal {k : Kind} (t : Terminal k) (hk : k ≠ .symbol .comma) (h : Drops ts ts') :
    Drops (t.1 :: ts) (t.1 :: ts') := .cons (by rwa [t.2]) h

/-- A comma in front of another item stays. -/
theorem cons_of_starts (t : Token) (h : Drops ts ts') (hStarts : StartsWith test ts)
    (hTest : test (.symbol .rparen) = false) : Drops (t :: ts) (t :: ts') := by
  intro r
  rw [List.cons_append, Token.dropTrailing_cons_of_starts t (hStarts.append r) hTest, h,
    List.cons_append]

theorem comma (t : Mark .comma) {r : Token} (hClose : r.kind = .symbol .rparen)
    (h : Drops (r :: ts) ts') : Drops (t.1 :: r :: ts) ts' := by
  intro us
  rw [List.cons_append, List.cons_append, Token.dropTrailing_comma_rparen _ t.2 hClose]
  exact h us

theorem eq_dropTrailing (h : Drops ts ts') : ts' = dropTrailing ts := by
  have hAll := h []
  rw [List.append_nil, dropTrailing, List.append_nil] at hAll
  exact hAll.symm

end Drops

/-! ## Phrases without trailing commas -/

/-- The phrase `d'` is what is left of `d` without its trailing commas. -/
structure Trims {δ τ : Type} (leaves : δ → List Token) (value : δ → τ) (Strict : δ → Prop)
    (d d' : δ) : Prop where
  strict : Strict d'
  drops : Drops (leaves d) (leaves d')
  value : value d' = value d
  eq_self : Strict d → d' = d

/-- The same for a list in front of a closing parenthesis. -/
structure ListTrims {δ τ : Type} (leaves : δ → List Token) (value : δ → τ) (Strict : δ → Prop)
    (ds ds' : Separated δ) : Prop where
  strict : ds'.Strict Strict
  drops {r : Token} {ts ts' : List Token} (hClose : r.kind = .symbol .rparen) (h : Drops ts ts') :
    Drops (ds.tokens leaves ++ r :: ts) (ds'.tokens leaves ++ r :: ts')
  value : ds'.items value = ds.items value
  eq_self : ds.Strict Strict → ds' = ds

section

variable {δ τ : Type} {leaves : δ → List Token} {value : δ → τ} {Strict : δ → Prop} {d d' : δ}

theorem Trims.refl (hStrict : Strict d) (h : Drops (leaves d) (leaves d)) :
    Trims leaves value Strict d d := ⟨hStrict, h, rfl, fun _ => rfl⟩

theorem ListTrims.empty : ListTrims leaves value Strict .empty .empty where
  strict := trivial
  drops hClose h := .cons (by rw [hClose]; decide) h
  value := rfl
  eq_self _ := rfl

theorem ListTrims.last (hd : Trims leaves value Strict d d') :
    ListTrims leaves value Strict (.last d) (.last d') where
  strict := hd.strict
  drops hClose h := hd.drops.append (.cons (by rw [hClose]; decide) h)
  value := congrArg (fun a => [a]) hd.value
  eq_self hStrict := congrArg Separated.last (hd.eq_self hStrict)

theorem ListTrims.exists_more {test : Kind → Bool} (hStarts : ∀ d, StartsWith test (leaves d))
    (hTest : test (.symbol .rparen) = false) (hd : Trims leaves value Strict d d')
    (comma : Mark .comma) {ds ds' : Separated δ} (hds : ListTrims leaves value Strict ds ds') :
    ∃ ds'', ListTrims leaves value Strict (.more d comma ds) ds'' := by
  by_cases hEmpty : ds = .empty
  · -- the comma is the trailing one
    subst hEmpty
    refine ⟨.last d', hd.strict, fun hClose h => ?_, ?_, fun hStrict => absurd rfl hStrict.2.1⟩
    · simp only [Separated.tokens, List.append_assoc, List.cons_append, List.nil_append]
      refine hd.drops.append (.comma comma hClose (.cons ?_ h))
      rw [hClose]
      decide
    · exact congrArg (fun a => [a]) hd.value
  · have hFirst (us : List Token) : StartsWith test (ds.tokens leaves ++ us) := by
      cases ds with
      | empty => exact absurd rfl hEmpty
      | last e => exact (hStarts e).append us
      | more e _ _ => exact ((hStarts e).append _).append us
    have hEmpty' : ds' ≠ .empty := by
      rintro rfl
      have hItems := hds.value
      cases ds with
      | empty => exact hEmpty rfl
      | last e => cases hItems
      | more e _ _ => cases hItems
    refine ⟨.more d' comma ds', ⟨hd.strict, hEmpty', hds.strict⟩, fun hClose h => ?_, ?_,
      fun hStrict => ?_⟩
    · rw [Separated.tokens, Separated.tokens, List.append_assoc, List.append_assoc]
      exact hd.drops.append (.cons_of_starts comma.1 (hds.drops hClose h) (hFirst _) hTest)
    · rw [Separated.items, Separated.items, hd.value, hds.value]
    · rw [hd.eq_self hStrict.1, hds.eq_self hStrict.2.2]

end

/-! ## Expressions -/

mutual

theorem Expression.exists_trims :
    (d : Expression) → ∃ d', Trims Expression.tokens Expression.tree Expression.Strict d d'
  | .before op sign operand => by
    obtain ⟨operand', h⟩ := operand.exists_trims
    refine ⟨.before op sign operand', h.strict, .terminal sign ?_ h.drops, ?_, fun hStrict => ?_⟩
    · cases op <;> decide
    · rw [Expression.tree, h.value, Expression.tree]
    · rw [h.eq_self hStrict]
  | .least minus literal tail => by
    obtain ⟨tail', h⟩ := tail.exists_trims
    refine ⟨.least minus literal tail', h.strict, ?_, ?_, fun hStrict => ?_⟩
    · exact .terminal minus (by decide) (.cons (by rw [literal.2.1]; decide) h.drops)
    · rw [Expression.tree, congrFun h.value _, Expression.tree]
    · rw [h.eq_self hStrict]
  | .chain atom tail => by
    obtain ⟨atom', hAtom⟩ := atom.exists_trims
    obtain ⟨tail', hTail⟩ := tail.exists_trims
    refine ⟨.chain atom' tail', ⟨hAtom.strict, hTail.strict⟩, hAtom.drops.append hTail.drops, ?_,
      fun hStrict => ?_⟩
    · rw [Expression.tree, congrFun hTail.value _, hAtom.value, Expression.tree]
    · rw [hAtom.eq_self hStrict.1, hTail.eq_self hStrict.2]

theorem Tail.exists_trims :
    (d : Tail) → ∃ d', Trims Tail.tokens (fun d lhs => d.applyTo lhs) Tail.Strict d d'
  | .none => ⟨.none, .refl trivial .nil⟩
  | .operator op sign rhs => by
    obtain ⟨rhs', h⟩ := rhs.exists_trims
    refine ⟨.operator op sign rhs', h.strict, .terminal sign ?_ h.drops, ?_, fun hStrict => ?_⟩
    · cases op <;> decide
    · funext lhs
      rw [Tail.applyTo, h.value, Tail.applyTo]
    · rw [h.eq_self hStrict]

theorem Atom.exists_trims : (d : Atom) → ∃ d', Trims Atom.tokens Atom.tree Atom.Strict d d'
  | .string t => ⟨.string t, .refl trivial (.terminal t (by decide) .nil)⟩
  | .escapedString t => ⟨.escapedString t, .refl trivial (.terminal t (by decide) .nil)⟩
  | .number t => ⟨.number t, .refl trivial (.cons (by rw [t.2.1]; decide) .nil)⟩
  | .decimal t => ⟨.decimal t, .refl trivial (.terminal t (by decide) .nil)⟩
  | .parens l inner r => by
    obtain ⟨inner', h⟩ := inner.exists_trims
    refine ⟨.parens l inner' r, h.strict, ?_, ?_, fun hStrict => ?_⟩
    · exact .terminal l (by decide) (h.drops.append (.terminal r (by decide) .nil))
    · rw [Atom.tree, h.value, Atom.tree]
    · rw [h.eq_self hStrict]
  | .name x => ⟨.name x, .refl trivial (.terminal x (by decide) .nil)⟩
  | .call x l args r => by
    obtain ⟨args', h⟩ := Expression.exists_trims_all args
    refine ⟨.call x l args' r, ?_, ?_, ?_, fun hStrict => ?_⟩
    · rw [Atom.Strict, Expression.strictAll_eq]
      exact h.strict
    · rw [Atom.tokens, Atom.tokens, Expression.tokensAll_eq, Expression.tokensAll_eq]
      exact .terminal x (by decide) (.terminal l (by decide) (h.drops r.2 .nil))
    · rw [Atom.tree, Expression.treesAll_eq, h.value, ← Expression.treesAll_eq, Atom.tree]
    · rw [Atom.Strict, Expression.strictAll_eq] at hStrict
      rw [h.eq_self hStrict]
  | .index x subscripts => by
    obtain ⟨subscripts', h⟩ := subscripts.exists_trims
    obtain ⟨hSplit, hClose⟩ := Prod.mk.inj h.value
    refine ⟨.index x subscripts', h.strict, .terminal x (by decide) h.drops, ?_, fun hStrict => ?_⟩
    · rw [Atom.tree, congrFun hSplit _, hClose, Atom.tree]
    · rw [h.eq_self hStrict]
  | .increment x sign =>
    ⟨.increment x sign, .refl trivial (.terminal x (by decide) (.terminal sign (by decide) .nil))⟩
  | .decrement x sign =>
    ⟨.decrement x sign, .refl trivial (.terminal x (by decide) (.terminal sign (by decide) .nil))⟩

theorem Expression.exists_trims_all : (args : Separated Expression) →
    ∃ args', ListTrims Expression.tokens Expression.tree Expression.Strict args args'
  | .empty => ⟨.empty, .empty⟩
  | .last e => by
    obtain ⟨e', h⟩ := e.exists_trims
    exact ⟨.last e', .last h⟩
  | .more e comma rest => by
    obtain ⟨e', h⟩ := e.exists_trims
    obtain ⟨rest', hRest⟩ := Expression.exists_trims_all rest
    exact ListTrims.exists_more Expression.starts rfl h comma hRest

theorem Subscripts.exists_trims : (d : Subscripts) →
    ∃ d', Trims Subscripts.tokens (fun d => (fun base => d.split base, d.close))
      Subscripts.Strict d d'
  | .last l offset r => by
    obtain ⟨offset', h⟩ := offset.exists_trims
    refine ⟨.last l offset' r, h.strict, ?_, ?_, fun hStrict => ?_⟩
    · exact .terminal l (by decide) (h.drops.append (.terminal r (by decide) .nil))
    · simp only [Subscripts.split, Subscripts.close, h.value]
    · rw [h.eq_self hStrict]
  | .more l offset r rest => by
    obtain ⟨offset', h⟩ := offset.exists_trims
    obtain ⟨rest', hRest⟩ := rest.exists_trims
    obtain ⟨hSplit, hClose⟩ := Prod.mk.inj hRest.value
    refine ⟨.more l offset' r rest', ⟨h.strict, hRest.strict⟩, ?_, ?_, fun hStrict => ?_⟩
    · exact .terminal l (by decide) (h.drops.append (.terminal r (by decide) hRest.drops))
    · refine Prod.ext (funext fun base => ?_) hClose
      change rest'.split (.index () _ base offset'.tree) = rest.split (.index () _ base offset.tree)
      rw [h.value, congrFun hSplit _]
    · rw [h.eq_self hStrict.1, hRest.eq_self hStrict.2]

end

end Grammar

end MiniC
