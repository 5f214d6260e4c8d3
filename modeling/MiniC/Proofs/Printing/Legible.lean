import MiniC.Proofs.Grammar.Program
import MiniC.Proofs.Places.Trees

/-! # Names and types in trees

The names in a parsed program are words, as its tokens are cut out of the source by their
characters.  The types that are written in it have their arrays outside of all pointers.
-/
namespace MiniC
set_option autoImplicit false

/-- The name has the characters of an identifier. -/
def IsWord (name : String) : Prop :=
  name.toList ≠ [] ∧ ∀ c ∈ name.toList, Lexeme.isWordChar c = true

namespace Ty

/-- Whether there are no arrays in the type. -/
def isFlat : Ty → Bool
  | pointer t => t.isFlat
  | array .. => false
  | _ => true

/-- Whether no pointer leads to an array, as in every type that can be declared. -/
def isDeclarable : Ty → Bool
  | array t _ => t.isDeclarable
  | t => t.isFlat

theorem isDeclarable_of_isFlat {t : Ty} (h : t.isFlat = true) : t.isDeclarable = true := by
  cases t <;> first | exact h | cases h

theorem isFlat_pointerTo {t : Ty} (h : t.isFlat = true) (n : Nat) :
    (t.pointerTo n).isFlat = true := by
  induction n with
  | zero => exact h
  | succ n ih => exact ih

theorem isDeclarable_arrayOf {t : Ty} (h : t.isDeclarable = true) (sizes : List Nat) :
    (t.arrayOf sizes).isDeclarable = true := by
  induction sizes with
  | nil => exact h
  | cons n sizes ih => exact ih

theorem isDeclarable_element {t u : Ty} (h : t.isDeclarable = true) (hu : t.element? = some u) :
    u.isDeclarable = true := by
  cases t with
  | pointer v =>
    cases hu
    exact isDeclarable_of_isFlat h
  | array v n =>
    cases hu
    exact h
  | _ => cases hu

end Ty

namespace Expr

variable {α : Type} (P : α → Prop)

mutual

/-- All names are words, and what is known about every subexpression has the property `P`. -/
def Legible : Expr α → Prop
  | const i _ _ => P i
  | string i _ _ => P i
  | var i _ x => P i ∧ IsWord x.name
  | call i _ f args => P i ∧ IsWord f.name ∧ LegibleAll args
  | binary i _ _ lhs rhs => P i ∧ lhs.Legible ∧ rhs.Legible
  | unary i _ _ _ operand => P i ∧ operand.Legible
  | index i _ base offset => P i ∧ base.Legible ∧ offset.Legible

def LegibleAll : List (Expr α) → Prop
  | [] => True
  | e :: es => e.Legible ∧ LegibleAll es

end

def LegibleOption (e? : Option (Expr α)) : Prop := ∀ e ∈ e?, e.Legible P

end Expr

namespace Stmt

variable {α : Type} (P : α → Prop)

mutual

/-- All names are words, all declared types are declarable, and what is known about every expression
has the property `P`. -/
def Legible : Stmt α → Prop
  | ret _ value => Expr.LegibleOption P value
  | assign _ x value => IsWord x.name ∧ value.Legible P
  | declare _ x ty init => IsWord x.name ∧ ty.isDeclarable = true ∧ Expr.LegibleOption P init
  | store _ base offset value => base.Legible P ∧ offset.Legible P ∧ value.Legible P
  | branch _ cond thenBody elseBody => cond.Legible P ∧ LegibleAll thenBody ∧ LegibleAll elseBody
  | loop _ _ cond body => cond.Legible P ∧ LegibleAll body
  | forLoop _ init cond update body =>
    LegibleOption init ∧ Expr.LegibleOption P cond ∧ LegibleOption update ∧ LegibleAll body
  | jump _ _ => True
  | expr _ value => value.Legible P

def LegibleAll : List (Stmt α) → Prop
  | [] => True
  | x :: xs => x.Legible ∧ LegibleAll xs

def LegibleOption : Option (Stmt α) → Prop
  | none => True
  | some x => x.Legible

end

end Stmt

section

variable {α : Type} (P : α → Prop)

def Param.Legible (p : Param) : Prop := IsWord p.name.name ∧ p.ty.isDeclarable = true

def Global.Legible (g : Global α) : Prop :=
  IsWord g.name.name ∧ g.ty.isDeclarable = true ∧ Expr.LegibleOption P g.init

def Function.Legible (f : Function α) : Prop :=
  IsWord f.name.name ∧ f.returnTy.isDeclarable = true ∧ (∀ p ∈ f.params, p.Legible) ∧
    Stmt.LegibleAll P f.body

def Item.Legible : Item α → Prop
  | .global g => g.Legible P
  | .function f => f.Legible P

def Program.Legible (p : Program α) : Prop := ∀ item ∈ p.items, item.Legible P

end

/-! ## The names of a source -/

namespace Lexeme

/-- Only words are identifiers. -/
theorem extent_of_identifier {c : Char} {cs : List Char} (h : (extent c cs).1 = .identifier) :
    isWordStart c = true ∧ (extent c cs).2 = runLength isWordChar cs := by
  rw [extent] at h ⊢
  split at h
  · rw [stringExtent] at h
    split at h
    · cases h
    · split at h <;> cases h
  · split at h
    · next hNe hStart =>
      rw [if_neg hNe, if_pos hStart]
      exact ⟨hStart, rfl⟩
    · split at h
      · simp only [numberExtent] at h
        split at h
        · split at h <;> cases h
        · cases h
      · split at h
        · cases h
        · split at h
          · cases h
          · split at h
            · rw [commentExtent] at h
              split at h <;> cases h
            · rw [symbolExtent] at h
              split at h
              · cases h
              · split at h <;> cases h

theorem isWordChar_of_mem_ofText {cs : List Char} {x : Lexeme} (h : x ∈ ofText cs)
    (hKind : x.kind = .identifier) : ∀ c ∈ x.text, isWordChar c = true := by
  induction cs using ofText.induct with
  | case1 => simp at h
  | case2 c cs ih =>
    rw [ofText_cons, List.mem_cons] at h
    rcases h with rfl | h
    · obtain ⟨hStart, hLength⟩ := extent_of_identifier hKind
      simp only [hLength, take_runLength, List.forall_mem_cons]
      refine ⟨?_, fun d hd => List.all_eq_true.mp List.all_takeWhile d hd⟩
      simp only [isWordStart, isWordChar, Char.isAlphanum, Bool.or_eq_true] at hStart ⊢
      rcases hStart with hAlpha | hLow
      · exact .inl (.inl hAlpha)
      · exact .inr hLow
    · exact ih h

end Lexeme

namespace Token

theorem exists_lexeme_of_mem_place {p : Pos} {xs : List Lexeme} {t : Token} (h : t ∈ place p xs)
    (hKind : t.kind = .identifier) : ∃ x ∈ xs, x.kind = .identifier ∧ x.text = t.text := by
  induction xs generalizing p with
  | nil =>
    obtain rfl := List.mem_singleton.mp h
    cases hKind
  | cons x xs ih =>
    rcases List.mem_append.mp h with h | h
    · simp only [ofLexeme, List.mem_append, List.mem_singleton] at h
      rcases h with h | rfl
      · split at h
        · rw [isFlaw_of_mem_lineBreaks h] at hKind
          cases hKind
        · cases h
      · exact ⟨x, List.mem_cons_self, hKind, rfl⟩
    · obtain ⟨x', hx', hx⟩ := ih h
      exact ⟨x', List.mem_cons_of_mem _ hx', hx⟩

theorem isWord_of_mem_significant {source : String} {t : Token} (h : t ∈ significant source)
    (hKind : t.kind = .identifier) : IsWord (Parser.identOf t).name := by
  obtain ⟨x, hx, hIdentifier, hText⟩ :=
    exists_lexeme_of_mem_place (mem_scan_of_mem_significant h) hKind
  have hNe := Lexeme.text_ne_nil_of_mem_ofText hx
  have hChars := Lexeme.isWordChar_of_mem_ofText hx hIdentifier
  rw [hText] at hNe hChars
  rw [IsWord, Parser.identOf, String.toList_ofList]
  exact ⟨hNe, hChars⟩

end Token

namespace Grammar

/-- All identifiers among the tokens are words. -/
def Wordy (ts : List Token) : Prop :=
  ∀ t ∈ ts, t.kind = .identifier → IsWord (Parser.identOf t).name

namespace Wordy

variable {t : Token} {ts us : List Token}

theorem tail (h : Wordy (t :: ts)) : Wordy ts := fun u hu => h u (List.mem_cons_of_mem _ hu)

theorem left (h : Wordy (ts ++ us)) : Wordy ts := fun u hu => h u (List.mem_append_left _ hu)

theorem right (h : Wordy (ts ++ us)) : Wordy us := fun u hu => h u (List.mem_append_right _ hu)

theorem name {x : Name} (h : Wordy (x.1 :: ts)) : IsWord (Parser.identOf x.1).name :=
  h x.1 List.mem_cons_self x.2

end Wordy

/-- What is known about the expressions of an unchecked program is of no use. -/
abbrev anything : Unit → Prop := fun _ => True

theorem legible_withSpan {e : Expr Unit} (h : e.Legible anything) (s : Span) :
    (e.withSpan s).Legible anything := by
  cases e <;> exact h

mutual

theorem Expression.legible_tree : (d : Expression) → Wordy d.tokens → d.tree.Legible anything
  | .before _ _ operand, h => ⟨trivial, operand.legible_tree h.tail⟩
  | .least _ _ tail, h => ⟨trivial, tail.legible_applyTo h.tail.tail trivial⟩
  | .chain atom tail, h => tail.legible_applyTo h.right (atom.legible_tree h.left)

theorem Tail.legible_applyTo {lhs : Expr Unit} : (d : Tail) → Wordy d.tokens →
    lhs.Legible anything → (d.applyTo lhs).Legible anything
  | .none, _, hLhs => hLhs
  | .operator _ _ rhs, h, hLhs => ⟨trivial, hLhs, rhs.legible_tree h.tail⟩

theorem Atom.legible_tree : (d : Atom) → Wordy d.tokens → d.tree.Legible anything
  | .string _, _ | .escapedString _, _ | .number _, _ | .decimal _, _ => trivial
  | .parens _ inner _, h => legible_withSpan (inner.legible_tree h.tail.left) _
  | .name _, h => ⟨trivial, h.name⟩
  | .call _ _ args _, h => ⟨trivial, h.name, Expression.legible_treesAll args h.tail.tail.left⟩
  | .index _ subscripts, h => ⟨trivial, subscripts.legible_split h.tail ⟨trivial, h.name⟩⟩
  | .increment _ _, h | .decrement _ _, h => ⟨trivial, trivial, h.name⟩

theorem Expression.legible_treesAll : (d : Separated Expression) →
    Wordy (Expression.tokensAll d) → Expr.LegibleAll anything (Expression.treesAll d)
  | .empty, _ => trivial
  | .last e, h => ⟨e.legible_tree h, trivial⟩
  | .more e _ rest, h => ⟨e.legible_tree h.left, Expression.legible_treesAll rest h.right.tail⟩

theorem Subscripts.legible_split {base : Expr Unit} : (d : Subscripts) → Wordy d.tokens →
    base.Legible anything → (d.split base).1.Legible anything ∧ (d.split base).2.Legible anything
  | .last _ offset _, h, hBase => ⟨hBase, offset.legible_tree h.tail.left⟩
  | .more _ offset _ rest, h, hBase =>
    rest.legible_split h.tail.right.tail ⟨trivial, hBase, offset.legible_tree h.tail.left⟩

end

theorem Expression.legible_option (d : Option Expression)
    (h : Wordy (optionTokens Expression.tokens d)) :
    Expr.LegibleOption anything (d.map Expression.tree) := by
  cases d with
  | none => simp [Expr.LegibleOption]
  | some e => simpa [Expr.LegibleOption] using e.legible_tree h

theorem Initial.legible_tree (d : Initial) (h : Wordy d.tokens) :
    Expr.LegibleOption anything d.tree := by
  cases d with
  | none => simp [Initial.tree, Expr.LegibleOption]
  | value sign e => simpa [Initial.tree, Expr.LegibleOption] using e.legible_tree h.tail

theorem TypeName.isDeclarable_ty (d : TypeName) : d.ty.isDeclarable = true := by
  have hBase : d.base.ty.isFlat = true := by cases d.base <;> rfl
  exact Ty.isDeclarable_of_isFlat (Ty.isFlat_pointerTo hBase _)

theorem Simple.legible_form (d : Simple) (h : Wordy d.tokens) (s : Span) :
    (d.form s).Legible anything := by
  cases d with
  | declare type x sizes init =>
    exact ⟨h.right.name, Ty.isDeclarable_arrayOf type.isDeclarable_ty _,
      init.legible_tree h.right.tail.right⟩
  | assign x sign value => exact ⟨h.name, value.legible_tree h.tail.tail⟩
  | store x subscripts sign value =>
    have hName : (Parser.variableOf (Parser.identOf x.1)).Legible anything := ⟨trivial, h.name⟩
    obtain ⟨hBase, hOffset⟩ := subscripts.legible_split h.tail.left hName
    exact ⟨hBase, hOffset, value.legible_tree h.tail.right.tail⟩
  | expr e => exact e.legible_tree h

theorem Simple.legible_option (d : Option Simple) (h : Wordy (optionTokens Simple.tokens d)) :
    Stmt.LegibleOption anything (d.map Simple.tree) := by
  cases d with
  | none => trivial
  | some x => exact x.legible_form h _

mutual

theorem Statement.legible_tree : (d : Statement) → Wordy d.tokens → d.tree.Legible anything
  | .ret _ value _, h => Expression.legible_option value h.tail.left
  | .branch b, h => b.legible_tree h
  | .whileDo _ cond body, h =>
    ⟨cond.value.legible_tree h.tail.left.tail.left, body.legible_trees h.tail.right⟩
  | .doWhile _ body _ cond _, h =>
    ⟨cond.value.legible_tree h.tail.right.tail.left.tail.left, body.legible_trees h.tail.left⟩
  | .forLoop _ head body, h =>
    have hHead := h.tail.left.tail
    have hCond := hHead.right.tail
    ⟨Simple.legible_option head.init hHead.left, Expression.legible_option head.cond hCond.left,
      Simple.legible_option head.update hCond.right.tail.left, body.legible_trees h.tail.right⟩
  | .jump _ _ _, _ => trivial
  | .simple x _, h => x.legible_form h.left _

theorem Branch.legible_tree : (d : Branch) → Wordy d.tokens → d.tree.Legible anything
  | .mk _ cond body otherwise, h =>
    ⟨cond.value.legible_tree h.tail.left.tail.left, body.legible_trees h.tail.right.left,
      otherwise.legible_trees h.tail.right.right⟩

theorem Otherwise.legible_trees : (d : Otherwise) → Wordy d.tokens →
    Stmt.LegibleAll anything d.trees
  | .none, _ => trivial
  | .branch _ b, h => ⟨b.legible_tree h.tail, trivial⟩
  | .block _ b, h => b.legible_trees h.tail

theorem Braces.legible_trees : (d : Braces) → Wordy d.tokens → Stmt.LegibleAll anything d.trees
  | .mk _ body _, h => Statement.legible_treesAll body h.tail.left

theorem Statement.legible_treesAll : (d : List Statement) → Wordy (Statement.tokensAll d) →
    Stmt.LegibleAll anything (Statement.treesAll d)
  | [], _ => trivial
  | x :: xs, h => ⟨x.legible_tree h.left, Statement.legible_treesAll xs h.right⟩

end

theorem Parameter.legible_items (d : Separated Parameter)
    (h : Wordy (d.tokens Parameter.tokens)) : ∀ p ∈ d.items Parameter.tree, p.Legible := by
  have hOne (p : Parameter) (h : Wordy p.tokens) : p.tree.Legible :=
    ⟨h.right.name, p.type.isDeclarable_ty⟩
  induction d with
  | empty => simp [Separated.items]
  | last p => simpa [Separated.items] using hOne p h
  | more p comma rest ih =>
    rw [Separated.items, List.forall_mem_cons]
    exact ⟨hOne p h.left, ih h.right.tail⟩

theorem Definition.legible_tree (d : Definition) (h : Wordy d.tokens) :
    d.tree.Legible anything := by
  cases d with
  | function type x l params r body =>
    exact ⟨h.right.name, type.isDeclarable_ty, Parameter.legible_items params h.right.tail.tail.left,
      body.legible_trees h.right.tail.tail.right.tail⟩
  | global type x init semicolon =>
    exact ⟨h.right.name, type.isDeclarable_ty, init.legible_tree h.right.tail.left⟩

theorem Derivation.legible_tree (d : Derivation) (h : Wordy d.tokens) :
    d.tree.Legible anything := by
  intro item hItem
  obtain ⟨x, hx, rfl⟩ := List.mem_map.mp hItem
  refine x.legible_tree fun t ht => h t ?_
  exact List.mem_flatMap.mpr ⟨x, hx, ht⟩

end Grammar

theorem Program.legible_of_parse {source : String} {p : Program Unit}
    (h : Program.parse source = .ok p) : p.Legible fun _ => True := by
  obtain ⟨d, hTokens, rfl⟩ := Program.exists_derivation (Program.firstFlaw?_of_parse h) h
  refine d.legible_tree fun t ht hKind => ?_
  exact Token.isWord_of_mem_significant (hTokens ▸ ht) hKind

end MiniC
