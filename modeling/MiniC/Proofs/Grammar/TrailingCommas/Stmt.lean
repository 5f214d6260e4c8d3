import MiniC.Proofs.Grammar.TrailingCommas.Expr

/-! # Programs without trailing commas

The commas in front of closing parentheses are dropped from statements, definitions and whole
programs.  The spans stay: a statement neither starts nor ends with such a comma.
-/
namespace MiniC.Grammar
set_option autoImplicit false

open Token (dropTrailing)

/-! ## Strict phrases -/

def Initial.Strict : Initial → Prop
  | .none => True
  | .value _ e => e.Strict

def Simple.Strict : Simple → Prop
  | .declare _ _ _ init => init.Strict
  | .assign _ _ value => value.Strict
  | .store _ subscripts _ value => subscripts.Strict ∧ value.Strict
  | .expr e => e.Strict

def Condition.Strict (c : Condition) : Prop := c.value.Strict

/-- A phrase that may be missing. -/
def OptionStrict {δ : Type} (p : δ → Prop) (d : Option δ) : Prop := ∀ a ∈ d, p a

structure ForHead.Strict (h : ForHead) : Prop where
  init : OptionStrict Simple.Strict h.init
  cond : OptionStrict Expression.Strict h.cond
  update : OptionStrict Simple.Strict h.update

mutual

def Statement.Strict : Statement → Prop
  | .ret _ value _ => OptionStrict Expression.Strict value
  | .branch b => b.Strict
  | .whileDo _ cond body => cond.Strict ∧ body.Strict
  | .doWhile _ body _ cond _ => body.Strict ∧ cond.Strict
  | .forLoop _ head body => head.Strict ∧ body.Strict
  | .jump _ _ _ => True
  | .simple x _ => x.Strict

def Branch.Strict : Branch → Prop
  | .mk _ cond body otherwise => cond.Strict ∧ body.Strict ∧ otherwise.Strict

def Otherwise.Strict : Otherwise → Prop
  | .none => True
  | .branch _ b => b.Strict
  | .block _ b => b.Strict

def Braces.Strict : Braces → Prop
  | .mk _ body _ => Statement.StrictAll body

def Statement.StrictAll : List Statement → Prop
  | [] => True
  | x :: xs => x.Strict ∧ Statement.StrictAll xs

end

/-- No list of parameters and no list of arguments ends with a comma. -/
def Definition.Strict : Definition → Prop
  | .function _ _ _ params _ body => params.Strict (fun _ => True) ∧ body.Strict
  | .global _ _ init _ => init.Strict

def Derivation.Strict (d : Derivation) : Prop := ∀ x ∈ d.definitions, x.Strict

/-! ## Places and lists of phrases -/

theorem lastSpan_dropTrailing (s : Span) (ts : List Token) :
    lastSpan s (dropTrailing ts) = lastSpan s ts := by
  induction ts generalizing s with
  | nil => rfl
  | cons t ts ih =>
    rw [dropTrailing]
    split
    · next h =>
      cases ts with
      | nil => cases h.2
      | cons u us => exact ih s
    · exact ih t.span

theorem Drops.cover_eq {test : Kind → Bool} {ts ts' : List Token} (h : Drops ts ts')
    (hStarts : StartsWith test ts) (hTest : test (.symbol .comma) = false) :
    cover ts' = cover ts := by
  obtain ⟨t, us, rfl, hKind⟩ := hStarts
  have hNe : t.kind ≠ .symbol .comma := by
    intro hComma
    rw [hComma, hTest] at hKind
    cases hKind
  rw [h.eq_dropTrailing, Token.dropTrailing_cons_of_ne us hNe, cover, lastSpan_dropTrailing, cover]

section

variable {δ τ : Type} {leaves : δ → List Token} {value : δ → τ} {Strict : δ → Prop} {d d' : δ}

/-- A value that depends on the place of the phrase: that is the same, since the phrase neither
starts nor ends with a trailing comma. -/
theorem Trims.of_cover {test : Kind → Bool} (hStarts : StartsWith test (leaves d))
    (hTest : test (.symbol .comma) = false) (hStrict : Strict d')
    (hDrops : Drops (leaves d) (leaves d'))
    (hValue : cover (leaves d') = cover (leaves d) → value d' = value d)
    (hSelf : Strict d → d' = d) : Trims leaves value Strict d d' :=
  ⟨hStrict, hDrops, hValue (hDrops.cover_eq hStarts hTest), hSelf⟩

theorem exists_trims_option (h : ∀ d, ∃ d', Trims leaves value Strict d d') (d : Option δ) :
    ∃ d', Trims (optionTokens leaves) (Option.map value) (OptionStrict Strict) d d' := by
  cases d with
  | none => exact ⟨none, .refl (fun _ h => by cases h) .nil⟩
  | some d =>
    obtain ⟨d', hd⟩ := h d
    refine ⟨some d', fun a ha => ?_, hd.drops, congrArg some hd.value, fun hStrict => ?_⟩
    · cases ha
      exact hd.strict
    · exact congrArg some (hd.eq_self (hStrict d rfl))

theorem exists_trims_flatMap (h : ∀ d, ∃ d', Trims leaves value Strict d d') (ds : List δ) :
    ∃ ds', Trims (List.flatMap leaves) (List.map value) (fun ds => ∀ d ∈ ds, Strict d) ds ds' := by
  induction ds with
  | nil => exact ⟨[], .refl (fun _ h => by cases h) .nil⟩
  | cons d ds ih =>
    obtain ⟨d', hd⟩ := h d
    obtain ⟨ds', hds⟩ := ih
    refine ⟨d' :: ds', List.forall_mem_cons.mpr ⟨hd.strict, hds.strict⟩, ?_, ?_, fun hStrict => ?_⟩
    · rw [List.flatMap_cons, List.flatMap_cons]
      exact hd.drops.append hds.drops
    · rw [List.map_cons, List.map_cons, hd.value, hds.value]
    · obtain ⟨hHead, hTail⟩ := List.forall_mem_cons.mp hStrict
      rw [hd.eq_self hHead, hds.eq_self hTail]

end

/-! ## Statements and definitions -/

theorem TypeName.drops (d : TypeName) : Drops d.tokens d.tokens := by
  have hStars (stars : List (Mark .star)) : Drops (stars.map (·.1)) (stars.map (·.1)) := by
    induction stars with
    | nil => exact .nil
    | cons star stars ih => exact .terminal star (by decide) ih
  refine .cons ?_ (hStars d.stars)
  cases d.base with
  | int t | float t | char t | void t =>
    rw [BaseType.token, t.2]
    decide

theorem Dimension.drops (d : Dimension) : Drops d.tokens d.tokens :=
  .terminal d.l (by decide)
    (.cons (by rw [d.size.2.1]; decide) (.terminal d.r (by decide) .nil))

theorem Dimension.drops_flatMap (ds : List Dimension) :
    Drops (ds.flatMap Dimension.tokens) (ds.flatMap Dimension.tokens) := by
  induction ds with
  | nil => exact .nil
  | cons d ds ih =>
    rw [List.flatMap_cons]
    exact d.drops.append ih

theorem Initial.exists_trims (d : Initial) :
    ∃ d', Trims Initial.tokens Initial.tree Initial.Strict d d' := by
  cases d with
  | none => exact ⟨.none, .refl trivial .nil⟩
  | value sign e =>
    obtain ⟨e', h⟩ := e.exists_trims
    refine ⟨.value sign e', h.strict, .terminal sign (by decide) h.drops, ?_, fun hStrict => ?_⟩
    · exact congrArg some h.value
    · rw [h.eq_self hStrict]

theorem Simple.exists_trims (d : Simple) :
    ∃ d', Trims Simple.tokens Simple.form Simple.Strict d d' := by
  cases d with
  | declare type x sizes init =>
    obtain ⟨init', h⟩ := init.exists_trims
    refine ⟨.declare type x sizes init', h.strict, ?_, ?_, fun hStrict => ?_⟩
    · exact type.drops.append
        (.terminal x (by decide) ((Dimension.drops_flatMap sizes).append h.drops))
    · funext s
      rw [Simple.form, h.value, Simple.form]
    · rw [h.eq_self hStrict]
  | assign x sign value =>
    obtain ⟨value', h⟩ := value.exists_trims
    refine ⟨.assign x sign value', h.strict, ?_, ?_, fun hStrict => ?_⟩
    · exact .terminal x (by decide) (.terminal sign (by decide) h.drops)
    · funext s
      rw [Simple.form, h.value, Simple.form]
    · rw [h.eq_self hStrict]
  | store x subscripts sign value =>
    obtain ⟨subscripts', hSubscripts⟩ := subscripts.exists_trims
    obtain ⟨value', h⟩ := value.exists_trims
    obtain ⟨hSplit, -⟩ := Prod.mk.inj hSubscripts.value
    refine ⟨.store x subscripts' sign value', ⟨hSubscripts.strict, h.strict⟩, ?_, ?_,
      fun hStrict => ?_⟩
    · exact .terminal x (by decide) (hSubscripts.drops.append (.terminal sign (by decide) h.drops))
    · funext s
      rw [Simple.form, congrFun hSplit _, h.value, Simple.form]
    · rw [hSubscripts.eq_self hStrict.1, h.eq_self hStrict.2]
  | expr e =>
    obtain ⟨e', h⟩ := e.exists_trims
    refine ⟨.expr e', h.strict, h.drops, ?_, fun hStrict => ?_⟩
    · funext s
      rw [Simple.form, h.value, Simple.form]
    · rw [h.eq_self hStrict]

theorem Simple.exists_trims_tree (d : Simple) :
    ∃ d', Trims Simple.tokens Simple.tree Simple.Strict d d' := by
  obtain ⟨d', h⟩ := d.exists_trims
  refine ⟨d', .of_cover d.starts rfl h.strict h.drops (fun hCover => ?_) h.eq_self⟩
  rw [Simple.tree, h.value, hCover, Simple.tree]

theorem Condition.exists_trims (d : Condition) :
    ∃ d', Trims Condition.tokens (fun c => c.value.tree) Condition.Strict d d' := by
  obtain ⟨l, value, r⟩ := d
  obtain ⟨value', h⟩ := value.exists_trims
  refine ⟨⟨l, value', r⟩, h.strict, ?_, h.value, fun hStrict => ?_⟩
  · exact .terminal l (by decide) (h.drops.append (.terminal r (by decide) .nil))
  · rw [h.eq_self hStrict]

/-- The parts of the head of a loop as trees. -/
def ForHead.trees (h : ForHead) : Option (Stmt Unit) × Option (Expr Unit) × Option (Stmt Unit) :=
  (h.init.map Simple.tree, h.cond.map Expression.tree, h.update.map Simple.tree)

theorem ForHead.exists_trims (d : ForHead) :
    ∃ d', Trims ForHead.tokens ForHead.trees ForHead.Strict d d' := by
  obtain ⟨l, init, first, cond, second, update, r⟩ := d
  obtain ⟨init', hInit⟩ := exists_trims_option Simple.exists_trims_tree init
  obtain ⟨cond', hCond⟩ := exists_trims_option Expression.exists_trims cond
  obtain ⟨update', hUpdate⟩ := exists_trims_option Simple.exists_trims_tree update
  refine ⟨⟨l, init', first, cond', second, update', r⟩,
    ⟨hInit.strict, hCond.strict, hUpdate.strict⟩, ?_, ?_, fun hStrict => ?_⟩
  · exact .terminal l (by decide) (hInit.drops.append (.terminal first (by decide)
      (hCond.drops.append (.terminal second (by decide)
        (hUpdate.drops.append (.terminal r (by decide) .nil))))))
  · rw [ForHead.trees, hInit.value, hCond.value, hUpdate.value, ForHead.trees]
  · rw [hInit.eq_self hStrict.init, hCond.eq_self hStrict.cond, hUpdate.eq_self hStrict.update]

theorem Branch.starts (b : Branch) : StartsWith Kind.startsStmt b.tokens :=
  Statement.starts (.branch b)

mutual

theorem Statement.exists_trims :
    (d : Statement) → ∃ d', Trims Statement.tokens Statement.tree Statement.Strict d d'
  | .ret word value semicolon => by
    obtain ⟨value', h⟩ := exists_trims_option Expression.exists_trims value
    refine ⟨.ret word value' semicolon,
      .of_cover (Statement.starts _) rfl h.strict ?_ (fun hCover => ?_) fun hStrict => ?_⟩
    · exact .terminal word (by decide) (h.drops.append (.terminal semicolon (by decide) .nil))
    · rw [Statement.tree, hCover, h.value, Statement.tree]
    · rw [h.eq_self hStrict]
  | .branch b => by
    obtain ⟨b', h⟩ := b.exists_trims
    refine ⟨.branch b', h.strict, h.drops, h.value, fun hStrict => ?_⟩
    rw [h.eq_self hStrict]
  | .whileDo word cond body => by
    obtain ⟨cond', hCond⟩ := cond.exists_trims
    obtain ⟨body', hBody⟩ := body.exists_trims
    refine ⟨.whileDo word cond' body', .of_cover (Statement.starts _) rfl
      ⟨hCond.strict, hBody.strict⟩ ?_ (fun hCover => ?_) fun hStrict => ?_⟩
    · exact .terminal word (by decide) (hCond.drops.append hBody.drops)
    · rw [Statement.tree, hCover, hCond.value, hBody.value, Statement.tree]
    · rw [hCond.eq_self hStrict.1, hBody.eq_self hStrict.2]
  | .doWhile word body word' cond semicolon => by
    obtain ⟨body', hBody⟩ := body.exists_trims
    obtain ⟨cond', hCond⟩ := cond.exists_trims
    refine ⟨.doWhile word body' word' cond' semicolon, .of_cover (Statement.starts _) rfl
      ⟨hBody.strict, hCond.strict⟩ ?_ (fun hCover => ?_) fun hStrict => ?_⟩
    · exact .terminal word (by decide) (hBody.drops.append (.terminal word' (by decide)
        (hCond.drops.append (.terminal semicolon (by decide) .nil))))
    · rw [Statement.tree, hCover, hCond.value, hBody.value, Statement.tree]
    · rw [hBody.eq_self hStrict.1, hCond.eq_self hStrict.2]
  | .forLoop word head body => by
    obtain ⟨head', hHead⟩ := head.exists_trims
    obtain ⟨body', hBody⟩ := body.exists_trims
    obtain ⟨hInit, hRest⟩ := Prod.mk.inj hHead.value
    obtain ⟨hCond, hUpdate⟩ := Prod.mk.inj hRest
    refine ⟨.forLoop word head' body', .of_cover (Statement.starts _) rfl
      ⟨hHead.strict, hBody.strict⟩ ?_ (fun hCover => ?_) fun hStrict => ?_⟩
    · exact .terminal word (by decide) (hHead.drops.append hBody.drops)
    · rw [Statement.tree, hCover, hInit, hCond, hUpdate, hBody.value, Statement.tree]
    · rw [hHead.eq_self hStrict.1, hBody.eq_self hStrict.2]
  | .jump j word semicolon =>
    ⟨.jump j word semicolon,
      .refl trivial (.terminal word (by simp) (.terminal semicolon (by decide) .nil))⟩
  | .simple x semicolon => by
    obtain ⟨x', h⟩ := x.exists_trims
    refine ⟨.simple x' semicolon, .of_cover (Statement.starts _) rfl h.strict ?_
      (fun hCover => ?_) fun hStrict => ?_⟩
    · exact h.drops.append (.terminal semicolon (by decide) .nil)
    · rw [Statement.tree, hCover, h.value, Statement.tree]
    · rw [h.eq_self hStrict]

theorem Branch.exists_trims :
    (d : Branch) → ∃ d', Trims Branch.tokens Branch.tree Branch.Strict d d'
  | .mk word cond body otherwise => by
    obtain ⟨cond', hCond⟩ := cond.exists_trims
    obtain ⟨body', hBody⟩ := body.exists_trims
    obtain ⟨otherwise', hElse⟩ := otherwise.exists_trims
    refine ⟨.mk word cond' body' otherwise', .of_cover (Branch.starts _) rfl
      ⟨hCond.strict, hBody.strict, hElse.strict⟩ ?_ (fun hCover => ?_) fun hStrict => ?_⟩
    · exact .terminal word (by decide) (hCond.drops.append (hBody.drops.append hElse.drops))
    · rw [Branch.tree, hCover, hCond.value, hBody.value, hElse.value, Branch.tree]
    · rw [hCond.eq_self hStrict.1, hBody.eq_self hStrict.2.1, hElse.eq_self hStrict.2.2]

theorem Otherwise.exists_trims :
    (d : Otherwise) → ∃ d', Trims Otherwise.tokens Otherwise.trees Otherwise.Strict d d'
  | .none => ⟨.none, .refl trivial .nil⟩
  | .branch word b => by
    obtain ⟨b', h⟩ := b.exists_trims
    refine ⟨.branch word b', h.strict, .terminal word (by decide) h.drops, ?_, fun hStrict => ?_⟩
    · rw [Otherwise.trees, h.value, Otherwise.trees]
    · rw [h.eq_self hStrict]
  | .block word b => by
    obtain ⟨b', h⟩ := b.exists_trims
    refine ⟨.block word b', h.strict, .terminal word (by decide) h.drops, h.value,
      fun hStrict => ?_⟩
    rw [h.eq_self hStrict]

theorem Braces.exists_trims :
    (d : Braces) → ∃ d', Trims Braces.tokens Braces.trees Braces.Strict d d'
  | .mk l body r => by
    obtain ⟨body', h⟩ := Statement.exists_trims_all body
    refine ⟨.mk l body' r, h.strict, ?_, h.value, fun hStrict => ?_⟩
    · exact .terminal l (by decide) (h.drops.append (.terminal r (by decide) .nil))
    · rw [h.eq_self hStrict]

theorem Statement.exists_trims_all : (ds : List Statement) →
    ∃ ds', Trims Statement.tokensAll Statement.treesAll Statement.StrictAll ds ds'
  | [] => ⟨[], .refl trivial .nil⟩
  | d :: ds => by
    obtain ⟨d', hd⟩ := d.exists_trims
    obtain ⟨ds', hds⟩ := Statement.exists_trims_all ds
    refine ⟨d' :: ds', ⟨hd.strict, hds.strict⟩, hd.drops.append hds.drops, ?_, fun hStrict => ?_⟩
    · rw [Statement.treesAll, hd.value, hds.value, Statement.treesAll]
    · rw [hd.eq_self hStrict.1, hds.eq_self hStrict.2]

end

theorem Parameter.exists_trims_all (ds : Separated Parameter) :
    ∃ ds', ListTrims Parameter.tokens Parameter.tree (fun _ => True) ds ds' := by
  have hSelf (d : Parameter) :
      Trims Parameter.tokens Parameter.tree (fun _ => True) d d :=
    .refl trivial (d.type.drops.append (.terminal d.x (by decide) .nil))
  induction ds with
  | empty => exact ⟨.empty, .empty⟩
  | last d => exact ⟨.last d, .last (hSelf d)⟩
  | more d comma ds ih =>
    obtain ⟨ds', hds⟩ := ih
    exact ListTrims.exists_more (fun d => d.type.starts.append _) rfl (hSelf d) comma hds

theorem Definition.exists_trims (d : Definition) :
    ∃ d', Trims Definition.tokens Definition.tree Definition.Strict d d' := by
  cases d with
  | function type x l params r body =>
    obtain ⟨params', hParams⟩ := Parameter.exists_trims_all params
    obtain ⟨body', hBody⟩ := body.exists_trims
    refine ⟨.function type x l params' r body', ⟨hParams.strict, hBody.strict⟩, ?_, ?_,
      fun hStrict => ?_⟩
    · exact type.drops.append (.terminal x (by decide)
        (.terminal l (by decide) (hParams.drops r.2 hBody.drops)))
    · rw [Definition.tree, hParams.value, hBody.value, Definition.tree]
    · rw [hParams.eq_self hStrict.1, hBody.eq_self hStrict.2]
  | global type x init semicolon =>
    obtain ⟨init', h⟩ := init.exists_trims
    refine ⟨.global type x init' semicolon, h.strict, ?_, ?_, fun hStrict => ?_⟩
    · exact type.drops.append (.terminal x (by decide)
        (h.drops.append (.terminal semicolon (by decide) .nil)))
    · rw [Definition.tree, h.value, Definition.tree]
    · rw [h.eq_self hStrict]

theorem Derivation.exists_trims (d : Derivation) :
    ∃ d', Trims Derivation.tokens Derivation.tree Derivation.Strict d d' := by
  obtain ⟨ds', h⟩ := exists_trims_flatMap Definition.exists_trims d.definitions
  refine ⟨⟨ds'⟩, h.strict, h.drops, congrArg Program.mk h.value, fun hStrict => ?_⟩
  exact congrArg Derivation.mk (h.eq_self hStrict)

/-- A derivation without trailing commas has no comma in front of a closing parenthesis. -/
theorem Derivation.Strict.dropTrailing_tokens {d : Derivation} (hStrict : d.Strict) :
    dropTrailing d.tokens = d.tokens := by
  obtain ⟨d', h⟩ := d.exists_trims
  rw [← h.drops.eq_dropTrailing, h.eq_self hStrict]

end MiniC.Grammar
