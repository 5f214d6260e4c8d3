import MiniC.Proofs.Typing.Program

/-! # The check only annotates

The typing rules for statements with the variables that are seen: a rule says which variables are
seen after the statement, and a `for` loop is visited in the order start, condition, update, body.
The check succeeds exactly on the programs that can be annotated by these rules, and its result is
the annotated program: nothing else in it has changed.
-/
namespace MiniC
set_option autoImplicit false

namespace Expr

variable {α : Type}

mutual

/-- The expression without its information. -/
def erase : Expr α → Expr Unit
  | const _ s value => const () s value
  | string _ s text => string () s text
  | var _ s x => var () s x
  | call _ s callee args => call () s callee (eraseAll args)
  | binary _ s op lhs rhs => binary () s op lhs.erase rhs.erase
  | unary _ s op fixity operand => unary () s op fixity operand.erase
  | index _ s base offset => index () s base.erase offset.erase

def eraseAll : List (Expr α) → List (Expr Unit)
  | [] => []
  | e :: es => e.erase :: eraseAll es

end

theorem length_eraseAll (es : List (Expr α)) : (eraseAll es).length = es.length := by
  induction es with
  | nil => rfl
  | cons e es ih => rw [eraseAll, List.length_cons, List.length_cons, ih]

end Expr

namespace Stmt

variable {α : Type}

mutual

/-- The statement without the information of its expressions. -/
def erase : Stmt α → Stmt Unit
  | ret s value => ret s (value.map Expr.erase)
  | assign s target value => assign s target value.erase
  | declare s x ty init => declare s x ty (init.map Expr.erase)
  | store s base offset value => store s base.erase offset.erase value.erase
  | branch s cond thenBody elseBody => branch s cond.erase (eraseAll thenBody) (eraseAll elseBody)
  | loop s kind cond body => loop s kind cond.erase (eraseAll body)
  | forLoop s init cond update body =>
    forLoop s (eraseOption init) (cond.map Expr.erase) (eraseOption update) (eraseAll body)
  | jump s j => jump s j
  | expr s value => expr s value.erase

def eraseAll : List (Stmt α) → List (Stmt Unit)
  | [] => []
  | x :: xs => x.erase :: eraseAll xs

def eraseOption : Option (Stmt α) → Option (Stmt Unit)
  | none => none
  | some x => some x.erase

end

end Stmt

section

variable {α : Type}

def Global.erase (g : Global α) : Global Unit := ⟨g.name, g.ty, g.init.map Expr.erase⟩

def Function.erase (f : Function α) : Function Unit :=
  ⟨f.name, f.returnTy, f.params, Stmt.eraseAll f.body⟩

def Item.erase : Item α → Item Unit
  | .global g => .global g.erase
  | .function f => .function f.erase

/-- The program without the information of its expressions. -/
def Program.erase (p : Program α) : Program Unit := ⟨p.items.map Item.erase⟩

end

/-- The variable is seen at the type. -/
def Scope.Sees (scope : Scope) (x : Ident) (ty : Ty) : Prop := List.lookup x.name scope = some ty

section

variable (ctx : FunctionContext)

mutual

/-- The typing rules for statements: `StmtTyped ctx scope x scope'` says that the statement is
well-typed where the variables of `scope` are seen, and that those of `scope'` are seen after it. -/
inductive StmtTyped : Scope → Stmt Ty → Scope → Prop
  | retNone {scope : Scope} {s : Span} : ctx.returnTy = .void → StmtTyped scope (.ret s none) scope
  | retSome {scope : Scope} {s : Span} {value : Expr Ty} : ctx.returnTy ≠ .void →
      value.WellTypedAs ctx.signatures scope.Sees ctx.returnTy →
      StmtTyped scope (.ret s (some value)) scope
  | assign {scope : Scope} {s : Span} {x : Ident} {ty : Ty} {value : Expr Ty} : scope.Sees x ty →
      value.WellTypedAs ctx.signatures scope.Sees ty → StmtTyped scope (.assign s x value) scope
  | declare {scope : Scope} {s : Span} {x : Ident} {ty : Ty} {init : Option (Expr Ty)} :
      ty ≠ .void →
      (∀ e ∈ init, e.WellTypedAs ctx.signatures (scope.declare x ty).Sees ty) →
      StmtTyped scope (.declare s x ty init) (scope.declare x ty)
  | store {scope : Scope} {s : Span} {base offset value : Expr Ty} {ty : Ty} :
      base.WellTyped ctx.signatures scope.Sees → base.info.element? = some ty →
      ty.isArray = false → offset.WellTyped ctx.signatures scope.Sees →
      offset.info.isIntegral = true → value.WellTypedAs ctx.signatures scope.Sees ty →
      StmtTyped scope (.store s base offset value) scope
  | branch {scope scope₁ scope₂ : Scope} {s : Span} {cond : Expr Ty}
      {thenBody elseBody : List (Stmt Ty)} :
      cond.WellTypedCondition ctx.signatures scope.Sees → BodyTyped scope thenBody scope₁ →
      BodyTyped scope₁ elseBody scope₂ →
      StmtTyped scope (.branch s cond thenBody elseBody) scope₂
  | loop {scope scope₁ : Scope} {s : Span} {kind : LoopKind} {cond : Expr Ty}
      {body : List (Stmt Ty)} : cond.WellTypedCondition ctx.signatures scope.Sees →
      BodyTyped scope body scope₁ → StmtTyped scope (.loop s kind cond body) scope₁
  | forLoop {scope scope₁ scope₂ scope₃ : Scope} {s : Span} {init update : Option (Stmt Ty)}
      {cond : Option (Expr Ty)} {body : List (Stmt Ty)} : OptionTyped scope init scope₁ →
      (∀ e ∈ cond, e.WellTypedCondition ctx.signatures scope₁.Sees) →
      OptionTyped scope₁ update scope₂ → BodyTyped scope₂ body scope₃ →
      StmtTyped scope (.forLoop s init cond update body) scope₃
  | jump {scope : Scope} {s : Span} {j : Jump} : StmtTyped scope (.jump s j) scope
  | expr {scope : Scope} {s : Span} {value : Expr Ty} :
      value.WellTyped ctx.signatures scope.Sees → StmtTyped scope (.expr s value) scope

inductive BodyTyped : Scope → List (Stmt Ty) → Scope → Prop
  | nil {scope : Scope} : BodyTyped scope [] scope
  | cons {scope scope₁ scope₂ : Scope} {x : Stmt Ty} {xs : List (Stmt Ty)} :
      StmtTyped scope x scope₁ → BodyTyped scope₁ xs scope₂ → BodyTyped scope (x :: xs) scope₂

inductive OptionTyped : Scope → Option (Stmt Ty) → Scope → Prop
  | none {scope : Scope} : OptionTyped scope none scope
  | some {scope scope₁ : Scope} {x : Stmt Ty} : StmtTyped scope x scope₁ →
      OptionTyped scope (some x) scope₁

end

end

/-- The item is annotated by the rules, `globals` being the globals before it: a function starts
with them and its parameters, of which the last counts if two have one name. -/
def Item.Annotated (sigs : Signatures) (globals : Scope) : Item Ty → Prop
  | .global g =>
    g.ty ≠ .void ∧ g.name.name ∉ globals.map Prod.fst ∧
      ∀ e ∈ g.init, e.WellTypedAs sigs globals.Sees g.ty
  | .function f =>
    ∃ scope, BodyTyped ⟨sigs, f.name.name, f.returnTy⟩ (f.parameters.reverse ++ globals) f.body scope

/-- The program is annotated by the rules, its functions and those of the host being known
everywhere. -/
structure Program.Annotated (p : Program Ty) : Prop where
  distinct : (((p.functions.map Function.entry).reverse ++ Signatures.host).map Prod.fst).Nodup
  parameters : ∀ f ∈ p.functions, ∀ q ∈ f.params, q.ty ≠ .void
  items : EveryItem (Item.Annotated ((p.functions.map Function.entry).reverse ++ Signatures.host))
    [] p.items

namespace Expr

variable {sigs : Signatures} {scope : Scope}

mutual

theorem erase_of_check (e : Expr Unit) {e' : Expr Ty} (h : e.check sigs scope = .ok e') :
    e'.erase = e := by
  cases e with
  | const _ s value | string _ s text =>
    cases h
    rfl
  | var _ s x =>
    simp only [check, Checked.bind_eq_ok_iff, Checked.pure_eq_ok_iff] at h
    obtain ⟨ty, -, rfl⟩ := h
    rfl
  | call _ s callee args =>
    simp only [check] at h
    split at h
    · cases h
    · split at h
      · cases h
      · rename_i hLength
        simp only [Checked.bind_eq_ok_iff, Checked.pure_eq_ok_iff] at h
        obtain ⟨args', hArgs, rfl⟩ := h
        rw [erase, eraseAll_of_checkArgs args (by simpa using hLength) hArgs]
  | binary _ s op lhs rhs =>
    simp only [check, Checked.bind_eq_ok_iff, Checked.pure_eq_ok_iff] at h
    obtain ⟨lhs', hLhs, rhs', hRhs, ty, -, rfl⟩ := h
    rw [erase, erase_of_check lhs hLhs, erase_of_check rhs hRhs]
  | unary _ s op fixity operand =>
    simp only [check, Checked.bind_eq_ok_iff, Checked.pure_eq_ok_iff] at h
    obtain ⟨operand', hOperand, ty, -, rfl⟩ := h
    rw [erase, erase_of_check operand hOperand]
  | index _ s base offset =>
    simp only [check, Checked.bind_eq_ok_iff, Checked.pure_eq_ok_iff] at h
    obtain ⟨base', hBase, ty, -, offset', hOffset, -, -, rfl⟩ := h
    rw [erase, erase_of_check base hBase, erase_of_check offset hOffset]

theorem eraseAll_of_checkArgs (es : List (Expr Unit)) {tys : List Ty}
    (hLength : tys.length = es.length) {es' : List (Expr Ty)}
    (h : checkArgs sigs scope es tys = .ok es') : eraseAll es' = es := by
  cases es with
  | nil =>
    cases h
    rfl
  | cons e es =>
    cases tys with
    | nil => cases hLength
    | cons ty tys =>
      simp only [checkArgs, Checked.bind_eq_ok_iff, Checked.pure_eq_ok_iff] at h
      obtain ⟨e', hE, _, -, es', hEs, rfl⟩ := h
      rw [eraseAll, erase_of_check e hE, eraseAll_of_checkArgs es (Nat.succ.inj hLength) hEs]

end

mutual

theorem check_erase (e : Expr Ty) (h : e.WellTyped sigs scope.Sees) :
    e.erase.check sigs scope = .ok e := by
  cases e with
  | const ty s value | string ty s text =>
    cases h
    rfl
  | var ty s x =>
    simp only [erase, check, Checked.bind_eq_ok_iff, Checked.pure_eq_ok_iff,
      Scope.lookup_eq_ok_iff]
    exact ⟨ty, h, rfl⟩
  | call ty s callee args =>
    obtain ⟨sig, hSig, rfl, hArgs⟩ := h
    obtain ⟨hLength, hCheck⟩ := checkArgs_eraseAll args hArgs
    simp only [erase, check, hSig, length_eraseAll, hLength, ne_eq, not_true_eq_false, if_false,
      Checked.bind_eq_ok_iff, Checked.pure_eq_ok_iff]
    exact ⟨args, hCheck, rfl⟩
  | binary ty s op lhs rhs =>
    obtain ⟨hLhs, hRhs, hTy⟩ := h
    simp only [erase, check, Checked.bind_eq_ok_iff, Checked.pure_eq_ok_iff,
      Checked.locate_eq_ok_iff]
    exact ⟨lhs, check_erase lhs hLhs, rhs, check_erase rhs hRhs, ty, hTy, rfl⟩
  | unary ty s op fixity operand =>
    obtain ⟨hOperand, hTy⟩ := h
    simp only [erase, check, Checked.bind_eq_ok_iff, Checked.pure_eq_ok_iff,
      Checked.locate_eq_ok_iff]
    exact ⟨operand, check_erase operand hOperand, ty, hTy, rfl⟩
  | index ty s base offset =>
    obtain ⟨hBase, hOffset, hTy, hIndex⟩ := h
    simp only [erase, check, Checked.bind_eq_ok_iff, Checked.pure_eq_ok_iff, elementTy_eq_ok_iff,
      ensureIndex_eq_ok_iff]
    exact ⟨base, check_erase base hBase, ty, hTy, offset, check_erase offset hOffset, (), hIndex,
      rfl⟩

theorem checkArgs_eraseAll (es : List (Expr Ty)) {tys : List Ty}
    (h : WellTypedArgs sigs scope.Sees es tys) :
    tys.length = es.length ∧ checkArgs sigs scope (eraseAll es) tys = .ok es := by
  cases es with
  | nil =>
    cases tys with
    | nil => exact ⟨rfl, rfl⟩
    | cons ty tys => cases h
  | cons e es =>
    cases tys with
    | nil => cases h
    | cons ty tys =>
      obtain ⟨hE, hTy, hEs⟩ := h
      obtain ⟨hLength, hCheck⟩ := checkArgs_eraseAll es hEs
      refine ⟨congrArg Nat.succ hLength, ?_⟩
      simp only [eraseAll, checkArgs, Checked.bind_eq_ok_iff, Checked.pure_eq_ok_iff,
        ensureAssignable_eq_ok_iff]
      exact ⟨e, check_erase e hE, (), hTy, es, hCheck, rfl⟩

end

/-- The check finds the one annotation that the rules allow. -/
theorem check_eq_ok_iff {e : Expr Unit} {e' : Expr Ty} :
    e.check sigs scope = .ok e' ↔ e'.erase = e ∧ e'.WellTyped sigs scope.Sees := by
  constructor
  · intro h
    exact ⟨erase_of_check e h, wellTyped_of_check (fun _ _ hx => hx) e h⟩
  · rintro ⟨rfl, h⟩
    exact check_erase e' h

theorem checkAs_eq_ok_iff_erase {target : Ty} {e : Expr Unit} {e' : Expr Ty} :
    e.checkAs sigs scope target = .ok e' ↔
      e'.erase = e ∧ e'.WellTypedAs sigs scope.Sees target := by
  rw [checkAs_eq_ok_iff, check_eq_ok_iff, and_assoc, WellTypedAs]

theorem checkCondition_eq_ok_iff_erase {e : Expr Unit} {e' : Expr Ty} :
    e.checkCondition sigs scope = .ok e' ↔
      e'.erase = e ∧ e'.WellTypedCondition sigs scope.Sees := by
  rw [checkCondition_eq_ok_iff, check_eq_ok_iff, and_assoc, WellTypedCondition]

theorem checkOptionAs_eq_ok_iff {target : Ty} {e? : Option (Expr Unit)}
    {e?' : Option (Expr Ty)} :
    checkOptionAs sigs scope target e? = .ok e?' ↔
      e?'.map erase = e? ∧ ∀ e ∈ e?', e.WellTypedAs sigs scope.Sees target := by
  cases e? with
  | none => cases e?' <;> simp [checkOptionAs]
  | some e =>
    simp only [checkOptionAs, Checked.map_eq_ok_iff, checkAs_eq_ok_iff_erase]
    cases e?' <;> simp

theorem checkOptionCondition_eq_ok_iff {e? : Option (Expr Unit)} {e?' : Option (Expr Ty)} :
    checkOptionCondition sigs scope e? = .ok e?' ↔
      e?'.map erase = e? ∧ ∀ e ∈ e?', e.WellTypedCondition sigs scope.Sees := by
  cases e? with
  | none => cases e?' <;> simp [checkOptionCondition]
  | some e =>
    simp only [checkOptionCondition, Checked.map_eq_ok_iff, checkCondition_eq_ok_iff_erase]
    cases e?' <;> simp

end Expr

namespace Stmt

variable {ctx : FunctionContext}

mutual

/-- A checked statement differs from the unchecked one by its annotations only, which obey the
rules. -/
theorem typed_of_check {scope scope' : Scope} (x : Stmt Unit) {y : Stmt Ty}
    (h : x.check ctx scope = .ok (y, scope')) : y.erase = x ∧ StmtTyped ctx scope y scope' := by
  cases x with
  | ret s value =>
    simp only [check, Checked.bind_eq_ok_iff, Checked.pure_eq_ok_iff, Prod.mk.injEq] at h
    obtain ⟨_, hReturn, rfl, rfl⟩ := h
    cases value with
    | none =>
      rw [checkReturn] at hReturn
      split at hReturn
      · next hVoid =>
        cases hReturn
        exact ⟨rfl, .retNone hVoid⟩
      · cases hReturn
    | some value =>
      rw [checkReturn] at hReturn
      split at hReturn
      · cases hReturn
      · next hVoid =>
        simp only [Checked.bind_eq_ok_iff, Checked.pure_eq_ok_iff,
          Expr.checkAs_eq_ok_iff_erase] at hReturn
        obtain ⟨value', ⟨rfl, hValue⟩, rfl⟩ := hReturn
        exact ⟨rfl, .retSome hVoid hValue⟩
  | assign s target value =>
    simp only [check, Checked.bind_eq_ok_iff, Checked.pure_eq_ok_iff, Prod.mk.injEq,
      Scope.lookup_eq_ok_iff, Expr.checkAs_eq_ok_iff_erase] at h
    obtain ⟨ty, hTy, value', ⟨rfl, hValue⟩, rfl, rfl⟩ := h
    exact ⟨rfl, .assign hTy hValue⟩
  | declare s name ty init =>
    simp only [check, Checked.bind_eq_ok_iff, Checked.pure_eq_ok_iff, Prod.mk.injEq,
      ensureNotVoid_eq_ok_iff, Expr.checkOptionAs_eq_ok_iff] at h
    obtain ⟨_, hVoid, init', ⟨rfl, hInit⟩, rfl, rfl⟩ := h
    exact ⟨rfl, .declare hVoid hInit⟩
  | store s base offset value =>
    simp only [check, checkStore, Checked.bind_eq_ok_iff, Checked.pure_eq_ok_iff, Prod.mk.injEq,
      elementTy_eq_ok_iff, Expr.check_eq_ok_iff] at h
    obtain ⟨_, ⟨base', ⟨rfl, hBase⟩, ty, hTy, h⟩, rfl, rfl⟩ := h
    split at h
    · cases h
    · next hArray =>
      simp only [Checked.bind_eq_ok_iff, Checked.pure_eq_ok_iff, ensureIndex_eq_ok_iff,
        Expr.check_eq_ok_iff, Expr.checkAs_eq_ok_iff_erase] at h
      obtain ⟨offset', ⟨rfl, hOffset⟩, _, hIndex, value', ⟨rfl, hValue⟩, rfl⟩ := h
      exact ⟨rfl, .store hBase hTy (by simpa using hArray) hOffset hIndex hValue⟩
  | branch s cond thenBody elseBody =>
    simp only [check, Checked.bind_eq_ok_iff, Checked.pure_eq_ok_iff, Prod.mk.injEq,
      Prod.exists, Expr.checkCondition_eq_ok_iff_erase] at h
    obtain ⟨cond', ⟨rfl, hCond⟩, thenBody', scope₁, hThen, elseBody', scope₂, hElse, rfl, rfl⟩ := h
    obtain ⟨rfl, hTypedThen⟩ := typed_of_checkAll thenBody hThen
    obtain ⟨rfl, hTypedElse⟩ := typed_of_checkAll elseBody hElse
    exact ⟨rfl, .branch hCond hTypedThen hTypedElse⟩
  | loop s kind cond body =>
    simp only [check, Checked.bind_eq_ok_iff, Checked.pure_eq_ok_iff, Prod.mk.injEq,
      Prod.exists, Expr.checkCondition_eq_ok_iff_erase] at h
    obtain ⟨cond', ⟨rfl, hCond⟩, body', scope₁, hBody, rfl, rfl⟩ := h
    obtain ⟨rfl, hTypedBody⟩ := typed_of_checkAll body hBody
    exact ⟨rfl, .loop hCond hTypedBody⟩
  | forLoop s init cond update body =>
    simp only [check, Checked.bind_eq_ok_iff, Checked.pure_eq_ok_iff, Prod.mk.injEq,
      Prod.exists, Expr.checkOptionCondition_eq_ok_iff] at h
    obtain ⟨init', scope₁, hInit, cond', ⟨rfl, hCond⟩, update', scope₂, hUpdate, body', scope₃,
      hBody, rfl, rfl⟩ := h
    obtain ⟨rfl, hTypedInit⟩ := typed_of_checkOption init hInit
    obtain ⟨rfl, hTypedUpdate⟩ := typed_of_checkOption update hUpdate
    obtain ⟨rfl, hTypedBody⟩ := typed_of_checkAll body hBody
    exact ⟨rfl, .forLoop hTypedInit hCond hTypedUpdate hTypedBody⟩
  | jump s j =>
    cases h
    exact ⟨rfl, .jump⟩
  | expr s value =>
    simp only [check, Checked.bind_eq_ok_iff, Checked.pure_eq_ok_iff, Prod.mk.injEq,
      Expr.check_eq_ok_iff] at h
    obtain ⟨value', ⟨rfl, hValue⟩, rfl, rfl⟩ := h
    exact ⟨rfl, .expr hValue⟩

theorem typed_of_checkAll {scope scope' : Scope} (xs : List (Stmt Unit)) {ys : List (Stmt Ty)}
    (h : checkAll ctx scope xs = .ok (ys, scope')) :
    eraseAll ys = xs ∧ BodyTyped ctx scope ys scope' := by
  cases xs with
  | nil =>
    cases h
    exact ⟨rfl, .nil⟩
  | cons x xs =>
    simp only [checkAll, Checked.bind_eq_ok_iff, Checked.pure_eq_ok_iff, Prod.mk.injEq,
      Prod.exists] at h
    obtain ⟨y, scope₁, hX, ys, scope₂, hXs, rfl, rfl⟩ := h
    obtain ⟨rfl, hTypedX⟩ := typed_of_check x hX
    obtain ⟨rfl, hTypedXs⟩ := typed_of_checkAll xs hXs
    exact ⟨rfl, .cons hTypedX hTypedXs⟩

theorem typed_of_checkOption {scope scope' : Scope} (x? : Option (Stmt Unit))
    {y? : Option (Stmt Ty)} (h : checkOption ctx scope x? = .ok (y?, scope')) :
    eraseOption y? = x? ∧ OptionTyped ctx scope y? scope' := by
  cases x? with
  | none =>
    cases h
    exact ⟨rfl, .none⟩
  | some x =>
    simp only [checkOption, Checked.bind_eq_ok_iff, Checked.pure_eq_ok_iff, Prod.mk.injEq,
      Prod.exists] at h
    obtain ⟨y, scope₁, hX, rfl, rfl⟩ := h
    obtain ⟨rfl, hTypedX⟩ := typed_of_check x hX
    exact ⟨rfl, .some hTypedX⟩

end

mutual

theorem check_erase {scope scope' : Scope} (y : Stmt Ty) (h : StmtTyped ctx scope y scope') :
    y.erase.check ctx scope = .ok (y, scope') := by
  cases h with
  | retNone hVoid =>
    simp only [erase, check, checkReturn, Option.map_none, if_pos hVoid]
    rfl
  | retSome hVoid hValue =>
    simp only [erase, check, checkReturn, Option.map_some, if_neg hVoid, Checked.bind_eq_ok_iff,
      Checked.pure_eq_ok_iff, Expr.checkAs_eq_ok_iff_erase]
    exact ⟨_, ⟨_, ⟨rfl, hValue⟩, rfl⟩, rfl⟩
  | assign hTy hValue =>
    simp only [erase, check, Checked.bind_eq_ok_iff, Checked.pure_eq_ok_iff,
      Scope.lookup_eq_ok_iff, Expr.checkAs_eq_ok_iff_erase]
    exact ⟨_, hTy, _, ⟨rfl, hValue⟩, rfl⟩
  | declare hVoid hInit =>
    simp only [erase, check, Checked.bind_eq_ok_iff, Checked.pure_eq_ok_iff,
      ensureNotVoid_eq_ok_iff, Expr.checkOptionAs_eq_ok_iff]
    exact ⟨(), hVoid, _, ⟨rfl, hInit⟩, rfl⟩
  | store hBase hTy hArray hOffset hIndex hValue =>
    simp only [erase, check, checkStore, Checked.bind_eq_ok_iff, Checked.pure_eq_ok_iff,
      elementTy_eq_ok_iff, Expr.check_eq_ok_iff]
    refine ⟨_, ⟨_, ⟨rfl, hBase⟩, _, hTy, ?_⟩, rfl⟩
    simp only [hArray, Bool.false_eq_true, if_false, Checked.bind_eq_ok_iff,
      Checked.pure_eq_ok_iff, ensureIndex_eq_ok_iff, Expr.check_eq_ok_iff,
      Expr.checkAs_eq_ok_iff_erase]
    exact ⟨_, ⟨rfl, hOffset⟩, (), hIndex, _, ⟨rfl, hValue⟩, rfl⟩
  | branch hCond hThen hElse =>
    simp only [erase, check, Checked.bind_eq_ok_iff, Checked.pure_eq_ok_iff, Prod.exists,
      Expr.checkCondition_eq_ok_iff_erase]
    exact ⟨_, ⟨rfl, hCond⟩, _, _, checkAll_eraseAll _ hThen, _, _, checkAll_eraseAll _ hElse, rfl⟩
  | loop hCond hBody =>
    simp only [erase, check, Checked.bind_eq_ok_iff, Checked.pure_eq_ok_iff, Prod.exists,
      Expr.checkCondition_eq_ok_iff_erase]
    exact ⟨_, ⟨rfl, hCond⟩, _, _, checkAll_eraseAll _ hBody, rfl⟩
  | forLoop hInit hCond hUpdate hBody =>
    simp only [erase, check, Checked.bind_eq_ok_iff, Checked.pure_eq_ok_iff, Prod.exists,
      Expr.checkOptionCondition_eq_ok_iff]
    exact ⟨_, _, checkOption_eraseOption _ hInit, _, ⟨rfl, hCond⟩, _, _,
      checkOption_eraseOption _ hUpdate, _, _, checkAll_eraseAll _ hBody, rfl⟩
  | jump => rfl
  | expr hValue =>
    simp only [erase, check, Checked.bind_eq_ok_iff, Checked.pure_eq_ok_iff, Expr.check_eq_ok_iff]
    exact ⟨_, ⟨rfl, hValue⟩, rfl⟩

theorem checkAll_eraseAll {scope scope' : Scope} (ys : List (Stmt Ty))
    (h : BodyTyped ctx scope ys scope') :
    checkAll ctx scope (eraseAll ys) = .ok (ys, scope') := by
  cases h with
  | nil => rfl
  | cons hX hXs =>
    simp only [eraseAll, checkAll, Checked.bind_eq_ok_iff, Checked.pure_eq_ok_iff, Prod.exists]
    exact ⟨_, _, check_erase _ hX, _, _, checkAll_eraseAll _ hXs, rfl⟩

theorem checkOption_eraseOption {scope scope' : Scope} (y? : Option (Stmt Ty))
    (h : OptionTyped ctx scope y? scope') :
    checkOption ctx scope (eraseOption y?) = .ok (y?, scope') := by
  cases h with
  | none => rfl
  | some hX =>
    simp only [eraseOption, checkOption, Checked.bind_eq_ok_iff, Checked.pure_eq_ok_iff,
      Prod.exists]
    exact ⟨_, _, check_erase _ hX, rfl⟩

end

end Stmt

section

variable {sigs : Signatures} {globals : Scope}

theorem Global.check_eq_ok_iff {g : Global Unit} {g' : Global Ty} :
    g.check sigs globals = .ok g' ↔ g'.erase = g ∧ (Item.global g').Annotated sigs globals := by
  have hFresh : ¬ (List.lookup g.name.name globals).isSome = true ↔
      g.name.name ∉ globals.map Prod.fst := by
    rw [← Table.lookup_eq_none_iff, Option.not_isSome_iff_eq_none]
  simp only [Global.check, Checked.bind_eq_ok_iff, ensureNotVoid_eq_ok_iff]
  constructor
  · rintro ⟨_, hVoid, h⟩
    split at h
    · cases h
    · next hNew =>
      simp only [Checked.bind_eq_ok_iff, Checked.pure_eq_ok_iff, Expr.checkOptionAs_eq_ok_iff] at h
      obtain ⟨init', ⟨hErase, hInit⟩, rfl⟩ := h
      refine ⟨?_, hVoid, hFresh.mp hNew, hInit⟩
      rw [Global.erase, hErase]
  · rintro ⟨rfl, hVoid, hNew, hInit⟩
    refine ⟨(), hVoid, ?_⟩
    rw [if_neg (hFresh.mpr hNew)]
    simp only [Checked.bind_eq_ok_iff, Checked.pure_eq_ok_iff, Expr.checkOptionAs_eq_ok_iff]
    exact ⟨g'.init, ⟨rfl, hInit⟩, rfl⟩

theorem Function.check_eq_ok_iff {f : Function Unit} {f' : Function Ty} :
    f.check sigs globals = .ok f' ↔ f'.erase = f ∧ (Item.function f').Annotated sigs globals := by
  simp only [Function.check, foldl_declare, Checked.bind_eq_ok_iff, Checked.pure_eq_ok_iff,
    Prod.exists]
  constructor
  · rintro ⟨body, scope, hBody, rfl⟩
    obtain ⟨hErase, hTyped⟩ := Stmt.typed_of_checkAll f.body hBody
    refine ⟨?_, scope, hTyped⟩
    rw [Function.erase, hErase]
  · rintro ⟨rfl, scope, hTyped⟩
    exact ⟨f'.body, scope, Stmt.checkAll_eraseAll f'.body hTyped, rfl⟩

theorem checkItems_eq_ok_iff {items : List (Item Unit)} {items' : List (Item Ty)} :
    checkItems sigs globals items = .ok items' ↔
      items'.map Item.erase = items ∧ EveryItem (Item.Annotated sigs) globals items' := by
  constructor
  · intro h
    induction items generalizing globals items' with
    | nil =>
      cases h
      exact ⟨rfl, trivial⟩
    | cons item items ih =>
      cases item with
      | global g =>
        simp only [checkItems, Checked.bind_eq_ok_iff, Checked.pure_eq_ok_iff,
          Global.check_eq_ok_iff] at h
        obtain ⟨g', ⟨rfl, hG⟩, rest, hRest, rfl⟩ := h
        obtain ⟨rfl, hItems⟩ := ih hRest
        exact ⟨rfl, hG, hItems⟩
      | function f =>
        simp only [checkItems, Checked.bind_eq_ok_iff, Checked.pure_eq_ok_iff,
          Function.check_eq_ok_iff] at h
        obtain ⟨f', ⟨rfl, hF⟩, rest, hRest, rfl⟩ := h
        obtain ⟨rfl, hItems⟩ := ih hRest
        exact ⟨rfl, hF, hItems⟩
  · rintro ⟨rfl, h⟩
    induction items' generalizing globals with
    | nil => rfl
    | cons item items ih =>
      cases item with
      | global g =>
        simp only [List.map_cons, Item.erase, checkItems, Checked.bind_eq_ok_iff,
          Checked.pure_eq_ok_iff, Global.check_eq_ok_iff]
        exact ⟨g, ⟨rfl, h.1⟩, items, ih h.2, rfl⟩
      | function f =>
        simp only [List.map_cons, Item.erase, checkItems, Checked.bind_eq_ok_iff,
          Checked.pure_eq_ok_iff, Function.check_eq_ok_iff]
        exact ⟨f, ⟨rfl, h.1⟩, items, ih h.2, rfl⟩

end

namespace Signatures

theorem forM_ensureNotVoid {params : List Param} (h : ∀ q ∈ params, q.ty ≠ .void) :
    params.forM (fun q => ensureNotVoid q.name q.ty) = .ok ⟨⟩ := by
  induction params with
  | nil => rfl
  | cons q params ih =>
    obtain ⟨hq, hParams⟩ := List.forall_mem_cons.mp h
    simp only [List.forM, Checked.bind_eq_ok_iff, ensureNotVoid_eq_ok_iff]
    exact ⟨(), hq, ih hParams⟩

/-- Functions with new names and without parameters of type `void` can be added. -/
theorem foldlM_add {fs : List (Function Unit)} {sigs : Signatures}
    (hNodup : (((fs.map Function.entry).reverse ++ sigs).map Prod.fst).Nodup)
    (hParams : ∀ f ∈ fs, ∀ q ∈ f.params, q.ty ≠ .void) :
    fs.foldlM add sigs = .ok ((fs.map Function.entry).reverse ++ sigs) := by
  induction fs generalizing sigs with
  | nil => rfl
  | cons f fs ih =>
    obtain ⟨hParams, hRest⟩ := List.forall_mem_cons.mp hParams
    simp only [List.map_cons, List.reverse_cons, List.append_assoc, List.singleton_append]
      at hNodup ⊢
    have hFresh : List.lookup f.name.name sigs = none := by
      rw [Table.lookup_eq_none_iff]
      rw [List.map_append] at hNodup
      exact (List.nodup_cons.mp (List.nodup_append.mp hNodup).2.1).1
    have hAdd : sigs.add f = .ok (f.entry :: sigs) := by
      simp only [add, Checked.bind_eq_ok_iff, hFresh]
      exact ⟨⟨⟩, forM_ensureNotVoid hParams, rfl⟩
    rw [List.foldlM_cons, Checked.bind_eq_ok_iff]
    exact ⟨_, hAdd, ih hNodup hRest⟩

end Signatures

namespace Program

theorem functions_erase (t : Program Ty) : t.erase.functions = t.functions.map Function.erase := by
  obtain ⟨items⟩ := t
  induction items with
  | nil => rfl
  | cons item items ih =>
    cases item with
    | global g => exact ih
    | function f => exact congrArg (f.erase :: ·) ih

theorem entries_erase (t : Program Ty) :
    t.erase.functions.map Function.entry = t.functions.map Function.entry := by
  rw [functions_erase, List.map_map]
  rfl

/-- The check returns the program whose erasure is the given one and which is annotated by the
rules; it fails only if there is none. -/
theorem check_eq_ok_iff_annotated {p : Program Unit} {t : Program Ty} :
    p.check = .ok t ↔ t.erase = p ∧ t.Annotated := by
  simp only [check, Checked.bind_eq_ok_iff, Checked.pure_eq_ok_iff, checkItems_eq_ok_iff]
  constructor
  · rintro ⟨sigs, hSigs, items, ⟨hErase, hItems⟩, rfl⟩
    obtain rfl : erase ⟨items⟩ = p := by rw [erase, hErase]
    obtain ⟨rfl, hNodup, hParams⟩ := Signatures.of_foldlM hSigs (by decide)
    rw [entries_erase] at hNodup hItems
    refine ⟨rfl, hNodup, ?_, hItems⟩
    intro f hf
    exact hParams f.erase (functions_erase ⟨items⟩ ▸ List.mem_map_of_mem hf)
  · rintro ⟨rfl, hDistinct, hParams, hItems⟩
    refine ⟨_, Signatures.foldlM_add ?_ ?_, t.items, ⟨rfl, ?_⟩, rfl⟩
    · rwa [entries_erase]
    · rw [functions_erase]
      intro f hf
      obtain ⟨f, hMem, rfl⟩ := List.mem_map.mp hf
      exact hParams f hMem
    · rwa [entries_erase]

end Program

end MiniC
