import MiniC.Proofs.Typing.Expr
import MiniC.Typing.Program

/-! # Well-typed statements -/
namespace MiniC
set_option autoImplicit false

namespace Stmt

section

variable (ctx : FunctionContext) (occurs : Ident → Ty → Prop)

mutual

/-- The expressions of the statement are well-typed, and their types fit their places. -/
def WellTyped : Stmt Ty → Prop
  | ret _ none => ctx.returnTy = .void
  | ret _ (some value) =>
    ctx.returnTy ≠ .void ∧ value.WellTypedAs ctx.signatures occurs ctx.returnTy
  | assign _ target value =>
    ∃ ty, occurs target ty ∧ value.WellTypedAs ctx.signatures occurs ty
  | declare _ _ ty init => ty ≠ .void ∧ ∀ e ∈ init, e.WellTypedAs ctx.signatures occurs ty
  | store _ base offset value =>
    base.WellTyped ctx.signatures occurs ∧ offset.WellTyped ctx.signatures occurs ∧
      offset.info.isIntegral = true ∧ ∃ ty, base.info.element? = some ty ∧ ty.isArray = false ∧
        value.WellTypedAs ctx.signatures occurs ty
  | branch _ cond thenBody elseBody =>
    cond.WellTypedCondition ctx.signatures occurs ∧ WellTypedAll thenBody ∧ WellTypedAll elseBody
  | loop _ _ cond body =>
    cond.WellTypedCondition ctx.signatures occurs ∧ WellTypedAll body
  | forLoop _ init cond update body =>
    WellTypedOption init ∧ (∀ e ∈ cond, e.WellTypedCondition ctx.signatures occurs) ∧
      WellTypedOption update ∧ WellTypedAll body
  | jump .. => True
  | expr _ value => value.WellTyped ctx.signatures occurs

def WellTypedAll : List (Stmt Ty) → Prop
  | [] => True
  | x :: xs => x.WellTyped ∧ WellTypedAll xs

def WellTypedOption : Option (Stmt Ty) → Prop
  | none => True
  | some x => x.WellTyped

end

end

variable {ctx : FunctionContext} {occurs : Ident → Ty → Prop}

/-- The scopes between two scopes, the second of which extends the first, see only names at types
that `occurs` allows. -/
def Covers (occurs : Ident → Ty → Prop) (scope scope' : Scope) : Prop :=
  ∀ between : Scope, scope <:+ between → between <:+ scope' →
    ∀ x ty, List.lookup x.name between = some ty → occurs x ty

theorem Covers.mono {scope scope₁ scope₂ scope' : Scope} (h : Covers occurs scope scope')
    (h₁ : scope <:+ scope₁) (h₂ : scope₂ <:+ scope') : Covers occurs scope₁ scope₂ :=
  fun between hLow hHigh => h between (h₁.trans hLow) (hHigh.trans h₂)

theorem Covers.first {scope scope' : Scope} (h : Covers occurs scope scope')
    (hSuffix : scope <:+ scope') :
    ∀ x ty, List.lookup x.name scope = some ty → occurs x ty :=
  h scope (List.suffix_refl scope) hSuffix

theorem wellTyped_of_checkReturn {scope : Scope} {s : Span} {value : Option (Expr Unit)}
    {x : Stmt Ty} (hOccurs : ∀ x ty, List.lookup x.name scope = some ty → occurs x ty)
    (h : checkReturn ctx scope s value = .ok x) : x.WellTyped ctx occurs := by
  cases value with
  | none =>
    rw [checkReturn] at h
    split at h
    · cases h
      assumption
    · cases h
  | some value =>
    rw [checkReturn] at h
    split at h
    · cases h
    · simp only [Checked.bind_eq_ok_iff, Checked.pure_eq_ok_iff] at h
      obtain ⟨value', hValue, rfl⟩ := h
      exact ⟨by assumption, Expr.wellTypedAs_of_checkAs hOccurs hValue⟩

theorem wellTyped_of_checkStore {scope : Scope} {s : Span} {base offset value : Expr Unit}
    {x : Stmt Ty} (hOccurs : ∀ x ty, List.lookup x.name scope = some ty → occurs x ty)
    (h : checkStore ctx scope s base offset value = .ok x) : x.WellTyped ctx occurs := by
  simp only [checkStore, Checked.bind_eq_ok_iff, elementTy_eq_ok_iff] at h
  obtain ⟨base', hBase, ty, hTy, h⟩ := h
  split at h
  · cases h
  · rename_i hArray
    simp only [Checked.bind_eq_ok_iff, Checked.pure_eq_ok_iff, ensureIndex_eq_ok_iff] at h
    obtain ⟨offset', hOffset, _, hIndex, value', hValue, rfl⟩ := h
    exact ⟨Expr.wellTyped_of_check hOccurs base hBase,
      Expr.wellTyped_of_check hOccurs offset hOffset, hIndex, ty, hTy, by simpa using hArray,
      Expr.wellTypedAs_of_checkAs hOccurs hValue⟩

theorem checkReturn_eq_ok {scope : Scope} {s : Span} {value : Option (Expr Unit)} {x : Stmt Ty}
    (h : checkReturn ctx scope s value = .ok x) :
    ∃ value', x = .ret s value' ∧
      Expr.checkOptionAs ctx.signatures scope ctx.returnTy value = .ok value' := by
  cases value <;> rw [checkReturn] at h <;> split at h
  · cases h
    exact ⟨none, rfl, rfl⟩
  · cases h
  · cases h
  · simp only [Checked.bind_eq_ok_iff, Checked.pure_eq_ok_iff] at h
    obtain ⟨value', hValue, rfl⟩ := h
    exact ⟨some value', rfl, by rw [Expr.checkOptionAs, hValue]; rfl⟩

theorem checkStore_eq_ok {scope : Scope} {s : Span} {base offset value : Expr Unit}
    {x : Stmt Ty} (h : checkStore ctx scope s base offset value = .ok x) :
    ∃ base' offset' value' ty, x = .store s base' offset' value' ∧
      base.check ctx.signatures scope = .ok base' ∧
      offset.check ctx.signatures scope = .ok offset' ∧
      value.checkAs ctx.signatures scope ty = .ok value' := by
  simp only [checkStore, Checked.bind_eq_ok_iff] at h
  obtain ⟨base', hBase, ty, -, h⟩ := h
  split at h
  · cases h
  · simp only [Checked.bind_eq_ok_iff, Checked.pure_eq_ok_iff] at h
    obtain ⟨offset', hOffset, _, -, value', hValue, rfl⟩ := h
    exact ⟨base', offset', value', ty, rfl, hBase, hOffset, hValue⟩

/-- Checking goes from one scope to another by adding the given declarations in some order. -/
def Passes (scope : Scope) (declared : List (String × Ty)) (scope' : Scope) : Prop :=
  ∃ added : Scope, added.Perm declared ∧ scope' = added ++ scope

theorem Passes.suffix {scope scope' : Scope} {declared : List (String × Ty)}
    (h : Passes scope declared scope') : scope <:+ scope' := by
  obtain ⟨added, -, rfl⟩ := h
  exact List.suffix_append added scope

theorem Passes.refl (scope : Scope) : Passes scope [] scope := ⟨[], .refl [], rfl⟩

theorem Passes.declare (scope : Scope) (x : Ident) (ty : Ty) :
    Passes scope [(x.name, ty)] (scope.declare x ty) := ⟨[(x.name, ty)], .refl _, rfl⟩

theorem Passes.trans {scope scope₁ scope₂ : Scope} {a b : List (String × Ty)}
    (h₁ : Passes scope a scope₁) (h₂ : Passes scope₁ b scope₂) :
    Passes scope (a ++ b) scope₂ := by
  obtain ⟨added₁, hPerm₁, rfl⟩ := h₁
  obtain ⟨added₂, hPerm₂, rfl⟩ := h₂
  refine ⟨added₂ ++ added₁, ?_, (List.append_assoc added₂ added₁ scope).symm⟩
  exact List.perm_append_comm.trans (hPerm₁.append hPerm₂)

mutual

/-- A checked statement is well-typed, and its declarations are what the scope has gained. -/
theorem passes_of_check {scope scope' : Scope} (x : Stmt Unit) {y : Stmt Ty}
    (h : x.check ctx scope = .ok (y, scope')) :
    Passes scope y.locals scope' ∧ (Covers occurs scope scope' → y.WellTyped ctx occurs) := by
  cases x with
  | ret s value =>
    simp only [check, Checked.bind_eq_ok_iff, Checked.pure_eq_ok_iff, Prod.mk.injEq] at h
    obtain ⟨_, hReturn, rfl, rfl⟩ := h
    have hOccurs (hCovers : Covers occurs scope scope) := hCovers.first (List.suffix_refl scope)
    refine ⟨?_, fun hCovers => wellTyped_of_checkReturn (hOccurs hCovers) hReturn⟩
    obtain ⟨_, rfl, -⟩ := checkReturn_eq_ok hReturn
    exact .refl scope
  | assign s target value =>
    simp only [check, Checked.bind_eq_ok_iff, Checked.pure_eq_ok_iff, Prod.mk.injEq,
      Scope.lookup_eq_ok_iff] at h
    obtain ⟨ty, hTy, value', hValue, rfl, rfl⟩ := h
    refine ⟨.refl scope, fun hCovers => ?_⟩
    have hOccurs := hCovers.first (List.suffix_refl scope)
    exact ⟨ty, hOccurs target ty hTy, Expr.wellTypedAs_of_checkAs hOccurs hValue⟩
  | declare s name ty init =>
    simp only [check, Checked.bind_eq_ok_iff, Checked.pure_eq_ok_iff, Prod.mk.injEq,
      ensureNotVoid_eq_ok_iff] at h
    obtain ⟨_, hVoid, init', hInit, rfl, rfl⟩ := h
    refine ⟨.declare scope name ty, fun hCovers => ⟨hVoid, ?_⟩⟩
    exact Expr.wellTypedAs_of_checkOptionAs
      (hCovers _ (Passes.declare scope name ty).suffix (List.suffix_refl _)) hInit
  | store s base offset value =>
    simp only [check, Checked.bind_eq_ok_iff, Checked.pure_eq_ok_iff, Prod.mk.injEq] at h
    obtain ⟨_, hStore, rfl, rfl⟩ := h
    have hOccurs (hCovers : Covers occurs scope scope) := hCovers.first (List.suffix_refl scope)
    refine ⟨?_, fun hCovers => wellTyped_of_checkStore (hOccurs hCovers) hStore⟩
    obtain ⟨_, _, _, _, rfl, -⟩ := checkStore_eq_ok hStore
    exact .refl scope
  | branch s cond thenBody elseBody =>
    simp only [check, Checked.bind_eq_ok_iff, Checked.pure_eq_ok_iff, Prod.mk.injEq,
      Prod.exists] at h
    obtain ⟨cond', hCond, thenBody', scope₁, hThen, elseBody', scope₂, hElse, rfl, rfl⟩ := h
    obtain ⟨hPass₁, hTyped₁⟩ := passes_of_checkAll thenBody hThen
    obtain ⟨hPass₂, hTyped₂⟩ := passes_of_checkAll elseBody hElse
    have hPass := hPass₁.trans hPass₂
    refine ⟨hPass, fun hCovers => ⟨?_, ?_, ?_⟩⟩
    · exact Expr.wellTypedCondition_of_checkCondition (hCovers.first hPass.suffix) hCond
    · exact hTyped₁ (hCovers.mono (List.suffix_refl scope) hPass₂.suffix)
    · exact hTyped₂ (hCovers.mono hPass₁.suffix (List.suffix_refl _))
  | loop s kind cond body =>
    simp only [check, Checked.bind_eq_ok_iff, Checked.pure_eq_ok_iff, Prod.mk.injEq,
      Prod.exists] at h
    obtain ⟨cond', hCond, body', scope₁, hBody, rfl, rfl⟩ := h
    obtain ⟨hPass, hTyped⟩ := passes_of_checkAll body hBody
    refine ⟨hPass, fun hCovers => ⟨?_, hTyped hCovers⟩⟩
    exact Expr.wellTypedCondition_of_checkCondition (hCovers.first hPass.suffix) hCond
  | forLoop s init cond update body =>
    simp only [check, Checked.bind_eq_ok_iff, Checked.pure_eq_ok_iff, Prod.mk.injEq,
      Prod.exists] at h
    obtain ⟨init', scope₁, hInit, cond', hCond, update', scope₂, hUpdate, body', scope₃, hBody, rfl,
      rfl⟩ := h
    obtain ⟨hPass₁, hTyped₁⟩ := passes_of_checkOption init hInit
    obtain ⟨hPass₂, hTyped₂⟩ := passes_of_checkOption update hUpdate
    obtain ⟨hPass₃, hTyped₃⟩ := passes_of_checkAll body hBody
    have hEnd := hPass₂.suffix.trans hPass₃.suffix
    refine ⟨(hPass₁.trans hPass₂).trans hPass₃, fun hCovers => ⟨?_, ?_, ?_, ?_⟩⟩
    · exact hTyped₁ (hCovers.mono (List.suffix_refl scope) hEnd)
    · exact Expr.wellTypedCondition_of_checkOptionCondition
        (hCovers scope₁ hPass₁.suffix hEnd) hCond
    · exact hTyped₂ (hCovers.mono hPass₁.suffix hPass₃.suffix)
    · exact hTyped₃ (hCovers.mono (hPass₁.suffix.trans hPass₂.suffix) (List.suffix_refl _))
  | jump s j =>
    cases h
    exact ⟨.refl scope, fun _ => trivial⟩
  | expr s value =>
    simp only [check, Checked.bind_eq_ok_iff, Checked.pure_eq_ok_iff, Prod.mk.injEq] at h
    obtain ⟨value', hValue, rfl, rfl⟩ := h
    refine ⟨.refl scope, fun hCovers => ?_⟩
    exact Expr.wellTyped_of_check (hCovers.first (List.suffix_refl scope)) value hValue

theorem passes_of_checkAll {scope scope' : Scope} (xs : List (Stmt Unit)) {ys : List (Stmt Ty)}
    (h : checkAll ctx scope xs = .ok (ys, scope')) :
    Passes scope (localsAll ys) scope' ∧
      (Covers occurs scope scope' → WellTypedAll ctx occurs ys) := by
  cases xs with
  | nil =>
    cases h
    exact ⟨.refl scope, fun _ => trivial⟩
  | cons x xs =>
    simp only [checkAll, Checked.bind_eq_ok_iff, Checked.pure_eq_ok_iff, Prod.mk.injEq,
      Prod.exists] at h
    obtain ⟨y, scope₁, hX, ys, scope₂, hXs, rfl, rfl⟩ := h
    obtain ⟨hPass₁, hTyped₁⟩ := passes_of_check x hX
    obtain ⟨hPass₂, hTyped₂⟩ := passes_of_checkAll xs hXs
    refine ⟨hPass₁.trans hPass₂, fun hCovers => ⟨?_, ?_⟩⟩
    · exact hTyped₁ (hCovers.mono (List.suffix_refl scope) hPass₂.suffix)
    · exact hTyped₂ (hCovers.mono hPass₁.suffix (List.suffix_refl _))

theorem passes_of_checkOption {scope scope' : Scope} (x? : Option (Stmt Unit))
    {y? : Option (Stmt Ty)} (h : checkOption ctx scope x? = .ok (y?, scope')) :
    Passes scope (localsOption y?) scope' ∧
      (Covers occurs scope scope' → WellTypedOption ctx occurs y?) := by
  cases x? with
  | none =>
    cases h
    exact ⟨.refl scope, fun _ => trivial⟩
  | some x =>
    simp only [checkOption, Checked.bind_eq_ok_iff, Checked.pure_eq_ok_iff, Prod.mk.injEq,
      Prod.exists] at h
    obtain ⟨y, scope₁, hX, rfl, rfl⟩ := h
    exact passes_of_check x hX

end

end Stmt

end MiniC
