import MiniC.Proofs.Declarations
import MiniC.Typing.Expr

/-! # Well-typed expressions

The types written in a checked tree obey the typing rules.  The rules are stated without a scope:
`occurs x ty` says that the name `x` may be used at the type `ty`, and a checked tree obeys the
rules whenever `occurs` covers the scopes that were passed through.
-/
namespace MiniC
set_option autoImplicit false

open Wasm (ValType)

theorem Checked.bind_eq_ok_iff {α β : Type} {x : Checked α} {f : α → Checked β} {b : β} :
    x >>= f = .ok b ↔ ∃ a, x = .ok a ∧ f a = .ok b := by
  cases x <;> simp [bind, Except.bind]

theorem Checked.pure_eq_ok_iff {α : Type} {a b : α} : (pure a : Checked α) = .ok b ↔ a = b := by
  simp [pure, Except.pure]

theorem Checked.map_eq_ok_iff {α β : Type} {x : Checked α} {f : α → β} {b : β} :
    f <$> x = .ok b ↔ ∃ a, x = .ok a ∧ f a = b := by
  cases x <;> simp [Functor.map, Except.map]

@[simp] theorem Checked.fail_ne_ok {α : Type} (s : Span) (e : TypeError) (a : α) :
    Checked.fail s e ≠ .ok a := by
  simp [Checked.fail]

theorem Checked.locate_eq_ok_iff {α : Type} {s : Span} {x : Except TypeError α} {a : α} :
    Checked.locate s x = .ok a ↔ x = .ok a := by
  cases x <;> simp [Checked.locate]

theorem Scope.lookup_eq_ok_iff {scope : Scope} {x : Ident} {ty : Ty} :
    scope.lookup x = .ok ty ↔ List.lookup x.name scope = some ty := by
  rw [Scope.lookup]
  cases List.lookup x.name scope <;> simp

theorem ensureAssignable_eq_ok_iff {target : Ty} {e : Expr Ty} {u : Unit} :
    ensureAssignable target e = .ok u ↔ target.isAssignable e.info = true := by
  rw [ensureAssignable]
  split <;> simp_all

theorem ensureNotVoid_eq_ok_iff {x : Ident} {ty : Ty} {u : Unit} :
    ensureNotVoid x ty = .ok u ↔ ty ≠ .void := by
  rw [ensureNotVoid]
  split <;> simp_all

theorem ensureIndex_eq_ok_iff {e : Expr Ty} {u : Unit} :
    ensureIndex e = .ok u ↔ e.info.isIntegral = true := by
  rw [ensureIndex]
  split <;> simp_all

theorem ensureCondition_eq_ok_iff {e : Expr Ty} {u : Unit} :
    ensureCondition e = .ok u ↔ e.info ≠ .float ∧ e.info ≠ .void := by
  rw [ensureCondition]
  split
  case isTrue h => simp [← not_or, h]
  case isFalse h => simpa [not_or] using h

theorem elementTy_eq_ok_iff {base : Expr Ty} {ty : Ty} :
    elementTy base = .ok ty ↔ base.info.element? = some ty := by
  rw [elementTy]
  cases base.info.element? <;> simp

/-- The machine type of the value of an expression, if it has one. -/
def Ty.result? (t : Ty) : Option ValType := if t = .void then none else some t.valType

theorem Ty.result?_of_ne_void {t : Ty} (h : t ≠ .void) : t.result? = some t.valType := if_neg h

namespace BinaryOp

theorem type_eq_ok_iff {op : BinaryOp} {lhs rhs ty : Ty} :
    op.type lhs rhs = .ok ty ↔ op.acceptsOperand lhs = true ∧ op.acceptsOperand rhs = true ∧
      op.compatible lhs rhs = true ∧ ty = op.resultTy lhs := by
  rw [type]
  cases op.acceptsOperand lhs <;> cases op.acceptsOperand rhs <;> cases op.compatible lhs rhs <;>
    simp [eq_comm]

variable {op : BinaryOp} {lhs rhs ty : Ty}

theorem operands_ne_void (h : op.type lhs rhs = .ok ty) : lhs ≠ .void ∧ rhs ≠ .void := by
  obtain ⟨hLhs, hRhs, -, -⟩ := type_eq_ok_iff.mp h
  simp only [acceptsOperand, Bool.and_eq_true, decide_eq_true_eq] at hLhs hRhs
  exact ⟨hLhs.1, hRhs.1⟩

/-- The operands have one machine type. -/
theorem valType_eq (h : op.type lhs rhs = .ok ty) : rhs.valType = lhs.valType := by
  obtain ⟨-, -, hCompatible, -⟩ := type_eq_ok_iff.mp h
  simp only [compatible, Bool.or_eq_true, Bool.and_eq_true, decide_eq_true_eq] at hCompatible
  rcases hCompatible with (rfl | ⟨hLhs, hRhs⟩) | ⟨⟨hLhs, hRhs⟩, -⟩
  · rfl
  · rw [Ty.valType_of_isIntegral hLhs, Ty.valType_of_isIntegral hRhs]
  · rw [Ty.valType_of_isIndexable hLhs, Ty.valType_of_isIntegral hRhs]

theorem result_eq (h : op.type lhs rhs = .ok ty) : ty = .int ∨ ty = lhs := by
  obtain ⟨-, -, -, rfl⟩ := type_eq_ok_iff.mp h
  rw [resultTy]
  split
  · exact .inl rfl
  · exact .inr rfl

theorem result_ne_void (h : op.type lhs rhs = .ok ty) : ty ≠ .void := by
  rcases result_eq h with rfl | rfl
  · simp
  · exact (operands_ne_void h).1

end BinaryOp

namespace UnaryOp

variable {isVariable : Bool} {ty t : Ty}

theorem type_step_eq_ok_iff {op : UnaryOp} (hOp : op = .increment ∨ op = .decrement) :
    op.type isVariable ty = .ok t ↔ isVariable = true ∧ ty.isNumeric = true ∧ t = ty := by
  rcases hOp with rfl | rfl <;>
    (cases isVariable <;> cases hNumeric : ty.isNumeric <;> simp [type, hNumeric, eq_comm])

theorem type_not_eq_ok_iff :
    not.type isVariable ty = .ok t ↔ ty ≠ .float ∧ ty ≠ .void ∧ t = .int := by
  simp only [type]
  split
  case isTrue h => rcases h with rfl | rfl <;> simp
  case isFalse h => simp_all [not_or, eq_comm]

theorem type_deref_eq_ok_iff : deref.type isVariable ty = .ok t ↔ ty.element? = some t := by
  simp only [type]
  cases ty.element? <;> simp

theorem type_negate_eq_ok_iff :
    negate.type isVariable ty = .ok t ↔ ty.isNumeric = true ∧ t = ty := by
  cases hNumeric : ty.isNumeric <;> simp [type, hNumeric, eq_comm]

end UnaryOp

theorem Ty.ne_void_of_isNumeric {t : Ty} (h : t.isNumeric = true) : t ≠ .void := by
  rintro rfl
  cases h

theorem Ty.ne_void_of_isIntegral {t : Ty} (h : t.isIntegral = true) : t ≠ .void := by
  rintro rfl
  cases h

theorem Ty.ne_void_of_element {t e : Ty} (h : t.element? = some e) : t ≠ .void := by
  rintro rfl
  cases h

namespace Expr

section

variable (sigs : Signatures) (occurs : Ident → Ty → Prop)

mutual

/-- Every type in the expression is the one that the rules give for its constructor. -/
def WellTyped : Expr Ty → Prop
  | const ty _ value => ty = value.ty
  | string ty _ _ => ty = .pointer .char
  | var ty _ x => occurs x ty
  | call ty _ callee args =>
    ∃ sig, List.lookup callee.name sigs = some sig ∧ ty = sig.result ∧ WellTypedArgs args sig.params
  | binary ty _ op lhs rhs => lhs.WellTyped ∧ rhs.WellTyped ∧ op.type lhs.info rhs.info = .ok ty
  | unary ty _ op _ operand =>
    operand.WellTyped ∧ op.type operand.isVariable operand.info = .ok ty
  | index ty _ base offset =>
    base.WellTyped ∧ offset.WellTyped ∧ base.info.element? = some ty ∧
      offset.info.isIntegral = true

/-- The arguments can be passed for parameters of the given types. -/
def WellTypedArgs : List (Expr Ty) → List Ty → Prop
  | [], [] => True
  | e :: es, ty :: tys => e.WellTyped ∧ ty.isAssignable e.info = true ∧ WellTypedArgs es tys
  | _, _ => False

end

/-- A value that can be stored where `target` is expected. -/
def WellTypedAs (target : Ty) (e : Expr Ty) : Prop :=
  e.WellTyped sigs occurs ∧ target.isAssignable e.info = true

/-- A value that can be tested. -/
def WellTypedCondition (e : Expr Ty) : Prop :=
  e.WellTyped sigs occurs ∧ e.info ≠ .float ∧ e.info ≠ .void

end

variable {sigs : Signatures} {occurs : Ident → Ty → Prop} {scope : Scope}

mutual

theorem wellTyped_of_check
    (hOccurs : ∀ x ty, List.lookup x.name scope = some ty → occurs x ty)
    (e : Expr Unit) {e' : Expr Ty} (h : e.check sigs scope = .ok e') :
    e'.WellTyped sigs occurs := by
  cases e with
  | const _ s value | string _ s text =>
    cases h
    rfl
  | var _ s x =>
    simp only [check, Checked.bind_eq_ok_iff, Checked.pure_eq_ok_iff] at h
    obtain ⟨ty, hTy, rfl⟩ := h
    exact hOccurs x ty (Scope.lookup_eq_ok_iff.mp hTy)
  | call _ s callee args =>
    simp only [check] at h
    split at h
    · cases h
    · rename_i sig hSig
      split at h
      · cases h
      · rename_i hLength
        simp only [Checked.bind_eq_ok_iff, Checked.pure_eq_ok_iff] at h
        obtain ⟨args', hArgs, rfl⟩ := h
        exact ⟨sig, hSig, rfl,
          wellTypedArgs_of_check hOccurs args (by simpa using hLength) hArgs⟩
  | binary _ s op lhs rhs =>
    simp only [check, Checked.bind_eq_ok_iff, Checked.pure_eq_ok_iff,
      Checked.locate_eq_ok_iff] at h
    obtain ⟨lhs', hLhs, rhs', hRhs, ty, hTy, rfl⟩ := h
    exact ⟨wellTyped_of_check hOccurs lhs hLhs, wellTyped_of_check hOccurs rhs hRhs, hTy⟩
  | unary _ s op fixity operand =>
    simp only [check, Checked.bind_eq_ok_iff, Checked.pure_eq_ok_iff,
      Checked.locate_eq_ok_iff] at h
    obtain ⟨operand', hOperand, ty, hTy, rfl⟩ := h
    exact ⟨wellTyped_of_check hOccurs operand hOperand, hTy⟩
  | index _ s base offset =>
    simp only [check, Checked.bind_eq_ok_iff, Checked.pure_eq_ok_iff, elementTy_eq_ok_iff,
      ensureIndex_eq_ok_iff] at h
    obtain ⟨base', hBase, ty, hTy, offset', hOffset, _, hIndex, rfl⟩ := h
    exact ⟨wellTyped_of_check hOccurs base hBase, wellTyped_of_check hOccurs offset hOffset, hTy,
      hIndex⟩

theorem wellTypedArgs_of_check
    (hOccurs : ∀ x ty, List.lookup x.name scope = some ty → occurs x ty)
    (es : List (Expr Unit)) {tys : List Ty} (hLength : tys.length = es.length)
    {es' : List (Expr Ty)} (h : checkArgs sigs scope es tys = .ok es') :
    WellTypedArgs sigs occurs es' tys := by
  cases es with
  | nil =>
    cases List.length_eq_zero_iff.mp hLength
    cases h
    trivial
  | cons e es =>
    cases tys with
    | nil => cases hLength
    | cons ty tys =>
      simp only [checkArgs, Checked.bind_eq_ok_iff, Checked.pure_eq_ok_iff,
        ensureAssignable_eq_ok_iff] at h
      obtain ⟨e', hE, _, hTy, es', hEs, rfl⟩ := h
      exact ⟨wellTyped_of_check hOccurs e hE, hTy,
        wellTypedArgs_of_check hOccurs es (Nat.succ.inj hLength) hEs⟩

end

theorem checkAs_eq_ok_iff {target : Ty} {e : Expr Unit} {e' : Expr Ty} :
    e.checkAs sigs scope target = .ok e' ↔
      e.check sigs scope = .ok e' ∧ target.isAssignable e'.info = true := by
  simp only [checkAs, Checked.bind_eq_ok_iff, Checked.pure_eq_ok_iff, ensureAssignable_eq_ok_iff]
  constructor
  · rintro ⟨_, h, _, hTy, rfl⟩
    exact ⟨h, hTy⟩
  · rintro ⟨h, hTy⟩
    exact ⟨e', h, (), hTy, rfl⟩

theorem checkCondition_eq_ok_iff {e : Expr Unit} {e' : Expr Ty} :
    e.checkCondition sigs scope = .ok e' ↔
      e.check sigs scope = .ok e' ∧ e'.info ≠ .float ∧ e'.info ≠ .void := by
  simp only [checkCondition, Checked.bind_eq_ok_iff, Checked.pure_eq_ok_iff,
    ensureCondition_eq_ok_iff]
  constructor
  · rintro ⟨_, h, _, hTy, rfl⟩
    exact ⟨h, hTy⟩
  · rintro ⟨h, hTy⟩
    exact ⟨e', h, (), hTy, rfl⟩

theorem wellTypedAs_of_checkAs
    (hOccurs : ∀ x ty, List.lookup x.name scope = some ty → occurs x ty)
    {target : Ty} {e : Expr Unit} {e' : Expr Ty} (h : e.checkAs sigs scope target = .ok e') :
    e'.WellTypedAs sigs occurs target := by
  obtain ⟨hCheck, hTy⟩ := checkAs_eq_ok_iff.mp h
  exact ⟨wellTyped_of_check hOccurs e hCheck, hTy⟩

theorem wellTypedCondition_of_checkCondition
    (hOccurs : ∀ x ty, List.lookup x.name scope = some ty → occurs x ty)
    {e : Expr Unit} {e' : Expr Ty} (h : e.checkCondition sigs scope = .ok e') :
    e'.WellTypedCondition sigs occurs := by
  obtain ⟨hCheck, hTy⟩ := checkCondition_eq_ok_iff.mp h
  exact ⟨wellTyped_of_check hOccurs e hCheck, hTy⟩

theorem wellTypedAs_of_checkOptionAs
    (hOccurs : ∀ x ty, List.lookup x.name scope = some ty → occurs x ty)
    {target : Ty} {e? : Option (Expr Unit)} {e?' : Option (Expr Ty)}
    (h : checkOptionAs sigs scope target e? = .ok e?') :
    ∀ e ∈ e?', e.WellTypedAs sigs occurs target := by
  cases e? with
  | none =>
    cases h
    simp
  | some e =>
    simp only [checkOptionAs, Checked.map_eq_ok_iff] at h
    obtain ⟨e', hE, rfl⟩ := h
    rintro _ ⟨⟩
    exact wellTypedAs_of_checkAs hOccurs hE

theorem wellTypedCondition_of_checkOptionCondition
    (hOccurs : ∀ x ty, List.lookup x.name scope = some ty → occurs x ty)
    {e? : Option (Expr Unit)} {e?' : Option (Expr Ty)}
    (h : checkOptionCondition sigs scope e? = .ok e?') :
    ∀ e ∈ e?', e.WellTypedCondition sigs occurs := by
  cases e? with
  | none =>
    cases h
    simp
  | some e =>
    simp only [checkOptionCondition, Checked.map_eq_ok_iff] at h
    obtain ⟨e', hE, rfl⟩ := h
    rintro _ ⟨⟩
    exact wellTypedCondition_of_checkCondition hOccurs hE

/-- No expression has a type whose base is `void` unless a name or a function has one. -/
theorem reachesVoid_of_wellTyped (hOccurs : ∀ x ty, occurs x ty → ty.reachesVoid = false)
    (hSigs : ∀ name sig, List.lookup name sigs = some sig → sig.result.reachesVoid = false)
    (e : Expr Ty) (h : e.WellTyped sigs occurs) : e.info.reachesVoid = false := by
  cases e with
  | const ty s value =>
    rw [WellTyped] at h
    cases value <;> cases h <;> rfl
  | string ty s text =>
    cases h
    rfl
  | var ty s x => exact hOccurs x ty h
  | call ty s callee args =>
    obtain ⟨sig, hSig, rfl, -⟩ := h
    exact hSigs _ sig hSig
  | binary ty s op lhs rhs =>
    obtain ⟨hLhs, -, hTy⟩ := h
    rcases BinaryOp.result_eq hTy with rfl | rfl
    · rfl
    · exact reachesVoid_of_wellTyped hOccurs hSigs lhs hLhs
  | unary ty s op fixity operand =>
    obtain ⟨hOperand, hTy⟩ := h
    have hInner := reachesVoid_of_wellTyped hOccurs hSigs operand hOperand
    cases op with
    | increment =>
      obtain ⟨-, -, rfl⟩ := (UnaryOp.type_step_eq_ok_iff (.inl rfl)).mp hTy
      exact hInner
    | decrement =>
      obtain ⟨-, -, rfl⟩ := (UnaryOp.type_step_eq_ok_iff (.inr rfl)).mp hTy
      exact hInner
    | not =>
      obtain ⟨-, -, rfl⟩ := UnaryOp.type_not_eq_ok_iff.mp hTy
      rfl
    | deref =>
      exact (Ty.reachesVoid_of_element (UnaryOp.type_deref_eq_ok_iff.mp hTy) hInner).2
    | negate =>
      obtain ⟨-, rfl⟩ := UnaryOp.type_negate_eq_ok_iff.mp hTy
      exact hInner
  | index ty s base offset =>
    obtain ⟨hBase, -, hTy, -⟩ := h
    exact (Ty.reachesVoid_of_element hTy (reachesVoid_of_wellTyped hOccurs hSigs base hBase)).2

end Expr

end MiniC
