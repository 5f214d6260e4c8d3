import MiniC.Proofs.Bindings
import MiniC.Proofs.Validation.Algorithm

/-! # The code of well-typed trees is valid

An expression pushes a value of the machine type of its type, or nothing if that is `void`; a
statement is neutral.
-/
namespace MiniC
set_option autoImplicit false

open Wasm (Code Instr ValType)
open Wasm.Validation (Context Pushes Neutral)

/-- The names and the functions that a tree may use fit the context of its code. -/
structure Suits (Γ : Context) (B : Bindings) (sigs : Signatures) (occurs : Ident → Ty → Prop) :
    Prop where
  bindings : B.Typed Γ.slots occurs
  nonvoid : ∀ x ty, occurs x ty → ty ≠ .void
  voidFree : ∀ x ty, occurs x ty → ty.reachesVoid = false
  callee : ∀ name sig, List.lookup name sigs = some sig →
    Γ.callee? name = some ⟨sig.params.map Ty.valType, sig.result.result?⟩
  params : ∀ name sig, List.lookup name sigs = some sig → ∀ t ∈ sig.params, t ≠ .void
  results : ∀ name sig, List.lookup name sigs = some sig → sig.result.reachesVoid = false

variable {Γ : Context} {B : Bindings} {sigs : Signatures} {occurs : Ident → Ty → Prop}

theorem Suits.element (h : Suits Γ B sigs occurs) {e : Expr Ty} (he : e.WellTyped sigs occurs)
    {t : Ty} (ht : e.info.element? = some t) : t ≠ .void :=
  (Ty.reachesVoid_of_element ht (e.reachesVoid_of_wellTyped h.voidFree h.results he)).1

theorem BinaryOp.opcode_type {op : BinaryOp} {lhs rhs ty : Ty} {opcode : Wasm.Opcode}
    (hTy : op.type lhs rhs = .ok ty) (h : op.opcode? lhs.valType = some opcode) :
    opcode.type? lhs.valType = some ⟨[lhs.valType, lhs.valType], some ty.valType⟩ := by
  obtain ⟨-, -, -, rfl⟩ := type_eq_ok_iff.mp hTy
  cases hLhs : lhs.valType <;> rw [hLhs] at h <;> cases op <;>
    simp_all [opcode?, resultTy, isComparison, Wasm.Opcode.type?, Ty.valType] <;> subst h <;> rfl

theorem pushAddress_pushes (address : Nat) : Pushes Γ [pushAddress address] [.i32] := .instr rfl

theorem Place.read_pushes {p : Place} {t : ValType} (h : p.HasType Γ.slots t) :
    Pushes Γ p.read [t] := by
  cases p with
  | slot n =>
    rw [HasType] at h
    exact .instr (Context.type?_localGet h)
  | cell address t' =>
    obtain rfl : t' = t := h
    exact (pushAddress_pushes address).apply ⟨[.i32], some t'⟩ rfl

theorem Place.write_pushes {p : Place} {t : ValType} {code : Code} (h : p.HasType Γ.slots t)
    (hCode : Pushes Γ code [t]) : Pushes Γ (p.write code) [] := by
  cases p with
  | slot n =>
    rw [HasType] at h
    exact hCode.apply ⟨[t], none⟩ (Context.type?_localSet h)
  | cell address t' =>
    obtain rfl : t' = t := h
    exact ((pushAddress_pushes address).append hCode).apply ⟨[.i32, t'], none⟩ rfl

/-- A step up or down replaces the value on top. -/
theorem stepCode_pushes (op : UnaryOp) (ts : List ValType) {a : Code} {t : ValType}
    (ha : Pushes Γ a (ts ++ [t])) : Pushes Γ (a ++ Emit.stepCode op t) (ts ++ [t]) := by
  have hOne : Pushes Γ [pushOne t] [t] := .instr (by cases t <;> rfl)
  have hBoth : Pushes Γ (a ++ [pushOne t]) (ts ++ [t, t]) := by
    simpa using ha.append hOne
  have hType : Γ.type? (.numeric t (if op = .increment then .add else .sub)) =
      some ⟨[t, t], some t⟩ := by
    cases t <;> cases op <;> rfl
  simpa [Emit.stepCode] using hBoth.applyAbove ts ⟨[t, t], some t⟩ hType

theorem stepSlot_pushes {n : Nat} {t : ValType} {op : UnaryOp} {fixity : Fixity} {used : Bool}
    (hn : Γ.slots[n]? = some t) :
    Pushes Γ (Emit.stepSlot n (Emit.stepCode op t) fixity used) (if used then [t] else []) := by
  have hGet : Pushes Γ [.localGet n] [t] := .instr (Context.type?_localGet hn)
  have hSet := Context.type?_localSet hn
  have hTee := Context.type?_localTee hn
  have hOnce : Pushes Γ ([Instr.localGet n] ++ Emit.stepCode op t) [t] := stepCode_pushes op [] hGet
  cases used with
  | false => simpa [Emit.stepSlot] using hOnce.apply ⟨[t], none⟩ hSet
  | true =>
    cases fixity with
    | before => simpa [Emit.stepSlot] using hOnce.apply ⟨[t], some t⟩ hTee
    | after =>
      have hTwice := stepCode_pushes op [t] (hGet.append hGet)
      simpa [Emit.stepSlot] using hTwice.applyAbove [t] ⟨[t], none⟩ hSet

theorem stepCellCode_pushes {address : Nat} {t : ValType} {op : UnaryOp} {fixity : Fixity}
    (spare : Option Nat) (hSpare : ∀ n ∈ spare, Γ.slots[n]? = some t) :
    Pushes Γ (stepCellCode address t (Emit.stepCode op t) fixity spare)
      (if spare.isSome then [t] else []) := by
  have hAddress : Pushes Γ [pushAddress address] [.i32] := pushAddress_pushes address
  have hLoad : Pushes Γ [pushAddress address, pushAddress address, .load t] [.i32, t] :=
    (hAddress.append hAddress).applyAbove [.i32] ⟨[.i32], some t⟩ rfl
  have hStep := stepCode_pushes op [.i32] hLoad
  cases spare with
  | none => exact hStep.apply ⟨[.i32, t], none⟩ rfl
  | some n =>
    have hn := hSpare n rfl
    have hGet : Pushes Γ [.localGet n] [t] := .instr (Context.type?_localGet hn)
    have hTee := Context.type?_localTee hn
    cases fixity with
    | before =>
      have hKept := hStep.applyAbove [.i32] ⟨[t], some t⟩ hTee
      have hStore := hKept.apply ⟨[.i32, t], none⟩ (i := .store t) rfl
      simpa [stepCellCode] using hStore.append hGet
    | after =>
      have hOld := hLoad.applyAbove [.i32] ⟨[t], some t⟩ hTee
      have hKept := stepCode_pushes op [.i32] hOld
      have hStore := hKept.apply ⟨[.i32, t], none⟩ (i := .store t) rfl
      simpa [stepCellCode] using hStore.append hGet

theorem StepLowers.pushes {op : UnaryOp} {fixity : Fixity} {ty : Ty} {x : Ident} {used : Bool}
    {code : Code} (h : StepLowers B op fixity ty x used code) (hSuits : Suits Γ B sigs occurs)
    (hTy : occurs x ty) : Pushes Γ code (if used then [ty.valType] else []) := by
  cases h with
  | slot hPlace => exact stepSlot_pushes (hSuits.bindings.place hPlace hTy)
  | cell hPlace =>
    cases hSuits.bindings.place hPlace hTy
    exact stepCellCode_pushes none (by simp)
  | usedCell hPlace hSpare =>
    cases hSuits.bindings.place hPlace hTy
    refine stepCellCode_pushes (some _) ?_
    rintro _ ⟨⟩
    exact hSuits.bindings.spare hSpare

theorem addressCode_pushes (base : Ty) {b o : Code} (hb : Pushes Γ b [.i32])
    (ho : Pushes Γ o [.i32]) : Pushes Γ (addressCode base b o) [.i32] := by
  have hScaled : Pushes Γ (b ++ o ++ Emit.scaleCode (Emit.stride base)) [.i32, .i32] := by
    rw [Emit.scaleCode]
    split
    · simpa using hb.append ho
    · have hAll := (hb.append ho).append (pushAddress_pushes (Emit.stride base))
      simpa using hAll.applyAbove [.i32] ⟨[.i32, .i32], some .i32⟩ (i := .numeric .i32 .mul) rfl
  exact hScaled.apply ⟨[.i32, .i32], some .i32⟩ rfl

theorem pushes_result_iff {code : Code} {ty : Ty} (h : ty ≠ .void) :
    Pushes Γ code ty.result?.toList ↔ Pushes Γ code [ty.valType] := by
  rw [Ty.result?_of_ne_void h]
  rfl

mutual

theorem ExprLowers.pushes (hSuits : Suits Γ B sigs occurs) (e : Expr Ty) {code : Code}
    (h : ExprLowers B e code) (he : e.WellTyped sigs occurs) :
    Pushes Γ code e.info.result?.toList := by
  cases h with
  | const ty s value =>
    obtain rfl : ty = value.ty := he
    cases value <;> exact .instr rfl
  | string hText =>
    cases he
    exact pushAddress_pushes _
  | @var ty s x p hPlace =>
    refine (pushes_result_iff (hSuits.nonvoid x ty he)).mpr ?_
    exact Place.read_pushes (hSuits.bindings.place hPlace he)
  | @call ty s callee args code hArgs =>
    obtain ⟨sig, hSig, rfl, he⟩ := he
    have hCode := ArgsLower.pushes hSuits args hArgs (hSuits.params _ sig hSig) he
    exact hCode.apply ⟨sig.params.map Ty.valType, sig.result.result?⟩ (hSuits.callee _ sig hSig)
  | @binary ty s op lhs rhs a b opcode hLhs hRhs hOpcode =>
    obtain ⟨heLhs, heRhs, hTy⟩ := he
    obtain ⟨hLhsVoid, hRhsVoid⟩ := BinaryOp.operands_ne_void hTy
    have hA := (pushes_result_iff hLhsVoid).mp (ExprLowers.pushes hSuits lhs hLhs heLhs)
    have hB := (pushes_result_iff hRhsVoid).mp (ExprLowers.pushes hSuits rhs hRhs heRhs)
    rw [BinaryOp.valType_eq hTy] at hB
    refine (pushes_result_iff (BinaryOp.result_ne_void hTy)).mpr ?_
    exact (hA.append hB).apply ⟨[_, _], some ty.valType⟩ (BinaryOp.opcode_type hTy hOpcode)
  | @step ty t s s' op fixity x code hOp hStep =>
    obtain ⟨heVar, hTy⟩ := he
    obtain ⟨-, -, rfl⟩ := (UnaryOp.type_step_eq_ok_iff hOp).mp hTy
    refine (pushes_result_iff (hSuits.nonvoid x _ heVar)).mpr ?_
    exact hStep.pushes hSuits heVar
  | @not ty s fixity operand code hValType hCode =>
    obtain ⟨he, hTy⟩ := he
    obtain ⟨-, hVoid, rfl⟩ := UnaryOp.type_not_eq_ok_iff.mp hTy
    have hOperand := (pushes_result_iff hVoid).mp (ExprLowers.pushes hSuits operand hCode he)
    rw [hValType] at hOperand
    exact hOperand.apply ⟨[.i32], some .i32⟩ rfl
  | @row ty t s fixity operand code hElement hArray hCode =>
    obtain ⟨he, hTy⟩ := he
    obtain rfl := Option.some.inj (hElement.symm.trans (UnaryOp.type_deref_eq_ok_iff.mp hTy))
    have hOperand := (pushes_result_iff (Ty.ne_void_of_element hElement)).mp
      (ExprLowers.pushes hSuits operand hCode he)
    rw [Ty.valType_of_element hElement] at hOperand
    refine (pushes_result_iff (hSuits.element he hElement)).mpr ?_
    rw [Ty.valType_of_isArray hArray]
    exact hOperand
  | @deref ty t s fixity operand code hElement hArray hFloat hCode =>
    obtain ⟨he, hTy⟩ := he
    obtain rfl := Option.some.inj (hElement.symm.trans (UnaryOp.type_deref_eq_ok_iff.mp hTy))
    have hOperand := (pushes_result_iff (Ty.ne_void_of_element hElement)).mp
      (ExprLowers.pushes hSuits operand hCode he)
    rw [Ty.valType_of_element hElement] at hOperand
    refine (pushes_result_iff (hSuits.element he hElement)).mpr ?_
    rw [Ty.valType_of_ne_float hFloat]
    exact hOperand.apply ⟨[.i32], some .i32⟩ rfl
  | @negateInt ty s fixity operand code hValType hCode =>
    obtain ⟨he, hTy⟩ := he
    obtain ⟨hNumeric, rfl⟩ := UnaryOp.type_negate_eq_ok_iff.mp hTy
    have hVoid := Ty.ne_void_of_isNumeric hNumeric
    have hOperand := (pushes_result_iff hVoid).mp (ExprLowers.pushes hSuits operand hCode he)
    have hZero : Pushes Γ [.i32Const 0] [.i32] := .instr rfl
    refine (pushes_result_iff hVoid).mpr ?_
    rw [hValType] at hOperand ⊢
    exact (hZero.append hOperand).apply ⟨[.i32, .i32], some .i32⟩ rfl
  | @negateFloat ty s fixity operand code hValType hCode =>
    obtain ⟨he, hTy⟩ := he
    obtain ⟨hNumeric, rfl⟩ := UnaryOp.type_negate_eq_ok_iff.mp hTy
    have hVoid := Ty.ne_void_of_isNumeric hNumeric
    have hOperand := (pushes_result_iff hVoid).mp (ExprLowers.pushes hSuits operand hCode he)
    refine (pushes_result_iff hVoid).mpr ?_
    rw [hValType] at hOperand ⊢
    exact hOperand.apply ⟨[.f32], some .f32⟩ rfl
  | @index ty s base offset b o hFloat hBase hOffset =>
    obtain ⟨heBase, heOffset, hTy, hIndex⟩ := he
    have hB := (pushes_result_iff (Ty.ne_void_of_element hTy)).mp
      (ExprLowers.pushes hSuits base hBase heBase)
    have hO := (pushes_result_iff (Ty.ne_void_of_isIntegral hIndex)).mp
      (ExprLowers.pushes hSuits offset hOffset heOffset)
    rw [Ty.valType_of_element hTy] at hB
    rw [Ty.valType_of_isIntegral hIndex] at hO
    refine (pushes_result_iff (hSuits.element heBase hTy)).mpr ?_
    have hValType : ty.valType = .i32 := Ty.valType_of_ne_float fun h => hFloat (h ▸ hTy)
    have hAddress := addressCode_pushes base.info hB hO
    rw [hValType]
    cases ty.isArray with
    | true => simpa using hAddress
    | false => exact hAddress.apply ⟨[.i32], some .i32⟩ rfl

theorem ArgsLower.pushes (hSuits : Suits Γ B sigs occurs) (es : List (Expr Ty)) {code : Code}
    (h : ArgsLower B es code) {tys : List Ty} (hTys : ∀ t ∈ tys, t ≠ .void)
    (hes : Expr.WellTypedArgs sigs occurs es tys) : Pushes Γ code (tys.map Ty.valType) := by
  cases h with
  | nil =>
    cases tys with
    | nil => exact .nil
    | cons ty tys => cases hes
  | @cons e es a b hE hEs =>
    cases tys with
    | nil => cases hes
    | cons ty tys =>
      obtain ⟨he, hTy, hes⟩ := hes
      have hVoid : e.info ≠ .void := fun h =>
        hTys ty List.mem_cons_self ((Ty.isAssignable_void_iff hTy).mpr h)
      have hA := (pushes_result_iff hVoid).mp (ExprLowers.pushes hSuits e hE he)
      rw [← Ty.valType_of_isAssignable hTy] at hA
      exact hA.append (ArgsLower.pushes hSuits es hEs
        (fun t ht => hTys t (List.mem_cons_of_mem _ ht)) hes)

end

theorem ExprLowers.pushes_as (hSuits : Suits Γ B sigs occurs) {e : Expr Ty} {code : Code}
    (h : ExprLowers B e code) {target : Ty} (he : e.WellTypedAs sigs occurs target)
    (hTarget : target ≠ .void) : Pushes Γ code [target.valType] := by
  obtain ⟨he, hTy⟩ := he
  have hVoid : e.info ≠ .void := fun h => hTarget ((Ty.isAssignable_void_iff hTy).mpr h)
  rw [Ty.valType_of_isAssignable hTy]
  exact (pushes_result_iff hVoid).mp (h.pushes hSuits e he)

theorem ExprLowers.pushes_condition (hSuits : Suits Γ B sigs occurs) {e : Expr Ty} {code : Code}
    (h : ExprLowers B e code) (he : e.WellTypedCondition sigs occurs) : Pushes Γ code [.i32] := by
  obtain ⟨he, hFloat, hVoid⟩ := he
  rw [← Ty.valType_of_ne_float hFloat]
  exact (pushes_result_iff hVoid).mp (h.pushes hSuits e he)

theorem CondLowers.pushes (hSuits : Suits Γ B sigs occurs) {e? : Option (Expr Ty)} {code : Code}
    (h : CondLowers B e? code) (he : ∀ e ∈ e?, e.WellTypedCondition sigs occurs) :
    Pushes Γ code [.i32] := by
  cases h with
  | none => exact .instr rfl
  | some h => exact h.pushes_condition hSuits (he _ rfl)

theorem EffectLowers.pushes (hSuits : Suits Γ B sigs occurs) {e : Expr Ty} {code : Code}
    (h : EffectLowers B e code) (he : e.WellTyped sigs occurs) : Pushes Γ code [] := by
  cases h with
  | step hOp hStep => exact hStep.pushes hSuits he.1
  | @plain _ code hE =>
    have hCode := hE.pushes hSuits e he
    rw [Ty.result?] at hCode
    split
    · rename_i hVoid
      rw [if_pos hVoid] at hCode
      simpa using hCode
    · rename_i hVoid
      rw [if_neg hVoid] at hCode
      exact hCode.drop

theorem blockIf_neutral {wrapped : Bool} {n : Nat} {code : Code}
    (h : Neutral Γ (if wrapped then n + 1 else n) code) :
    Neutral Γ n (Emit.blockIf wrapped code) := by
  cases wrapped with
  | false => exact h
  | true => exact .block h

theorem repeatLoop_neutral {wrapped : Bool} {labels : List Label} {b u c : Code}
    (hb : Neutral Γ (Emit.bodyLabels wrapped labels).length b)
    (hu : Neutral Γ (labels.length + 1) u) (hc : Pushes Γ c [.i32]) :
    Neutral Γ labels.length
      ([Instr.loop] ++ Emit.blockIf wrapped b ++ u ++ c ++ [Instr.brIf 0, .end_]) := by
  have hBody : Neutral Γ (labels.length + 1) (Emit.blockIf wrapped b) := by
    apply blockIf_neutral
    cases wrapped <;> exact hb
  have hAll := ((hBody.append hu).append (.brIf hc (Nat.succ_pos _))).loop
  simpa using hAll

theorem guarded_neutral {n : Nat} {c code : Code} (hc : Pushes Γ c [.i32])
    (h : Neutral Γ (n + 1) code) : Neutral Γ n (c ++ [Instr.if_] ++ code ++ [Instr.end_]) := by
  simpa using Neutral.if_ hc h

variable {ctx : FunctionContext}

mutual

theorem StmtLowers.neutral (hSuits : Suits Γ B ctx.signatures occurs)
    (hResult : Γ.result = ctx.returnTy.result?) (x : Stmt Ty) {labels : List Label} {code : Code}
    {arrays : List (String × Nat)} (h : StmtLowers B labels x code arrays)
    (hx : x.WellTyped ctx occurs) : Neutral Γ labels.length code := by
  cases h with
  | retNone =>
    have hVoid : Γ.result.toList = [] := by
      rw [Stmt.WellTyped] at hx
      rw [hResult, Ty.result?, if_pos hx]
      rfl
    exact .return_ (c := []) (by rw [hVoid]; exact .nil)
  | retSome hE =>
    obtain ⟨hVoid, he⟩ := hx
    apply Neutral.return_
    rw [hResult, pushes_result_iff hVoid]
    exact hE.pushes_as hSuits he hVoid
  | assign hPlace hE =>
    obtain ⟨ty, hTy, he⟩ := hx
    apply Neutral.of_pushes
    exact Place.write_pushes (hSuits.bindings.place hPlace hTy)
      (hE.pushes_as hSuits he (hSuits.nonvoid _ ty hTy))
  | @array _ s x ty n address hArray hDeclared =>
    have hSlot := hSuits.bindings.declared hDeclared
    rw [Ty.valType_of_isArray hArray] at hSlot
    apply Neutral.of_pushes
    exact (pushAddress_pushes address).apply ⟨[.i32], none⟩ (Context.type?_localSet hSlot)
  | scalar hArray hDeclared => exact .of_pushes .nil
  | @scalarInit _ s x ty n e code hArray hDeclared hE =>
    obtain ⟨hVoid, hInit⟩ := hx
    have hSlot := hSuits.bindings.declared hDeclared
    apply Neutral.of_pushes
    exact (hE.pushes_as hSuits (hInit e rfl) hVoid).apply ⟨[ty.valType], none⟩
      (Context.type?_localSet hSlot)
  | @store _ s base offset value b o v hFloat hBase hOffset hValue =>
    obtain ⟨heBase, heOffset, hIndex, ty, hTy, -, heValue⟩ := hx
    have hB := (pushes_result_iff (Ty.ne_void_of_element hTy)).mp
      (hBase.pushes hSuits base heBase)
    have hO := (pushes_result_iff (Ty.ne_void_of_isIntegral hIndex)).mp
      (hOffset.pushes hSuits offset heOffset)
    rw [Ty.valType_of_element hTy] at hB
    rw [Ty.valType_of_isIntegral hIndex] at hO
    have hV := hValue.pushes_as hSuits heValue (hSuits.element heBase hTy)
    rw [Ty.valType_of_ne_float fun h => hFloat (h ▸ hTy)] at hV
    apply Neutral.of_pushes
    exact ((addressCode_pushes base.info hB hO).append hV).apply ⟨[.i32, .i32], none⟩ rfl
  | @branch _ s cond thenBody elseBody c t e as bs hCond hThen hElse =>
    obtain ⟨heCond, hxThen, hxElse⟩ := hx
    have hC := hCond.pushes_condition hSuits heCond
    have hT := BodyLowers.neutral hSuits hResult thenBody hThen hxThen
    have hE := BodyLowers.neutral hSuits hResult elseBody hElse hxElse
    cases elseBody.isEmpty with
    | true => simpa using Neutral.if_ hC hT
    | false => simpa using Neutral.ifElse hC hT hE
  | @whileDo _ s cond body c b c' as hCond hBody hCond' =>
    obtain ⟨heCond, hxBody⟩ := hx
    have hLoop := repeatLoop_neutral (BodyLowers.neutral hSuits hResult body hBody hxBody)
      (.of_pushes .nil) (hCond'.pushes_condition hSuits heCond)
    exact guarded_neutral (hCond.pushes_condition hSuits heCond) hLoop
  | @doWhile _ s cond body b c as hBody hCond =>
    obtain ⟨heCond, hxBody⟩ := hx
    have hLoop := repeatLoop_neutral (BodyLowers.neutral hSuits hResult body hBody hxBody)
      (.of_pushes .nil) (hCond.pushes_condition hSuits heCond)
    rw [apply_ite List.length] at hLoop
    exact blockIf_neutral hLoop
  | @forLoop _ s init update cond body i c b u c' as bs cs hInit hCond hBody hUpdate hCond' =>
    obtain ⟨hxInit, heCond, hxUpdate, hxBody⟩ := hx
    have hLoop := repeatLoop_neutral (BodyLowers.neutral hSuits hResult body hBody hxBody)
      (OptionLowers.neutral hSuits hResult update hUpdate hxUpdate) (hCond'.pushes hSuits heCond)
    exact (OptionLowers.neutral hSuits hResult init hInit hxInit).append
      (guarded_neutral (hCond.pushes hSuits heCond) hLoop)
  | jump hDepth =>
    obtain ⟨hLt, -⟩ := List.findIdx?_eq_some_iff_getElem.mp hDepth
    exact .br hLt
  | expr hE => exact .of_pushes (hE.pushes hSuits hx)

theorem BodyLowers.neutral (hSuits : Suits Γ B ctx.signatures occurs)
    (hResult : Γ.result = ctx.returnTy.result?) (xs : List (Stmt Ty)) {labels : List Label}
    {code : Code} {arrays : List (String × Nat)} (h : BodyLowers B labels xs code arrays)
    (hxs : Stmt.WellTypedAll ctx occurs xs) : Neutral Γ labels.length code := by
  cases h with
  | nil => exact .of_pushes .nil
  | @cons _ x xs a b as bs hX hXs =>
    exact (StmtLowers.neutral hSuits hResult x hX hxs.1).append
      (BodyLowers.neutral hSuits hResult xs hXs hxs.2)

theorem OptionLowers.neutral (hSuits : Suits Γ B ctx.signatures occurs)
    (hResult : Γ.result = ctx.returnTy.result?) (x? : Option (Stmt Ty)) {labels : List Label}
    {code : Code} {arrays : List (String × Nat)} (h : OptionLowers B labels x? code arrays)
    (hx : Stmt.WellTypedOption ctx occurs x?) : Neutral Γ labels.length code := by
  cases h with
  | none => exact .of_pushes .nil
  | @some _ x code as hX => exact StmtLowers.neutral hSuits hResult x hX hx

end

end MiniC
