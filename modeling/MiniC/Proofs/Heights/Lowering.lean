import MiniC.Proofs.Bindings
import MiniC.Proofs.Heights.Machine
import MiniC.Proofs.Heights.Parts

/-! # The heights of lowered trees

An expression leaves one operand, but a call of a function without a result leaves none.  That is one
operand for each value, except that reading through a pointer to `void` leaves an operand, too, though
its type has no values.  A statement leaves the stack as it was unless it makes no use of such an
operand, or stores the missing value of a call through such a pointer.
-/
namespace MiniC
set_option autoImplicit false

open Wasm (Code Instr ValType FuncType)
open Wasm.Heights (Context Nets)

def Signature.type (sig : Signature) : FuncType := ⟨sig.params.map Ty.valType, sig.result.result?⟩

def FunctionContext.heights (ctx : FunctionContext) : Context :=
  ⟨ctx.returnTy.result?, fun name => (List.lookup name ctx.signatures).map Signature.type⟩

namespace Expr

/-- The number of operands that the code of the expression leaves. -/
def leaves : Expr Ty → Nat
  | call ty .. => ty.result?.toList.length
  | _ => 1

/-- Whether the expression reads through a pointer to `void`. -/
def readsVoid : Expr Ty → Bool
  | unary ty _ .deref _ _ | index ty _ _ _ => ty = .void
  | _ => false

theorem leaves_of_ne_void {e : Expr Ty} (h : e.info ≠ .void) : e.leaves = 1 := by
  cases e with
  | call ty s callee args =>
    have hTy : ty ≠ .void := h
    rw [leaves, Ty.result?_of_ne_void hTy]
    rfl
  | _ => rfl

theorem leaves_eq (e : Expr Ty) : e.leaves = 0 ∨ e.leaves = 1 := by
  cases e with
  | call ty s callee args =>
    rw [leaves]
    cases ty.result? with
    | none => exact .inl rfl
    | some t => exact .inr rfl
  | _ => exact .inr rfl

theorem info_of_readsVoid {e : Expr Ty} (h : e.readsVoid = true) : e.info = .void := by
  cases e with
  | unary ty s op fixity operand =>
    cases op with
    | deref => exact of_decide_eq_true h
    | _ => cases h
  | index ty s base offset => exact of_decide_eq_true h
  | _ => cases h

end Expr

namespace Stmt

/-- Whether the statement itself does not leave the stack as it was. -/
def upsets : Stmt Ty → Bool
  | expr _ value => value.readsVoid
  | store _ _ _ value => value.leaves = 0
  | _ => false

end Stmt

theorem BinaryOp.opcode_effect {op : BinaryOp} {t : ValType} {opcode : Wasm.Opcode}
    (h : op.opcode? t = some opcode) : (opcode.type? t).map FuncType.effect = some (2, 1) := by
  cases t <;> cases op <;> cases h <;> rfl

section

variable {Γ : Context}

theorem pushAddress_nets (address : Nat) : Nets Γ [pushAddress address] 1 := .instr rfl

theorem Place.read_nets (p : Place) : Nets Γ p.read 1 := by
  cases p with
  | slot n => exact .instr rfl
  | cell address t => exact (pushAddress_nets address).apply rfl

theorem Place.write_nets (p : Place) {code : Code} (h : Nets Γ code 1) : Nets Γ (p.write code) 0 := by
  cases p with
  | slot n => exact h.apply rfl
  | cell address t => exact ((pushAddress_nets address).append h).apply rfl

theorem stepCode_nets (op : UnaryOp) (t : ValType) {a : Code} {n : Nat} (ha : Nets Γ a (n + 1)) :
    Nets Γ (a ++ Emit.stepCode op t) (n + 1) := by
  have hOne : Nets Γ [pushOne t] 1 := .instr (by cases t <;> rfl)
  have hType : Γ.effect? (.numeric t (if op = .increment then .add else .sub)) = some (2, 1) := by
    cases t <;> cases op <;> rfl
  simpa [Emit.stepCode] using (ha.append hOne).applyAbove n hType

theorem stepSlot_nets (n : Nat) (op : UnaryOp) (t : ValType) (fixity : Fixity) (used : Bool) :
    Nets Γ (Emit.stepSlot n (Emit.stepCode op t) fixity used) (if used then 1 else 0) := by
  have hGet : Nets Γ [.localGet n] 1 := .instr rfl
  have hOnce : Nets Γ ([Instr.localGet n] ++ Emit.stepCode op t) 1 := stepCode_nets op t (n := 0) hGet
  cases used with
  | false => simpa [Emit.stepSlot] using hOnce.apply (i := .localSet n) rfl
  | true =>
    cases fixity with
    | before => simpa [Emit.stepSlot] using hOnce.apply (i := .localTee n) rfl
    | after =>
      have hTwice := stepCode_nets op t (n := 1) (hGet.append hGet)
      simpa [Emit.stepSlot] using hTwice.applyAbove 1 (i := .localSet n) rfl

theorem stepCellCode_nets (address : Nat) (op : UnaryOp) (t t' : ValType) (fixity : Fixity)
    (spare : Option Nat) :
    Nets Γ (stepCellCode address t (Emit.stepCode op t') fixity spare)
      (if spare.isSome then 1 else 0) := by
  have hAddress : Nets Γ [pushAddress address] 1 := pushAddress_nets address
  have hLoad : Nets Γ [pushAddress address, pushAddress address, .load t] 2 :=
    (hAddress.append hAddress).applyAbove 1 (i := .load t) rfl
  have hStep := stepCode_nets op t' (n := 1) hLoad
  cases spare with
  | none => exact hStep.apply rfl
  | some n =>
    have hGet : Nets Γ [.localGet n] 1 := .instr rfl
    cases fixity with
    | before =>
      have hKept := hStep.applyAbove 1 (i := .localTee n) rfl
      have hStore := hKept.apply (i := .store t) rfl
      simpa [stepCellCode] using hStore.append hGet
    | after =>
      have hOld := hLoad.applyAbove 1 (i := .localTee n) rfl
      have hStore := (stepCode_nets op t' (n := 1) hOld).apply (i := .store t) rfl
      simpa [stepCellCode] using hStore.append hGet

theorem StepLowers.nets {B : Bindings} {op : UnaryOp} {fixity : Fixity} {ty : Ty} {x : Ident}
    {used : Bool} {code : Code} (h : StepLowers B op fixity ty x used code) :
    Nets Γ code (if used then 1 else 0) := by
  cases h with
  | slot hPlace => exact stepSlot_nets _ op _ fixity used
  | cell hPlace => exact stepCellCode_nets _ op _ _ fixity none
  | usedCell hPlace hSpare => exact stepCellCode_nets _ op _ _ fixity (some _)

theorem addressCode_nets (base : Ty) {b o : Code} (hb : Nets Γ b 1) (ho : Nets Γ o 1) :
    Nets Γ (addressCode base b o) 1 := by
  have hScaled : Nets Γ (b ++ o ++ Emit.scaleCode (Emit.stride base)) 2 := by
    rw [Emit.scaleCode]
    split
    · simpa using hb.append ho
    · have hAll := (hb.append ho).append (pushAddress_nets (Emit.stride base))
      simpa using hAll.applyAbove 1 (i := .numeric .i32 .mul) rfl
  exact hScaled.apply rfl

end

/-- What the check says about the names and the functions that a tree may use. -/
structure Nonvoid (sigs : Signatures) (occurs : Ident → Ty → Prop) : Prop where
  names : ∀ x ty, occurs x ty → ty ≠ .void
  params : ∀ name sig, List.lookup name sigs = some sig → ∀ t ∈ sig.params, t ≠ .void

variable {B : Bindings} {ctx : FunctionContext} {occurs : Ident → Ty → Prop}

/-- A value is missing only where a function has no result, and where something is read through a
pointer to `void`. -/
theorem Expr.leaves_eq_iff (hVoid : Nonvoid ctx.signatures occurs) {e : Expr Ty}
    (he : e.WellTyped ctx.signatures occurs) :
    e.leaves = (if e.info = .void then 0 else 1) ↔ e.readsVoid = false := by
  by_cases hTy : e.info = .void
  · rw [if_pos hTy]
    cases e with
    | const ty s value =>
      rw [WellTyped] at he
      cases value <;> cases he.symm.trans hTy
    | string ty s text => cases he.symm.trans hTy
    | var ty s x => exact absurd hTy (hVoid.names x ty he)
    | call ty s callee args =>
      -- the only expression whose code leaves nothing
      obtain rfl : ty = .void := hTy
      exact ⟨fun _ => rfl, fun _ => rfl⟩
    | binary ty s op lhs rhs =>
      obtain rfl : ty = .void := hTy
      rcases BinaryOp.result_eq he.2.2 with hInt | hLhs
      · cases hInt
      · exact absurd hLhs.symm (BinaryOp.operands_ne_void he.2.2).1
    | unary ty s op fixity operand =>
      obtain rfl : ty = .void := hTy
      cases op with
      | increment =>
        obtain ⟨-, hNumeric, hSame⟩ := (UnaryOp.type_step_eq_ok_iff (.inl rfl)).mp he.2
        exact absurd hSame.symm (Ty.ne_void_of_isNumeric hNumeric)
      | decrement =>
        obtain ⟨-, hNumeric, hSame⟩ := (UnaryOp.type_step_eq_ok_iff (.inr rfl)).mp he.2
        exact absurd hSame.symm (Ty.ne_void_of_isNumeric hNumeric)
      | not => cases (UnaryOp.type_not_eq_ok_iff.mp he.2).2.2
      | deref => simp [leaves, readsVoid]
      | negate =>
        obtain ⟨hNumeric, hSame⟩ := UnaryOp.type_negate_eq_ok_iff.mp he.2
        exact absurd hSame.symm (Ty.ne_void_of_isNumeric hNumeric)
    | index ty s base offset =>
      obtain rfl : ty = .void := hTy
      simp [leaves, readsVoid]
  · rw [if_neg hTy, leaves_of_ne_void hTy]
    have hReads : e.readsVoid ≠ true := fun h => hTy (info_of_readsVoid h)
    simp [hReads]

theorem Wasm.Heights.Nets.of_ne_void {Γ : Context} {e : Expr Ty} {code : Code}
    (h : Nets Γ code e.leaves) (hTy : e.info ≠ .void) : Nets Γ code 1 :=
  Expr.leaves_of_ne_void hTy ▸ h

mutual

theorem ExprLowers.nets (hVoid : Nonvoid ctx.signatures occurs) (e : Expr Ty) {code : Code}
    (h : ExprLowers B e code) (he : e.WellTyped ctx.signatures occurs) :
    Nets ctx.heights code e.leaves := by
  cases h with
  | const ty s value => cases value <;> exact .instr rfl
  | string hText => exact pushAddress_nets _
  | @var ty s x p hPlace => exact p.read_nets
  | @call ty s callee args code hArgs =>
    obtain ⟨sig, hSig, rfl, he⟩ := he
    have hCode := ArgsLower.nets hVoid args hArgs (hVoid.params _ sig hSig) he
    refine hCode.apply ?_
    simp [Context.effect?, FunctionContext.heights, hSig, Signature.type, FuncType.effect,
      Expr.leaves]
  | @binary ty s op lhs rhs a b opcode hLhs hRhs hOpcode =>
    obtain ⟨heLhs, heRhs, hTy⟩ := he
    obtain ⟨hLhsVoid, hRhsVoid⟩ := BinaryOp.operands_ne_void hTy
    have hA := (hLhs.nets hVoid lhs heLhs).of_ne_void hLhsVoid
    have hB := (hRhs.nets hVoid rhs heRhs).of_ne_void hRhsVoid
    exact (hA.append hB).apply (BinaryOp.opcode_effect hOpcode)
  | @step ty t s s' op fixity x code hOp hStep => exact hStep.nets
  | @not ty s fixity operand code hValType hCode =>
    obtain ⟨he, hTy⟩ := he
    obtain ⟨-, hNe, -⟩ := UnaryOp.type_not_eq_ok_iff.mp hTy
    exact ((hCode.nets hVoid operand he).of_ne_void hNe).apply rfl
  | @row ty t s fixity operand code hElement hArray hCode =>
    exact (hCode.nets hVoid operand he.1).of_ne_void (Ty.ne_void_of_element hElement)
  | @deref ty t s fixity operand code hElement hArray hFloat hCode =>
    exact ((hCode.nets hVoid operand he.1).of_ne_void (Ty.ne_void_of_element hElement)).apply rfl
  | @negateInt ty s fixity operand code hValType hCode =>
    obtain ⟨he, hTy⟩ := he
    obtain ⟨hNumeric, -⟩ := UnaryOp.type_negate_eq_ok_iff.mp hTy
    have hOperand := (hCode.nets hVoid operand he).of_ne_void (Ty.ne_void_of_isNumeric hNumeric)
    have hZero : Nets ctx.heights [.i32Const 0] 1 := .instr rfl
    exact (hZero.append hOperand).apply rfl
  | @negateFloat ty s fixity operand code hValType hCode =>
    obtain ⟨he, hTy⟩ := he
    obtain ⟨hNumeric, -⟩ := UnaryOp.type_negate_eq_ok_iff.mp hTy
    exact ((hCode.nets hVoid operand he).of_ne_void (Ty.ne_void_of_isNumeric hNumeric)).apply rfl
  | @index ty s base offset b o hFloat hBase hOffset =>
    obtain ⟨heBase, heOffset, hTy, hIndex⟩ := he
    have hB := (hBase.nets hVoid base heBase).of_ne_void (Ty.ne_void_of_element hTy)
    have hO := (hOffset.nets hVoid offset heOffset).of_ne_void (Ty.ne_void_of_isIntegral hIndex)
    have hAddress := addressCode_nets base.info hB hO
    change Nets ctx.heights _ 1
    cases ty.isArray with
    | true => simpa using hAddress
    | false => exact hAddress.apply rfl

theorem ArgsLower.nets (hVoid : Nonvoid ctx.signatures occurs) (es : List (Expr Ty)) {code : Code}
    (h : ArgsLower B es code) {tys : List Ty} (hTys : ∀ t ∈ tys, t ≠ .void)
    (hes : Expr.WellTypedArgs ctx.signatures occurs es tys) :
    Nets ctx.heights code tys.length := by
  cases h with
  | nil =>
    cases tys with
    | nil => exact .nil
    | cons ty tys => cases hes
  | @cons e es a b hE hEs =>
    cases tys with
    | nil => cases hes
    | cons ty tys =>
      obtain ⟨he, hTy, hes⟩ := hes
      have hNe : e.info ≠ .void := fun h =>
        hTys ty List.mem_cons_self ((Ty.isAssignable_void_iff hTy).mpr h)
      have hRest := ArgsLower.nets hVoid es hEs (fun t ht => hTys t (List.mem_cons_of_mem _ ht)) hes
      rw [List.length_cons, Nat.add_comm]
      exact ((hE.nets hVoid e he).of_ne_void hNe).append hRest

end

theorem ExprLowers.nets_as (hVoid : Nonvoid ctx.signatures occurs) {e : Expr Ty} {code : Code}
    (h : ExprLowers B e code) {target : Ty} (he : e.WellTypedAs ctx.signatures occurs target)
    (hTarget : target ≠ .void) : Nets ctx.heights code 1 :=
  (h.nets hVoid e he.1).of_ne_void fun hTy => hTarget ((Ty.isAssignable_void_iff he.2).mpr hTy)

theorem ExprLowers.nets_condition (hVoid : Nonvoid ctx.signatures occurs) {e : Expr Ty} {code : Code}
    (h : ExprLowers B e code) (he : e.WellTypedCondition ctx.signatures occurs) :
    Nets ctx.heights code 1 :=
  (h.nets hVoid e he.1).of_ne_void he.2.2

theorem CondLowers.nets (hVoid : Nonvoid ctx.signatures occurs) {e? : Option (Expr Ty)} {code : Code}
    (h : CondLowers B e? code) (he : ∀ e ∈ e?, e.WellTypedCondition ctx.signatures occurs) :
    Nets ctx.heights code 1 := by
  cases h with
  | none => exact .instr rfl
  | some h => exact h.nets_condition hVoid (he _ rfl)

/-- The code of an expression for its effect leaves nothing exactly if nothing is read through a
pointer to `void`. -/
theorem EffectLowers.nets_iff (hVoid : Nonvoid ctx.signatures occurs) {e : Expr Ty} {code : Code}
    (h : EffectLowers B e code) (he : e.WellTyped ctx.signatures occurs) :
    Nets ctx.heights code 0 ↔ e.readsVoid = false := by
  cases h with
  | step hOp hStep =>
    refine ⟨fun _ => ?_, fun _ => hStep.nets⟩
    rcases hOp with rfl | rfl <;> rfl
  | @plain _ code hE =>
    have hCode := hE.nets hVoid e he
    rw [← Expr.leaves_eq_iff hVoid he]
    split
    · rw [List.append_nil]
      exact ⟨fun h => hCode.unique h, fun h => h ▸ hCode⟩
    · rename_i hTy
      rw [Expr.leaves_of_ne_void hTy] at hCode ⊢
      exact ⟨fun _ => rfl, fun _ => hCode.apply rfl⟩

theorem storeCode_nets_iff (hVoid : Nonvoid ctx.signatures occurs) {base offset value : Expr Ty}
    {b o v : Code} {s : Span} (hBase : ExprLowers B base b) (hOffset : ExprLowers B offset o)
    (hValue : ExprLowers B value v) (hx : (Stmt.store s base offset value).WellTyped ctx occurs) :
    Nets ctx.heights (addressCode base.info b o ++ v ++ [Instr.store8]) 0 ↔ value.leaves ≠ 0 := by
  obtain ⟨heBase, heOffset, hIndex, ty, hTy, -, heValue⟩ := hx
  have hB := (hBase.nets hVoid base heBase).of_ne_void (Ty.ne_void_of_element hTy)
  have hO := (hOffset.nets hVoid offset heOffset).of_ne_void (Ty.ne_void_of_isIntegral hIndex)
  have hCode := (addressCode_nets base.info hB hO).append (hValue.nets hVoid value heValue.1)
  constructor
  · intro h hNone
    rw [hNone] at hCode
    exact hCode.not_of_lt rfl (Nat.lt_succ_self 1) h
  · intro hSome
    rw [value.leaves_eq.resolve_left hSome] at hCode
    exact hCode.apply rfl

theorem blockIf_nets {wrapped : Bool} {Γ : Context} {code : Code} (h : Nets Γ code 0) :
    Nets Γ (Emit.blockIf wrapped code) 0 := by
  cases wrapped with
  | false => exact h
  | true => exact .block h

theorem repeatLoop_nets {wrapped : Bool} {Γ : Context} {b u c : Code} (hb : Nets Γ b 0)
    (hu : Nets Γ u 0) (hc : Nets Γ c 1) :
    Nets Γ ([Instr.loop] ++ Emit.blockIf wrapped b ++ u ++ c ++ [Instr.brIf 0, .end_]) 0 := by
  have hBody : Nets Γ (Emit.blockIf wrapped b ++ u ++ c ++ [Instr.brIf 0]) 0 :=
    (((blockIf_nets hb).append hu).append hc).apply rfl
  simpa using hBody.loop

theorem guarded_nets {Γ : Context} {c code : Code} (hc : Nets Γ c 1) (h : Nets Γ code 0) :
    Nets Γ (c ++ [Instr.if_] ++ code ++ [Instr.end_]) 0 := by
  simpa using Nets.if_ hc h

mutual

theorem StmtLowers.nets (hVoid : Nonvoid ctx.signatures occurs) (x : Stmt Ty) {labels : List Label}
    {code : Code} {arrays : List (String × Nat)} (h : StmtLowers B labels x code arrays)
    (hx : x.WellTyped ctx occurs) (hParts : ∀ y ∈ x.parts, y.upsets = false) :
    Nets ctx.heights code 0 := by
  have hOwn := hParts x x.mem_parts
  cases h with
  | retNone =>
    have hTy : ctx.returnTy = .void := hx
    refine .instr ?_
    simp [Context.effect?, FunctionContext.heights, hTy, Ty.result?]
  | retSome hE =>
    obtain ⟨hTy, he⟩ := hx
    refine (hE.nets_as hVoid he hTy).apply ?_
    simp [Context.effect?, FunctionContext.heights, Ty.result?_of_ne_void hTy]
  | @assign _ s x e code p hPlace hE =>
    obtain ⟨ty, hTy, he⟩ := hx
    exact p.write_nets (hE.nets_as hVoid he (hVoid.names _ ty hTy))
  | array hArray hDeclared => exact (pushAddress_nets _).apply rfl
  | scalar hArray hDeclared => exact .nil
  | @scalarInit _ s x ty n e code hArray hDeclared hE =>
    exact (hE.nets_as hVoid (hx.2 e rfl) hx.1).apply rfl
  | store hFloat hBase hOffset hValue =>
    exact (storeCode_nets_iff hVoid hBase hOffset hValue hx).mpr (of_decide_eq_false hOwn)
  | @branch _ s cond thenBody elseBody c t e as bs hCond hThen hElse =>
    obtain ⟨heCond, hxThen, hxElse⟩ := hx
    simp only [Stmt.parts, List.forall_mem_cons, List.forall_mem_append] at hParts
    have hC := hCond.nets_condition hVoid heCond
    have hT := BodyLowers.nets hVoid thenBody hThen hxThen hParts.2.1
    have hE := BodyLowers.nets hVoid elseBody hElse hxElse hParts.2.2
    cases elseBody.isEmpty with
    | true => simpa using Nets.if_ hC hT
    | false => simpa using Nets.ifElse hC hT hE
  | @whileDo _ s cond body c b c' as hCond hBody hCond' =>
    obtain ⟨heCond, hxBody⟩ := hx
    have hB := BodyLowers.nets hVoid body hBody hxBody (List.forall_mem_cons.mp hParts).2
    exact guarded_nets (hCond.nets_condition hVoid heCond)
      (repeatLoop_nets hB .nil (hCond'.nets_condition hVoid heCond))
  | @doWhile _ s cond body b c as hBody hCond =>
    obtain ⟨heCond, hxBody⟩ := hx
    have hB := BodyLowers.nets hVoid body hBody hxBody (List.forall_mem_cons.mp hParts).2
    exact blockIf_nets (repeatLoop_nets hB .nil (hCond.nets_condition hVoid heCond))
  | @forLoop _ s init update cond body i c b u c' as bs cs hInit hCond hBody hUpdate hCond' =>
    obtain ⟨hxInit, heCond, hxUpdate, hxBody⟩ := hx
    simp only [Stmt.parts, List.forall_mem_cons, List.forall_mem_append] at hParts
    obtain ⟨-, ⟨hPartsInit, hPartsUpdate⟩, hPartsBody⟩ := hParts
    have hI := OptionLowers.nets hVoid init hInit hxInit hPartsInit
    have hB := BodyLowers.nets hVoid body hBody hxBody hPartsBody
    have hU := OptionLowers.nets hVoid update hUpdate hxUpdate hPartsUpdate
    exact hI.append (guarded_nets (hCond.nets hVoid heCond)
      (repeatLoop_nets hB hU (hCond'.nets hVoid heCond)))
  | jump hDepth => exact .instr rfl
  | expr hE => exact (hE.nets_iff hVoid hx).mpr hOwn

theorem BodyLowers.nets (hVoid : Nonvoid ctx.signatures occurs) (xs : List (Stmt Ty))
    {labels : List Label} {code : Code} {arrays : List (String × Nat)}
    (h : BodyLowers B labels xs code arrays) (hxs : Stmt.WellTypedAll ctx occurs xs)
    (hParts : ∀ y ∈ Stmt.partsAll xs, y.upsets = false) : Nets ctx.heights code 0 := by
  cases h with
  | nil => exact .nil
  | @cons _ x xs a b as bs hX hXs =>
    obtain ⟨hPartsX, hPartsXs⟩ := List.forall_mem_append.mp hParts
    exact (StmtLowers.nets hVoid x hX hxs.1 hPartsX).append
      (BodyLowers.nets hVoid xs hXs hxs.2 hPartsXs)

theorem OptionLowers.nets (hVoid : Nonvoid ctx.signatures occurs) (x? : Option (Stmt Ty))
    {labels : List Label} {code : Code} {arrays : List (String × Nat)}
    (h : OptionLowers B labels x? code arrays) (hx : Stmt.WellTypedOption ctx occurs x?)
    (hParts : ∀ y ∈ Stmt.partsOption x?, y.upsets = false) : Nets ctx.heights code 0 := by
  cases h with
  | none => exact .nil
  | @some _ x code as hX => exact StmtLowers.nets hVoid x hX hx hParts

end

theorem StmtLowers.not_nets (hVoid : Nonvoid ctx.signatures occurs) {x : Stmt Ty}
    {labels : List Label} {code : Code} {arrays : List (String × Nat)}
    (h : StmtLowers B labels x code arrays) (hx : x.WellTyped ctx occurs) (hOwn : x.upsets = true) :
    ¬ Nets ctx.heights code 0 := by
  cases h with
  | store hFloat hBase hOffset hValue =>
    rw [storeCode_nets_iff hVoid hBase hOffset hValue hx]
    exact fun hSome => hSome (of_decide_eq_true hOwn)
  | expr hE =>
    rw [hE.nets_iff hVoid hx, show Expr.readsVoid _ = true from hOwn]
    exact Bool.noConfusion
  | _ => cases hOwn

end MiniC
