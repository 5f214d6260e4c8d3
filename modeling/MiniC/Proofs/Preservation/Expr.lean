import MiniC.Proofs.Preservation.Steps

/-! # The code of expressions computes their values -/
namespace MiniC
set_option autoImplicit false

open Wasm (Code Exec Instr Runtime ValType)

variable {F : Frame} {result : Option ValType} {T : Jump → Nat → Prop} {B : Bindings} {S : Setting}
  {R : Runtime} {sigs : Signatures} {occurs : Ident → Ty → Prop}

theorem scaleCode_balanced (n : Nat) : Wasm.Balanced (Emit.scaleCode n) := by
  rw [Emit.scaleCode]
  split
  · exact .nil
  · exact .append (a := [pushAddress n]) (.plain rfl) (.plain rfl)

theorem addressCode_balanced (base : Ty) {b o : Code} (hb : Wasm.Balanced b)
    (ho : Wasm.Balanced o) : Wasm.Balanced (addressCode base b o) :=
  ((hb.append ho).append (scaleCode_balanced _)).append (.plain rfl)

theorem Place.read_balanced (p : Place) : Wasm.Balanced p.read := by
  cases p with
  | slot n => exact .plain rfl
  | cell a t => exact .append (a := [pushAddress a]) (.plain rfl) (.plain rfl)

mutual

theorem ExprLowers.balanced (e : Expr Ty) {code : Code} (h : ExprLowers B e code) :
    Wasm.Balanced code := by
  cases h with
  | const ty s value => exact .plain (by cases value <;> rfl)
  | string hText => exact .plain rfl
  | @var ty s x p hPlace => exact p.read_balanced
  | @call ty s callee args code hArgs => exact (ArgsLower.balanced args hArgs).append (.plain rfl)
  | @binary ty s op lhs rhs a b opcode hLhs hRhs hOpcode =>
    exact ((ExprLowers.balanced lhs hLhs).append (ExprLowers.balanced rhs hRhs)).append (.plain rfl)
  | step hOp hStep => exact hStep.balanced
  | @not ty s fixity e code hTy hE => exact (ExprLowers.balanced e hE).append (.plain rfl)
  | @row ty t s fixity e code hElement hArray hE => exact ExprLowers.balanced e hE
  | @deref ty t s fixity e code hElement hArray hFloat hE =>
    exact (ExprLowers.balanced e hE).append (.plain rfl)
  | @negateInt ty s fixity e code hTy hE =>
    exact ((Wasm.Balanced.plain rfl).append (ExprLowers.balanced e hE)).append (.plain rfl)
  | @negateFloat ty s fixity e code hTy hE => exact (ExprLowers.balanced e hE).append (.plain rfl)
  | @index ty s base offset b o hFloat hBase hOffset =>
    have hAddress := addressCode_balanced base.info (ExprLowers.balanced base hBase)
      (ExprLowers.balanced offset hOffset)
    refine hAddress.append ?_
    split
    · exact .nil
    · exact .plain rfl

theorem ArgsLower.balanced (es : List (Expr Ty)) {code : Code} (h : ArgsLower B es code) :
    Wasm.Balanced code := by
  cases h with
  | nil => exact .nil
  | @cons e es a b hE hEs =>
    exact (ExprLowers.balanced e hE).append (ArgsLower.balanced es hEs)

end

/-- The code leaves the value of an expression of the given type. -/
def Leaves (pre : List Value) (ty : Ty) (r : Option Value) (_ : Unit) (vs : List Value) : Prop :=
  vs = r.toList ++ pre ∧ r.map Value.type = ty.result?

theorem Leaves.value {pre vs : List Value} {ty : Ty} {r : Option Value} {u : Unit}
    (h : Leaves pre ty r u vs) (hVoid : ty ≠ .void) :
    ∃ v : Value, r = some v ∧ v.type = ty.valType ∧ vs = v :: pre := by
  obtain ⟨rfl, hType⟩ := h
  rw [Ty.result?_of_ne_void hVoid] at hType
  cases r with
  | none => cases hType
  | some v => exact ⟨v, rfl, Option.some.inj hType, rfl⟩

theorem Leaves.int {pre vs : List Value} {ty : Ty} {r : Option Value} {u : Unit}
    (h : Leaves pre ty r u vs) (hVoid : ty ≠ .void) (hType : ty.valType = .i32) :
    ∃ a, r = some (.i32 a) ∧ vs = .i32 a :: pre := by
  obtain ⟨v, rfl, hv, rfl⟩ := h.value hVoid
  obtain ⟨a, rfl⟩ := Value.eq_i32_of_type (hv.trans hType)
  exact ⟨a, rfl, rfl⟩

theorem Leaves.of_value {pre : List Value} {ty : Ty} (v : Value) (hVoid : ty ≠ .void)
    (hv : v.type = ty.valType) (u : Unit) : Leaves pre ty (some v) u (v :: pre) :=
  ⟨rfl, by rw [Ty.result?_of_ne_void hVoid, ← hv]; rfl⟩

/-- The code that adds an offset to an address. -/
theorem offset_sim {pre : List Value} (base : Ty) (b o : Int32) :
    Sim F result T (.i32 o :: .i32 b :: pre) (pure ())
      (Wasm.Code.exec R (Emit.scaleCode (Emit.stride base) ++ [Instr.numeric .i32 .add]))
      fun _ _ vs => vs = .i32 (Eval.elementAddress base b o) :: pre := by
  have hStride : Emit.stride base = base.elementStep := rfl
  have hAdd (k : Int32) : Sim F result T (.i32 k :: .i32 b :: pre) (pure ())
      (Wasm.Code.exec R [.numeric .i32 .add]) fun _ _ vs => vs = .i32 (b + k) :: pre :=
    .const [.i32 b, .i32 k] rfl rfl
  rw [Wasm.Code.exec_append (scaleCode_balanced _) (.plain rfl), Emit.scaleCode, hStride,
    Eval.elementAddress]
  split
  · rename_i hOne
    rw [hOne, show wordOf 1 = 1 from rfl, Int32.mul_one, Wasm.Code.exec_nil, pure_bind]
    exact hAdd o
  · refine .silent ?_ (hAdd _)
    have hCode : [pushAddress base.elementStep, .numeric .i32 .mul] =
        [pushAddress base.elementStep] ++ [Instr.numeric .i32 .mul] := rfl
    rw [hCode, Wasm.Code.exec_append (.plain rfl) (.plain rfl)]
    exact .silent (.const [] rfl rfl) (.const [.i32 o, .i32 (wordOf base.elementStep)] rfl rfl)

theorem address_sim {pre : List Value} {γ δ : Type} {x y : Eval (Option Value)} {b o : Code}
    {baseTy offsetTy : Ty} (hbCode : Wasm.Balanced b) (hoCode : Wasm.Balanced o)
    (hb : ∀ pre, Sim F result T pre x (Wasm.Code.exec R b) (Leaves pre baseTy))
    (ho : ∀ pre, Sim F result T pre y (Wasm.Code.exec R o) (Leaves pre offsetTy))
    (hBase : baseTy.isIndexable = true) (hOffset : offsetTy.isIntegral = true)
    {f : Int32 → Eval γ} {g : Exec δ} {post : γ → δ → List Value → Prop}
    (hf : ∀ a, Sim F result T (.i32 a :: pre) (f a) g post) :
    Sim F result T pre
      (x >>= fun r => Eval.int r >>= fun i => y >>= fun r' => Eval.int r' >>= fun j =>
        f (Eval.elementAddress baseTy i j))
      (Wasm.Code.exec R (addressCode baseTy b o) >>= fun _ => g) post := by
  have hBaseVoid : baseTy ≠ .void := by
    rintro rfl
    cases hBase
  rw [addressCode, List.append_assoc, Wasm.Code.exec_append (hbCode.append hoCode)
    ((scaleCode_balanced _).append (.plain rfl)), Wasm.Code.exec_append hbCode hoCode, bind_assoc,
    bind_assoc]
  refine (hb pre).bind ?_
  intro r _ _ hLeaves
  obtain ⟨i, rfl, rfl⟩ := hLeaves.int hBaseVoid (Ty.valType_of_isIndexable hBase)
  simp only [Eval.int, pure_bind]
  refine (ho _).bind ?_
  intro r' _ _ hLeaves
  obtain ⟨j, rfl, rfl⟩ := hLeaves.int (Ty.ne_void_of_isIntegral hOffset)
    (Ty.valType_of_isIntegral hOffset)
  simp only [pure_bind]
  exact .silent (offset_sim baseTy i j) (hf _)

/-- What stands at an address is loaded; an array is its own address. -/
theorem element_sim {pre : List Value} {ty : Ty} (a : Int32) (hVoid : ty ≠ .void)
    (hValType : ty.valType = .i32) :
    Sim F result T (.i32 a :: pre) (Eval.element ty a)
      (Wasm.Code.exec R (if ty.isArray then [] else [Instr.load8S])) (Leaves pre ty) := by
  cases hArray : ty.isArray with
  | true =>
    simp only [Eval.element, hArray, if_true]
    exact .pure (.of_value (.i32 a) hVoid hValType.symm _)
  | false =>
    simp only [Eval.element, hArray]
    refine (Sim.act [.i32 a] some rfl rfl (World.loadByte_safe a)).map ?_
    rintro v _ _ ⟨rfl, hv⟩
    exact .of_value _ hVoid (hv.trans hValType.symm) _

/-- The instruction of an operator takes the values of both operands. -/
theorem operator_sim {pre : List Value} {op : BinaryOp} {lhs rhs ty : Ty} {opcode : Wasm.Opcode}
    (hFloat : S.float = R.float) (hTy : op.type lhs rhs = .ok ty)
    (hOpcode : op.opcode? lhs.valType = some opcode) {v u : Value} (hv : v.type = lhs.valType)
    (hu : u.type = lhs.valType) :
    Sim F result T (u :: v :: pre)
      (Eval.onWorld (op.eval S.float v u) >>= fun w => pure (some w))
      (Wasm.Code.exec R [.numeric lhs.valType opcode]) (Leaves pre ty) := by
  have hArity : (Instr.numeric lhs.valType opcode).arity? R = some [v, u].length :=
    Instr.arity?_numeric (BinaryOp.opcode_type hTy hOpcode)
  have hAct : (Instr.numeric lhs.valType opcode).act R [v, u] =
      some <$> op.eval S.float v u := by
    rw [Instr.act, hFloat, BinaryOp.eval_eq hOpcode hv hu]
  have hSafe := BinaryOp.eval_safe hTy hOpcode hv hu S.float
  refine (Sim.act [v, u] some hArity hAct hSafe).map ?_
  rintro w _ _ ⟨rfl, hw⟩
  exact .of_value _ (BinaryOp.result_ne_void hTy) hw _

theorem Value.negated_i32 (a : Int32) : Value.negated (.i32 a) = .i32 (0 - a) := by
  rw [Value.negated, Int32.ofInt_neg, Int32.ofInt_toInt, Int32.zero_sub]

mutual

/-- The code of an expression leaves its value. -/
theorem ExprLowers.sim (hF : Faithful F result B S R sigs occurs) (e : Expr Ty)
    {code : Code} {T : Jump → Nat → Prop} {pre : List Value} (h : ExprLowers B e code)
    (he : e.WellTyped sigs occurs) :
    Sim F result T pre (e.eval S) (Wasm.Code.exec R code) (Leaves pre e.info) := by
  cases h with
  | const ty s value =>
    obtain rfl : ty = value.ty := he
    cases value with
    | int a => exact .silent_pure (.const [] rfl rfl) ⟨rfl, rfl⟩
    | float x => exact .silent_pure (.const [] rfl rfl) ⟨rfl, rfl⟩
  | @string ty s text a hText =>
    cases he
    rw [Expr.eval, hF.text hText]
    exact .silent_pure (.const [] rfl rfl) ⟨rfl, rfl⟩
  | @var ty s x p hPlace =>
    rw [Expr.eval]
    refine (read_sim hF hPlace he).map ?_
    rintro v _ _ ⟨rfl, hv⟩
    exact .of_value _ (hF.suits.nonvoid x ty he) hv _
  | @call ty s callee args code hArgs =>
    obtain ⟨sig, hSig, rfl, he⟩ := he
    rw [Expr.eval, Wasm.Code.exec_append (ArgsLower.balanced args hArgs) (.plain rfl)]
    refine (ArgsLower.sim hF args hArgs (hF.suits.params _ sig hSig) he).bind ?_
    rintro vs _ _ ⟨rfl, hTypes⟩
    obtain ⟨hCall, hSafe⟩ := hF.call hSig hTypes
    have hLength : vs.length = sig.params.length := by simpa using congrArg List.length hTypes
    rw [hCall]
    refine Sim.act vs id ?_ (id_map _).symm hSafe
    rw [hLength, Instr.arity?_call (hF.suits.callee _ sig hSig), List.length_map]
  | @binary ty s op lhs rhs a b opcode hLhs hRhs hOpcode =>
    obtain ⟨heLhs, heRhs, hTy⟩ := he
    obtain ⟨hLhsVoid, hRhsVoid⟩ := BinaryOp.operands_ne_void hTy
    have hA := ExprLowers.balanced lhs hLhs
    have hB := ExprLowers.balanced rhs hRhs
    rw [Expr.eval, Wasm.Code.exec_append (hA.append hB) (.plain rfl), Wasm.Code.exec_append hA hB,
      bind_assoc]
    refine (ExprLowers.sim hF lhs hLhs heLhs).bind ?_
    intro r _ _ hLeaves
    obtain ⟨v, rfl, hv, rfl⟩ := hLeaves.value hLhsVoid
    simp only [Eval.value, pure_bind]
    refine (ExprLowers.sim hF rhs hRhs heRhs).bind ?_
    intro r _ _ hLeaves
    obtain ⟨u, rfl, hu, rfl⟩ := hLeaves.value hRhsVoid
    simp only [pure_bind]
    exact operator_sim hF.float hTy hOpcode hv (hu.trans (BinaryOp.valType_eq hTy))
  | @step ty t s s' op fixity x code hOp hStep =>
    obtain ⟨heVar, hTy⟩ := he
    obtain ⟨-, -, rfl⟩ := (UnaryOp.type_step_eq_ok_iff hOp).mp hTy
    have hEval : Expr.eval S (.unary ty s op fixity (.var ty s' x)) =
        Eval.step S op.stepOp fixity (.var ty s' x) := by
      rcases hOp with rfl | rfl <;> rw [Expr.eval] <;> rfl
    rw [hEval]
    refine (hStep.sim hF hOp heVar).imp ?_
    rintro r _ _ ⟨rfl, hType⟩
    exact ⟨rfl, hType.trans (Ty.result?_of_ne_void (hF.suits.nonvoid x _ heVar)).symm⟩
  | @not ty s fixity operand code hValType hCode =>
    obtain ⟨he, hTy⟩ := he
    obtain ⟨-, hVoid, rfl⟩ := UnaryOp.type_not_eq_ok_iff.mp hTy
    rw [Expr.eval, Eval.unary, Wasm.Code.exec_append (ExprLowers.balanced operand hCode)
      (.plain rfl)]
    refine (ExprLowers.sim hF operand hCode he).bind ?_
    intro r _ _ hLeaves
    obtain ⟨a, rfl, rfl⟩ := hLeaves.int hVoid hValType
    simp only [Eval.int, pure_bind]
    exact .silent_pure (.const [.i32 a] rfl rfl) ⟨rfl, rfl⟩
  | @row ty t s fixity operand code hElement hArray hCode =>
    obtain ⟨he, hTy⟩ := he
    obtain rfl := Option.some.inj (hElement.symm.trans (UnaryOp.type_deref_eq_ok_iff.mp hTy))
    rw [Expr.eval, Eval.unary, ← bind_pure (Wasm.Code.exec R code)]
    refine (ExprLowers.sim hF operand hCode he).bind ?_
    intro r _ _ hLeaves
    obtain ⟨a, rfl, rfl⟩ := hLeaves.int (Ty.ne_void_of_element hElement)
      (Ty.valType_of_element hElement)
    simp only [Eval.int, pure_bind]
    have hRow : Sim F result T (.i32 a :: pre) (Eval.element t a) (Wasm.Code.exec R _)
        (Leaves pre t) :=
      element_sim a (hF.suits.element he hElement) (Ty.valType_of_isArray hArray)
    rwa [hArray, if_pos rfl, Wasm.Code.exec_nil] at hRow
  | @deref ty t s fixity operand code hElement hArray hFloat hCode =>
    obtain ⟨he, hTy⟩ := he
    obtain rfl := Option.some.inj (hElement.symm.trans (UnaryOp.type_deref_eq_ok_iff.mp hTy))
    rw [Expr.eval, Eval.unary, Wasm.Code.exec_append (ExprLowers.balanced operand hCode)
      (.plain rfl)]
    refine (ExprLowers.sim hF operand hCode he).bind ?_
    intro r _ _ hLeaves
    obtain ⟨a, rfl, rfl⟩ := hLeaves.int (Ty.ne_void_of_element hElement)
      (Ty.valType_of_element hElement)
    simp only [Eval.int, pure_bind]
    have hLoad : Sim F result T (.i32 a :: pre) (Eval.element t a) (Wasm.Code.exec R _)
        (Leaves pre t) :=
      element_sim a (hF.suits.element he hElement) (Ty.valType_of_ne_float hFloat)
    rwa [hArray, if_neg Bool.false_ne_true] at hLoad
  | @negateInt ty s fixity operand code hValType hCode =>
    obtain ⟨he, hTy⟩ := he
    obtain ⟨hNumeric, rfl⟩ := UnaryOp.type_negate_eq_ok_iff.mp hTy
    have hVoid := Ty.ne_void_of_isNumeric hNumeric
    have hCodeBalanced := ExprLowers.balanced operand hCode
    rw [Expr.eval, Eval.unary, Wasm.Code.exec_append (.append (.plain rfl) hCodeBalanced)
      (.plain rfl), Wasm.Code.exec_append (.plain rfl) hCodeBalanced, bind_assoc]
    refine .silent (.const [] rfl rfl) ((ExprLowers.sim hF operand hCode he).bind ?_)
    intro r _ _ hLeaves
    obtain ⟨a, rfl, rfl⟩ := hLeaves.int hVoid hValType
    simp only [Eval.value, pure_bind]
    rw [Value.negated_i32]
    exact .silent_pure (.const [.i32 0, .i32 a] rfl rfl)
      (.of_value (.i32 (0 - a)) hVoid hValType.symm _)
  | @negateFloat ty s fixity operand code hValType hCode =>
    obtain ⟨he, hTy⟩ := he
    obtain ⟨hNumeric, rfl⟩ := UnaryOp.type_negate_eq_ok_iff.mp hTy
    have hVoid := Ty.ne_void_of_isNumeric hNumeric
    rw [Expr.eval, Eval.unary, Wasm.Code.exec_append (ExprLowers.balanced operand hCode)
      (.plain rfl)]
    refine (ExprLowers.sim hF operand hCode he).bind ?_
    intro r _ _ hLeaves
    obtain ⟨v, rfl, hv, rfl⟩ := hLeaves.value hVoid
    rw [hValType] at hv
    cases v with
    | i32 a => cases hv
    | f32 x =>
      simp only [Eval.value, pure_bind]
      exact .silent_pure (.const [.f32 x] rfl rfl)
        (.of_value (.f32 x.neg) hVoid hValType.symm _)
  | @index ty s base offset b o hFloat hBase hOffset =>
    obtain ⟨heBase, heOffset, hTy, hIndex⟩ := he
    have hBCode := ExprLowers.balanced base hBase
    have hOCode := ExprLowers.balanced offset hOffset
    have hVoid := hF.suits.element heBase hTy
    have hValType : ty.valType = .i32 := Ty.valType_of_ne_float fun h => hFloat (h ▸ hTy)
    rw [Expr.eval, Wasm.Code.exec_append (addressCode_balanced base.info hBCode hOCode) (by
      split
      · exact .nil
      · exact .plain rfl)]
    refine address_sim hBCode hOCode (fun _ => ExprLowers.sim hF base hBase heBase)
      (fun _ => ExprLowers.sim hF offset hOffset heOffset) (Ty.isIndexable_of_element hTy) hIndex
      fun a => element_sim a hVoid hValType

theorem ArgsLower.sim (hF : Faithful F result B S R sigs occurs) (es : List (Expr Ty))
    {code : Code} {T : Jump → Nat → Prop} {pre : List Value} (h : ArgsLower B es code)
    {tys : List Ty} (hTys : ∀ t ∈ tys, t ≠ .void) (hes : Expr.WellTypedArgs sigs occurs es tys) :
    Sim F result T pre (Expr.evalAll S es) (Wasm.Code.exec R code)
      fun args _ vs => vs = args.reverse ++ pre ∧ args.map Value.type = tys.map Ty.valType := by
  cases h with
  | nil =>
    cases tys with
    | nil => exact .pure ⟨rfl, rfl⟩
    | cons ty tys => cases hes
  | @cons e es a b hE hEs =>
    cases tys with
    | nil => cases hes
    | cons ty tys =>
      obtain ⟨he, hTy, hes⟩ := hes
      have hVoid : e.info ≠ .void := fun h =>
        hTys ty List.mem_cons_self ((Ty.isAssignable_void_iff hTy).mpr h)
      rw [Expr.evalAll, Wasm.Code.exec_append (ExprLowers.balanced e hE)
        (ArgsLower.balanced es hEs)]
      refine (ExprLowers.sim hF e hE he).bind ?_
      intro r _ _ hLeaves
      obtain ⟨v, rfl, hv, rfl⟩ := hLeaves.value hVoid
      simp only [Eval.value, pure_bind]
      refine (ArgsLower.sim hF es hEs (fun t ht => hTys t (List.mem_cons_of_mem _ ht)) hes).map ?_
      rintro args _ _ ⟨rfl, hTypes⟩
      refine ⟨by simp, ?_⟩
      rw [List.map_cons, List.map_cons, hTypes, hv, Ty.valType_of_isAssignable hTy]

end

end MiniC
