import MiniC.Proofs.Heads
import MiniC.Proofs.Preservation.Control

/-! # The code of statements does what they do -/
namespace MiniC
set_option autoImplicit false

open Wasm (Code Exec Instr Runtime ValType)

variable {F : Frame} {result : Option ValType} {T : Jump → Nat → Prop} {B : Bindings} {S : Setting}
  {R : Runtime} {sigs : Signatures} {occurs : Ident → Ty → Prop} {pre : List Value}

section

variable (hF : Faithful F result B S R sigs occurs)

include hF

theorem ExprLowers.sim_as {e : Expr Ty} {code : Code} (h : ExprLowers B e code) {target : Ty}
    (he : e.WellTypedAs sigs occurs target) (hTarget : target ≠ .void) {γ δ : Type}
    {f : Value → Eval γ} {g : Exec δ} {post : γ → δ → List Value → Prop}
    (hf : ∀ v : Value, v.type = target.valType → Sim F result T (v :: pre) (f v) g post) :
    Sim F result T pre (e.eval S >>= fun r => Eval.value r >>= f)
      (Wasm.Code.exec R code >>= fun _ => g) post := by
  obtain ⟨he, hTy⟩ := he
  refine (h.sim hF e he).bind ?_
  intro r _ _ hLeaves
  obtain ⟨v, rfl, hv, rfl⟩ := hLeaves.value fun h => hTarget ((Ty.isAssignable_void_iff hTy).mpr h)
  simp only [Eval.value, pure_bind]
  exact hf v (hv.trans (Ty.valType_of_isAssignable hTy).symm)

theorem ExprLowers.sim_test {e : Expr Ty} {code : Code} (h : ExprLowers B e code)
    (he : e.WellTypedCondition sigs occurs) :
    Sim F result T pre (e.evalTest S) (Wasm.Code.exec R code) (Tests pre) := by
  obtain ⟨he, hFloat, hVoid⟩ := he
  rw [Expr.evalTest, ← bind_pure (Wasm.Code.exec R code)]
  refine (h.sim hF e he).bind ?_
  intro r _ _ hLeaves
  obtain ⟨k, rfl, rfl⟩ := hLeaves.int hVoid (Ty.valType_of_ne_float hFloat)
  exact .pure ⟨k, rfl, rfl⟩

theorem CondLowers.sim {e? : Option (Expr Ty)} {code : Code} (h : CondLowers B e? code)
    (he : ∀ e ∈ e?, e.WellTypedCondition sigs occurs) :
    Sim F result T pre (Expr.evalOptionTest S e?) (Wasm.Code.exec R code) (Tests pre) := by
  cases h with
  | none => exact .silent_pure (.const [] rfl rfl) ⟨1, rfl, rfl⟩
  | some h => exact h.sim_test hF (he _ rfl)

theorem EffectLowers.sim {e : Expr Ty} {code : Code} (h : EffectLowers B e code)
    (he : e.WellTyped sigs occurs) :
    Sim F result T pre (discard (e.eval S)) (Wasm.Code.exec R code) fun _ _ vs => vs = pre := by
  rw [discard_eq]
  cases h with
  | @step ty t s s' op fixity x code hOp hStep =>
    have hEval : Expr.eval S (.unary ty s op fixity (.var t s' x)) =
        Eval.step S op.stepOp fixity (.var t s' x) := by
      rcases hOp with rfl | rfl <;> rw [Expr.eval] <;> rfl
    rw [hEval]
    exact (hStep.sim hF hOp he.1).map fun _ _ _ hStack => hStack.1
  | @plain _ code hE =>
    have hDrop (v : Value) : Sim F result T (v :: pre) (pure ()) (Wasm.Code.exec R [.drop])
        fun _ _ vs => vs = pre := by
      intro s σ stack hRelated hStack
      rw [Wasm.Code.exec_pure [v] (r := none) rfl rfl hStack]
      exact .ok ⟨hRelated.world, hRelated.vars, hRelated.typed⟩ rfl rfl
    by_cases hVoid : e.info = .void
    · rw [if_pos hVoid, List.append_nil]
      refine (hE.sim hF e he).map ?_
      rintro r _ _ ⟨rfl, hType⟩
      rw [hVoid] at hType
      rw [Option.map_eq_none_iff.mp hType]
      rfl
    · rw [if_neg hVoid, Wasm.Code.exec_append hE.balanced (.plain rfl)]
      refine (hE.sim hF e he).bind ?_
      intro r _ _ hLeaves
      obtain ⟨v, rfl, -, rfl⟩ := hLeaves.value hVoid
      exact hDrop v

theorem write_sim {x : Ident} {p : Place} {ty : Ty} {e : Expr Ty} {code : Code}
    (hPlace : B.place x.name p) (hTy : occurs x ty) (h : ExprLowers B e code)
    (he : e.WellTypedAs sigs occurs ty) :
    Sim F result T pre (e.eval S >>= fun r => Eval.value r >>= fun v => Eval.assign S x.name v)
      (Wasm.Code.exec R (p.write code)) fun _ _ vs => vs = pre := by
  have hVoid := hF.suits.nonvoid x ty hTy
  have hType := hF.suits.bindings.place hPlace hTy
  have hCode := h.balanced
  cases p with
  | slot n =>
    rw [Place.write, Wasm.Code.exec_append hCode (.plain rfl)]
    exact h.sim_as hF he hVoid fun v hv => assign_slot_sim hF (hF.slot hPlace) (hv ▸ hType)
  | cell a t =>
    obtain rfl : t = ty.valType := hType
    rw [Place.write, Wasm.Code.exec_append (.append (.plain rfl) hCode) (.plain rfl),
      Wasm.Code.exec_append (.plain rfl) hCode, bind_assoc]
    refine .silent (.const [] rfl rfl) (h.sim_as hF he hVoid fun v hv => ?_)
    rw [← hv] at hPlace ⊢
    exact assign_cell_sim hF hPlace

theorem store_sim {base offset value : Expr Ty} {b o c : Code} {ty : Ty}
    (hFloat : base.info.element? ≠ some .float) (hBase : ExprLowers B base b)
    (hOffset : ExprLowers B offset o) (hValue : ExprLowers B value c)
    (heBase : base.WellTyped sigs occurs) (heOffset : offset.WellTyped sigs occurs)
    (hIndex : offset.info.isIntegral = true) (hTy : base.info.element? = some ty)
    (heValue : value.WellTypedAs sigs occurs ty) {s : Span} :
    Sim F result T pre (Stmt.exec S (.store s base offset value))
      (Wasm.Code.exec R (addressCode base.info b o ++ c ++ [Instr.store8]))
      fun _ _ vs => vs = pre := by
  have hAddress := addressCode_balanced base.info hBase.balanced hOffset.balanced
  have hVoid := hF.suits.element heBase hTy
  have hInt : ty.valType = .i32 := Ty.valType_of_ne_float fun h => hFloat (h ▸ hTy)
  have hStore (a : Int32) : Sim F result T (.i32 a :: pre)
      (value.eval S >>= fun r => Eval.int r >>= fun k => Eval.onWorld (World.storeByte a k))
      (Wasm.Code.exec R c >>= fun _ => Wasm.Code.exec R [.store8]) fun _ _ vs => vs = pre := by
    refine (hValue.sim hF value heValue.1).bind ?_
    intro r _ _ hLeaves
    have hType := Ty.valType_of_isAssignable heValue.2
    obtain ⟨k, rfl, rfl⟩ := hLeaves.int
      (fun h => hVoid ((Ty.isAssignable_void_iff heValue.2).mpr h)) (hType.symm.trans hInt)
    simp only [Eval.int, pure_bind]
    refine (Sim.act [.i32 a, .i32 k] (fun _ => none) rfl rfl (World.write_safe _ _)).imp ?_
    rintro _ _ _ ⟨rfl, -⟩
    rfl
  rw [Stmt.exec, Wasm.Code.exec_append (hAddress.append hValue.balanced) (.plain rfl),
    Wasm.Code.exec_append hAddress hValue.balanced, bind_assoc]
  exact address_sim hBase.balanced hOffset.balanced (fun _ => hBase.sim hF base heBase)
    (fun _ => hOffset.sim hF offset heOffset) (Ty.isIndexable_of_element hTy) hIndex hStore

end

theorem Stmt.jumps_of_isSimple {α : Type} {x : Stmt α} (h : x.isSimple = true) (j : Jump) :
    x.jumps j = false := by
  cases x <;> first | rfl | cases h

/-- The value of a `return` is a result of the function. -/
theorem Ty.result?_of_isAssignable {target value : Ty} (h : target.isAssignable value = true) :
    value.result? = target.result? := by
  by_cases hVoid : target = .void
  · rw [hVoid, (isAssignable_void_iff h).mp hVoid]
  · rw [result?_of_ne_void hVoid, valType_of_isAssignable h]
    exact result?_of_ne_void fun hValue => hVoid ((isAssignable_void_iff h).mpr hValue)

variable {ctx : FunctionContext}

mutual

theorem StmtLowers.sim (hF : Faithful F result B S R ctx.signatures occurs)
    (hResult : result = ctx.returnTy.result?) (x : Stmt Ty) {labels : List Label} {code : Code}
    {arrays : List (String × Nat)} {pre : List Value} (h : StmtLowers B labels x code arrays)
    (hx : x.WellTyped ctx occurs) (hHeads : x.HeadsSimple)
    (hArrays : ∀ d ∈ arrays, List.lookup d.1 S.arrays = some d.2) :
    Sim F result (Targets labels fun j => x.jumps j) pre (x.exec S) (Wasm.Code.exec R code)
      fun _ _ vs => vs = pre := by
  cases h with
  | retNone =>
    intro s σ stack hRelated hStack
    have hVoid : ctx.returnTy = .void := hx
    rw [Wasm.Code.exec_plain rfl]
    have hNone : (none : Option Value).map Value.type = result := by
      rw [hResult, hVoid]
      rfl
    exact .return_ (v := none) hStack hNone hRelated.world
  | @retSome _ s e code hE =>
    obtain ⟨-, he, hTy⟩ := hx
    rw [Stmt.exec, Wasm.Code.exec_append hE.balanced (.plain rfl), Wasm.Code.exec_plain rfl]
    refine (hE.sim hF e he).bind ?_
    rintro r _ _ ⟨rfl, hType⟩ s σ stack hRelated hStack
    rw [Ty.result?_of_isAssignable hTy, ← hResult] at hType
    exact .return_ (hStack.trans (List.append_assoc _ _ _)) hType hRelated.world
  | @assign _ s x e code p hPlace hE =>
    obtain ⟨ty, hTy, he⟩ := hx
    rw [Stmt.exec]
    exact write_sim hF hPlace hTy hE he
  | @array _ s x ty n address hArray hDeclared =>
    have hSlot := hF.suits.bindings.declared hDeclared
    rw [Ty.valType_of_isArray hArray] at hSlot
    have hAddress : List.lookup x.name S.arrays = some address :=
      hArrays (x.name, address) List.mem_cons_self
    have hCode : [pushAddress address, .localSet n] = [pushAddress address] ++ [Instr.localSet n] :=
      rfl
    rw [Stmt.exec, if_pos hArray, hAddress, hCode,
      Wasm.Code.exec_append (.plain rfl) (.plain rfl)]
    exact .silent (.const [] rfl rfl) (assign_slot_sim hF (hF.declared hDeclared) hSlot)
  | scalar hArray hDeclared =>
    rw [Stmt.exec, if_neg (by simp [hArray]), Wasm.Code.exec_nil]
    exact .pure rfl
  | @scalarInit _ s x ty n e code hArray hDeclared hE =>
    obtain ⟨hVoid, hInit⟩ := hx
    have hSlot := hF.suits.bindings.declared hDeclared
    rw [Stmt.exec, Wasm.Code.exec_append hE.balanced (.plain rfl)]
    exact hE.sim_as hF (hInit e rfl) hVoid fun v hv =>
      assign_slot_sim hF (hF.declared hDeclared) (hv ▸ hSlot)
  | store hFloat hBase hOffset hValue =>
    obtain ⟨heBase, heOffset, hIndex, ty, hTy, -, heValue⟩ := hx
    exact store_sim hF hFloat hBase hOffset hValue heBase heOffset hIndex hTy heValue
  | @branch _ s cond thenBody elseBody c t e as bs hCond hThen hElse =>
    obtain ⟨heCond, hxThen, hxElse⟩ := hx
    have hArrays := List.forall_mem_append.mp hArrays
    have hEmpty : elseBody.isEmpty = true → e = [] := by
      intro hEmpty
      obtain rfl := List.isEmpty_iff.mp hEmpty
      cases hElse
      rfl
    rw [Stmt.exec]
    refine branch_sim hCond.balanced hThen.balanced hElse.balanced (hCond.sim_test hF heCond) ?_ ?_
      (BodyLowers.sim hF hResult thenBody hThen hxThen hHeads.1 hArrays.1)
      (BodyLowers.sim hF hResult elseBody hElse hxElse hHeads.2 hArrays.2) hEmpty
    · intro j d hTarget
      obtain ⟨d', hd, hInner⟩ := hTarget.outside_none
      exact ⟨d', hd, hInner.mono fun j hj => by simp [Stmt.jumps, hj]⟩
    · intro j d hTarget
      obtain ⟨d', hd, hInner⟩ := hTarget.outside_none
      exact ⟨d', hd, hInner.mono fun j hj => by simp [Stmt.jumps, hj]⟩
  | @whileDo _ s cond body c b c' as hCond hBody hCond' =>
    obtain ⟨heCond, hxBody⟩ := hx
    have hB : Sim F result _ [] _ _ _ := BodyLowers.sim hF hResult body hBody hxBody hHeads hArrays
    rw [Stmt.exec, hF.passes, ← bind_pure_unit (x := Eval.upTo .continue_ _)]
    exact whileLoop_sim (fun j => Stmt.jumpsAny j body)
      hBody.balanced .nil hCond.balanced hCond'.balanced hB (.pure rfl)
      (hCond.sim_test hF heCond) (hCond'.sim_test hF heCond)
  | @doWhile _ s cond body b c as hBody hCond =>
    obtain ⟨heCond, hxBody⟩ := hx
    have hB : Sim F result _ [] _ _ _ := BodyLowers.sim hF hResult body hBody hxBody hHeads hArrays
    rw [Stmt.exec, hF.passes, ← bind_pure_unit (x := Eval.upTo .continue_ _)]
    exact doLoop_sim (fun j => Stmt.jumpsAny j body)
      hBody.balanced .nil hCond.balanced hB (.pure rfl) (hCond.sim_test hF heCond)
  | @forLoop _ s init update cond body i c b u c' as bs cs hInit hCond hBody hUpdate hCond' =>
    obtain ⟨hxInit, heCond, hxUpdate, hxBody⟩ := hx
    obtain ⟨hSimpleInit, hSimpleUpdate, hHeadsBody⟩ := hHeads
    obtain ⟨hArraysInit, hArraysUpdate⟩ := List.forall_mem_append.mp hArrays
    obtain ⟨hArraysInit, hArraysBody⟩ := List.forall_mem_append.mp hArraysInit
    have hB : Sim F result _ [] _ _ _ :=
      BodyLowers.sim hF hResult body hBody hxBody hHeadsBody hArraysBody
    have hLoop := repeatLoop_balanced (blockIf_balanced (Stmt.jumpsAny .continue_ body)
      hBody.balanced) hUpdate.balanced hCond'.balanced
    rw [Stmt.exec, hF.passes, Wasm.Code.exec_append hInit.balanced
      (guarded_balanced hCond.balanced hLoop)]
    refine (OptionLowers.sim hF hResult init hInit hxInit hSimpleInit hArraysInit).bind ?_
    rintro _ _ _ rfl
    exact whileLoop_sim (fun j => Stmt.jumpsAny j body)
      hBody.balanced hUpdate.balanced hCond.balanced hCond'.balanced hB
      (OptionLowers.sim hF hResult update hUpdate hxUpdate hSimpleUpdate hArraysUpdate)
      (hCond.sim hF heCond) (hCond'.sim hF heCond)
  | @jump _ s j depth hDepth =>
    intro s σ stack hRelated hStack
    rw [Wasm.Code.exec_plain rfl]
    exact .jump ⟨by simp [Stmt.jumps], hDepth⟩ hRelated
  | expr hE =>
    rw [Stmt.exec]
    exact hE.sim hF hx

theorem BodyLowers.sim (hF : Faithful F result B S R ctx.signatures occurs)
    (hResult : result = ctx.returnTy.result?) (xs : List (Stmt Ty)) {labels : List Label}
    {code : Code} {arrays : List (String × Nat)} {pre : List Value}
    (h : BodyLowers B labels xs code arrays) (hxs : Stmt.WellTypedAll ctx occurs xs)
    (hHeads : Stmt.HeadsSimpleAll xs)
    (hArrays : ∀ d ∈ arrays, List.lookup d.1 S.arrays = some d.2) :
    Sim F result (Targets labels fun j => Stmt.jumpsAny j xs) pre (Stmt.execAll S xs)
      (Wasm.Code.exec R code) fun _ _ vs => vs = pre := by
  cases h with
  | nil => exact .pure rfl
  | @cons _ x xs a b as bs hX hXs =>
    have hArrays := List.forall_mem_append.mp hArrays
    rw [Stmt.execAll, Wasm.Code.exec_append hX.balanced hXs.balanced]
    refine Sim.bind (.retarget ?_ (StmtLowers.sim hF hResult x hX hxs.1 hHeads.1 hArrays.1)) ?_
    · exact fun j d hTarget => hTarget.mono fun j hj => by simp [Stmt.jumpsAny, hj]
    · rintro _ _ _ rfl
      refine .retarget ?_ (BodyLowers.sim hF hResult xs hXs hxs.2 hHeads.2 hArrays.2)
      exact fun j d hTarget => hTarget.mono fun j hj => by simp [Stmt.jumpsAny, hj]

theorem OptionLowers.sim (hF : Faithful F result B S R ctx.signatures occurs)
    (hResult : result = ctx.returnTy.result?) (x? : Option (Stmt Ty)) {labels : List Label}
    {code : Code} {arrays : List (String × Nat)} {pre : List Value} {T : Jump → Nat → Prop}
    (h : OptionLowers B labels x? code arrays) (hx : Stmt.WellTypedOption ctx occurs x?)
    (hSimple : ∀ x ∈ x?, x.isSimple = true)
    (hArrays : ∀ d ∈ arrays, List.lookup d.1 S.arrays = some d.2) :
    Sim F result T pre (Stmt.execOption S x?) (Wasm.Code.exec R code) fun _ _ vs => vs = pre := by
  cases h with
  | none => exact .pure rfl
  | @some _ x code as hX =>
    have hSimple := hSimple x rfl
    refine .retarget ?_ (StmtLowers.sim hF hResult x hX hx (Stmt.headsSimple_of_isSimple hSimple)
      hArrays)
    intro j d hTarget
    exact Bool.noConfusion ((Stmt.jumps_of_isSimple hSimple j).symm.trans hTarget.1)

end

end MiniC
