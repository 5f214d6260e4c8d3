import MiniC.Proofs.Relocation.Trees
import MiniC.Proofs.TwoRuns

/-! # Checking a moved program

Checking never looks at a span: the check of a moved program is the check of the program, with
the result moved, or the place of the error.  It follows that an error stands at a place of the
program.
-/
namespace MiniC
set_option autoImplicit false

variable {α β γ δ ε : Type} {φ : Span → Span}

/-- Moves a result by `g` and the place of an error by `φ`. -/
def relocate (φ : Span → Span) (g : α → β) : Except (Located ε) α → Except (Located ε) β
  | .ok a => .ok (g a)
  | .error e => .error (e.mapSpan φ)

theorem relocate_eq_transfer (g : α → β) (x : Except (Located ε) α) :
    relocate φ g x = transfer (Located.mapSpan φ) g x := by
  cases x <;> rfl

/-- The steps of a computation are moved one by one. -/
theorem relocate_bind {x : Except (Located ε) α} {x' : Except (Located ε) β}
    {k : α → Except (Located ε) γ} {k' : β → Except (Located ε) δ} {f : α → β} {g : γ → δ}
    (hx : x' = relocate φ f x) (hk : ∀ a, k' (f a) = relocate φ g (k a)) :
    (x' >>= k') = relocate φ g (x >>= k) := by
  simp only [relocate_eq_transfer] at *
  exact transfer_bind hx hk

theorem relocate_map {x : Except (Located ε) α} {x' : Except (Located ε) β} {f : α → β}
    {h : α → γ} {h' : β → δ} {g : γ → δ} (hx : x' = relocate φ f x) (hg : ∀ a, h' (f a) = g (h a)) :
    h' <$> x' = relocate φ g (h <$> x) := by
  rw [relocate_eq_transfer] at *
  exact transfer_map hx hg

theorem relocate_ite {c : Prop} [Decidable c] {x y : Except (Located ε) α}
    {x' y' : Except (Located ε) β} {g : α → β} (hx : x' = relocate φ g x)
    (hy : y' = relocate φ g y) :
    (if c then x' else y') = relocate φ g (if c then x else y) := by
  rw [relocate_eq_transfer] at *
  exact transfer_ite hx hy

theorem Checked.locate_relocate (s : Span) (x : Except TypeError α) :
    Checked.locate (φ s) x = relocate φ id (Checked.locate s x) := by
  cases x <;> rfl

theorem Scope.lookup_mapSpan (scope : Scope) (x : Ident) :
    scope.lookup (x.mapSpan φ) = relocate φ id (scope.lookup x) := by
  simp only [Scope.lookup, Ident.mapSpan]
  split <;> rfl

theorem ensureAssignable_mapSpan (target : Ty) (value : Expr Ty) :
    ensureAssignable target (value.mapSpan φ) = relocate φ id (ensureAssignable target value) := by
  simp only [ensureAssignable, Expr.info_mapSpan, Expr.span_mapSpan]
  exact relocate_ite rfl rfl

theorem ensureNotVoid_mapSpan (x : Ident) (ty : Ty) :
    ensureNotVoid (x.mapSpan φ) ty = relocate φ id (ensureNotVoid x ty) :=
  relocate_ite rfl rfl

theorem elementTy_mapSpan (base : Expr Ty) :
    elementTy (base.mapSpan φ) = relocate φ id (elementTy base) := by
  simp only [elementTy, Expr.info_mapSpan, Expr.span_mapSpan]
  split <;> rfl

theorem ensureIndex_mapSpan (offset : Expr Ty) :
    ensureIndex (offset.mapSpan φ) = relocate φ id (ensureIndex offset) := by
  simp only [ensureIndex, Expr.info_mapSpan, Expr.span_mapSpan]
  exact relocate_ite rfl rfl

theorem ensureCondition_mapSpan (cond : Expr Ty) :
    ensureCondition (cond.mapSpan φ) = relocate φ id (ensureCondition cond) := by
  simp only [ensureCondition, Expr.info_mapSpan, Expr.span_mapSpan]
  exact relocate_ite rfl rfl

namespace Expr

variable {sigs : Signatures} {scope : Scope}

mutual

theorem check_mapSpan : (e : Expr Unit) →
    (e.mapSpan φ).check sigs scope = relocate φ (mapSpan φ) (e.check sigs scope)
  | const .. => rfl
  | string .. => rfl
  | var _ _ x => relocate_bind (scope.lookup_mapSpan x) fun _ => rfl
  | call _ _ callee args => by
    simp only [mapSpan, check, Ident.mapSpan, length_mapSpanAll]
    split
    · rfl
    · exact relocate_ite rfl (relocate_bind (checkArgs_mapSpanAll args _) fun _ => rfl)
  | binary _ s op lhs rhs => by
    refine relocate_bind lhs.check_mapSpan fun a => relocate_bind rhs.check_mapSpan fun b => ?_
    simp only [info_mapSpan]
    exact relocate_bind (Checked.locate_relocate s _) fun _ => rfl
  | unary _ s op fixity operand => by
    refine relocate_bind operand.check_mapSpan fun a => ?_
    simp only [info_mapSpan, isVariable_mapSpan]
    exact relocate_bind (Checked.locate_relocate s _) fun _ => rfl
  | index _ _ base offset =>
    relocate_bind base.check_mapSpan fun b => relocate_bind (elementTy_mapSpan b) fun _ =>
      relocate_bind offset.check_mapSpan fun o => relocate_bind (ensureIndex_mapSpan o) fun _ => rfl

theorem checkArgs_mapSpanAll : (args : List (Expr Unit)) → (tys : List Ty) →
    checkArgs sigs scope (mapSpanAll φ args) tys =
      relocate φ (mapSpanAll φ) (checkArgs sigs scope args tys)
  | [], _ => by simp only [mapSpanAll, checkArgs, relocate]
  | _ :: _, [] => by simp only [mapSpanAll, checkArgs, relocate]
  | arg :: args, ty :: tys =>
    relocate_bind arg.check_mapSpan fun a => relocate_bind (ensureAssignable_mapSpan ty a) fun _ =>
      relocate_bind (checkArgs_mapSpanAll args tys) fun _ => rfl

end

theorem checkCondition_mapSpan (e : Expr Unit) :
    (e.mapSpan φ).checkCondition sigs scope =
      relocate φ (mapSpan φ) (e.checkCondition sigs scope) :=
  relocate_bind e.check_mapSpan fun a => relocate_bind (ensureCondition_mapSpan a) fun _ => rfl

theorem checkAs_mapSpan (target : Ty) (e : Expr Unit) :
    (e.mapSpan φ).checkAs sigs scope target =
      relocate φ (mapSpan φ) (e.checkAs sigs scope target) :=
  relocate_bind e.check_mapSpan fun a => relocate_bind (ensureAssignable_mapSpan target a) fun _ =>
    rfl

theorem checkOptionAs_mapSpan (target : Ty) (e : Option (Expr Unit)) :
    checkOptionAs sigs scope target (e.map (mapSpan φ)) =
      relocate φ (Option.map (mapSpan φ)) (checkOptionAs sigs scope target e) := by
  cases e with
  | none => rfl
  | some e => exact relocate_map (e.checkAs_mapSpan target) fun _ => rfl

theorem checkOptionCondition_mapSpan (e : Option (Expr Unit)) :
    checkOptionCondition sigs scope (e.map (mapSpan φ)) =
      relocate φ (Option.map (mapSpan φ)) (checkOptionCondition sigs scope e) := by
  cases e with
  | none => rfl
  | some e => exact relocate_map e.checkCondition_mapSpan fun _ => rfl

end Expr

namespace Stmt

variable {ctx : FunctionContext}

theorem checkReturn_mapSpan (scope : Scope) (s : Span) (value : Option (Expr Unit)) :
    checkReturn ctx scope (φ s) (value.map (Expr.mapSpan φ)) =
      relocate φ (mapSpan φ) (checkReturn ctx scope s value) := by
  cases value with
  | none => exact relocate_ite rfl rfl
  | some value =>
    simp only [Option.map_some, checkReturn, Expr.span_mapSpan]
    exact relocate_ite rfl (relocate_bind (value.checkAs_mapSpan _) fun _ => rfl)

theorem checkStore_mapSpan (scope : Scope) (s : Span) (base offset value : Expr Unit) :
    checkStore ctx scope (φ s) (base.mapSpan φ) (offset.mapSpan φ) (value.mapSpan φ) =
      relocate φ (mapSpan φ) (checkStore ctx scope s base offset value) := by
  refine relocate_bind base.check_mapSpan fun b => relocate_bind (elementTy_mapSpan b) fun ty => ?_
  refine relocate_ite rfl ?_
  exact relocate_bind offset.check_mapSpan fun o => relocate_bind (ensureIndex_mapSpan o) fun _ =>
    relocate_bind (value.checkAs_mapSpan ty) fun _ => rfl

mutual

theorem check_mapSpan (scope : Scope) : (x : Stmt Unit) →
    (x.mapSpan φ).check ctx scope = relocate φ (Prod.map (mapSpan φ) id) (x.check ctx scope)
  | ret s value => relocate_bind (checkReturn_mapSpan scope s value) fun _ => rfl
  | assign _ target value =>
    relocate_bind (scope.lookup_mapSpan target) fun ty =>
      relocate_bind (value.checkAs_mapSpan ty) fun _ => rfl
  | declare _ name ty init =>
    relocate_bind (ensureNotVoid_mapSpan name ty) fun _ =>
      relocate_bind (Expr.checkOptionAs_mapSpan ty init) fun _ => rfl
  | store s base offset value =>
    relocate_bind (checkStore_mapSpan scope s base offset value) fun _ => rfl
  | branch _ cond thenBody elseBody =>
    relocate_bind cond.checkCondition_mapSpan fun _ =>
      relocate_bind (checkAll_mapSpanAll scope thenBody) fun r =>
        relocate_bind (checkAll_mapSpanAll r.2 elseBody) fun _ => rfl
  | loop _ _ cond body =>
    relocate_bind cond.checkCondition_mapSpan fun _ =>
      relocate_bind (checkAll_mapSpanAll scope body) fun _ => rfl
  | forLoop _ init cond update body =>
    relocate_bind (checkOption_mapSpanOption scope init) fun r =>
      relocate_bind (Expr.checkOptionCondition_mapSpan cond) fun _ =>
        relocate_bind (checkOption_mapSpanOption r.2 update) fun r' =>
          relocate_bind (checkAll_mapSpanAll r'.2 body) fun _ => rfl
  | jump .. => rfl
  | expr _ value => relocate_bind value.check_mapSpan fun _ => rfl

theorem checkAll_mapSpanAll (scope : Scope) : (xs : List (Stmt Unit)) →
    checkAll ctx scope (mapSpanAll φ xs) =
      relocate φ (Prod.map (mapSpanAll φ) id) (checkAll ctx scope xs)
  | [] => rfl
  | x :: xs =>
    relocate_bind (x.check_mapSpan scope) fun r =>
      relocate_bind (checkAll_mapSpanAll r.2 xs) fun _ => rfl

theorem checkOption_mapSpanOption (scope : Scope) : (x : Option (Stmt Unit)) →
    checkOption ctx scope (mapSpanOption φ x) =
      relocate φ (Prod.map (mapSpanOption φ) id) (checkOption ctx scope x)
  | none => rfl
  | some x => relocate_bind (x.check_mapSpan scope) fun _ => rfl

end

end Stmt

theorem Global.check_mapSpan (sigs : Signatures) (globals : Scope) (g : Global Unit) :
    (g.mapSpan φ).check sigs globals = relocate φ (Global.mapSpan φ) (g.check sigs globals) := by
  refine relocate_bind (ensureNotVoid_mapSpan g.name g.ty) fun _ => ?_
  refine relocate_ite rfl ?_
  exact relocate_bind (Expr.checkOptionAs_mapSpan g.ty g.init) fun _ => rfl

theorem Function.check_mapSpan (sigs : Signatures) (globals : Scope) (f : Function Unit) :
    (f.mapSpan φ).check sigs globals = relocate φ (Function.mapSpan φ) (f.check sigs globals) := by
  simp only [Function.check, Function.mapSpan, List.foldl_map]
  exact relocate_bind (Stmt.checkAll_mapSpanAll _ f.body) fun _ => rfl

theorem ensureNotVoid_forM_mapSpan (params : List Param) :
    (params.map (Param.mapSpan φ)).forM (fun p => ensureNotVoid p.name p.ty) =
      relocate φ id (params.forM fun p => ensureNotVoid p.name p.ty) := by
  induction params with
  | nil => rfl
  | cons p params ih => exact relocate_bind (ensureNotVoid_mapSpan p.name p.ty) fun _ => ih

theorem Signatures.add_mapSpan (sigs : Signatures) (f : Function Unit) :
    sigs.add (f.mapSpan φ) = relocate φ id (sigs.add f) := by
  have hTys : (f.params.map (Param.mapSpan φ)).map Param.ty = f.params.map Param.ty := by
    rw [List.map_map]
    rfl
  simp only [Signatures.add, Function.mapSpan, hTys]
  exact relocate_bind (ensureNotVoid_forM_mapSpan f.params) fun _ => relocate_ite rfl rfl

theorem Signatures.foldlM_add_mapSpan (fs : List (Function Unit)) (sigs : Signatures) :
    (fs.map (Function.mapSpan φ)).foldlM Signatures.add sigs =
      relocate φ id (fs.foldlM Signatures.add sigs) := by
  induction fs generalizing sigs with
  | nil => rfl
  | cons f fs ih => exact relocate_bind (sigs.add_mapSpan f) fun sigs => ih sigs

theorem checkItems_mapSpan (sigs : Signatures) (items : List (Item Unit)) (globals : Scope) :
    checkItems sigs globals (items.map (Item.mapSpan φ)) =
      relocate φ (List.map (Item.mapSpan φ)) (checkItems sigs globals items) := by
  induction items generalizing globals with
  | nil => rfl
  | cons item items ih =>
    cases item with
    | global g =>
      exact relocate_bind (g.check_mapSpan sigs globals) fun _ =>
        relocate_bind (ih _) fun _ => rfl
    | function f =>
      exact relocate_bind (f.check_mapSpan sigs globals) fun _ =>
        relocate_bind (ih _) fun _ => rfl

theorem Program.check_mapSpan (p : Program Unit) :
    (p.mapSpan φ).check = relocate φ (Program.mapSpan φ) p.check := by
  simp only [Program.check, Program.functions_mapSpan, Signatures.ofFunctions]
  exact relocate_bind (Signatures.foldlM_add_mapSpan p.functions _) fun sigs =>
    relocate_bind (checkItems_mapSpan sigs p.items []) fun _ => rfl

end MiniC
