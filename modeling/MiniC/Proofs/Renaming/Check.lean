import Mathlib.Logic.Embedding.Basic
import MiniC.Proofs.Renaming.Trees
import MiniC.Proofs.TwoRuns
import MiniC.Proofs.Typing.Program

/-! # Checking a renamed program

Variables are only compared with variables and functions with functions.  So under an injective
renaming of the variables the check takes the same steps, in a scope with renamed variables.
-/
namespace MiniC
set_option autoImplicit false

variable {α β : Type}

/-- Renames the variable that an error is about, if there is one. -/
def TypeError.rename (r : String → String) : TypeError → TypeError
  | undefinedName x => undefinedName (r x)
  | duplicateGlobal x => duplicateGlobal (r x)
  | voidVariable x => voidVariable (r x)
  | e => e

def Scope.rename (r : String → String) (scope : Scope) : Scope := scope.map (Prod.map r id)

/-- The outcome of the check, a result changed by `g` and an error renamed. -/
abbrev renamed (r : String → String) (g : α → β) : Checked α → Checked β :=
  transfer (Located.map (TypeError.rename r)) g

section

variable (r : String → String)

theorem BinaryOp.type_rename (s : Span) (op : BinaryOp) (lhs rhs : Ty) :
    Checked.locate s (op.type lhs rhs) = renamed r id (Checked.locate s (op.type lhs rhs)) := by
  rw [BinaryOp.type]
  repeat' split
  all_goals rfl

theorem UnaryOp.type_rename (s : Span) (op : UnaryOp) (isVariable : Bool) (ty : Ty) :
    Checked.locate s (op.type isVariable ty) =
      renamed r id (Checked.locate s (op.type isVariable ty)) := by
  cases op <;> simp only [UnaryOp.type] <;> repeat' split
  all_goals rfl

theorem ensureAssignable_rename (target : Ty) (value : Expr Ty) :
    ensureAssignable target (value.rename r) = renamed r id (ensureAssignable target value) := by
  simp only [ensureAssignable, Expr.info_rename, Expr.span_rename]
  exact transfer_ite rfl rfl

theorem ensureNotVoid_rename (x : Ident) (ty : Ty) :
    ensureNotVoid (x.rename r) ty = renamed r id (ensureNotVoid x ty) :=
  transfer_ite rfl rfl

theorem elementTy_rename (base : Expr Ty) :
    elementTy (base.rename r) = renamed r id (elementTy base) := by
  simp only [elementTy, Expr.info_rename, Expr.span_rename]
  split <;> rfl

theorem ensureIndex_rename (offset : Expr Ty) :
    ensureIndex (offset.rename r) = renamed r id (ensureIndex offset) := by
  simp only [ensureIndex, Expr.info_rename, Expr.span_rename]
  exact transfer_ite rfl rfl

theorem ensureCondition_rename (cond : Expr Ty) :
    ensureCondition (cond.rename r) = renamed r id (ensureCondition cond) := by
  simp only [ensureCondition, Expr.info_rename, Expr.span_rename]
  exact transfer_ite rfl rfl

end

variable (r : String ↪ String)

theorem Scope.lookup_rename_eq (scope : Scope) (x : String) :
    List.lookup (r x) (scope.rename r) = List.lookup x scope :=
  Table.lookup_map_fst fun _ _ h => r.injective h

theorem Scope.lookup_rename (scope : Scope) (x : Ident) :
    (scope.rename r).lookup (x.rename r) = renamed r id (scope.lookup x) := by
  simp only [Scope.lookup, Ident.rename, Scope.lookup_rename_eq]
  split <;> rfl

namespace Expr

variable {sigs : Signatures} {scope : Scope}

mutual

theorem check_rename : (e : Expr Unit) →
    (e.rename r).check sigs (scope.rename r) = renamed r (rename r) (e.check sigs scope)
  | const .. => rfl
  | string .. => rfl
  | var _ _ x => transfer_bind (scope.lookup_rename r x) fun _ => rfl
  | call _ _ callee args => by
    simp only [rename, check, length_renameAll]
    split
    · rfl
    · exact transfer_ite rfl (transfer_bind (checkArgs_renameAll args _) fun _ => rfl)
  | binary _ s op lhs rhs => by
    refine transfer_bind lhs.check_rename fun a => transfer_bind rhs.check_rename fun b => ?_
    simp only [info_rename]
    exact transfer_bind (op.type_rename r s _ _) fun _ => rfl
  | unary _ s op fixity operand => by
    refine transfer_bind operand.check_rename fun a => ?_
    simp only [info_rename, isVariable_rename]
    exact transfer_bind (op.type_rename r s _ _) fun _ => rfl
  | index _ _ base offset =>
    transfer_bind base.check_rename fun b => transfer_bind (elementTy_rename r b) fun _ =>
      transfer_bind offset.check_rename fun o => transfer_bind (ensureIndex_rename r o) fun _ => rfl

theorem checkArgs_renameAll : (args : List (Expr Unit)) → (tys : List Ty) →
    checkArgs sigs (scope.rename r) (renameAll r args) tys =
      renamed r (renameAll r) (checkArgs sigs scope args tys)
  | [], _ => by simp only [renameAll, checkArgs, transfer]
  | _ :: _, [] => by simp only [renameAll, checkArgs, transfer]
  | arg :: args, ty :: tys =>
    transfer_bind arg.check_rename fun a => transfer_bind (ensureAssignable_rename r ty a) fun _ =>
      transfer_bind (checkArgs_renameAll args tys) fun _ => rfl

end

theorem checkCondition_rename (e : Expr Unit) :
    (e.rename r).checkCondition sigs (scope.rename r) =
      renamed r (rename r) (e.checkCondition sigs scope) :=
  transfer_bind (e.check_rename r) fun a => transfer_bind (ensureCondition_rename r a) fun _ => rfl

theorem checkAs_rename (target : Ty) (e : Expr Unit) :
    (e.rename r).checkAs sigs (scope.rename r) target =
      renamed r (rename r) (e.checkAs sigs scope target) :=
  transfer_bind (e.check_rename r) fun a =>
    transfer_bind (ensureAssignable_rename r target a) fun _ => rfl

theorem checkOptionAs_rename (scope : Scope) (target : Ty) (e? : Option (Expr Unit)) :
    checkOptionAs sigs (scope.rename r) target (e?.map (rename r)) =
      renamed r (Option.map (rename r)) (checkOptionAs sigs scope target e?) := by
  cases e? with
  | none => rfl
  | some e => exact transfer_map (e.checkAs_rename r target) fun _ => rfl

theorem checkOptionCondition_rename (e? : Option (Expr Unit)) :
    checkOptionCondition sigs (scope.rename r) (e?.map (rename r)) =
      renamed r (Option.map (rename r)) (checkOptionCondition sigs scope e?) := by
  cases e? with
  | none => rfl
  | some e => exact transfer_map (e.checkCondition_rename r) fun _ => rfl

end Expr

namespace Stmt

variable {ctx : FunctionContext}

theorem checkReturn_rename (scope : Scope) (s : Span) (value : Option (Expr Unit)) :
    checkReturn ctx (scope.rename r) s (value.map (Expr.rename r)) =
      renamed r (rename r) (checkReturn ctx scope s value) := by
  cases value with
  | none => exact transfer_ite rfl rfl
  | some value =>
    simp only [Option.map_some, checkReturn, Expr.span_rename]
    exact transfer_ite rfl (transfer_bind (value.checkAs_rename r _) fun _ => rfl)

theorem checkStore_rename (scope : Scope) (s : Span) (base offset value : Expr Unit) :
    checkStore ctx (scope.rename r) s (base.rename r) (offset.rename r) (value.rename r) =
      renamed r (rename r) (checkStore ctx scope s base offset value) := by
  refine transfer_bind (base.check_rename r) fun b => transfer_bind (elementTy_rename r b)
    fun ty => ?_
  refine transfer_ite rfl ?_
  exact transfer_bind (offset.check_rename r) fun o => transfer_bind (ensureIndex_rename r o)
    fun _ => transfer_bind (value.checkAs_rename r ty) fun _ => rfl

mutual

theorem check_rename (scope : Scope) : (x : Stmt Unit) →
    (x.rename r).check ctx (scope.rename r) =
      renamed r (Prod.map (rename r) (Scope.rename r)) (x.check ctx scope)
  | ret s value => transfer_bind (checkReturn_rename r scope s value) fun _ => rfl
  | assign _ target value =>
    transfer_bind (scope.lookup_rename r target) fun ty =>
      transfer_bind (value.checkAs_rename r ty) fun _ => rfl
  | declare _ x ty init =>
    transfer_bind (ensureNotVoid_rename r x ty) fun _ =>
      transfer_bind (Expr.checkOptionAs_rename r (scope.declare x ty) ty init) fun _ => rfl
  | store s base offset value =>
    transfer_bind (checkStore_rename r scope s base offset value) fun _ => rfl
  | branch _ cond thenBody elseBody =>
    transfer_bind (cond.checkCondition_rename r) fun _ =>
      transfer_bind (checkAll_renameAll scope thenBody) fun t =>
        transfer_bind (checkAll_renameAll t.2 elseBody) fun _ => rfl
  | loop _ _ cond body =>
    transfer_bind (cond.checkCondition_rename r) fun _ =>
      transfer_bind (checkAll_renameAll scope body) fun _ => rfl
  | forLoop _ init cond update body =>
    transfer_bind (checkOption_renameOption scope init) fun i =>
      transfer_bind (Expr.checkOptionCondition_rename r cond) fun _ =>
        transfer_bind (checkOption_renameOption i.2 update) fun u =>
          transfer_bind (checkAll_renameAll u.2 body) fun _ => rfl
  | jump .. => rfl
  | expr _ value => transfer_bind (value.check_rename r) fun _ => rfl

theorem checkAll_renameAll (scope : Scope) : (xs : List (Stmt Unit)) →
    checkAll ctx (scope.rename r) (renameAll r xs) =
      renamed r (Prod.map (renameAll r) (Scope.rename r)) (checkAll ctx scope xs)
  | [] => rfl
  | x :: xs =>
    transfer_bind (x.check_rename scope) fun y =>
      transfer_bind (checkAll_renameAll y.2 xs) fun _ => rfl

theorem checkOption_renameOption (scope : Scope) : (x? : Option (Stmt Unit)) →
    checkOption ctx (scope.rename r) (renameOption r x?) =
      renamed r (Prod.map (renameOption r) (Scope.rename r)) (checkOption ctx scope x?)
  | none => rfl
  | some x => transfer_bind (x.check_rename scope) fun _ => rfl

end

end Stmt

theorem Global.check_rename (sigs : Signatures) (globals : Scope)
    (g : Global Unit) :
    (g.rename r).check sigs (globals.rename r) =
      renamed r (Global.rename r) (g.check sigs globals) := by
  simp only [Global.check, Global.rename, Ident.rename, Scope.lookup_rename_eq]
  refine transfer_bind (ensureNotVoid_rename r g.name g.ty) fun _ => ?_
  refine transfer_ite rfl ?_
  exact transfer_bind (Expr.checkOptionAs_rename r globals g.ty g.init) fun _ => rfl

theorem Function.check_rename (sigs : Signatures) (globals : Scope)
    (f : Function Unit) :
    (f.rename r).check sigs (globals.rename r) =
      renamed r (Function.rename r) (f.check sigs globals) := by
  have hScope : (f.params.map (Param.rename r)).foldl (fun scope p => scope.declare p.name p.ty)
      (globals.rename r) =
      (f.params.foldl (fun scope p => scope.declare p.name p.ty) globals).rename r := by
    simp [Function.foldl_declare, Scope.rename, Function.comp_def, Param.rename, Ident.rename]
  simp only [Function.check, Function.rename, hScope]
  exact transfer_bind (Stmt.checkAll_renameAll r _ f.body) fun _ => rfl

theorem ensureNotVoid_forM_rename (params : List Param) :
    (params.map (Param.rename r)).forM (fun p => ensureNotVoid p.name p.ty) =
      renamed r id (params.forM fun p => ensureNotVoid p.name p.ty) := by
  induction params with
  | nil => rfl
  | cons p params ih => exact transfer_bind (ensureNotVoid_rename r p.name p.ty) fun _ => ih

theorem Signatures.add_rename (sigs : Signatures) (f : Function Unit) :
    sigs.add (f.rename r) = renamed r id (sigs.add f) := by
  have hTys : (f.params.map (Param.rename r)).map Param.ty = f.params.map Param.ty := by
    rw [List.map_map]
    rfl
  simp only [Signatures.add, Function.rename, hTys]
  exact transfer_bind (ensureNotVoid_forM_rename r f.params) fun _ => transfer_ite rfl rfl

theorem Signatures.foldlM_add_rename (fs : List (Function Unit))
    (sigs : Signatures) :
    (fs.map (Function.rename r)).foldlM Signatures.add sigs =
      renamed r id (fs.foldlM Signatures.add sigs) := by
  induction fs generalizing sigs with
  | nil => rfl
  | cons f fs ih => exact transfer_bind (sigs.add_rename r f) fun sigs => ih sigs

theorem checkItems_rename (sigs : Signatures) (items : List (Item Unit))
    (globals : Scope) :
    checkItems sigs (globals.rename r) (items.map (Item.rename r)) =
      renamed r (List.map (Item.rename r)) (checkItems sigs globals items) := by
  induction items generalizing globals with
  | nil => rfl
  | cons item items ih =>
    cases item with
    | global g =>
      exact transfer_bind (g.check_rename r sigs globals) fun g' =>
        transfer_bind (ih (globals.declare g'.name g'.ty)) fun _ => rfl
    | function f =>
      exact transfer_bind (f.check_rename r sigs globals) fun _ =>
        transfer_bind (ih globals) fun _ => rfl

theorem Program.check_rename (p : Program Unit) :
    (p.rename r).check = renamed r (Program.rename r) p.check := by
  simp only [Program.check, Program.functions_rename, Signatures.ofFunctions]
  exact transfer_bind (Signatures.foldlM_add_rename r p.functions _) fun sigs =>
    transfer_bind (checkItems_rename r sigs p.items []) fun _ => rfl

end MiniC
