import MiniC.Proofs.Printing.Legible
import MiniC.Proofs.Sources
import MiniC.Proofs.Typing.Annotation

/-! # Names and types in checked trees

A checked tree has the names and the declared types of the tree that was checked, and the types that
are added to its expressions are declarable again: they are those of constants, of what is declared,
of functions, or of the elements of such types.
-/
namespace MiniC
set_option autoImplicit false

/-- All types in a scope are declarable. -/
def Scope.Declarable (scope : Scope) : Prop := ∀ d ∈ scope, d.2.isDeclarable = true

/-- The results of all functions have declarable types. -/
def Signatures.Declarable (sigs : Signatures) : Prop :=
  ∀ d ∈ sigs, d.2.result.isDeclarable = true

theorem Scope.Declarable.sees {scope : Scope} (h : scope.Declarable) {x : Ident} {ty : Ty}
    (hSees : scope.Sees x ty) : ty.isDeclarable = true :=
  h _ (Table.mem_of_lookup hSees)

theorem Scope.Declarable.declare {scope : Scope} (h : scope.Declarable) {ty : Ty}
    (hTy : ty.isDeclarable = true) (x : Ident) : (scope.declare x ty).Declarable :=
  List.forall_mem_cons.mpr ⟨hTy, h⟩

theorem UnaryOp.isDeclarable_type {op : UnaryOp} {isVariable : Bool} {ty t : Ty}
    (h : op.type isVariable ty = .ok t) (hTy : ty.isDeclarable = true) :
    t.isDeclarable = true := by
  cases op with
  | increment =>
    obtain ⟨-, -, rfl⟩ := (type_step_eq_ok_iff (.inl rfl)).mp h
    exact hTy
  | decrement =>
    obtain ⟨-, -, rfl⟩ := (type_step_eq_ok_iff (.inr rfl)).mp h
    exact hTy
  | not =>
    obtain ⟨-, -, rfl⟩ := type_not_eq_ok_iff.mp h
    rfl
  | deref => exact Ty.isDeclarable_element hTy (type_deref_eq_ok_iff.mp h)
  | negate =>
    obtain ⟨-, rfl⟩ := type_negate_eq_ok_iff.mp h
    exact hTy

/-- The type that an expression was given can be declared. -/
abbrev declarable (ty : Ty) : Prop := ty.isDeclarable = true

namespace Expr

theorem Legible.info {α : Type} {P : α → Prop} {e : Expr α} (h : e.Legible P) : P e.info := by
  cases e <;> first | exact h | exact h.1

variable {sigs : Signatures} {scope : Scope}

mutual

theorem legible_of_wellTyped (hSigs : sigs.Declarable) (hScope : scope.Declarable) (e : Expr Ty)
    (h : e.WellTyped sigs scope.Sees) (hErase : e.erase.Legible fun _ => True) :
    e.Legible declarable := by
  cases e with
  | const ty s value =>
    obtain rfl : ty = value.ty := h
    cases value <;> rfl
  | string ty s text =>
    obtain rfl : ty = .pointer .char := h
    rfl
  | var ty s x => exact ⟨hScope.sees h, hErase.2⟩
  | call ty s callee args =>
    obtain ⟨sig, hSig, rfl, hArgs⟩ := h
    exact ⟨hSigs _ (Table.mem_of_lookup hSig), hErase.2.1,
      legibleAll_of_wellTyped hSigs hScope args hArgs hErase.2.2⟩
  | binary ty s op lhs rhs =>
    obtain ⟨hLhs, hRhs, hTy⟩ := h
    have hLegible := legible_of_wellTyped hSigs hScope lhs hLhs hErase.2.1
    refine ⟨?_, hLegible, legible_of_wellTyped hSigs hScope rhs hRhs hErase.2.2⟩
    rcases BinaryOp.result_eq hTy with rfl | rfl
    · rfl
    · exact hLegible.info
  | unary ty s op fixity operand =>
    have hLegible := legible_of_wellTyped hSigs hScope operand h.1 hErase.2
    exact ⟨UnaryOp.isDeclarable_type h.2 hLegible.info, hLegible⟩
  | index ty s base offset =>
    obtain ⟨hBase, hOffset, hTy, -⟩ := h
    have hLegible := legible_of_wellTyped hSigs hScope base hBase hErase.2.1
    exact ⟨Ty.isDeclarable_element hLegible.info hTy, hLegible,
      legible_of_wellTyped hSigs hScope offset hOffset hErase.2.2⟩

theorem legibleAll_of_wellTyped (hSigs : sigs.Declarable) (hScope : scope.Declarable)
    (es : List (Expr Ty)) {tys : List Ty} (h : WellTypedArgs sigs scope.Sees es tys)
    (hErase : LegibleAll (fun _ => True) (eraseAll es)) : LegibleAll declarable es := by
  cases es with
  | nil => trivial
  | cons e es =>
    cases tys with
    | nil => cases h
    | cons ty tys =>
      exact ⟨legible_of_wellTyped hSigs hScope e h.1 hErase.1,
        legibleAll_of_wellTyped hSigs hScope es h.2.2 hErase.2⟩

end

theorem legibleOption_of_wellTyped (hSigs : sigs.Declarable) (hScope : scope.Declarable)
    {e? : Option (Expr Ty)} (h : ∀ e ∈ e?, e.WellTyped sigs scope.Sees)
    (hErase : LegibleOption (fun _ => True) (e?.map erase)) : LegibleOption declarable e? := by
  rintro e rfl
  exact legible_of_wellTyped hSigs hScope e (h e rfl) (hErase e.erase rfl)

end Expr

namespace Stmt

variable {ctx : FunctionContext}

mutual

/-- A checked statement is legible, and what is seen after it has declarable types. -/
theorem legible_of_typed (hSigs : ctx.signatures.Declarable) {scope scope' : Scope} {y : Stmt Ty}
    (h : StmtTyped ctx scope y scope') (hScope : scope.Declarable)
    (hErase : y.erase.Legible fun _ => True) : y.Legible declarable ∧ scope'.Declarable := by
  cases h with
  | retNone _ => exact ⟨by simp [Legible, Expr.LegibleOption], hScope⟩
  | retSome _ hValue =>
    refine ⟨Expr.legibleOption_of_wellTyped hSigs hScope ?_ hErase, hScope⟩
    rintro _ ⟨⟩
    exact hValue.1
  | assign _ hValue =>
    exact ⟨⟨hErase.1, Expr.legible_of_wellTyped hSigs hScope _ hValue.1 hErase.2⟩, hScope⟩
  | @declare _ _ x ty init _ hInit =>
    have hInner := hScope.declare hErase.2.1 x
    exact ⟨⟨hErase.1, hErase.2.1, Expr.legibleOption_of_wellTyped hSigs hInner
      (fun e he => (hInit e he).1) hErase.2.2⟩, hInner⟩
  | store hBase _ _ hOffset _ hValue =>
    exact ⟨⟨Expr.legible_of_wellTyped hSigs hScope _ hBase hErase.1,
      Expr.legible_of_wellTyped hSigs hScope _ hOffset hErase.2.1,
      Expr.legible_of_wellTyped hSigs hScope _ hValue.1 hErase.2.2⟩, hScope⟩
  | branch hCond hThen hElse =>
    obtain ⟨hThen, hInner⟩ := legibleAll_of_typed hSigs hThen hScope hErase.2.1
    obtain ⟨hElse, hAfter⟩ := legibleAll_of_typed hSigs hElse hInner hErase.2.2
    exact ⟨⟨Expr.legible_of_wellTyped hSigs hScope _ hCond.1 hErase.1, hThen, hElse⟩, hAfter⟩
  | loop hCond hBody =>
    obtain ⟨hBody, hAfter⟩ := legibleAll_of_typed hSigs hBody hScope hErase.2
    exact ⟨⟨Expr.legible_of_wellTyped hSigs hScope _ hCond.1 hErase.1, hBody⟩, hAfter⟩
  | forLoop hInit hCond hUpdate hBody =>
    obtain ⟨hInit, hStart⟩ := legibleOption_of_typed hSigs hInit hScope hErase.1
    obtain ⟨hUpdate, hStep⟩ := legibleOption_of_typed hSigs hUpdate hStart hErase.2.2.1
    obtain ⟨hBody, hAfter⟩ := legibleAll_of_typed hSigs hBody hStep hErase.2.2.2
    exact ⟨⟨hInit, Expr.legibleOption_of_wellTyped hSigs hStart (fun e he => (hCond e he).1)
      hErase.2.1, hUpdate, hBody⟩, hAfter⟩
  | jump => exact ⟨trivial, hScope⟩
  | expr hValue => exact ⟨Expr.legible_of_wellTyped hSigs hScope _ hValue hErase, hScope⟩

theorem legibleAll_of_typed (hSigs : ctx.signatures.Declarable) {scope scope' : Scope}
    {ys : List (Stmt Ty)} (h : BodyTyped ctx scope ys scope') (hScope : scope.Declarable)
    (hErase : LegibleAll (fun _ => True) (eraseAll ys)) :
    LegibleAll declarable ys ∧ scope'.Declarable := by
  cases h with
  | nil => exact ⟨trivial, hScope⟩
  | cons hX hXs =>
    obtain ⟨hX, hInner⟩ := legible_of_typed hSigs hX hScope hErase.1
    obtain ⟨hXs, hAfter⟩ := legibleAll_of_typed hSigs hXs hInner hErase.2
    exact ⟨⟨hX, hXs⟩, hAfter⟩

theorem legibleOption_of_typed (hSigs : ctx.signatures.Declarable) {scope scope' : Scope}
    {y? : Option (Stmt Ty)} (h : OptionTyped ctx scope y? scope') (hScope : scope.Declarable)
    (hErase : LegibleOption (fun _ => True) (eraseOption y?)) :
    LegibleOption declarable y? ∧ scope'.Declarable := by
  cases h with
  | none => exact ⟨trivial, hScope⟩
  | some hX => exact legible_of_typed hSigs hX hScope hErase

end

end Stmt

theorem Item.legible_of_annotated {sigs : Signatures} (hSigs : sigs.Declarable)
    {globals : Scope} {items : List (Item Ty)} (h : EveryItem (Item.Annotated sigs) globals items)
    (hGlobals : globals.Declarable)
    (hErase : ∀ item ∈ items, item.erase.Legible fun _ => True) :
    ∀ item ∈ items, item.Legible declarable := by
  induction items generalizing globals with
  | nil => simp
  | cons item items ih =>
    rw [List.forall_mem_cons] at hErase ⊢
    obtain ⟨hItem, hItems⟩ := hErase
    cases item with
    | global g =>
      refine ⟨⟨hItem.1, hItem.2.1, ?_⟩, ih h.2 (hGlobals.declare hItem.2.1 g.name) hItems⟩
      exact Expr.legibleOption_of_wellTyped hSigs hGlobals (fun e he => (h.1.2.2 e he).1) hItem.2.2
    | function f =>
      obtain ⟨hName, hReturn, hParams, hBody⟩ := hItem
      obtain ⟨scope, hTyped⟩ := h.1
      have hScope : Scope.Declarable (f.parameters.reverse ++ globals) := by
        refine List.forall_mem_append.mpr ⟨fun d hd => ?_, hGlobals⟩
        obtain ⟨p, hp, rfl⟩ := List.mem_map.mp (List.mem_reverse.mp hd)
        exact (hParams p hp).2
      exact ⟨⟨hName, hReturn, hParams, (Stmt.legibleAll_of_typed hSigs hTyped hScope hBody).1⟩,
        ih h.2 hGlobals hItems⟩

namespace Program

theorem legible_of_check {p : Program Unit} {p' : Program Ty} (hCheck : p.check = .ok p')
    (h : p.Legible fun _ => True) : p'.Legible declarable := by
  simp only [check, Checked.bind_eq_ok_iff, Checked.pure_eq_ok_iff, checkItems_eq_ok_iff] at hCheck
  obtain ⟨sigs, hSigs, items, ⟨hErase, hItems⟩, rfl⟩ := hCheck
  obtain ⟨rfl, -, -⟩ := Signatures.of_foldlM hSigs (by decide)
  refine Item.legible_of_annotated ?_ hItems (by simp [Scope.Declarable]) ?_
  · refine List.forall_mem_append.mpr ⟨fun d hd => ?_, by decide⟩
    obtain ⟨f, hf, rfl⟩ := List.mem_map.mp (List.mem_reverse.mp hd)
    exact (h _ (mem_items hf)).2.1
  · intro item hItem
    exact h item.erase (hErase ▸ List.mem_map_of_mem hItem)

theorem legible_of_checkSource {source : String} {p : Program Ty}
    (h : checkSource source = .ok p) : p.Legible declarable := by
  obtain ⟨tree, hParse, hCheck⟩ := checkSource_eq_ok_iff.mp h
  exact legible_of_check hCheck (legible_of_parse hParse)

end Program

end MiniC
