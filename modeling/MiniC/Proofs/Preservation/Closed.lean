import MiniC.Proofs.Outcomes
import MiniC.Proofs.Preservation.Expr

/-! # Blocks in the code of expressions

From whatever frame an expression is lowered, every block that is opened in its code is closed
there, so that the code can be run as a part of other code.
-/
namespace MiniC
set_option autoImplicit false

open Wasm (Balanced Code Instr)

/-- In all code that the action gives, every block that is opened is closed. -/
abbrev Emit.Closed (x : Emit Code) : Prop := Ends (fun _ => False) Balanced x

namespace Emit

variable {globals : Globals}

theorem resolve_closed (x : Ident) {f : Place → Emit Code} (h : ∀ p, Closed (f p)) :
    Closed (resolve globals x >>= f) :=
  (Ends.resolve (fun _ h => h) globals x).bind fun p _ => h p

theorem stepSlot_balanced (n : Nat) {change : Code} (h : Balanced change) (fixity : Fixity)
    (used : Bool) : Balanced (stepSlot n change fixity used) := by
  rw [stepSlot]
  refine (((Balanced.plain rfl).append ?_).append h).append (.plain ?_)
  · split
    · exact .plain rfl
    · exact .nil
  · split
    · rfl
    · rfl

theorem stepCell_closed (address : Nat) (ty : Wasm.ValType) {change : Code} (h : Balanced change)
    (fixity : Fixity) (used : Bool) : Closed (stepCell address ty change fixity used) := by
  have hLoad := loadTwice_balanced address ty
  have hEnd (n : Nat) : Balanced [.store ty, .localGet n] :=
    .append (a := [.store ty]) (.plain rfl) (.plain rfl)
  simp only [stepCell]
  split
  · refine (Ends.newSlot ty).map fun n _ => ?_
    cases fixity with
    | after =>
      have hKeep : Balanced (.localTee n :: change) :=
        .append (a := [.localTee n]) (.plain rfl) h
      exact (hLoad.append hKeep).append (hEnd n)
    | before => exact (hLoad.append (h.append (.plain rfl))).append (hEnd n)
  · exact .pure ((hLoad.append h).append (.plain rfl))

theorem step_closed (op : UnaryOp) (fixity : Fixity) (used : Bool) (operand : Expr Ty) :
    Closed (step globals op fixity used operand) := by
  cases operand with
  | var ty s x =>
    have hChange := stepCode_balanced op ty.valType
    refine resolve_closed x fun p => ?_
    cases p with
    | slot n => exact .pure (stepSlot_balanced n hChange fixity used)
    | cell address t => exact stepCell_closed address t hChange fixity used
  | _ => exact .throw fun h => h

theorem unary_closed (s : Span) (op : UnaryOp) (fixity : Fixity) (operand : Expr Ty)
    {inner : Emit Code} (h : Closed inner) : Closed (unary globals s op fixity operand inner) := by
  cases op with
  | increment => exact step_closed .increment fixity true operand
  | decrement => exact step_closed .decrement fixity true operand
  | not =>
    simp only [unary]
    split
    · exact h.map fun _ hCode => hCode.append (.plain rfl)
    · exact .throw fun h => h
  | deref =>
    simp only [unary]
    split
    · exact .throw fun h => h
    · split
      · exact .throw fun h => h
      · split
        · exact h
        · exact h.map fun _ hCode => hCode.append (.plain rfl)
  | negate =>
    simp only [unary]
    split
    · exact h.map fun _ hCode => ((Balanced.plain rfl).append hCode).append (.plain rfl)
    · exact h.map fun _ hCode => hCode.append (.plain rfl)

theorem elementAddress_closed (base : Expr Ty) {b o : Emit Code} (hb : Closed b) (ho : Closed o) :
    Closed (elementAddress base b o) := by
  rw [elementAddress]
  split
  · exact .throw fun h => h
  · exact hb.bind fun _ hCode => ho.map fun _ hCode' =>
      ((hCode.append hCode').append (scaleCode_balanced _)).append (.plain rfl)

end Emit

namespace Expr

variable (globals : Globals)

mutual

theorem emit_closed (e : Expr Ty) : Emit.Closed (e.emit globals) := by
  cases e with
  | const ty s value =>
    refine .pure (.plain ?_)
    cases value <;> rfl
  | string ty s text =>
    exact (Ends.placeString (fun _ _ h => h) text s).inMemory.map fun _ _ => .plain rfl
  | var ty s x =>
    refine Emit.resolve_closed x fun p => ?_
    cases p with
    | slot n => exact .pure (.plain rfl)
    | cell address t => exact .pure (.append (a := [pushAddress address]) (.plain rfl) (.plain rfl))
  | call ty s callee args => exact (emitAll_closed args).map fun _ h => h.append (.plain rfl)
  | binary ty s op lhs rhs =>
    refine (emit_closed lhs).bind fun a ha => (emit_closed rhs).bind fun b hb => ?_
    simp only
    split
    · exact .pure ((ha.append hb).append (.plain rfl))
    · exact .throw fun h => h
  | unary ty s op fixity operand =>
    exact Emit.unary_closed s op fixity operand (emit_closed operand)
  | index ty s base offset =>
    refine (Emit.elementAddress_closed base (emit_closed base) (emit_closed offset)).map
      fun _ h => h.append ?_
    split
    · exact .nil
    · exact .plain rfl

theorem emitAll_closed (es : List (Expr Ty)) : Emit.Closed (emitAll globals es) := by
  cases es with
  | nil => exact .pure .nil
  | cons e es =>
    exact (emit_closed e).bind fun _ ha => (emitAll_closed es).map fun _ hb => ha.append hb

end

end Expr

end MiniC
