import MiniC.Proofs.Heights.Lowering
import MiniC.Proofs.Structure.Slots
import MiniC.Proofs.Validation.Program

/-! # The heights of checked programs

The check does not reject what is read through a pointer to `void`, and that alone makes the code of a
checked program leave operands that no type accounts for.
-/
namespace MiniC
set_option autoImplicit false

open Wasm (Code Instr)
open Wasm.Heights (Context Nets)

section

variable {sigs : Signatures} {occurs : Ident → Ty → Prop}
  (hOccurs : ∀ x ty, occurs x ty → ty.reachesVoid = false)
  (hSigs : ∀ name sig, List.lookup name sigs = some sig → sig.result.reachesVoid = false)

include hOccurs hSigs

theorem Expr.element_ne_void {e : Expr Ty} (he : e.WellTyped sigs occurs) :
    e.info.element? ≠ some .void := fun hElement =>
  (Ty.reachesVoid_of_element hElement (e.reachesVoid_of_wellTyped hOccurs hSigs he)).1 rfl

theorem Expr.readsVoid_of_voidFree {e : Expr Ty} (he : e.WellTyped sigs occurs) :
    e.readsVoid = false := by
  rw [Bool.eq_false_iff]
  intro hReads
  have hTy := info_of_readsVoid hReads
  cases e with
  | unary ty s op fixity operand =>
    obtain rfl : ty = .void := hTy
    cases op with
    | deref =>
      exact element_ne_void hOccurs hSigs he.1 (UnaryOp.type_deref_eq_ok_iff.mp he.2)
    | _ => cases hReads
  | index ty s base offset =>
    obtain rfl : ty = .void := hTy
    exact element_ne_void hOccurs hSigs he.1 he.2.2.1
  | _ => cases hReads

theorem Stmt.upsets_of_voidFree {name : String} {returnTy : Ty} {x : Stmt Ty}
    (hx : x.WellTyped ⟨sigs, name, returnTy⟩ occurs) : x.upsets = false := by
  cases x with
  | expr s value => exact Expr.readsVoid_of_voidFree hOccurs hSigs hx
  | store s base offset value =>
    obtain ⟨hBase, -, -, ty, hTy, -, -, hAssign⟩ := hx
    have hNe : ty ≠ .void := by
      rintro rfl
      exact Expr.element_ne_void hOccurs hSigs hBase hTy
    have hValue : value.info ≠ .void := fun h => hNe ((Ty.isAssignable_void_iff hAssign).mpr h)
    simp [upsets, Expr.leaves_of_ne_void hValue]
  | _ => rfl

end

def succeeds {ε σ α : Type} : EStateM.Result ε σ α → Bool
  | .ok .. => true
  | .error .. => false

theorem exists_of_succeeds {ε σ α : Type} {r : EStateM.Result ε σ α} (h : succeeds r = true) :
    ∃ a s, r = .ok a s := by
  cases r with
  | ok a s => exact ⟨a, s, rfl⟩
  | error e s => cases h

theorem EveryItem.of_mem {α : Type} {Q : List (String × Ty) → Item α → Prop}
    {globals : List (String × Ty)} {items : List (Item α)} (h : EveryItem Q globals items)
    {item : Item α} (hItem : item ∈ items) :
    ∃ before, (∀ g ∈ before, g ∈ globals ∨ g ∈ (Program.mk items).globals) ∧ Q before item := by
  induction items generalizing globals with
  | nil => cases hItem
  | cons first items ih =>
    cases first with
    | global g =>
      rcases List.mem_cons.mp hItem with rfl | hItem
      · exact ⟨globals, fun _ hg => .inl hg, h.1⟩
      · obtain ⟨before, hBefore, hQ⟩ := ih h.2 hItem
        refine ⟨before, fun g' hg' => ?_, hQ⟩
        rcases hBefore g' hg' with hg' | hg'
        · rcases List.mem_cons.mp hg' with rfl | hg'
          · exact .inr List.mem_cons_self
          · exact .inl hg'
        · exact .inr (List.mem_cons_of_mem _ hg')
    | function f =>
      rcases List.mem_cons.mp hItem with rfl | hItem
      · exact ⟨globals, fun _ hg => .inl hg, h.1⟩
      · exact ih h.2 hItem

namespace Program

variable {p : Program Ty} {f : Function Ty} {sigs : Signatures}

/-- What the heights in a function of a program depend on. -/
def heights (p : Program Ty) (f : Function Ty) : Context :=
  FunctionContext.heights ⟨p.signatures, f.name.name, f.returnTy⟩

theorem VoidFree.occurs (h : p.VoidFree) (hf : f ∈ p.functions) {globals : Scope}
    (hGlobals : ∀ g ∈ globals, g ∈ p.globals) :
    ∀ x ty, f.Occurs globals x ty → ty.reachesVoid = false := by
  rintro x ty (hx | ⟨-, hx⟩)
  · refine h _ (List.mem_append_right _ (List.mem_flatMap.mpr ⟨f, hf, ?_⟩))
    exact List.mem_cons_of_mem _ (List.mem_map.mpr ⟨_, hx, rfl⟩)
  · exact h _ (List.mem_append_left _ (List.mem_map.mpr ⟨_, hGlobals _ hx, rfl⟩))

theorem WellTyped.function (h : p.WellTyped sigs) (hf : f ∈ p.functions) :
    ∃ globals, f.WellTyped sigs globals ∧ Nonvoid sigs (f.Occurs globals) ∧
      (p.VoidFree → ∀ x ty, f.Occurs globals x ty → ty.reachesVoid = false) := by
  have hSound := h.items.sound ⟨List.nodup_nil, by simp⟩
  obtain ⟨globals, hBefore, hTyped, hGlobals⟩ := (h.items.and hSound).of_mem (mem_items hf)
  refine ⟨globals, hTyped, ⟨?_, fun _ _ => h.params_ne_void⟩, fun hVoid => ?_⟩
  · exact Function.WellTyped.ne_void_of_occurs hTyped (h.parameters f hf) hGlobals.nonvoid
  · exact hVoid.occurs hf fun g hg => (hBefore g hg).resolve_left (by simp)

/-- Wherever lowering is in a function of a checked program, the code of an expression leaves one
operand if its type has values and none if not, unless it reads through a pointer to `void`; the code
of a statement leaves the stack as it was, unless it or a statement in it is one that cannot.  There
are no such expressions and statements if no pointer to `void` is declared. -/
theorem heights_of_check {source : Program Unit} (hCheck : source.check = .ok p)
    (hf : f ∈ p.functions) (globals : Globals) (m : Memory) {s : Frame}
    (hBelow : (f.start m).Below s) :
    (∀ e ∈ f.exprs, ∀ code s', e.emit globals s = .ok code s' →
      Nets (p.heights f) code e.leaves ∧
      (Nets (p.heights f) code (if e.info = .void then 0 else 1) ↔ e.readsVoid = false)) ∧
    (∀ x ∈ f.stmts, ∀ labels code s', x.emit globals labels s = .ok code s' →
      ((∀ y ∈ x.parts, y.upsets = false) → Nets (p.heights f) code 0) ∧
      (x.upsets = true → ¬ Nets (p.heights f) code 0)) ∧
    (p.VoidFree → (∀ e ∈ f.exprs, e.readsVoid = false) ∧ ∀ x ∈ f.stmts, x.upsets = false) := by
  obtain ⟨sigs, hTyped⟩ := wellTyped_of_check hCheck
  obtain rfl : sigs = p.signatures := hTyped.signatures
  obtain ⟨scope, hBody, hNonvoid, hVoidFree⟩ := hTyped.function hf
  have hs : s.Sound := (f.start_sound m).of_below hBelow
  let ctx : FunctionContext := ⟨p.signatures, f.name.name, f.returnTy⟩
  have hNames : Nonvoid ctx.signatures (f.Occurs scope) := hNonvoid
  refine ⟨?_, ?_, ?_⟩
  · intro e he code s' hEmit
    have hWell : e.WellTyped ctx.signatures (f.Occurs scope) := hBody.exprs e he
    have hRuns : Runs s s' s s' [] e.place _ := e.emit_runs hs hEmit
    obtain ⟨u, -, hLowers⟩ := hRuns.placed
    have hCode : Nets ctx.heights code e.leaves := (hLowers (.refl _) (.refl _)).nets hNames e hWell
    refine ⟨hCode, ?_⟩
    rw [← Expr.leaves_eq_iff hNames hWell]
    exact ⟨fun h => hCode.unique h, fun h => h ▸ hCode⟩
  · intro x hx labels code s' hEmit
    have hWell := hBody.stmts x hx
    have hRuns : Runs s s' s s' x.locals x.place _ := x.emit_runs hs hEmit
    obtain ⟨arrays, -, hLowers⟩ := hRuns.placed
    have hLowered := hLowers (.refl _) (.refl _)
    exact ⟨hLowered.nets hNames x hWell, hLowered.not_nets hNames hWell⟩
  · intro hVoid
    have hOccurs := hVoidFree hVoid
    have hSigs : ∀ name sig, List.lookup name p.signatures = some sig →
        sig.result.reachesVoid = false := fun _ _ => hTyped.result_voidFree hVoid
    exact ⟨fun e he => Expr.readsVoid_of_voidFree hOccurs hSigs (hBody.exprs e he),
      fun x hx => Stmt.upsets_of_voidFree hOccurs hSigs (hBody.stmts x hx)⟩

/-- A source with a call that has no value and a read that should have none. -/
def readAfterCall : String := "void f(void* p, int n) \x7b if (n) \x7b f(p, n - 1); \x7d *p; \x7d"

/-- The program is a function of two statements and eight expressions, all of which can be emitted, and
only the second statement upsets the stack. -/
def upsetsSecond (p : Program Ty) : Bool :=
  match p.functions with
  | [f] =>
    match f.body with
    | [x, y] =>
      f.exprs.length = 8 && f.exprs.all (fun e => succeeds (e.emit [] (f.start .empty))) &&
        x.parts.all (fun z => !z.upsets) && succeeds (x.emit [] [] (f.start .empty)) &&
        y.upsets && succeeds (y.emit [] [] (f.start .empty))
    | _ => false
  | _ => false

theorem heights_of_check_readAfterCall :
    ∃ (source : Program Unit) (p : Program Ty) (f : Function Ty) (x y : Stmt Ty),
      Program.parse readAfterCall = .ok source ∧ source.check = .ok p ∧ p.functions = [f] ∧
      f.body = [x, y] ∧ f.exprs.length = 8 ∧
      (∀ e ∈ f.exprs, ∃ code s', e.emit [] (f.start .empty) = .ok code s' ∧
        Nets (p.heights f) code e.leaves) ∧
      (∃ code s', x.emit [] [] (f.start .empty) = .ok code s' ∧ Nets (p.heights f) code 0) ∧
      ∃ code s', y.emit [] [] (f.start .empty) = .ok code s' ∧ ¬ Nets (p.heights f) code 0 := by
  have hChecks : checksTo (fun _ p => p.upsetsSecond) readAfterCall = true :=
    checksTo_ofList (by decide +kernel)
  obtain ⟨tree, p, hParse, hCheck, hTest⟩ := exists_of_checksTo hChecks
  rw [upsetsSecond] at hTest
  split at hTest
  · rename_i f hFns
    split at hTest
    · rename_i x y hBody
      simp only [Bool.and_eq_true, decide_eq_true_eq, List.all_eq_true, Bool.not_eq_true'] at hTest
      obtain ⟨⟨⟨⟨⟨hLength, hExprs⟩, hParts⟩, hX⟩, hUpsets⟩, hY⟩ := hTest
      obtain ⟨hEach, hStmts, -⟩ := heights_of_check hCheck (f := f) (by simp [hFns]) [] .empty
        (.refl _)
      have hxMem : x ∈ f.stmts := by simp [Function.stmts, hBody, Stmt.partsAll, x.mem_parts]
      have hyMem : y ∈ f.stmts := by simp [Function.stmts, hBody, Stmt.partsAll, y.mem_parts]
      obtain ⟨code, s', hCode⟩ := exists_of_succeeds hX
      obtain ⟨code', s'', hCode'⟩ := exists_of_succeeds hY
      refine ⟨tree, p, f, x, y, hParse, hCheck, hFns, hBody, hLength, ?_,
        ⟨code, s', hCode, (hStmts x hxMem _ _ _ hCode).1 hParts⟩,
        code', s'', hCode', (hStmts y hyMem _ _ _ hCode').2 hUpsets⟩
      intro e he
      obtain ⟨c, t, hEmit⟩ := exists_of_succeeds (hExprs e he)
      exact ⟨c, t, hEmit, (hEach e he c t hEmit).1⟩
    · cases hTest
  · cases hTest

def readThroughVoid : String := "void f(void* p) \x7b *p; \x7d"

/-- The program is a function that reads a `void`, with the same code for the expression and for the
statement. -/
def readsVoidOnly (p : Program Ty) : Bool :=
  match p.functions with
  | [f] =>
    match f.body with
    | [.expr s₀ e] =>
      match e.emit [] (f.start .empty), (Stmt.expr s₀ e).emit [] [] (f.start .empty) with
      | .ok code _, .ok code' _ =>
        decide (e.info = .void ∧ code = [.localGet 0, .load8S] ∧ code' = [.localGet 0, .load8S])
      | _, _ => false
    | _ => false
  | _ => false

/-- The check gives the type `void` to what is read, but an operand is there, and it stays there. -/
theorem operand_left_of_void :
    ∃ (source : Program Unit) (p : Program Ty) (f : Function Ty) (s₀ : Span) (e : Expr Ty)
      (s s' : Frame), Program.parse readThroughVoid = .ok source ∧ source.check = .ok p ∧
      p.functions = [f] ∧ f.body = [.expr s₀ e] ∧ e.info = .void ∧
      e.emit [] (f.start .empty) = .ok [.localGet 0, .load8S] s ∧
      (Stmt.expr s₀ e).emit [] [] (f.start .empty) = .ok [.localGet 0, .load8S] s' ∧
      Nets (p.heights f) [.localGet 0, .load8S] 1 ∧
      ¬ Nets (p.heights f) [.localGet 0, .load8S] 0 := by
  have hChecks : checksTo (fun _ p => p.readsVoidOnly) readThroughVoid = true :=
    checksTo_ofList (by decide +kernel)
  obtain ⟨tree, p, hParse, hCheck, hTest⟩ := exists_of_checksTo hChecks
  rw [readsVoidOnly] at hTest
  split at hTest
  · rename_i f hFns
    split at hTest
    · rename_i s₀ e hBody
      split at hTest
      · rename_i code s code' s' hExpr hStmt
        obtain ⟨hTy, rfl, rfl⟩ := of_decide_eq_true hTest
        have hOne : Nets (p.heights f) [.localGet 0, .load8S] 1 :=
          Nets.apply (a := [.localGet 0]) (.instr rfl) rfl
        refine ⟨tree, p, f, s₀, e, s, s', hParse, hCheck, hFns, hBody, hTy, hExpr, hStmt, hOne, ?_⟩
        exact fun hNone => absurd (hOne.unique hNone) Nat.one_ne_zero
      · cases hTest
    · cases hTest
  · cases hTest

end Program

end MiniC
