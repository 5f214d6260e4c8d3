import MiniC.Proofs.Typing.Program

/-! # The parts of a tree

The expressions and the statements of a function, each with everything in it.  If a tree is
well-typed, so are its parts.
-/
namespace MiniC
set_option autoImplicit false

variable {α : Type}

namespace Expr

mutual

/-- The expression and the expressions in it. -/
def parts : Expr α → List (Expr α)
  | e@(call _ _ _ args) => e :: partsAll args
  | e@(binary _ _ _ lhs rhs) => e :: (lhs.parts ++ rhs.parts)
  | e@(unary _ _ _ _ operand) => e :: operand.parts
  | e@(index _ _ base offset) => e :: (base.parts ++ offset.parts)
  | e@(const ..) | e@(string ..) | e@(var ..) => [e]

def partsAll : List (Expr α) → List (Expr α)
  | [] => []
  | e :: es => e.parts ++ partsAll es

end

def partsOption : Option (Expr α) → List (Expr α)
  | none => []
  | some e => e.parts

end Expr

namespace Stmt

mutual

/-- The statement and the statements in it. -/
def parts : Stmt α → List (Stmt α)
  | x@(branch _ _ thenBody elseBody) => x :: (partsAll thenBody ++ partsAll elseBody)
  | x@(loop _ _ _ body) => x :: partsAll body
  | x@(forLoop _ init _ update body) =>
    x :: (partsOption init ++ partsOption update ++ partsAll body)
  | x => [x]

def partsAll : List (Stmt α) → List (Stmt α)
  | [] => []
  | x :: xs => x.parts ++ partsAll xs

def partsOption : Option (Stmt α) → List (Stmt α)
  | none => []
  | some x => x.parts

end

/-- The expressions of a statement, but not those of the statements in it. -/
def exprs : Stmt α → List (Expr α)
  | ret _ value => Expr.partsOption value
  | assign _ _ value => value.parts
  | declare _ _ _ init => Expr.partsOption init
  | store _ base offset value => base.parts ++ offset.parts ++ value.parts
  | branch _ cond _ _ | loop _ _ cond _ => cond.parts
  | forLoop _ _ cond _ _ => Expr.partsOption cond
  | jump .. => []
  | expr _ value => value.parts

theorem mem_parts (x : Stmt α) : x ∈ x.parts := by
  cases x <;> simp [parts]

end Stmt

namespace Function

def stmts (f : Function α) : List (Stmt α) := Stmt.partsAll f.body

def exprs (f : Function α) : List (Expr α) := f.stmts.flatMap Stmt.exprs

end Function

namespace Expr

variable {sigs : Signatures} {occurs : Ident → Ty → Prop}

mutual

theorem wellTyped_of_mem_parts (e : Expr Ty) (h : e.WellTyped sigs occurs) :
    ∀ e' ∈ e.parts, e'.WellTyped sigs occurs := by
  cases e with
  | const | string | var => simpa [parts] using h
  | call ty s callee args =>
    obtain ⟨sig, -, -, hArgs⟩ := id h
    exact List.forall_mem_cons.mpr ⟨h, wellTyped_of_mem_partsAll args hArgs⟩
  | binary ty s op lhs rhs =>
    exact List.forall_mem_cons.mpr ⟨h, List.forall_mem_append.mpr
      ⟨wellTyped_of_mem_parts lhs h.1, wellTyped_of_mem_parts rhs h.2.1⟩⟩
  | unary ty s op fixity operand =>
    exact List.forall_mem_cons.mpr ⟨h, wellTyped_of_mem_parts operand h.1⟩
  | index ty s base offset =>
    exact List.forall_mem_cons.mpr ⟨h, List.forall_mem_append.mpr
      ⟨wellTyped_of_mem_parts base h.1, wellTyped_of_mem_parts offset h.2.1⟩⟩

theorem wellTyped_of_mem_partsAll (es : List (Expr Ty)) {tys : List Ty}
    (h : WellTypedArgs sigs occurs es tys) : ∀ e' ∈ partsAll es, e'.WellTyped sigs occurs := by
  cases es with
  | nil => simp [partsAll]
  | cons e es =>
    cases tys with
    | nil => cases h
    | cons ty tys =>
      exact List.forall_mem_append.mpr
        ⟨wellTyped_of_mem_parts e h.1, wellTyped_of_mem_partsAll es h.2.2⟩

end

theorem wellTyped_of_mem_partsOption {e? : Option (Expr Ty)}
    (h : ∀ e ∈ e?, e.WellTyped sigs occurs) : ∀ e' ∈ partsOption e?, e'.WellTyped sigs occurs := by
  cases e? with
  | none => simp [partsOption]
  | some e => exact wellTyped_of_mem_parts e (h e rfl)

end Expr

namespace Stmt

variable {ctx : FunctionContext} {occurs : Ident → Ty → Prop}

mutual

theorem wellTyped_of_mem_parts (x : Stmt Ty) (h : x.WellTyped ctx occurs) :
    ∀ y ∈ x.parts, y.WellTyped ctx occurs := by
  cases x with
  | branch s cond thenBody elseBody =>
    exact List.forall_mem_cons.mpr ⟨h, List.forall_mem_append.mpr
      ⟨wellTyped_of_mem_partsAll thenBody h.2.1, wellTyped_of_mem_partsAll elseBody h.2.2⟩⟩
  | loop s kind cond body =>
    exact List.forall_mem_cons.mpr ⟨h, wellTyped_of_mem_partsAll body h.2⟩
  | forLoop s init cond update body =>
    obtain ⟨hInit, -, hUpdate, hBody⟩ := id h
    simp only [parts, List.forall_mem_cons, List.forall_mem_append]
    exact ⟨h, ⟨wellTyped_of_mem_partsOption init hInit, wellTyped_of_mem_partsOption update hUpdate⟩,
      wellTyped_of_mem_partsAll body hBody⟩
  | ret | assign | declare | store | jump | expr => simpa [parts] using h

theorem wellTyped_of_mem_partsAll (xs : List (Stmt Ty)) (h : WellTypedAll ctx occurs xs) :
    ∀ y ∈ partsAll xs, y.WellTyped ctx occurs := by
  cases xs with
  | nil => simp [partsAll]
  | cons x xs =>
    exact List.forall_mem_append.mpr
      ⟨wellTyped_of_mem_parts x h.1, wellTyped_of_mem_partsAll xs h.2⟩

theorem wellTyped_of_mem_partsOption (x? : Option (Stmt Ty)) (h : WellTypedOption ctx occurs x?) :
    ∀ y ∈ partsOption x?, y.WellTyped ctx occurs := by
  cases x? with
  | none => simp [partsOption]
  | some x => exact wellTyped_of_mem_parts x h

end

theorem wellTyped_of_mem_exprs {x : Stmt Ty} (h : x.WellTyped ctx occurs) :
    ∀ e ∈ x.exprs, e.WellTyped ctx.signatures occurs := by
  cases x with
  | ret s value =>
    cases value with
    | none => simp [exprs, Expr.partsOption]
    | some e => exact e.wellTyped_of_mem_parts h.2.1
  | assign s target value =>
    obtain ⟨ty, -, hValue⟩ := h
    exact value.wellTyped_of_mem_parts hValue.1
  | declare s name ty init =>
    exact Expr.wellTyped_of_mem_partsOption fun e he => (h.2 e he).1
  | store s base offset value =>
    obtain ⟨hBase, hOffset, -, ty, -, -, hValue⟩ := h
    simp only [exprs, List.forall_mem_append]
    exact ⟨⟨base.wellTyped_of_mem_parts hBase, offset.wellTyped_of_mem_parts hOffset⟩,
      value.wellTyped_of_mem_parts hValue.1⟩
  | branch s cond thenBody elseBody => exact cond.wellTyped_of_mem_parts h.1.1
  | loop s kind cond body => exact cond.wellTyped_of_mem_parts h.1.1
  | forLoop s init cond update body =>
    exact Expr.wellTyped_of_mem_partsOption fun e he => (h.2.1 e he).1
  | jump s j => simp [exprs]
  | expr s value => exact value.wellTyped_of_mem_parts h

end Stmt

namespace Function.WellTyped

variable {f : Function Ty} {sigs : Signatures} {globals : Scope}

theorem stmts (h : f.WellTyped sigs globals) :
    ∀ x ∈ f.stmts, x.WellTyped ⟨sigs, f.name.name, f.returnTy⟩ (f.Occurs globals) :=
  Stmt.wellTyped_of_mem_partsAll f.body h

theorem exprs (h : f.WellTyped sigs globals) :
    ∀ e ∈ f.exprs, e.WellTyped sigs (f.Occurs globals) := by
  intro e he
  obtain ⟨x, hx, he⟩ := List.mem_flatMap.mp he
  exact Stmt.wellTyped_of_mem_exprs (h.stmts x hx) e he

end Function.WellTyped

end MiniC
