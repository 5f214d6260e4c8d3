import MiniC.Proofs.Arrays.Access
import MiniC.Proofs.Preservation.Closed
import MiniC.Proofs.Preservation.Program

/-! # Subscripts and sums with pointers

`a[i]` and `*(a + i)` have the same type, and both are lowered to the codes of `a` and of `i` with
an addition behind them and a load, unless the element is an array.  The subscript scales its offset
by the length of a row, but the sum does not: for rows of more than one byte the two agree exactly
when scaling makes no difference.
-/
namespace MiniC
set_option autoImplicit false

open Wasm (Balanced Code Exec Instr Runtime State)

namespace Emit

variable (globals : Globals)

/-- The codes of two expressions, one after the other. -/
def both (a i : Expr Ty) : Emit Code := do
  let p ← a.emit globals
  let o ← i.emit globals
  return p ++ o

/-- What reads an element of the given type at an address; the address of a row stands for it. -/
def elementLoad (t : Ty) : Code := if t.isArray then [] else [.load8S]

variable {globals} {a i : Expr Ty} {t : Ty} {s s' : Span} {fixity : Fixity}

theorem both_closed (a i : Expr Ty) : Closed (both globals a i) :=
  (a.emit_closed globals).bind fun _ ha => (i.emit_closed globals).map fun _ hb => ha.append hb

theorem emit_index (h : a.info.element? = some t) (hFloat : t ≠ .float) :
    (Expr.index t s a i).emit globals = do
      let p ← both globals a i
      return p ++ scaleCode (stride a.info) ++ [.numeric .i32 .add] ++ elementLoad t := by
  have hElement : a.info.element? ≠ some .float := by
    rw [h]
    simpa using hFloat
  simp only [Expr.emit, elementAddress, if_neg hElement, both, elementLoad, bind_assoc, pure_bind]

theorem emit_add (h : a.info.element? = some t) :
    (Expr.binary a.info s .add a i).emit globals = do
      let p ← both globals a i
      return p ++ [.numeric .i32 .add] := by
  have hOpcode : BinaryOp.add.opcode? .i32 = some .add := rfl
  simp only [Expr.emit, Ty.valType_of_element h, hOpcode, both, bind_assoc, pure_bind]

theorem emit_deref_add (h : a.info.element? = some t) (hFloat : t ≠ .float) :
    (Expr.unary t s .deref fixity (.binary a.info s' .add a i)).emit globals = do
      let p ← both globals a i
      return p ++ [.numeric .i32 .add] ++ elementLoad t := by
  have hInfo : (Expr.binary a.info s' .add a i).info = a.info := rfl
  rw [Expr.emit, emit_add h]
  simp only [unary, hInfo, h, if_neg hFloat, elementLoad]
  cases t.isArray with
  | true => simp only [if_true, List.append_nil]
  | false => simp only [Bool.false_eq_true, if_false, bind_assoc, pure_bind]

/-- A float is no element that can be read. -/
theorem emit_index_float (h : a.info.element? = some .float) (f f' : Frame) (code : Code) :
    (Expr.index t s a i).emit globals f ≠ .ok code f' := by
  simp only [Expr.emit, elementAddress, if_pos h]
  rintro ⟨⟩

theorem emit_deref_add_float (h : a.info.element? = some .float) (f f' : Frame) (code : Code) :
    (Expr.unary t s .deref fixity (.binary a.info s' .add a i)).emit globals f ≠ .ok code f' := by
  have hInfo : (Expr.binary a.info s' .add a i).info = a.info := rfl
  rw [Expr.emit]
  simp only [unary, hInfo, h, if_true]
  rintro ⟨⟩

end Emit

namespace Wasm

/-- Two runs end in the same state, or they are left in the same way with the same variables and the
same world. -/
def Exec.Alike : EStateM.Result Exit State Unit → EStateM.Result Exit State Unit → Prop
  | .ok _ σ, .ok _ τ => σ = τ
  | .error e σ, .error e' τ => e = e' ∧ σ.locals = τ.locals ∧ σ.world = τ.world
  | _, _ => False

theorem Exec.Alike.refl (r : EStateM.Result Exit State Unit) : Exec.Alike r r := by
  cases r with
  | ok u σ => exact rfl
  | error e σ => exact ⟨rfl, rfl, rfl⟩

/-- The run gets stuck, without an effect. -/
def Exec.Stuck (σ : State) (r : EStateM.Result Exit State Unit) : Prop :=
  ∃ τ, r = .error (.halt .stuck) τ ∧ τ.locals = σ.locals ∧ τ.world = σ.world

theorem Exec.Stuck.alike {σ : State} {r r' : EStateM.Result Exit State Unit}
    (h : Exec.Stuck σ r) (h' : Exec.Stuck σ r') : Exec.Alike r r' := by
  obtain ⟨τ, rfl, hLocals, hWorld⟩ := h
  obtain ⟨τ', rfl, hLocals', hWorld'⟩ := h'
  exact ⟨rfl, hLocals.trans hLocals'.symm, hWorld.trans hWorld'.symm⟩

namespace Code

variable {R : Runtime} {σ : State}

/-- Two integers are on top of the stack. -/
def HasPair (stack : List Value) : Prop := ∃ k b vs, stack = .i32 k :: .i32 b :: vs

theorem exec_pair_stuck {op : Opcode} (hOp : op = .add ∨ op = .mul) (h : ¬HasPair σ.stack) :
    Exec.Stuck σ (exec R [.numeric .i32 op] σ) := by
  have hArity : (Instr.numeric .i32 op).arity? R = some 2 := by
    rcases hOp with rfl | rfl <;> rfl
  match hStack : σ.stack with
  | [] | [_] =>
    have hPop : Exec.popMany 2 σ = .error (.halt .stuck) σ := by
      rw [Exec.popMany, hStack, if_neg (by simp)]
    rw [exec_plain rfl, Instr.exec_of_arity hArity, Action.bind_of_error hPop]
    exact ⟨σ, rfl, rfl, rfl⟩
  | u :: v :: vs =>
    have hAct : (Instr.numeric .i32 op).act R [v, u] σ.world = .error .stuck σ.world := by
      cases u with
      | f32 x => rcases hOp with rfl | rfl <;> cases v <;> rfl
      | i32 k =>
        cases v with
        | f32 y => rcases hOp with rfl | rfl <;> rfl
        | i32 b => exact absurd ⟨k, b, vs, hStack⟩ h
    rw [exec_error [v, u] hArity hAct hStack]
    exact ⟨_, rfl, rfl, rfl⟩

theorem exec_scale_stuck (n : Nat) (h : ¬HasPair σ.stack) :
    Exec.Stuck σ (exec R (Emit.scaleCode n ++ [Instr.numeric .i32 .add]) σ) := by
  rw [Emit.scaleCode]
  split
  · exact exec_pair_stuck (.inl rfl) h
  · rw [← List.singleton_append (x := pushAddress n), List.append_assoc,
      exec_append (.plain rfl) (.append (.plain rfl) (.plain rfl)),
      Action.bind_of_ok (exec_pushAddress R n σ), exec_append (.plain rfl) (.plain rfl)]
    by_cases hOne : ∃ k vs, σ.stack = .i32 k :: vs
    · -- The product is there, but nothing to add it to.
      obtain ⟨k, vs, hStack⟩ := hOne
      have hScale : exec R [Instr.numeric .i32 .mul]
            { σ with stack := .i32 (wordOf n) :: σ.stack } =
          .ok () { σ with stack := .i32 (k * wordOf n) :: vs } := by
        rw [hStack]
        exact exec_pure (r := some (.i32 (k * wordOf n))) [.i32 k, .i32 (wordOf n)] rfl rfl rfl
      rw [Action.bind_of_ok hScale]
      refine exec_pair_stuck (.inl rfl) ?_
      rintro ⟨_, b, us, hPair⟩
      obtain ⟨-, rfl⟩ := List.cons.inj hPair
      exact h ⟨k, b, us, hStack⟩
    · have hNoPair : ¬HasPair (.i32 (wordOf n) :: σ.stack) := by
        rintro ⟨_, k, vs, hPair⟩
        exact hOne ⟨k, vs, (List.cons.inj hPair).2⟩
      have hStuck : Exec.Stuck { σ with stack := .i32 (wordOf n) :: σ.stack }
          (exec R [.numeric .i32 .mul] { σ with stack := .i32 (wordOf n) :: σ.stack }) :=
        exec_pair_stuck (.inr rfl) hNoPair
      obtain ⟨τ, hRun, hLocals, hWorld⟩ := hStuck
      rw [Action.bind_of_error hRun]
      exact ⟨τ, rfl, hLocals, hWorld⟩

/-- Scaling the offset makes no difference exactly if it does not change the offset. -/
theorem exec_scale_alike_iff (n : Nat) :
    Exec.Alike (exec R (Emit.scaleCode n ++ [Instr.numeric .i32 .add]) σ)
        (exec R [.numeric .i32 .add] σ) ↔
      ∀ k b vs, σ.stack = .i32 k :: .i32 b :: vs → k * wordOf n = k := by
  by_cases hPair : HasPair σ.stack
  · obtain ⟨k, b, vs, hStack⟩ := hPair
    have hAdd : exec R [.numeric .i32 .add] σ = .ok () { σ with stack := .i32 (b + k) :: vs } :=
      exec_pure (r := some (.i32 (b + k))) [.i32 b, .i32 k] rfl rfl hStack
    rw [exec_scale n hStack, hAdd]
    constructor
    · intro hAlike k' b' vs' hStack'
      have hSame := congrArg State.stack hAlike
      rw [hStack'] at hStack
      simp only [List.cons.injEq, Value.i32.injEq] at hSame hStack
      obtain ⟨rfl, -, -⟩ := hStack
      exact (Int32.add_right_inj b).mp hSame.1
    · intro hScale
      rw [hScale k b vs hStack]
      exact .refl _
  · constructor
    · intro _ k b vs hStack
      exact absurd ⟨k, b, vs, hStack⟩ hPair
    · intro _
      exact (exec_scale_stuck n hPair).alike (exec_pair_stuck (.inl rfl) hPair)

/-- The same for offsets and addresses that other code leaves. -/
theorem exec_append_scale_alike_iff {p : Code} (h : Balanced p) (n : Nat) :
    Exec.Alike (exec R (p ++ Emit.scaleCode n ++ [Instr.numeric .i32 .add]) σ)
        (exec R (p ++ [.numeric .i32 .add]) σ) ↔
      ∀ τ k b vs, exec R p σ = .ok () τ → τ.stack = .i32 k :: .i32 b :: vs → k * wordOf n = k := by
  rw [List.append_assoc, exec_append h ((scaleCode_balanced n).append (.plain rfl)),
    exec_append h (.plain rfl)]
  cases hRun : exec R p σ with
  | error e τ =>
    rw [Action.bind_of_error hRun, Action.bind_of_error hRun]
    simp [Exec.Alike.refl]
  | ok u τ =>
    rw [Action.bind_of_ok hRun, Action.bind_of_ok hRun, exec_scale_alike_iff]
    constructor
    · rintro hScale _ k b vs ⟨⟩ hStack
      exact hScale k b vs hStack
    · intro hScale k b vs hStack
      exact hScale τ k b vs rfl hStack

end Code

end Wasm

namespace Expr

section

variable {sigs : Signatures} {scope : Scope} {a i : Expr Unit} {a' i' : Expr Ty} {t : Ty}

theorem check_index (ha : a.check sigs scope = .ok a') (ht : a'.info.element? = some t)
    (hi : i.check sigs scope = .ok i') (hInt : i'.info.isIntegral = true) (s : Span) :
    (index () s a i).check sigs scope = .ok (index t s a' i') := by
  simp only [check, Checked.bind_eq_ok_iff, Checked.pure_eq_ok_iff]
  exact ⟨a', ha, t, elementTy_eq_ok_iff.mpr ht, i', hi, (), ensureIndex_eq_ok_iff.mpr hInt, rfl⟩

theorem check_deref_add (ha : a.check sigs scope = .ok a') (ht : a'.info.element? = some t)
    (hi : i.check sigs scope = .ok i') (hInt : i'.info.isIntegral = true) (s s' : Span)
    (fixity : Fixity) :
    (unary () s .deref fixity (binary () s' .add a i)).check sigs scope =
      .ok (unary t s .deref fixity (binary a'.info s' .add a' i')) := by
  have hAdd : BinaryOp.add.type a'.info i'.info = .ok a'.info := by
    have hIndexable := Ty.isIndexable_of_element ht
    have hInteger := Ty.ne_void_of_isIntegral hInt
    rw [BinaryOp.type_eq_ok_iff]
    simp [BinaryOp.acceptsOperand, BinaryOp.acceptsFloat, BinaryOp.compatible,
      BinaryOp.resultTy, BinaryOp.isComparison, Ty.ne_void_of_element ht, hIndexable, hInteger,
      hInt]
  have hDeref (isVariable : Bool) : UnaryOp.deref.type isVariable a'.info = .ok t :=
    UnaryOp.type_deref_eq_ok_iff.mpr ht
  simp only [check, Checked.bind_eq_ok_iff, Checked.pure_eq_ok_iff, Checked.locate_eq_ok_iff]
  exact ⟨_, ⟨a', ha, i', hi, _, hAdd, rfl⟩, t, hDeref _, rfl⟩

end

/-- The subscript can be lowered exactly if the sum can. -/
theorem emit_index_iff_deref_add {globals : Globals} {a i : Expr Ty} {t : Ty}
    (h : a.info.element? = some t) (s s' s'' : Span) (fixity : Fixity) (f f' : Frame) :
    (∃ code, (index t s a i).emit globals f = .ok code f') ↔
      ∃ code, (unary t s' .deref fixity (binary a.info s'' .add a i)).emit globals f =
        .ok code f' := by
  by_cases hFloat : t = .float
  · subst hFloat
    constructor
    · rintro ⟨code, hCode⟩
      exact absurd hCode (Emit.emit_index_float h f f' code)
    · rintro ⟨code, hCode⟩
      exact absurd hCode (Emit.emit_deref_add_float h f f' code)
  · simp only [Emit.emit_index h hFloat, Emit.emit_deref_add h hFloat, Action.bind_eq_ok_iff,
      Action.pure_eq_ok_iff]
    constructor
    · rintro ⟨_, p, f₁, hBoth, -, rfl⟩
      exact ⟨_, p, f₁, hBoth, rfl, rfl⟩
    · rintro ⟨_, p, f₁, hBoth, -, rfl⟩
      exact ⟨_, p, f₁, hBoth, rfl, rfl⟩

/-- A subscript and the sum that it stands for have the same type and are lowered from the same
frames, to the same code if the element is not an array.  If it is, neither loads anything, and the
runs agree exactly where the length of a row times the offset is the offset. -/
theorem index_agrees_iff {sigs : Signatures} {scope : Scope} {a i : Expr Unit} {a' i' : Expr Ty}
    {t : Ty} (ha : a.check sigs scope = .ok a') (ht : a'.info.element? = some t)
    (hi : i.check sigs scope = .ok i') (hInt : i'.info.isIntegral = true) (s s' s'' : Span)
    (fixity : Fixity) :
    ∃ x y, (index () s a i).check sigs scope = .ok x ∧
      (unary () s' .deref fixity (binary () s'' .add a i)).check sigs scope = .ok y ∧
      x.info = t ∧ y.info = t ∧
      ∀ (globals : Globals) (f : Frame),
        (∀ f', (∃ code, x.emit globals f = .ok code f') ↔ ∃ code, y.emit globals f = .ok code f') ∧
        ∀ code fx code' fy, x.emit globals f = .ok code fx → y.emit globals f = .ok code' fy →
          (t.isArray = false → code = code') ∧
          ∃ p, Emit.both globals a' i' f = .ok p fx ∧ fy = fx ∧
            code = p ++ Emit.scaleCode (Emit.stride a'.info) ++ [.numeric .i32 .add] ++
              Emit.elementLoad t ∧
            code' = p ++ [.numeric .i32 .add] ++ Emit.elementLoad t ∧
            ∀ (R : Runtime) (σ : State),
              Exec.Alike (Code.exec R code σ) (Code.exec R code' σ) ↔
                ∀ τ k b vs, Code.exec R p σ = .ok () τ → τ.stack = .i32 k :: .i32 b :: vs →
                  k * wordOf (Emit.stride a'.info) = k := by
  refine ⟨_, _, check_index ha ht hi hInt s, check_deref_add ha ht hi hInt s' s'' fixity, rfl, rfl,
    fun globals f => ⟨emit_index_iff_deref_add ht s s' s'' fixity f, ?_⟩⟩
  intro code fx code' fy hIndex hSum
  by_cases hFloat : t = .float
  · subst hFloat
    exact absurd hIndex (Emit.emit_index_float ht f fx code)
  · rw [Emit.emit_index ht hFloat, Action.bind_eq_ok_iff] at hIndex
    rw [Emit.emit_deref_add ht hFloat, Action.bind_eq_ok_iff] at hSum
    obtain ⟨p, _, hBoth, ⟨⟩⟩ := hIndex
    obtain ⟨p', _, hBoth', ⟨⟩⟩ := hSum
    obtain ⟨rfl, rfl⟩ := EStateM.Result.ok.inj (hBoth.symm.trans hBoth')
    have hBalanced : Balanced p := (Emit.both_closed a' i').ok hBoth
    cases hArray : t.isArray with
    | false =>
      -- The elements are one byte apart.
      have hStride : Emit.stride a'.info = 1 := by
        rw [Emit.stride, ht]
        simp only [hArray, Bool.false_eq_true, if_false]
      have hSame : p ++ Emit.scaleCode (Emit.stride a'.info) = p := by
        rw [hStride]
        exact List.append_nil p
      rw [hSame]
      refine ⟨fun _ => rfl, p, hBoth, rfl, by rw [hSame], rfl, fun R σ => ?_⟩
      rw [hStride, show wordOf 1 = 1 from rfl]
      exact ⟨fun _ _ k _ _ _ _ => Int32.mul_one k, fun _ => .refl _⟩
    | true =>
      have hLoad : Emit.elementLoad t = [] := if_pos hArray
      refine ⟨fun h => Bool.noConfusion h, p, hBoth, rfl, rfl, rfl, fun R σ => ?_⟩
      rw [hLoad, List.append_nil, List.append_nil]
      exact Code.exec_append_scale_alike_iff hBalanced _

/-- The variables of the examples: two rows of three bytes, and an offset. -/
def rowScope : Scope := [("g", .array (.array .char 3) 2), ("i", .int)]

def rowFrame : Frame := ⟨.empty, [.i32, .i32], [("g", 0), ("i", 1)]⟩

/-- The rows start at ten. -/
def rowState (i : Int32) : State := ⟨[], [.i32 10, .i32 i], ⟨[], []⟩⟩

/-- `g[i]` and `*(g + i)` agree where `i` is zero, and do not where it is one. -/
theorem index_agrees_iff_rows :
    let g : Expr Unit := .var () .start ⟨"g", .start⟩
    let i : Expr Unit := .var () .start ⟨"i", .start⟩
    ∃ x y code code', (index () .start g i).check [] rowScope = .ok x ∧
      (unary () .start .deref .before (binary () .start .add g i)).check [] rowScope = .ok y ∧
      x.emit [] rowFrame = .ok code rowFrame ∧ y.emit [] rowFrame = .ok code' rowFrame ∧
      ∀ R : Runtime,
        Exec.Alike (Code.exec R code (rowState 0)) (Code.exec R code' (rowState 0)) ∧
        ¬Exec.Alike (Code.exec R code (rowState 1)) (Code.exec R code' (rowState 1)) := by
  intro g i
  have hg : g.check [] rowScope = .ok (.var (.array (.array .char 3) 2) .start ⟨"g", .start⟩) :=
    rfl
  have hi : i.check [] rowScope = .ok (.var .int .start ⟨"i", .start⟩) := rfl
  obtain ⟨x, y, hx, hy, -, -, hAgree⟩ :=
    index_agrees_iff hg (t := .array .char 3) rfl hi rfl .start .start .start .before
  cases hx
  cases hy
  obtain ⟨-, hCodes⟩ := hAgree [] rowFrame
  obtain ⟨-, p, hBoth, -, -, -, hAlike⟩ := hCodes _ _ _ _ rfl rfl
  cases hBoth
  refine ⟨_, _, _, _, rfl, rfl, rfl, rfl, fun R => ⟨(hAlike R _).mpr ?_, fun h => ?_⟩⟩
  · rintro _ k b vs ⟨⟩ ⟨⟩
    rfl
  · have hOne := (hAlike R _).mp h _ 1 10 [] rfl rfl
    exact absurd hOne (by decide)

/-- The second row, as an element and through the address of the first one. -/
def rowsTwoWays : String :=
  "void f() \x7b char g[2][3]; log(g[1]); log(*(g + 1)); \x7d"

/-- The two calls are given different addresses. -/
theorem rows_disagree :
    ∃ p m w, checkSource rowsTwoWays = .ok p ∧ p.emit = .ok m ∧
      m.call Program.floatless 1 "f" [] ⟨[], []⟩ = .ok none w ∧
      w.calls = [("log", [.i32 4]), ("log", [.i32 2])] := by
  have hCompiles : compilesTo (fun _ m =>
      match m.call Program.floatless 1 "f" [] ⟨[], []⟩ with
      | .ok r w => decide (r = none ∧ w.calls = [("log", [.i32 4]), ("log", [.i32 2])])
      | .error _ _ => false) rowsTwoWays = true :=
    compilesTo_ofList (by decide +kernel)
  obtain ⟨p, m, hCheck, hEmit, hTest⟩ := exists_of_compilesTo hCompiles
  cases hRun : m.call Program.floatless 1 "f" [] ⟨[], []⟩ with
  | error e w =>
    rw [hRun] at hTest
    cases hTest
  | ok r w =>
    rw [hRun] at hTest
    obtain ⟨rfl, hCalls⟩ := of_decide_eq_true hTest
    exact ⟨p, m, w, hCheck, hEmit, hRun, hCalls⟩

end Expr

end MiniC
