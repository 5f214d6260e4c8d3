import Mathlib.Logic.Relation
import MiniC.Proofs.Structure.Slots

/-! # The points that lowering passes

Lowering a function goes from its body into the bodies of its branches and loops.  A point on the way
has the statements that come next, the labels and the frame they are lowered with, the code that
stands before theirs in the function and the source loops around them.  Points are followed whether or
not the whole function can be lowered: an error at a point is the error of the function.
-/
namespace MiniC
set_option autoImplicit false

open Wasm (Code Instr)

/-- A source loop, with the labels outside of it and the place of its `loop` in the function. -/
structure Enclosing where
  stmt : Stmt Ty
  labels : List Label
  start : Nat

structure Point where
  rest : List (Stmt Ty)
  labels : List Label
  frame : Frame
  before : Code
  /-- The loops around the point, innermost first. -/
  loops : List Enclosing

def Point.emit (globals : Globals) (p : Point) : EStateM.Result (Located CodeError) Frame Code :=
  Stmt.emitAll globals p.labels p.rest p.frame

/-- The code between the start of a loop and its body. -/
def loopHead (wrapped : Bool) : Code := [Instr.loop] ++ if wrapped then [Instr.block] else []

theorem prefix_blockIf (wrapped : Bool) {a b : Code} (h : a <+: b) (rest : Code) :
    (if wrapped then [Instr.block] else []) ++ a <+: Emit.blockIf wrapped b ++ rest := by
  cases wrapped with
  | false => exact h.trans (List.prefix_append _ _)
  | true =>
    simp only [Emit.blockIf, if_true, List.append_assoc, List.prefix_append_right_inj]
    exact h.trans (List.prefix_append _ _)

theorem prefix_loopHead (wrapped : Bool) (b rest : Code) :
    loopHead wrapped ++ b <+: [Instr.loop] ++ (Emit.blockIf wrapped b ++ rest) := by
  simp only [loopHead, List.append_assoc, List.prefix_append_right_inj]
  exact prefix_blockIf wrapped (List.prefix_refl b) rest

/-- Lowering goes from one point to the next or into a part of the first statement. -/
inductive Point.Steps (globals : Globals) : Point → Point → Prop
  | next {x xs labels s s₁ before loops a} : x.emit globals labels s = .ok a s₁ →
      Steps globals ⟨x :: xs, labels, s, before, loops⟩ ⟨xs, labels, s₁, before ++ a, loops⟩
  | thenBody {s₀ cond thenBody elseBody xs labels s s₁ before loops c} :
      cond.emit globals s = .ok c s₁ →
      Steps globals ⟨.branch s₀ cond thenBody elseBody :: xs, labels, s, before, loops⟩
        ⟨thenBody, none :: labels, s₁, before ++ c ++ [Instr.if_], loops⟩
  | elseBody {s₀ cond thenBody elseBody xs labels s s₁ s₂ before loops c t} :
      cond.emit globals s = .ok c s₁ →
      Stmt.emitAll globals (none :: labels) thenBody s₁ = .ok t s₂ → elseBody.isEmpty = false →
      Steps globals ⟨.branch s₀ cond thenBody elseBody :: xs, labels, s, before, loops⟩
        ⟨elseBody, none :: labels, s₂, before ++ c ++ [Instr.if_] ++ t ++ [Instr.else_], loops⟩
  | whileBody {s₀ cond body xs labels s s₁ before loops c} :
      cond.emit globals s = .ok c s₁ →
      Steps globals ⟨.loop s₀ .whileDo cond body :: xs, labels, s, before, loops⟩
        ⟨body, Emit.bodyLabels (Stmt.jumpsAny .continue_ body) (some .break_ :: labels), s₁,
          before ++ c ++ [Instr.if_] ++ loopHead (Stmt.jumpsAny .continue_ body),
          ⟨.loop s₀ .whileDo cond body, labels, (before ++ c ++ [Instr.if_]).length⟩ :: loops⟩
  | doBody {s₀ cond body xs labels s before loops} :
      Steps globals ⟨.loop s₀ .doWhile cond body :: xs, labels, s, before, loops⟩
        ⟨body, Emit.bodyLabels (Stmt.jumpsAny .continue_ body)
            (if Stmt.jumpsAny .break_ body then some .break_ :: labels else labels), s,
          before ++ (if Stmt.jumpsAny .break_ body then [Instr.block] else []) ++
            loopHead (Stmt.jumpsAny .continue_ body),
          ⟨.loop s₀ .doWhile cond body, labels,
            (before ++ if Stmt.jumpsAny .break_ body then [Instr.block] else []).length⟩ :: loops⟩
  | forInit {s₀ init cond update body xs labels s before loops} :
      Steps globals ⟨.forLoop s₀ (some init) cond update body :: xs, labels, s, before, loops⟩
        ⟨[init], labels, s, before, loops⟩
  | forBody {s₀ init cond update body xs labels s s₁ s₂ before loops i c} :
      Stmt.emitOption globals labels init s = .ok i s₁ →
      Emit.condition globals cond s₁ = .ok c s₂ →
      Steps globals ⟨.forLoop s₀ init cond update body :: xs, labels, s, before, loops⟩
        ⟨body, Emit.bodyLabels (Stmt.jumpsAny .continue_ body) (some .break_ :: labels), s₂,
          before ++ i ++ c ++ [Instr.if_] ++ loopHead (Stmt.jumpsAny .continue_ body),
          ⟨.forLoop s₀ init cond update body, labels,
            (before ++ i ++ c ++ [Instr.if_]).length⟩ :: loops⟩
  | forUpdate {s₀ init cond update body xs labels s s₁ s₂ s₃ before loops i c b} :
      Stmt.emitOption globals labels init s = .ok i s₁ →
      Emit.condition globals cond s₁ = .ok c s₂ →
      Stmt.emitAll globals
        (Emit.bodyLabels (Stmt.jumpsAny .continue_ body) (some .break_ :: labels)) body s₂ =
          .ok b s₃ →
      Steps globals ⟨.forLoop s₀ init cond (some update) body :: xs, labels, s, before, loops⟩
        ⟨[update], none :: some .break_ :: labels, s₃,
          before ++ i ++ c ++ [Instr.if_] ++ [Instr.loop] ++
            Emit.blockIf (Stmt.jumpsAny .continue_ body) b,
          ⟨.forLoop s₀ init cond (some update) body, labels,
            (before ++ i ++ c ++ [Instr.if_]).length⟩ :: loops⟩

abbrev Point.Reaches (globals : Globals) : Point → Point → Prop :=
  Relation.ReflTransGen (Point.Steps globals)

namespace Stmt

variable {globals : Globals} {labels : List Label} {s s' : Frame}

theorem emitAll_cons_of_error {x : Stmt Ty} {e : Located CodeError} (xs : List (Stmt Ty))
    (h : x.emit globals labels s = .error e s') :
    emitAll globals labels (x :: xs) s = .error e s' := by
  rw [emitAll, Action.bind_of_error h]

end Stmt

namespace Point.Steps

variable {globals : Globals} {p q : Point}

/-- An error at a point is an error where the point was reached from. -/
theorem emit_error (h : Steps globals p q) {e : Located CodeError} {s : Frame}
    (hq : q.emit globals = .error e s) : p.emit globals = .error e s := by
  cases h with
  | next hX =>
    rw [emit, Stmt.emitAll, Action.bind_of_ok hX, Action.bind_of_error hq]
  | thenBody hCond =>
    refine Stmt.emitAll_cons_of_error _ ?_
    rw [Stmt.emit, Action.bind_of_ok hCond, Action.bind_of_error hq]
  | elseBody hCond hThen hSome =>
    refine Stmt.emitAll_cons_of_error _ ?_
    rw [Stmt.emit, Action.bind_of_ok hCond, Action.bind_of_ok hThen, Action.bind_of_error hq]
  | whileBody hCond =>
    refine Stmt.emitAll_cons_of_error _ ?_
    simp only [Stmt.emit, Emit.guarded, Emit.repeatLoop, bind_assoc]
    rw [Action.bind_of_ok hCond, Action.bind_of_error hq]
  | doBody =>
    refine Stmt.emitAll_cons_of_error _ ?_
    simp only [Stmt.emit, Emit.repeatLoop, bind_assoc]
    rw [Action.bind_of_error hq]
  | forInit =>
    rw [emit, Stmt.emitAll_singleton] at hq
    refine Stmt.emitAll_cons_of_error _ ?_
    rw [Stmt.emit, Stmt.emitOption, Action.bind_of_error hq]
  | forBody hInit hCond =>
    refine Stmt.emitAll_cons_of_error _ ?_
    simp only [Stmt.emit, Emit.guarded, Emit.repeatLoop, bind_assoc]
    rw [Action.bind_of_ok hInit, Action.bind_of_ok hCond, Action.bind_of_error hq]
  | forUpdate hInit hCond hBody =>
    rw [emit, Stmt.emitAll_singleton] at hq
    refine Stmt.emitAll_cons_of_error _ ?_
    simp only [Stmt.emit, Stmt.emitOption, Emit.guarded, Emit.repeatLoop, bind_assoc]
    rw [Action.bind_of_ok hInit, Action.bind_of_ok hCond, Action.bind_of_ok hBody,
      Action.bind_of_error hq]

/-- If the code of a point can be made, so can that of every point reached from it, and it stands
there as the point says. -/
theorem emit_ok (h : Steps globals p q) {code : Code} {s : Frame}
    (hp : p.emit globals = .ok code s) :
    ∃ code' s', q.emit globals = .ok code' s' ∧ q.before ++ code' <+: p.before ++ code := by
  cases h with
  | next hX =>
    obtain ⟨a, s₁, b, hX', hXs, rfl⟩ := Stmt.emitAll_cons_eq_ok hp
    cases hX.symm.trans hX'
    exact ⟨b, s, hXs, by simp only [List.append_assoc, List.prefix_refl]⟩
  | thenBody hCond =>
    obtain ⟨_, s₁, b, hX, hXs, rfl⟩ := Stmt.emitAll_cons_eq_ok hp
    obtain ⟨c, _, t, s₂, e, hCond', hThen, hElse, rfl⟩ := Stmt.emit_branch_eq_ok hX
    cases hCond.symm.trans hCond'
    refine ⟨t, s₂, hThen, ?_⟩
    simp only [List.append_assoc, List.prefix_append_right_inj]
    exact List.prefix_append _ _
  | elseBody hCond hThen hSome =>
    obtain ⟨_, s₁, b, hX, hXs, rfl⟩ := Stmt.emitAll_cons_eq_ok hp
    obtain ⟨c, _, t, s₂, e, hCond', hThen', hElse, rfl⟩ := Stmt.emit_branch_eq_ok hX
    cases hCond.symm.trans hCond'
    cases hThen.symm.trans hThen'
    refine ⟨e, s₁, hElse, ?_⟩
    simp only [hSome, List.append_assoc, List.prefix_append_right_inj, Bool.false_eq_true, if_false]
    exact List.prefix_append _ _
  | whileBody hCond =>
    obtain ⟨_, s₁, b, hX, hXs, rfl⟩ := Stmt.emitAll_cons_eq_ok hp
    obtain ⟨c, _, b', s₂, c', hCond', hBody, hCond'', rfl⟩ := Stmt.emit_whileDo_eq_ok hX
    cases hCond.symm.trans hCond'
    refine ⟨b', s₂, hBody, ?_⟩
    simp only [List.append_assoc, List.prefix_append_right_inj]
    exact prefix_loopHead _ _ _
  | doBody =>
    obtain ⟨_, s₁, b, hX, hXs, rfl⟩ := Stmt.emitAll_cons_eq_ok hp
    obtain ⟨b', s₂, c, hBody, hCond, rfl⟩ := Stmt.emit_doWhile_eq_ok hX
    refine ⟨b', s₂, hBody, ?_⟩
    simp only [List.append_assoc, List.prefix_append_right_inj]
    exact prefix_blockIf _ (prefix_loopHead _ _ _) _
  | forInit =>
    obtain ⟨_, s₁, b, hX, hXs, rfl⟩ := Stmt.emitAll_cons_eq_ok hp
    obtain ⟨i, s₂, _, _, _, _, _, _, _, hInit, _, _, _, _, rfl⟩ := Stmt.emit_forLoop_eq_ok hX
    refine ⟨i, s₂, ?_, ?_⟩
    · rw [emit, Stmt.emitAll_singleton]
      exact hInit
    · simp only [List.append_assoc, List.prefix_append_right_inj]
      exact List.prefix_append _ _
  | forBody hInit hCond =>
    obtain ⟨_, s₁, b, hX, hXs, rfl⟩ := Stmt.emitAll_cons_eq_ok hp
    obtain ⟨i, _, c, _, b', s₂, _, _, _, hInit', hCond', hBody, _, _, rfl⟩ :=
      Stmt.emit_forLoop_eq_ok hX
    cases hInit.symm.trans hInit'
    cases hCond.symm.trans hCond'
    refine ⟨b', s₂, hBody, ?_⟩
    simp only [List.append_assoc, List.prefix_append_right_inj]
    exact prefix_loopHead _ _ _
  | forUpdate hInit hCond hBody =>
    obtain ⟨_, s₁, b, hX, hXs, rfl⟩ := Stmt.emitAll_cons_eq_ok hp
    obtain ⟨i, _, c, _, b', _, u, s₂, _, hInit', hCond', hBody', hUpdate, _, rfl⟩ :=
      Stmt.emit_forLoop_eq_ok hX
    cases hInit.symm.trans hInit'
    cases hCond.symm.trans hCond'
    cases hBody.symm.trans hBody'
    refine ⟨u, s₂, ?_, ?_⟩
    · rw [emit, Stmt.emitAll_singleton]
      exact hUpdate
    · simp only [List.append_assoc, List.prefix_append_right_inj]
      exact List.prefix_append _ _

end Point.Steps

section

variable {globals : Globals} {labels : List Label} {s s' : Frame} {c : Code}

theorem Expr.emit_straight {e : Expr Ty} (hs : s.Sound) (h : e.emit globals s = .ok c s') :
    (∀ i ∈ c, i.Straight s'.slots.length) ∧ s'.Sound := by
  have hRuns : Runs s s' s s' [] e.place _ := e.emit_runs hs h
  obtain ⟨u, -, hLowers⟩ := hRuns.placed
  exact ⟨ExprLowers.straight (Bindings.within_ofRun hs) e (hLowers (.refl _) (.refl _)),
    hs.of_below hRuns.declares.below⟩

theorem Emit.condition_straight {e? : Option (Expr Ty)} (hs : s.Sound)
    (h : condition globals e? s = .ok c s') :
    (∀ i ∈ c, i.Straight s'.slots.length) ∧ s'.Sound := by
  have hRuns : Runs s s' s s' [] (Expr.placeOption e?) _ := condition_runs hs h
  obtain ⟨u, -, hLowers⟩ := hRuns.placed
  exact ⟨(hLowers (.refl _) (.refl _)).straight (Bindings.within_ofRun hs),
    hs.of_below hRuns.declares.below⟩

theorem Stmt.emit_lowers {x : Stmt Ty} (hs : s.Sound) (h : x.emit globals labels s = .ok c s') :
    (∃ arrays, StmtLowers (.ofRun globals s s') labels x c arrays) ∧ s'.Sound := by
  have hRuns : Runs s s' s s' x.locals x.place _ := x.emit_runs hs h
  obtain ⟨arrays, -, hLowers⟩ := hRuns.placed
  exact ⟨⟨arrays, hLowers (.refl _) (.refl _)⟩, hs.of_below hRuns.declares.below⟩

theorem Stmt.emit_nested {x : Stmt Ty} (hs : s.Sound) (h : x.emit globals labels s = .ok c s') :
    Wasm.Nested s'.slots.length labels.length c ∧ s'.Sound := by
  obtain ⟨⟨arrays, hLowers⟩, hs'⟩ := emit_lowers hs h
  exact ⟨hLowers.nested (Bindings.within_ofRun hs) x, hs'⟩

theorem Stmt.emitAll_nested {xs : List (Stmt Ty)} (hs : s.Sound)
    (h : emitAll globals labels xs s = .ok c s') :
    Wasm.Nested s'.slots.length labels.length c ∧ s'.Sound := by
  have hRuns : Runs s s' s s' (localsAll xs) (placeAll xs) _ := emitAll_runs hs xs h
  obtain ⟨arrays, -, hLowers⟩ := hRuns.placed
  exact ⟨(hLowers (.refl _) (.refl _)).nested (Bindings.within_ofRun hs) xs,
    hs.of_below hRuns.declares.below⟩

theorem Stmt.emitOption_nested {x? : Option (Stmt Ty)} (hs : s.Sound)
    (h : emitOption globals labels x? s = .ok c s') :
    Wasm.Nested s'.slots.length labels.length c ∧ s'.Sound := by
  cases x? with
  | none =>
    obtain ⟨rfl, rfl⟩ := Action.pure_eq_ok_iff.mp h
    exact ⟨.nil, hs⟩
  | some x => exact emit_nested hs h

end

end MiniC
