import MiniC.Proofs.Lowering.Expr

/-! # The code of statements keeps to the rules -/
namespace MiniC
set_option autoImplicit false

open Wasm (Code Instr ValType)

variable {globals : Globals} {start fin : Frame}

namespace Emit

theorem optionExpr_runs (hStart : start.Sound) {e? : Option (Expr Ty)} {s s' : Frame} {c : Code}
    (h : optionExpr globals e? s = .ok c s') :
    Runs start fin s s' [] (Expr.placeOption e?)
      fun _ => (e? = none ∧ c = []) ∨ ∃ e, e? = some e ∧
        ExprLowers (.ofRun globals start fin) e c := by
  cases e? with
  | none =>
    obtain ⟨rfl, rfl⟩ := Action.pure_eq_ok_iff.mp h
    exact .pure fun _ _ => .inl ⟨rfl, rfl⟩
  | some e => exact (e.emit_runs hStart h).imp fun _ hE => .inr ⟨e, rfl, hE⟩

theorem condition_runs (hStart : start.Sound) {e? : Option (Expr Ty)} {s s' : Frame} {c : Code}
    (h : condition globals e? s = .ok c s') :
    Runs start fin s s' [] (Expr.placeOption e?)
      fun _ => CondLowers (.ofRun globals start fin) e? c := by
  cases e? with
  | none =>
    obtain ⟨rfl, rfl⟩ := Action.pure_eq_ok_iff.mp h
    exact .pure fun _ _ => .none
  | some e => exact (e.emit_runs hStart h).imp fun _ => .some

theorem assign_runs (hStart : start.Sound) {x : Ident} {e : Expr Ty} {s s' : Frame} {c : Code}
    (h : assign globals x e s = .ok c s') :
    Runs start fin s s' [] e.place
      fun _ => ∃ p code, (Bindings.ofRun globals start fin).place x.name p ∧
        ExprLowers (.ofRun globals start fin) e code ∧ c = p.write code := by
  simp only [assign, Action.bind_eq_ok_iff, resolve_eq_ok_iff] at h
  obtain ⟨p, _, ⟨hPlace, rfl⟩, h⟩ := h
  have hCode : ∃ code, e.emit globals s = .ok code s' ∧ c = p.write code := by
    cases p <;> simp only [Action.bind_eq_ok_iff, Action.pure_eq_ok_iff] at h
    · obtain ⟨code, _, hE, rfl, rfl⟩ := h
      exact ⟨code, hE, rfl⟩
    · obtain ⟨code, _, hE, rfl, rfl⟩ := h
      exact ⟨code, hE, rfl⟩
  obtain ⟨code, hE, rfl⟩ := hCode
  have hRuns : Runs start fin _ _ [] e.place _ := e.emit_runs hStart hE
  obtain ⟨u, hData, hLowers⟩ := hRuns.placed
  refine ⟨hRuns.declares, u, hData, fun hLow hHigh => ?_⟩
  exact ⟨p, code, ⟨s, hLow, hRuns.declares.below.trans hHigh, hPlace⟩, hLowers hLow hHigh, rfl⟩

theorem declared_of_declare {x : Ident} {ty : Ty} {s s' : Frame} {n : Nat}
    (h : declare x ty s = .ok n s') (hHigh : s'.Below fin) :
    (Bindings.ofRun globals start fin).declared x.name ty n := by
  obtain ⟨hName, hSlot, -, -⟩ := declare_declares h
  refine ⟨Frame.mem_names_of_below hHigh hName, ?_⟩
  obtain ⟨a, hHigh⟩ := hHigh
  exact Frame.getElem?_of_prefix hHigh.slots hSlot

theorem declareArray_runs {labels : List Label} {s₀ : Span} {x : Ident} {ty : Ty}
    {init : Option (Expr Ty)} (hArray : ty.isArray = true) {s s' : Frame} {c : Code}
    (h : declareArray s₀ x ty init s = .ok c s') :
    Runs start fin s s' [(x.name, ty)] (Stmt.declare s₀ x ty init).place
      (StmtLowers (.ofRun globals start fin) labels (.declare s₀ x ty init) c) := by
  cases init with
  | some e => cases h
  | none =>
    simp only [declareArray, Action.bind_eq_ok_iff, Action.pure_eq_ok_iff,
      inMemory_eq_ok_iff] at h
    obtain ⟨a, _, ⟨m, hReserve, rfl⟩, n, _, hDeclare, rfl, rfl⟩ := h
    obtain ⟨-, -, hMemory, hDeclares⟩ := declare_declares hDeclare
    have hFirst : s.Declares [] { s with memory := m } := by
      apply inMemory_declares
      rw [Memory.reserveArray_strings hReserve]
      exact fun _ _ h => h
    refine ⟨hFirst.trans hDeclares, [(x.name, a)], ?_, ?_⟩
    · simp only [Stmt.place, hArray, reduceIte]
      rw [Action.bind_of_ok hReserve, hMemory]
      rfl
    · intro _ hHigh
      exact .array hArray (declared_of_declare hDeclare hHigh)

theorem declareScalar_runs (hStart : start.Sound) {labels : List Label} {s₀ : Span} {x : Ident}
    {ty : Ty} {init : Option (Expr Ty)} (hArray : ty.isArray = false) {s s' : Frame} {c : Code}
    (h : declareScalar globals x ty init s = .ok c s') :
    Runs start fin s s' [(x.name, ty)] (Stmt.declare s₀ x ty init).place
      (StmtLowers (.ofRun globals start fin) labels (.declare s₀ x ty init) c) := by
  simp only [declareScalar, Action.bind_eq_ok_iff] at h
  obtain ⟨n, s₁, hDeclare, h⟩ := h
  obtain ⟨-, -, hMemory, hDeclares⟩ := declare_declares hDeclare
  have hPlace : (Stmt.declare s₀ x ty init).place = do
      Expr.placeOption init
      return [] := by
    simp only [Stmt.place, hArray]
    rfl
  rw [hPlace]
  cases init with
  | none =>
    obtain ⟨rfl, rfl⟩ := Action.pure_eq_ok_iff.mp h
    refine ⟨hDeclares, [], by rw [← hMemory]; rfl, fun _ hHigh => ?_⟩
    exact .scalar hArray (declared_of_declare hDeclare hHigh)
  | some e =>
    simp only [Action.bind_eq_ok_iff, Action.pure_eq_ok_iff] at h
    obtain ⟨code, _, hE, rfl, rfl⟩ := h
    have hRuns : Runs start fin _ _ [] e.place _ := e.emit_runs hStart hE
    obtain ⟨u, hData, hLowers⟩ := hRuns.placed
    refine ⟨hDeclares.trans hRuns.declares, [], ?_, fun hLow hHigh => ?_⟩
    · rw [← hMemory]
      exact Action.bind_of_ok hData
    · exact .scalarInit hArray (declared_of_declare hDeclare (hRuns.declares.below.trans hHigh))
        (hLowers (hLow.trans hDeclares.below) hHigh)

theorem effect_runs (hStart : start.Sound) {e : Expr Ty} {s s' : Frame} {c : Code}
    (h : effect globals e s = .ok c s') :
    Runs start fin s s' [] e.place fun _ => EffectLowers (.ofRun globals start fin) e c := by
  have hPlain (h : (do return (← e.emit globals) ++ if e.info = .void then [] else [Instr.drop] :
      Emit Code) s = .ok c s') :
      Runs start fin s s' [] e.place fun _ => EffectLowers (.ofRun globals start fin) e c := by
    simp only [Action.bind_eq_ok_iff, Action.pure_eq_ok_iff] at h
    obtain ⟨code, _, hE, rfl, rfl⟩ := h
    exact (e.emit_runs hStart hE).imp fun _ => .plain
  cases e with
  | unary ty s₀ op fixity operand =>
    simp only [effect] at h
    split at h
    · rename_i hOp
      obtain ⟨t, s₁, x, rfl, hRuns⟩ := step_runs hStart h
      exact hRuns.imp fun _ => .step hOp
    · exact hPlain h
  | _ => exact hPlain h

theorem jump_eq_ok {labels : List Label} {s₀ : Span} {j : Jump} {s s' : Frame} {c : Code}
    (h : jump labels s₀ j s = .ok c s') :
    ∃ depth, labels.findIdx? (fun l => decide (l = some j)) = some depth ∧ c = [.br depth] ∧
      s = s' := by
  rw [jump] at h
  cases hDepth : labels.findIdx? fun l => decide (l = some j) with
  | none =>
    rw [hDepth] at h
    cases h
  | some depth =>
    rw [hDepth] at h
    obtain ⟨rfl, rfl⟩ := Action.pure_eq_ok_iff.mp h
    exact ⟨depth, rfl, rfl, rfl⟩

end Emit

namespace Stmt

mutual

theorem emit_runs (hStart : start.Sound) (x : Stmt Ty) {labels : List Label} {s s' : Frame}
    {c : Code} (h : x.emit globals labels s = .ok c s') :
    Runs start fin s s' x.locals x.place
      (StmtLowers (.ofRun globals start fin) labels x c) := by
  cases x with
  | ret s₀ value =>
    simp only [emit, Action.bind_eq_ok_iff, Action.pure_eq_ok_iff] at h
    obtain ⟨code, _, hValue, rfl, rfl⟩ := h
    refine (Emit.optionExpr_runs hStart hValue).map.imp ?_
    rintro _ ⟨_, ⟨rfl, rfl⟩ | ⟨e, rfl, hE⟩, rfl⟩
    · exact .retNone
    · exact .retSome hE
  | assign s₀ target value =>
    refine (Emit.assign_runs hStart h).map.imp ?_
    rintro _ ⟨_, ⟨p, code, hPlace, hValue, rfl⟩, rfl⟩
    exact .assign hPlace hValue
  | declare s₀ name ty init =>
    rw [emit] at h
    split at h
    · rename_i hArray
      exact Emit.declareArray_runs hArray h
    · rename_i hArray
      exact Emit.declareScalar_runs hStart (by simpa using hArray) h
  | store s₀ base offset value =>
    simp only [emit, Action.bind_eq_ok_iff, Action.pure_eq_ok_iff] at h
    obtain ⟨a, s₁, hAddress, v, _, hValue, rfl, rfl⟩ := h
    obtain ⟨hFloat, b, s₂, hBase, o, hOffset, rfl⟩ := Emit.elementAddress_eq_ok hAddress
    refine ((base.emit_runs hStart hBase).bind fun _ => (offset.emit_runs hStart hOffset).bind
      fun _ => (value.emit_runs hStart hValue).map).imp ?_
    rintro _ ⟨_, hB, _, hO, _, hV, rfl⟩
    exact .store hFloat hB hO hV
  | branch s₀ cond thenBody elseBody =>
    simp only [emit, Action.bind_eq_ok_iff, Action.pure_eq_ok_iff] at h
    obtain ⟨c, s₁, hCond, t, s₂, hThen, e, _, hElse, rfl, rfl⟩ := h
    refine ((cond.emit_runs hStart hCond).bind fun _ => (emitAll_runs hStart thenBody hThen).bind
      fun as => (emitAll_runs hStart elseBody hElse).map).imp ?_
    rintro _ ⟨_, hC, as, hT, bs, hE, rfl⟩
    exact .branch hC hT hE
  | loop s₀ kind cond body =>
    cases kind with
    | whileDo =>
      simp only [emit, Emit.guarded, Emit.repeatLoop, Action.bind_eq_ok_iff,
        Action.pure_eq_ok_iff] at h
      obtain ⟨c, s₁, hCond, _, s₂, ⟨b, s₃, hBody, _, _, ⟨rfl, rfl⟩, c', _, hCond', rfl, rfl⟩, rfl,
        rfl⟩ := h
      refine (((cond.emit_runs hStart hCond).bind fun _ => (emitAll_runs hStart body hBody).bind
        fun as => (cond.emit_runs hStart hCond').map).imp ?_).perm (by simp [locals])
      rintro _ ⟨_, hC, as, hB, _, hC', rfl⟩
      exact .whileDo hC hB hC'
    | doWhile =>
      simp only [emit, Emit.repeatLoop, Action.bind_eq_ok_iff, Action.pure_eq_ok_iff] at h
      obtain ⟨_, _, ⟨b, s₁, hBody, _, _, ⟨rfl, rfl⟩, c, _, hCond, rfl, rfl⟩, rfl, rfl⟩ := h
      refine (((emitAll_runs hStart body hBody).bind
        fun as => (cond.emit_runs hStart hCond).map).imp ?_).perm (by simp [locals])
      rintro _ ⟨as, hB, _, hC, rfl⟩
      exact .doWhile hB hC
  | forLoop s₀ init cond update body =>
    simp only [emit, Emit.guarded, Emit.repeatLoop, Action.bind_eq_ok_iff,
      Action.pure_eq_ok_iff] at h
    obtain ⟨i, s₁, hInit, _, _, ⟨c, s₂, hCond, _, _, ⟨b, s₃, hBody, u, s₄, hUpdate, c', s₅, hCond',
      rfl, rfl⟩, rfl, rfl⟩, rfl, rfl⟩ := h
    refine (((emitOption_runs hStart init hInit).bind fun as =>
      (Emit.condition_runs hStart hCond).bind fun _ => (emitAll_runs hStart body hBody).bind
        fun bs => (emitOption_runs hStart update hUpdate).bind
          fun cs => (Emit.condition_runs hStart hCond').map).imp ?_).perm ?_
    · rintro _ ⟨as, hI, _, hC, bs, hB, cs, hU, _, hC', rfl⟩
      exact .forLoop hI hC hB hU hC'
    · simp only [locals, List.nil_append, List.append_nil, List.append_assoc]
      exact (List.perm_append_comm).append_left _
  | jump s₀ j =>
    obtain ⟨depth, hDepth, rfl, rfl⟩ := Emit.jump_eq_ok h
    exact .pure fun _ _ => .jump hDepth
  | expr s₀ value =>
    refine (Emit.effect_runs hStart h).map.imp ?_
    rintro _ ⟨_, hEffect, rfl⟩
    exact .expr hEffect

theorem emitAll_runs (hStart : start.Sound) (xs : List (Stmt Ty)) {labels : List Label}
    {s s' : Frame} {c : Code} (h : emitAll globals labels xs s = .ok c s') :
    Runs start fin s s' (localsAll xs) (placeAll xs)
      (BodyLowers (.ofRun globals start fin) labels xs c) := by
  cases xs with
  | nil =>
    obtain ⟨rfl, rfl⟩ := Action.pure_eq_ok_iff.mp h
    exact .pure fun _ _ => .nil
  | cons x xs =>
    simp only [emitAll, Action.bind_eq_ok_iff, Action.pure_eq_ok_iff] at h
    obtain ⟨a, s₁, hX, b, _, hXs, rfl, rfl⟩ := h
    refine ((emit_runs hStart x hX).bind fun as => (emitAll_runs hStart xs hXs).map).imp ?_
    rintro _ ⟨as, hA, bs, hB, rfl⟩
    exact .cons hA hB

theorem emitOption_runs (hStart : start.Sound) (x? : Option (Stmt Ty)) {labels : List Label}
    {s s' : Frame} {c : Code} (h : emitOption globals labels x? s = .ok c s') :
    Runs start fin s s' (localsOption x?) (placeOption x?)
      (OptionLowers (.ofRun globals start fin) labels x? c) := by
  cases x? with
  | none =>
    obtain ⟨rfl, rfl⟩ := Action.pure_eq_ok_iff.mp h
    exact .pure fun _ _ => .none
  | some x => exact (emit_runs hStart x h).imp fun _ => .some

end

end Stmt

end MiniC
