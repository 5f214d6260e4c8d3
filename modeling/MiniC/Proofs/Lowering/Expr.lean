import MiniC.Proofs.Lowering.Rules

/-! # The code of expressions keeps to the rules

Lowering an expression declares nothing, changes memory as the layout says and produces code that the
rules allow.
-/
namespace MiniC
set_option autoImplicit false

open Wasm (Code Instr ValType)

/-- What is found out between two frames. -/
def Bindings.ofRun (globals : Globals) (start fin : Frame) : Bindings where
  place x p := ∃ s : Frame, start.Below s ∧ s.Below fin ∧ s.place? globals x = some p
  text lo address := List.lookup lo fin.memory.strings = some address
  spare ty n := fin.slots[n]? = some ty ∧ n ∉ fin.names.map Prod.snd
  declared x ty n := (x, n) ∈ fin.names ∧ fin.slots[n]? = some ty.valType

variable {globals : Globals} {start fin : Frame}

namespace Emit

/-- A slot made for a value stays without a name. -/
theorem spare_of_newSlot {ty : ValType} {s s' : Frame} {n : Nat} (h : newSlot ty s = .ok n s')
    (hs : s.Sound) (hFin : s'.Below fin) : (Bindings.ofRun globals start fin).spare ty n := by
  obtain ⟨rfl, hSlots, -, hDeclares⟩ := newSlot_declares h
  have hSlot : s'.slots[s.slots.length]? = some ty := by simp [hSlots]
  refine ⟨?_, Frame.unnamed_of_below hFin (by simp [hSlots]) ?_⟩
  · obtain ⟨a, hFin⟩ := hFin
    exact Frame.getElem?_of_prefix hFin.slots hSlot
  · rw [hDeclares.names_eq]
    intro hn
    obtain ⟨d, hd, hEq⟩ := List.mem_map.mp hn
    exact absurd hEq (Nat.ne_of_lt (hs d hd))

theorem stepCell_lowers {address : Nat} {t : ValType} {change : Code} {fixity : Fixity}
    {used : Bool} {s s' : Frame} {c : Code}
    (h : stepCell address t change fixity used s = .ok c s') :
    s.Declares [] s' ∧ s'.memory = s.memory ∧ (s.Sound → s'.Below fin →
      (used = false ∧ c = stepCellCode address t change fixity none) ∨
      (used = true ∧ ∃ n, (Bindings.ofRun globals start fin).spare t n ∧
        c = stepCellCode address t change fixity (some n))) := by
  cases used with
  | false =>
    cases h
    exact ⟨.refl s, rfl, fun _ _ => .inl ⟨rfl, rfl⟩⟩
  | true =>
    simp only [stepCell, reduceIte, Action.bind_eq_ok_iff, Action.pure_eq_ok_iff] at h
    obtain ⟨n, s₁, hNew, rfl, rfl⟩ := h
    obtain ⟨-, -, hMemory, hDeclares⟩ := newSlot_declares hNew
    refine ⟨hDeclares, hMemory, fun hs hFin => .inr ⟨rfl, n, spare_of_newSlot hNew hs hFin, ?_⟩⟩
    cases fixity <;> rfl

theorem step_lowers {op : UnaryOp} {fixity : Fixity} {used : Bool} {e : Expr Ty} {s s' : Frame}
    {c : Code} (h : step globals op fixity used e s = .ok c s') :
    ∃ ty s₀ x, e = .var ty s₀ x ∧ s.Declares [] s' ∧ s'.memory = s.memory ∧
      (start.Sound → start.Below s → s'.Below fin →
        StepLowers (.ofRun globals start fin) op fixity ty x used c) := by
  cases e with
  | var ty s₀ x =>
    refine ⟨ty, s₀, x, rfl, ?_⟩
    simp only [step, Action.bind_eq_ok_iff, resolve_eq_ok_iff] at h
    obtain ⟨p, _, ⟨hPlace, rfl⟩, h⟩ := h
    cases p with
    | slot n =>
      obtain ⟨rfl, rfl⟩ := Action.pure_eq_ok_iff.mp h
      exact ⟨.refl s, rfl, fun _ hLow hHigh => .slot ⟨s, hLow, hHigh, hPlace⟩⟩
    | cell address t =>
      obtain ⟨hDeclares, hMemory, hCode⟩ := stepCell_lowers h
      refine ⟨hDeclares, hMemory, fun hStart hLow hHigh => ?_⟩
      have hFound : (Bindings.ofRun globals start fin).place x.name (.cell address t) :=
        ⟨s, hLow, hDeclares.below.trans hHigh, hPlace⟩
      obtain ⟨rfl, rfl⟩ | ⟨rfl, n, hSpare, rfl⟩ := hCode (hStart.of_below hLow) hHigh
      · exact .cell hFound
      · exact .usedCell hFound hSpare
  | _ => cases h

theorem readVariable_eq_ok_iff {x : Ident} {s s' : Frame} {c : Code} :
    readVariable globals x s = .ok c s' ↔
      ∃ p, s.place? globals x.name = some p ∧ c = p.read ∧ s = s' := by
  simp only [readVariable, Action.bind_eq_ok_iff, resolve_eq_ok_iff]
  constructor
  · rintro ⟨p, _, ⟨hPlace, rfl⟩, h⟩
    cases p <;> obtain ⟨rfl, rfl⟩ := Action.pure_eq_ok_iff.mp h <;> exact ⟨_, hPlace, rfl, rfl⟩
  · rintro ⟨p, hPlace, rfl, rfl⟩
    refine ⟨p, s, ⟨hPlace, rfl⟩, ?_⟩
    cases p <;> rfl

end Emit

/-- A piece of lowering that makes the given declarations, places `data` and produces code as `rule`
says; the rule may speak about where the data is. -/
structure Runs {α : Type} (start fin s s' : Frame) (declared : List (String × Ty)) (data : Alloc α)
    (rule : α → Prop) : Prop where
  declares : s.Declares declared s'
  placed : ∃ a, data s.memory = .ok a s'.memory ∧ (start.Below s → s'.Below fin → rule a)

namespace Runs

variable {α β : Type} {s s₁ s₂ : Frame} {d d₁ d₂ : List (String × Ty)} {data : Alloc α}

theorem pure {a : α} {rule : α → Prop} (h : start.Below s → s.Below fin → rule a) :
    Runs start fin s s [] (Pure.pure a) rule :=
  ⟨.refl s, a, rfl, h⟩

theorem imp {rule rule' : α → Prop} (h : Runs start fin s s₁ d data rule)
    (hRule : ∀ a, rule a → rule' a) : Runs start fin s s₁ d data rule' := by
  obtain ⟨a, hData, hLowers⟩ := h.placed
  exact ⟨h.declares, a, hData, fun hLow hHigh => hRule a (hLowers hLow hHigh)⟩

theorem bind {next : α → Alloc β} {rule₁ : α → Prop} {rule₂ : α → β → Prop}
    (h₁ : Runs start fin s s₁ d₁ data rule₁)
    (h₂ : ∀ a, Runs start fin s₁ s₂ d₂ (next a) (rule₂ a)) :
    Runs start fin s s₂ (d₁ ++ d₂) (data >>= next) (fun b => ∃ a, rule₁ a ∧ rule₂ a b) := by
  obtain ⟨a, hData₁, hLowers₁⟩ := h₁.placed
  obtain ⟨b, hData₂, hLowers₂⟩ := (h₂ a).placed
  have hFirst := h₁.declares.below
  have hSecond := (h₂ a).declares.below
  refine ⟨h₁.declares.trans (h₂ a).declares, b, (Action.bind_of_ok hData₁).trans hData₂, ?_⟩
  intro hLow hHigh
  exact ⟨a, hLowers₁ hLow (hSecond.trans hHigh), hLowers₂ (hLow.trans hFirst) hHigh⟩

theorem map {f : α → β} {rule : α → Prop} (h : Runs start fin s s₁ d data rule) :
    Runs start fin s s₁ d (do return f (← data)) (fun b => ∃ a, rule a ∧ f a = b) := by
  obtain ⟨a, hData, hLowers⟩ := h.placed
  exact ⟨h.declares, f a, Action.bind_of_ok hData, fun hLow hHigh => ⟨a, hLowers hLow hHigh, rfl⟩⟩

theorem perm {rule : α → Prop} (h : Runs start fin s s₁ d₁ data rule) (hPerm : d₁.Perm d₂) :
    Runs start fin s s₁ d₂ data rule :=
  ⟨h.declares.perm hPerm, h.placed⟩

end Runs

namespace Emit

theorem step_runs (hStart : start.Sound) {op : UnaryOp} {fixity : Fixity} {used : Bool}
    {e : Expr Ty} {s s' : Frame} {c : Code} (h : step globals op fixity used e s = .ok c s') :
    ∃ ty s₀ x, e = .var ty s₀ x ∧ Runs start fin s s' [] e.place
      fun _ => StepLowers (.ofRun globals start fin) op fixity ty x used c := by
  obtain ⟨ty, s₀, x, rfl, hDeclares, hMemory, hLowers⟩ := step_lowers h
  refine ⟨ty, s₀, x, rfl, hDeclares, (), ?_, hLowers hStart⟩
  rw [hMemory]
  rfl

theorem elementAddress_eq_ok {base : Expr Ty} {b o : Emit Code} {s s' : Frame} {c : Code}
    (h : elementAddress base b o s = .ok c s') :
    base.info.element? ≠ some .float ∧ ∃ bCode s₁, b s = .ok bCode s₁ ∧ ∃ oCode,
      o s₁ = .ok oCode s' ∧ c = addressCode base.info bCode oCode := by
  rw [elementAddress] at h
  split at h
  · cases h
  · rename_i hFloat
    simp only [Action.bind_eq_ok_iff, Action.pure_eq_ok_iff] at h
    obtain ⟨bCode, s₁, hB, oCode, _, hO, rfl, rfl⟩ := h
    exact ⟨hFloat, bCode, s₁, hB, oCode, hO, rfl⟩

end Emit

namespace Expr

mutual

theorem emit_runs (hStart : start.Sound) (e : Expr Ty) {s s' : Frame} {c : Code}
    (h : e.emit globals s = .ok c s') :
    Runs start fin s s' [] e.place fun _ => ExprLowers (.ofRun globals start fin) e c := by
  cases e with
  | const ty s₀ value =>
    obtain ⟨rfl, rfl⟩ := Action.pure_eq_ok_iff.mp h
    exact .pure fun _ _ => .const ty s₀ value
  | string ty s₀ text =>
    simp only [emit, Action.bind_eq_ok_iff, Action.pure_eq_ok_iff, Emit.inMemory_eq_ok_iff] at h
    obtain ⟨a, _, ⟨m, hPlace, rfl⟩, rfl, rfl⟩ := h
    obtain ⟨hText, hKept⟩ := Memory.placeString_texts hPlace
    refine ⟨Emit.inMemory_declares hKept, (), Action.map_of_ok hPlace, ?_⟩
    rintro - ⟨d, hHigh⟩
    exact .string (hHigh.texts _ _ hText)
  | var ty s₀ x =>
    obtain ⟨p, hPlace, rfl, rfl⟩ := Emit.readVariable_eq_ok_iff.mp h
    exact .pure fun hLow hHigh => .var ⟨s, hLow, hHigh, hPlace⟩
  | call ty s₀ callee args =>
    simp only [emit, Action.bind_eq_ok_iff, Action.pure_eq_ok_iff] at h
    obtain ⟨code, _, hArgs, rfl, rfl⟩ := h
    exact (emitAll_runs hStart args hArgs).imp fun _ => .call
  | binary ty s₀ op lhs rhs =>
    simp only [emit, Action.bind_eq_ok_iff] at h
    obtain ⟨a, s₁, hLhs, b, s₂, hRhs, h⟩ := h
    have hRuns := (emit_runs hStart lhs hLhs).bind fun _ => emit_runs hStart rhs hRhs
    cases hOpcode : op.opcode? lhs.info.valType with
    | some opcode =>
      simp only [hOpcode, Action.pure_eq_ok_iff] at h
      obtain ⟨rfl, rfl⟩ := h
      exact hRuns.imp fun _ ⟨_, hA, hB⟩ => .binary hA hB hOpcode
    | none =>
      simp only [hOpcode] at h
      cases h
  | unary ty s₀ op fixity operand =>
    have hInner {code : Code} {s' : Frame} (h : operand.emit globals s = .ok code s') :=
      emit_runs hStart operand h
    cases op <;> simp only [emit, Emit.unary] at h
    case increment =>
      obtain ⟨t, s₁, x, rfl, hRuns⟩ := Emit.step_runs hStart h
      exact hRuns.imp fun _ => .step (.inl rfl)
    case decrement =>
      obtain ⟨t, s₁, x, rfl, hRuns⟩ := Emit.step_runs hStart h
      exact hRuns.imp fun _ => .step (.inr rfl)
    case not =>
      split at h
      · rename_i hTy
        simp only [Action.bind_eq_ok_iff, Action.pure_eq_ok_iff] at h
        obtain ⟨code, _, hOperand, rfl, rfl⟩ := h
        exact (hInner hOperand).imp fun _ => .not hTy
      · cases h
    case deref =>
      cases hElement : operand.info.element? with
      | none =>
        simp only [hElement] at h
        cases h
      | some t =>
        simp only [hElement] at h
        split at h
        · cases h
        · rename_i hFloat
          split at h
          · rename_i hArray
            exact (hInner h).imp fun _ => .row hElement hArray
          · rename_i hArray
            simp only [Action.bind_eq_ok_iff, Action.pure_eq_ok_iff] at h
            obtain ⟨code, _, hOperand, rfl, rfl⟩ := h
            exact (hInner hOperand).imp fun _ => .deref hElement (by simpa using hArray) hFloat
    case negate =>
      cases hTy : operand.info.valType <;>
        simp only [hTy, Action.bind_eq_ok_iff, Action.pure_eq_ok_iff] at h
      · obtain ⟨code, _, hOperand, rfl, rfl⟩ := h
        exact (hInner hOperand).imp fun _ => .negateInt hTy
      · obtain ⟨code, _, hOperand, rfl, rfl⟩ := h
        exact (hInner hOperand).imp fun _ => .negateFloat hTy
  | index ty s₀ base offset =>
    simp only [emit, Action.bind_eq_ok_iff, Action.pure_eq_ok_iff] at h
    obtain ⟨code, _, hAddress, rfl, rfl⟩ := h
    obtain ⟨hFloat, b, s₁, hBase, o, hOffset, rfl⟩ := Emit.elementAddress_eq_ok hAddress
    have hRuns := (emit_runs hStart base hBase).bind fun _ => emit_runs hStart offset hOffset
    exact hRuns.imp fun _ ⟨_, hB, hO⟩ => .index hFloat hB hO

theorem emitAll_runs (hStart : start.Sound) (es : List (Expr Ty)) {s s' : Frame} {c : Code}
    (h : emitAll globals es s = .ok c s') :
    Runs start fin s s' [] (placeAll es) fun _ => ArgsLower (.ofRun globals start fin) es c := by
  cases es with
  | nil =>
    obtain ⟨rfl, rfl⟩ := Action.pure_eq_ok_iff.mp h
    exact .pure fun _ _ => .nil
  | cons e es =>
    simp only [emitAll, Action.bind_eq_ok_iff, Action.pure_eq_ok_iff] at h
    obtain ⟨a, s₁, hE, b, _, hEs, rfl, rfl⟩ := h
    have hRuns := (emit_runs hStart e hE).bind fun _ => emitAll_runs hStart es hEs
    exact hRuns.imp fun _ ⟨_, hA, hB⟩ => .cons hA hB

end

end Expr

end MiniC
