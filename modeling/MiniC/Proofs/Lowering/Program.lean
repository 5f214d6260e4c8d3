import Mathlib.Data.List.Forall2
import MiniC.Proofs.Lowering.Stmt

/-! # The code of functions and programs

Every function of a module comes from one function of the program, in the same order.  It was lowered
when exactly the globals before it had their cells, and nothing that was found out while lowering it
is changed by what is lowered later.
-/
namespace MiniC
set_option autoImplicit false

open Wasm (Code Instr ValType)

theorem exists_of_forall₂ {α β : Type} {R : α → β → Prop} {as : List α} {bs : List β}
    (h : List.Forall₂ R as bs) {b : β} (hb : b ∈ bs) : ∃ a ∈ as, R a b := by
  induction h with
  | nil => cases hb
  | @cons a b' as bs hR hRest ih =>
    rcases List.mem_cons.mp hb with rfl | hb
    · exact ⟨a, List.mem_cons_self, hR⟩
    · obtain ⟨a', ha', hR'⟩ := ih hb
      exact ⟨a', List.mem_cons_of_mem _ ha', hR'⟩

namespace Emit

theorem declareParams (params : List Param) (s : Frame) :
    ∃ s' : Frame, params.forM (fun p => discard (declare p.name p.ty)) s = .ok ⟨⟩ s' ∧
      s.Declares (params.map fun p => (p.name.name, p.ty)) s' ∧ s'.memory = s.memory ∧
      s'.slots = s.slots ++ params.map (fun p => p.ty.valType) ∧
      s'.names = ((params.map fun p => p.name.name).zipIdx s.slots.length).reverse ++ s.names := by
  induction params generalizing s with
  | nil => exact ⟨s, rfl, .refl s, rfl, by simp, by simp⟩
  | cons p params ih =>
    obtain ⟨s₁, hDeclare⟩ : ∃ s₁, declare p.name p.ty s = .ok s.slots.length s₁ := ⟨_, rfl⟩
    obtain ⟨-, -, hMemory₁, hDeclares₁⟩ := declare_declares hDeclare
    obtain ⟨s', hRest, hDeclares, hMemory, hSlots, hNames⟩ := ih s₁
    have hSlots₁ : s₁.slots = s.slots ++ [p.ty.valType] := by
      cases hDeclare
      rfl
    have hNames₁ : s₁.names = (p.name.name, s.slots.length) :: s.names := by
      cases hDeclare
      rfl
    refine ⟨s', ?_, ?_, hMemory.trans hMemory₁, ?_, ?_⟩
    · simp only [List.forM]
      exact (Action.bind_of_ok (Action.map_of_ok hDeclare)).trans hRest
    · exact hDeclares₁.trans hDeclares
    · simp [hSlots, hSlots₁]
    · simp [hNames, hNames₁, hSlots₁]

end Emit

/-- Whether the last statement returns, so that the end of the function cannot be reached. -/
def Function.endsInReturn (f : Function Ty) : Bool := (f.body.getLast?.map Stmt.isReturn).getD false

/-- The function `fn` is the code of `f`: `start` is the frame when the parameters have their slots,
`fin` the frame when all is done, `code` the code of the body before it is closed. -/
structure Function.Lowered (f : Function Ty) (fn : Wasm.Function) (globals : Globals)
    (m : Memory) (start fin : Frame) (code : Code) (arrays : List (String × Nat)) : Prop where
  begun : (Frame.mk m [] []).Declares f.parameters start
  paramSlots : start.slots = f.params.map fun p => p.ty.valType
  paramNames : start.names = (f.params.map fun p => p.name.name).zipIdx.reverse
  declares : start.Declares f.locals fin
  placed : Stmt.placeAll f.body m = .ok arrays fin.memory
  lowers : BodyLowers (.ofRun globals start fin) [] f.body code arrays
  name : fn.name = f.name.name
  params : fn.params = f.params.map fun p => p.ty.valType
  slots : fn.params ++ fn.locals = fin.slots
  result : fn.result = if f.returnTy = .void then none else some f.returnTy.valType
  closed : (f.returnTy = .void ∧ fn.body = code) ∨ (f.returnTy ≠ .void ∧ .return_ ∈ code ∧
    fn.body = code ++ if f.endsInReturn then [] else [Instr.unreachable])

namespace Function

theorem close_eq_ok {f : Function Ty} {code body : Code} {s s' : Frame}
    (h : f.close code s = .ok body s') :
    s = s' ∧ ((f.returnTy = .void ∧ body = code) ∨ (f.returnTy ≠ .void ∧ .return_ ∈ code ∧
      body = code ++ if f.endsInReturn then [] else [Instr.unreachable])) := by
  rw [close] at h
  split at h
  · rename_i hVoid
    obtain ⟨rfl, rfl⟩ := Action.pure_eq_ok_iff.mp h
    exact ⟨rfl, .inl ⟨hVoid, rfl⟩⟩
  · rename_i hVoid
    split at h
    · cases h
    · rename_i hReturn
      split at h <;> rename_i hEnd <;> obtain ⟨rfl, rfl⟩ := Action.pure_eq_ok_iff.mp h
      · exact ⟨rfl, .inr ⟨hVoid, not_not.mp hReturn, by simp [endsInReturn, hEnd]⟩⟩
      · exact ⟨rfl, .inr ⟨hVoid, not_not.mp hReturn, by simp [endsInReturn, hEnd]⟩⟩

theorem lowered_of_emit {f : Function Ty} {globals : Globals} {m : Memory} {fin : Frame}
    {fn : Wasm.Function} (h : f.emit globals ⟨m, [], []⟩ = .ok fn fin) :
    ∃ start code arrays, f.Lowered fn globals m start fin code arrays := by
  obtain ⟨start, hParams, hBegun, hMemory, hSlots, hNames⟩ :=
    Emit.declareParams f.params ⟨m, [], []⟩
  simp only [emit, Action.bind_eq_ok_iff, Action.pure_eq_ok_iff] at h
  obtain ⟨_, s₁, hParams', code, s₂, hBody, body, s₃, hClose, s₄, _, hGet, rfl, rfl⟩ := h
  cases hParams.symm.trans hParams'
  cases hGet
  obtain ⟨rfl, hClosed⟩ := close_eq_ok hClose
  have hStart : start.Sound := Frame.Sound.of_below (s := ⟨m, [], []⟩) (by simp [Frame.Sound])
    hBegun.below
  obtain ⟨hDeclares, arrays, hPlaced, hLowers⟩ := Stmt.emitAll_runs hStart f.body hBody
  refine ⟨start, code, arrays, hBegun, by simpa using hSlots, by simpa using hNames, hDeclares,
    by rw [← hPlaced, hMemory], hLowers (.refl start) (.refl _), rfl, ?_, ?_, rfl, hClosed⟩
  · obtain ⟨t, ht⟩ := hDeclares.slots
    rw [← ht, hSlots]
    simp
  · exact List.take_append_drop _ _

end Function

/-- The types of the globals that have their cells. -/
def Globals.scope (globals : Globals) : List (String × Ty) := globals.map fun g => (g.1, g.2.2)

namespace Memory

/-- Every literal whose address is known keeps it. -/
def Keeps (m m' : Memory) : Prop :=
  ∀ lo a, List.lookup lo m.strings = some a → List.lookup lo m'.strings = some a

theorem Keeps.trans {m m₁ m₂ : Memory} (h₁ : m.Keeps m₁) (h₂ : m₁.Keeps m₂) : m.Keeps m₂ :=
  fun lo a h => h₂ lo a (h₁ lo a h)

theorem Keeps.of_strings_eq {m m' : Memory} (h : m'.strings = m.strings) : m.Keeps m' :=
  fun _ _ hText => h ▸ hText

end Memory

theorem initialWord_keeps {x : Ident} {e : Expr Ty} {m m' : Memory} {w : UInt32}
    (h : initialWord x e m = .ok w m') : m.Keeps m' := by
  unfold initialWord at h
  split at h
  · cases h
    exact .of_strings_eq rfl
  · obtain ⟨a, m₁, hPlace, h⟩ := Action.bind_eq_ok_iff.mp h
    cases h
    exact (Memory.placeString_texts hPlace).2
  · cases h
    exact .of_strings_eq rfl
  · cases h

theorem Global.cellWord?_keeps {g : Global Ty} {m m' : Memory} {w? : Option UInt32}
    (h : g.cellWord? m = .ok w? m') : m.Keeps m' := by
  rw [cellWord?] at h
  cases hInit : g.init with
  | some init =>
    rw [hInit] at h
    split at h
    · cases h
    · obtain ⟨w, hWord, -⟩ := Action.map_eq_ok_iff.mp h
      exact initialWord_keeps hWord
  | none =>
    rw [hInit] at h
    split at h
    · obtain ⟨a, m₁, hReserve, h⟩ := Action.bind_eq_ok_iff.mp h
      cases h
      exact .of_strings_eq (Memory.reserveArray_strings hReserve)
    · cases h
      exact .of_strings_eq rfl

theorem Global.place_keeps {g : Global Ty} {m m' : Memory} {cell : Nat}
    (h : g.place m = .ok cell m') : m.Keeps m' := by
  simp only [place, Action.bind_eq_ok_iff] at h
  obtain ⟨a, m₁, hAlloc, w?, m₂, hWord, h⟩ := h
  obtain ⟨-, -, rfl⟩ := (Memory.alloc_eq_ok_iff _ _ _ _ _).mp hAlloc
  have hKeeps := Global.cellWord?_keeps hWord
  cases w? <;> cases h <;> exact hKeeps

namespace Builder

theorem addGlobal_eq_ok {g : Global Ty} {b b' : Builder} {u : Unit}
    (h : addGlobal g b = .ok u b') :
    ∃ cell m, g.place b.memory = .ok cell m ∧
      b' = { b with memory := m, globals := (g.name.name, cell, g.ty) :: b.globals } := by
  rw [addGlobal] at h
  cases hPlace : g.place b.memory with
  | ok cell m =>
    rw [hPlace] at h
    cases h
    exact ⟨cell, m, rfl, rfl⟩
  | error e m =>
    rw [hPlace] at h
    cases h

theorem addFunction_eq_ok {f : Function Ty} {b b' : Builder} {u : Unit}
    (h : addFunction f b = .ok u b') :
    ∃ fn fin, f.emit b.globals ⟨b.memory, [], []⟩ = .ok fn fin ∧
      b' = { b with memory := fin.memory, functions := b.functions ++ [fn] } := by
  rw [addFunction] at h
  cases hEmit : f.emit b.globals ⟨b.memory, [], []⟩ with
  | ok fn fin =>
    rw [hEmit] at h
    cases h
    exact ⟨fn, fin, rfl, rfl⟩
  | error e s =>
    rw [hEmit] at h
    cases h

/-- The function `fn` of a finished module is the code of `f`, which has the property `Q` together
with the globals before it; `arrays` lists the arrays of all functions. -/
def Holds (Q : List (String × Ty) → Item Ty → Prop) (b : Builder)
    (arrays : List (String × List (String × Nat))) (f : Function Ty) (fn : Wasm.Function) : Prop :=
  ∃ globals m start fin code as, f.Lowered fn globals m start fin code as ∧
    Q globals.scope (.function f) ∧ globals <:+ b.globals ∧ fin.memory.Keeps b.memory ∧
    (f.name.name, as) ∈ arrays

theorem holds_of_addItems {Q : List (String × Ty) → Item Ty → Prop} {items : List (Item Ty)}
    {b b' : Builder} (h : items.forM addItem b = .ok ⟨⟩ b')
    (hQ : EveryItem Q b.globals.scope items) :
    b.globals <:+ b'.globals ∧ b.memory.Keeps b'.memory ∧ ∃ fns cells arrays,
      b'.functions = b.functions ++ fns ∧
      Item.placeAll items b.memory = .ok (cells, arrays) b'.memory ∧
      b'.globals = cells.reverse ++ b.globals ∧
      List.Forall₂ (Holds Q b' arrays) (Program.mk items).functions fns := by
  induction items generalizing b with
  | nil =>
    cases h
    exact ⟨List.suffix_refl _, fun _ _ h => h, [], [], [], by simp, rfl, rfl, .nil⟩
  | cons item items ih =>
    simp only [List.forM, Action.bind_eq_ok_iff] at h
    obtain ⟨_, b₁, hItem, hRest⟩ := h
    cases item with
    | global g =>
      obtain ⟨cell, m, hPlace, rfl⟩ := addGlobal_eq_ok hItem
      obtain ⟨hSuffix, hKeeps, fns, cells, arrays, hFns, hLayout, hGlobals, hHolds⟩ :=
        ih hRest hQ.2
      refine ⟨(List.suffix_cons _ _).trans hSuffix, (Global.place_keeps hPlace).trans hKeeps, fns,
        (g.name.name, cell, g.ty) :: cells, arrays, hFns, ?_, ?_, hHolds⟩
      · exact (Action.bind_of_ok hPlace).trans (Action.bind_of_ok hLayout)
      · rw [hGlobals]
        simp
    | function f =>
      obtain ⟨fn, fin, hEmit, rfl⟩ := addFunction_eq_ok hItem
      obtain ⟨start, code, as, hLowered⟩ := Function.lowered_of_emit hEmit
      obtain ⟨hSuffix, hKeeps, fns, cells, arrays, hFns, hLayout, hGlobals, hHolds⟩ :=
        ih hRest hQ.2
      have hBody : b.memory.Keeps fin.memory := (hLowered.begun.trans hLowered.declares).texts
      refine ⟨hSuffix, hBody.trans hKeeps, fn :: fns, cells, (f.name.name, as) :: arrays, ?_, ?_,
        hGlobals, .cons ?_ ?_⟩
      · rw [hFns]
        simp
      · exact (Action.bind_of_ok hLowered.placed).trans (Action.bind_of_ok hLayout)
      · exact ⟨b.globals, b.memory, start, fin, code, as, hLowered, hQ.1, hSuffix, hKeeps,
          List.mem_cons_self⟩
      · refine hHolds.imp ?_
        rintro f' fn' ⟨globals, m, start', fin', code', as', hLow, hQ', hSuf, hKeep, hArrays⟩
        exact ⟨globals, m, start', fin', code', as', hLow, hQ', hSuf, hKeep,
          List.mem_cons_of_mem _ hArrays⟩

end Builder

/-- The functions of a module are the functions of its program, one by one. -/
theorem Program.holds_of_emit {Q : List (String × Ty) → Item Ty → Prop} {p : Program Ty}
    {m : Wasm.Module} (h : p.emit = .ok m) (hQ : EveryItem Q [] p.items) :
    ∃ b : Builder, p.layout.cells.reverse = b.globals ∧ p.layout.texts = b.memory.strings ∧
      List.Forall₂ (Builder.Holds Q b p.layout.arrays) p.functions m.functions := by
  rw [Program.emit] at h
  cases hItems : p.items.forM Builder.addItem .empty with
  | error e b =>
    rw [hItems] at h
    cases h
  | ok u b =>
    rw [hItems] at h
    cases h
    obtain ⟨-, -, fns, cells, arrays, hFns, hLayout, hGlobals, hHolds⟩ :=
      Builder.holds_of_addItems hItems hQ
    have hEq : p.layout = ⟨cells, b.memory.strings, arrays⟩ := by
      rw [Program.layout, show Memory.empty = Builder.empty.memory from rfl, hLayout]
    rw [hEq]
    refine ⟨b, ?_, rfl, ?_⟩
    · rw [hGlobals]
      exact (List.append_nil _).symm
    · rw [show b.toModule.functions = fns from hFns]
      exact hHolds

end MiniC
