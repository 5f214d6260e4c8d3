import MiniC.Proofs.Preservation.Function

/-! # Compiled modules do what their programs do

The bound on passes and calls is the same on both sides, and so is the outcome: the result or the
trap, the final memory and the calls to the host.  A run is never stuck.
-/
namespace MiniC
set_option autoImplicit false

open Wasm (Code Exec Instr Runtime ValType)

/-- Where no name is declared twice, none is declared at two machine types. -/
theorem Program.NamesApart.oneMachineType {p : Program Ty} (h : p.NamesApart) :
    p.OneMachineType := by
  refine EveryItem.of_forall fun before item hItem hBefore => ?_
  cases item with
  | global g => trivial
  | function f =>
    obtain ⟨hNodup, hApart⟩ := h f (mem_functions hItem)
    constructor
    · intro a ha b hb hEq
      rw [List.inj_on_of_nodup_map hNodup ha hb hEq]
    · intro a ha g hg hEq
      have hGlobal : g ∈ p.globals := (hBefore g hg).resolve_left (by simp)
      refine absurd ?_ (hApart a.1 (List.mem_map_of_mem (List.mem_append_right _ ha)))
      exact hEq ▸ List.mem_map_of_mem hGlobal

theorem Item.placeAll_names {items : List (Item Ty)} {m m' : Memory} {cells : Globals}
    {arrays : List (String × List (String × Nat))}
    (h : Item.placeAll items m = .ok (cells, arrays) m') :
    cells.map Prod.fst = (Program.mk items).globals.map Prod.fst ∧
      arrays.map Prod.fst = (Program.mk items).functions.map fun f => f.name.name := by
  induction items generalizing m cells arrays with
  | nil =>
    cases h
    exact ⟨rfl, rfl⟩
  | cons item items ih =>
    cases item with
    | global g =>
      simp only [placeAll, Action.bind_eq_ok_iff, Action.pure_eq_ok_iff, Prod.exists] at h
      obtain ⟨cell, m₁, -, cells', arrays', m₂, hRest, hEq, rfl⟩ := h
      obtain ⟨rfl, rfl⟩ := Prod.mk.inj hEq
      obtain ⟨hCells, hArrays⟩ := ih hRest
      exact ⟨congrArg (g.name.name :: ·) hCells, hArrays⟩
    | function f =>
      simp only [placeAll, Action.bind_eq_ok_iff, Action.pure_eq_ok_iff, Prod.exists] at h
      obtain ⟨as, m₁, -, cells', arrays', m₂, hRest, hEq, rfl⟩ := h
      obtain ⟨rfl, rfl⟩ := Prod.mk.inj hEq
      obtain ⟨hCells, hArrays⟩ := ih hRest
      exact ⟨hCells, congrArg (f.name.name :: ·) hArrays⟩

theorem EveryItem.globals_nodup {sigs : Signatures} {globals : Scope} {items : List (Item Ty)}
    (h : EveryItem (Item.WellTyped sigs) globals items) (hs : (globals.map Prod.fst).Nodup) :
    ((Program.mk items).globals.map Prod.fst).Nodup ∧
      ∀ x ∈ globals.map Prod.fst, x ∉ (Program.mk items).globals.map Prod.fst := by
  induction items generalizing globals with
  | nil => simp [Program.globals]
  | cons item items ih =>
    cases item with
    | global g =>
      obtain ⟨⟨-, hFresh, -⟩, hRest⟩ := h
      obtain ⟨hNodup, hApart⟩ := ih hRest (List.nodup_cons.mpr ⟨hFresh, hs⟩)
      refine ⟨List.nodup_cons.mpr ⟨hApart _ List.mem_cons_self, hNodup⟩, ?_⟩
      intro x hx hMem
      rcases List.mem_cons.mp hMem with rfl | hMem
      · exact hFresh hx
      · exact hApart x (List.mem_cons_of_mem _ hx) hMem
    | function f => exact ih h.2 hs

namespace Program

theorem layout_cells {p : Program Ty} {sigs : Signatures} (hTyped : p.WellTyped sigs) :
    (p.layout.cells.map Prod.fst).Nodup ∧
      ∀ x ∈ p.layout.cells.map Prod.fst, x ∈ p.globals.map Prod.fst := by
  rw [layout]
  cases hPlace : Item.placeAll p.items .empty with
  | error e m => exact ⟨List.nodup_nil, by simp⟩
  | ok r m =>
    have hCells : r.1.map Prod.fst = p.globals.map Prod.fst := (Item.placeAll_names hPlace).1
    change (r.1.map Prod.fst).Nodup ∧ ∀ x ∈ r.1.map Prod.fst, _
    rw [hCells]
    exact ⟨(hTyped.items.globals_nodup List.nodup_nil).1, fun _ hx => hx⟩

theorem layout_arrays {p : Program Ty} {sigs : Signatures} (hTyped : p.WellTyped sigs) :
    (p.layout.arrays.map Prod.fst).Nodup := by
  rw [layout]
  cases hPlace : Item.placeAll p.items .empty with
  | error e m => exact List.nodup_nil
  | ok r m =>
    have hArrays : r.2.map Prod.fst = p.functions.map fun f => f.name.name :=
      (Item.placeAll_names hPlace).2
    change (r.2.map Prod.fst).Nodup
    rw [hArrays]
    exact hTyped.names.1

/-- The module is the code of a program that keeps its names apart. -/
structure Compiled (p : Program Ty) (m : Wasm.Module) (sigs : Signatures) (b : Builder) : Prop where
  typed : p.WellTyped sigs
  voidFree : p.VoidFree
  namesApart : p.NamesApart
  heads : p.HeadsSimple
  cells : p.layout.cells.reverse = b.globals
  texts : p.layout.texts = b.memory.strings
  functions : List.Forall₂ (Builder.Holds (Item.Regular sigs) b p.layout.arrays) p.functions
    m.functions

theorem compiled_of_emit {source : String} {p : Program Ty} {m : Wasm.Module}
    (hSource : checkSource source = .ok p) (hVoid : p.VoidFree) (hNames : p.NamesApart)
    (hEmit : p.emit = .ok m) : ∃ sigs b, p.Compiled m sigs b := by
  obtain ⟨tree, -, hCheck⟩ := checkSource_eq_ok_iff.mp hSource
  obtain ⟨sigs, hTyped⟩ := Program.wellTyped_of_check hCheck
  obtain ⟨b, hCells, hTexts, hHolds⟩ :=
    Program.holds_of_emit hEmit (Program.regular hTyped hVoid hNames.oneMachineType)
  exact ⟨sigs, b, hTyped, hVoid, hNames, headsSimple_of_checkSource hSource, hCells, hTexts, hHolds⟩

/-- What a function of the program runs with. -/
def setting (p : Program Ty) (float : FloatOps) (n : Nat) (f : Function Ty) : Setting :=
  ⟨float, n, p.layout.cells, p.layout.texts, (List.lookup f.name.name p.layout.arrays).getD [],
    p.call float n⟩

/-- Calls with at most the given depth have the same outcome in the program and in the module. -/
def CallsAgree (p : Program Ty) (m : Wasm.Module) (sigs : Signatures) (float : FloatOps) (n : Nat) :
    Prop :=
  ∀ {name : String} {sig : Signature} {args : List Value}, List.lookup name sigs = some sig →
    args.map Value.type = sig.params.map Ty.valType →
    p.call float n name args = m.call float n name args ∧
      Safe (m.call float n name args) fun r => r.map Value.type = sig.result.result?

namespace Compiled

variable {p : Program Ty} {m : Wasm.Module} {sigs : Signatures} {b : Builder}
  (h : p.Compiled m sigs b)

include h

theorem types : List.Forall₂ (fun f fn => fn.name = f.name.name ∧
    fn.type = ⟨f.params.map fun q => q.ty.valType, f.returnTy.result?⟩)
    p.functions m.functions := by
  refine h.functions.imp ?_
  rintro f fn ⟨cells, mem, start, fin, code, as, hLowered, -⟩
  exact ⟨hLowered.name, by rw [Wasm.Function.type, hLowered.params, hLowered.result]; rfl⟩

theorem faithful {f : Function Ty} (hf : f ∈ p.functions) {fn : Wasm.Function} {cells : Globals}
    {mem : Memory} {start fin : Frame} {code : Code} {arrays : List (String × Nat)}
    (hLowered : f.Lowered fn cells mem start fin code arrays)
    (hRegular : f.Regular sigs cells.scope) (hSuffix : cells <:+ b.globals)
    (hKeeps : fin.memory.Keeps b.memory) {float : FloatOps} {n : Nat}
    (hCalls : p.CallsAgree m sigs float n) :
    Faithful fin fn.result (.ofRun cells start fin) (p.setting float n f)
      ⟨float, n, m.type?, m.call float n⟩ sigs (f.Occurs cells.scope) := by
  obtain ⟨hNodup, hApart⟩ := h.namesApart f hf
  refine ⟨⟨hLowered.typed hRegular, hRegular.nonvoid, hRegular.voidFree, ?_, ?_, ?_⟩, rfl, rfl,
    hLowered.names_nodup hNodup, hLowered.slots_nodup, ?_, ?_, And.right, And.left, ?_, hCalls⟩
  · exact fun _ _ hSig => h.typed.callee h.types hSig
  · exact fun _ _ hSig => h.typed.params_ne_void hSig
  · exact fun _ _ hSig => h.typed.result_voidFree h.voidFree hSig
  · rintro x k ⟨s, -, hHigh, hPlace⟩
    rw [Frame.place?] at hPlace
    cases hSlot : List.lookup x s.names with
    | some k' =>
      rw [hSlot] at hPlace
      cases hPlace
      exact Frame.mem_names_of_below hHigh (Table.mem_of_lookup hSlot)
    | none =>
      rw [hSlot] at hPlace
      obtain ⟨_, -, hEq⟩ := Option.map_eq_some_iff.mp hPlace
      cases hEq
  · rintro x a t ⟨s, -, -, hPlace⟩
    rw [Frame.place?] at hPlace
    cases hSlot : List.lookup x s.names with
    | some k' =>
      rw [hSlot] at hPlace
      cases hPlace
    | none =>
      rw [hSlot] at hPlace
      obtain ⟨⟨a', ty⟩, hCell, hEq⟩ := Option.map_eq_some_iff.mp hPlace
      cases hEq
      obtain ⟨hDistinct, hGlobals⟩ := layout_cells h.typed
      have hMem : (x, a, ty) ∈ p.layout.cells := by
        rw [← List.mem_reverse, h.cells]
        exact hSuffix.subset (Table.mem_of_lookup hCell)
      refine ⟨fun hName => ?_, ty, Table.lookup_of_mem hDistinct hMem, rfl⟩
      exact hApart x (hLowered.mem_names_iff.mp hName) (hGlobals x (List.mem_map_of_mem hMem))
  · intro lo a hText
    change List.lookup lo p.layout.texts = some a
    rw [h.texts]
    exact hKeeps lo a hText

theorem find_function {f : Function Ty} (hf : f ∈ p.functions) :
    p.functions.find? (fun g => g.name.name = f.name.name) = some f ∧
      ∃ fn, m.function? f.name.name = some fn ∧
        Builder.Holds (Item.Regular sigs) b p.layout.arrays f fn := by
  constructor
  · cases hFind : p.functions.find? fun g => g.name.name = f.name.name with
    | none => exact absurd (decide_eq_true rfl) (List.find?_eq_none.mp hFind f hf)
    | some g =>
      have hName : g.name.name = f.name.name := by simpa using List.find?_some hFind
      rw [List.inj_on_of_nodup_map h.typed.names.1 (List.mem_of_find?_eq_some hFind) hf hName]
  · have hName (f : Function Ty) (fn : Wasm.Function)
        (hHolds : Builder.Holds (Item.Regular sigs) b p.layout.arrays f fn) :
        fn.name = f.name.name := by
      obtain ⟨_, _, _, _, _, _, hLowered, -⟩ := hHolds
      exact hLowered.name
    obtain ⟨fn, hFilter, hHolds⟩ := (filter_of_forall₂ hName h.functions h.typed.names.1).1 f hf
    refine ⟨fn, ?_, hHolds⟩
    rw [Wasm.Module.function?, ← List.head?_filter, hFilter]
    rfl

theorem not_host {f : Function Ty} (hf : f ∈ p.functions) :
    ¬(f.name.name = "log" ∨ f.name.name = "logInt") ∧ Wasm.hostType? f.name.name = none := by
  have hHost := h.typed.names.2 f hf
  exact ⟨by simpa [Signatures.host] using hHost, hostType_eq_none_iff.mpr hHost⟩

/-- If calls from a function have the same outcome, a call of the function has. -/
theorem call_function {float : FloatOps} {n : Nat} (hCalls : p.CallsAgree m sigs float n)
    {f : Function Ty} (hf : f ∈ p.functions) {args : List Value}
    (hArgs : args.map Value.type = f.params.map fun q => q.ty.valType) :
    p.call float (n + 1) f.name.name args = m.call float (n + 1) f.name.name args ∧
      Safe (m.call float (n + 1) f.name.name args)
        fun r => r.map Value.type = f.returnTy.result? := by
  obtain ⟨hFind, fn, hFunction, cells, mem, start, fin, code, arrays, hLowered, hRegular, hSuffix,
    hKeeps, hArrays⟩ := h.find_function hf
  obtain ⟨hHost, hHostType⟩ := h.not_host hf
  have hNodup := (h.namesApart f hf).1
  have hSetting : (p.setting float n f).arrays = arrays := by
    change (List.lookup f.name.name p.layout.arrays).getD [] = arrays
    rw [Table.lookup_of_mem (layout_arrays h.typed) hArrays]
    rfl
  have hProgram : p.call float (n + 1) f.name.name args = f.evaluate (p.setting float n f) args := by
    rw [Program.call, if_neg hHost, hFind]
    rfl
  have hModule : m.call float (n + 1) f.name.name args =
      fn.invoke ⟨float, n, m.type?, m.call float n⟩ args := by
    rw [Wasm.Module.call, hHostType, hFunction]
    rfl
  have hResult : fn.result = f.returnTy.result? := hLowered.result
  rw [hProgram, hModule, ← hResult]
  refine hLowered.evaluate_eq_invoke (h.faithful hf hLowered hRegular hSuffix hKeeps hCalls)
    hRegular.typed (h.heads f (mem_items hf)) hNodup ?_ (hArgs.trans hLowered.params.symm)
  rw [hSetting]
  exact fun d hd => Table.lookup_of_mem (hLowered.arrays_nodup hNodup) hd

omit h in
/-- A call to the host has the same outcome whatever the bound on the depth of calls. -/
theorem call_host {float : FloatOps} {n : Nat} {name : String} {sig : Signature}
    (hHost : (name, sig) ∈ Signatures.host) {args : List Value} :
    p.call float n name args = m.call float n name args ∧
      Safe (m.call float n name args) fun r => r.map Value.type = sig.result.result? := by
  have hName : (name = "log" ∨ name = "logInt") ∧ sig.result.result? = none := by
    simp only [Signatures.host, List.mem_cons, Prod.mk.injEq, List.not_mem_nil, or_false] at hHost
    rcases hHost with ⟨rfl, rfl⟩ | ⟨rfl, rfl⟩
    · exact ⟨.inl rfl, rfl⟩
    · exact ⟨.inr rfl, rfl⟩
  have hType : (Wasm.hostType? name).isSome = true := by simp [Wasm.hostType?, hName.1]
  have hProgram : p.call float n name args = World.record name args := by
    cases n <;> exact if_pos hName.1
  have hModule : m.call float n name args = World.record name args := by
    cases n <;> exact if_pos hType
  rw [hProgram, hModule, hName.2]
  exact ⟨rfl, fun w => rfl⟩

theorem callsAgree (float : FloatOps) (n : Nat) : p.CallsAgree m sigs float n := by
  induction n with
  | zero =>
    intro name sig args hSig hArgs
    rcases h.typed.of_lookup hSig with ⟨f, hf, rfl, rfl⟩ | ⟨hHost, -⟩
    · obtain ⟨hHost, hHostType⟩ := h.not_host hf
      have hProgram : p.call float 0 f.name.name args = throw .timeout := if_neg hHost
      have hModule : m.call float 0 f.name.name args = throw .timeout :=
        if_neg (by rw [hHostType]; simp)
      rw [hProgram, hModule]
      exact ⟨rfl, fun w => (by decide : Halt.timeout ≠ .stuck)⟩
    · exact call_host hHost
  | succ n ih =>
    intro name sig args hSig hArgs
    rcases h.typed.of_lookup hSig with ⟨f, hf, rfl, rfl⟩ | ⟨hHost, -⟩
    · exact h.call_function ih hf (by rw [hArgs, List.map_map]; rfl)
    · exact call_host hHost

end Compiled

/-- Calling a function of a compiled module has the outcome of calling it in the program, whatever
the arguments and the world are. -/
theorem call_eq_of_emit {source : String} {p : Program Ty} {m : Wasm.Module}
    (hSource : checkSource source = .ok p) (hVoid : p.VoidFree) (hNames : p.NamesApart)
    (hEmit : p.emit = .ok m) (float : FloatOps) {f : Function Ty} (hf : f ∈ p.functions)
    (args : List Value) (hArgs : args.map Value.type = f.params.map fun q => q.ty.valType)
    (n : Nat) (w : World) :
    m.call float n f.name.name args w = p.call float n f.name.name args w ∧
      ∀ w', p.call float n f.name.name args w ≠ .error .stuck w' := by
  obtain ⟨sigs, b, hCompiled⟩ := compiled_of_emit hSource hVoid hNames hEmit
  have hSig : List.lookup f.name.name sigs = some ⟨f.params.map Param.ty, f.returnTy⟩ := by
    apply Table.lookup_of_mem hCompiled.typed.distinct
    rw [hCompiled.typed.signatures]
    exact List.mem_append_left _ (List.mem_reverse.mpr (List.mem_map_of_mem hf))
  obtain ⟨hEq, hSafe⟩ := hCompiled.callsAgree float n hSig (by rw [hArgs, List.map_map]; rfl)
  refine ⟨by rw [hEq], fun w' hStuck => ?_⟩
  have hw := hSafe w
  rw [← hEq, hStuck] at hw
  exact hw rfl

/-- Operations for programs that use no floats. -/
def floatless : FloatOps :=
  ⟨fun x _ => x, fun x _ => x, fun x _ => x, fun x _ => x, fun _ _ => true, fun _ _ => true,
    fun _ _ => true, fun _ _ => true, fun _ _ => true, fun _ _ => true⟩

set_option maxRecDepth 2000 in
theorem call_eq_of_emit_countdown :
    ∃ (p : Program Ty) (m : Wasm.Module) (w : World),
      checkSource countdown = .ok p ∧ p.emit = .ok m ∧
      m.call floatless 20 "f" [.i32 8] ⟨List.replicate 16 0, []⟩ = .ok (some (.i32 2)) w ∧
      w.calls = [("logInt", [.i32 7]), ("logInt", [.i32 6])] := by
  have hCompiles : compilesTo (fun p _ => decide (p.VoidFree ∧ p.NamesApart ∧
      ∃ f ∈ p.functions, f.name.name = "f" ∧ (f.params.map fun q => q.ty.valType) = [.i32]) &&
      match p.call floatless 20 "f" [.i32 8] ⟨List.replicate 16 0, []⟩ with
      | .ok r w => decide (r = some (.i32 2) ∧
          w.calls = [("logInt", [.i32 7]), ("logInt", [.i32 6])])
      | .error _ _ => false) countdown = true :=
    compilesTo_ofList (by decide +kernel)
  obtain ⟨p, m, hSource, hEmit, hTest⟩ := exists_of_compilesTo hCompiles
  obtain ⟨hShape, hCall⟩ := Bool.and_eq_true_iff.mp hTest
  obtain ⟨hVoid, hNames, f, hf, hName, hParams⟩ := of_decide_eq_true hShape
  have hEq := (call_eq_of_emit hSource hVoid hNames hEmit floatless hf [.i32 8] hParams.symm 20
    ⟨List.replicate 16 0, []⟩).1
  rw [hName] at hEq
  cases hRun : p.call floatless 20 "f" [.i32 8] ⟨List.replicate 16 0, []⟩ with
  | error e w =>
    rw [hRun] at hCall
    cases hCall
  | ok r w =>
    rw [hRun] at hCall
    obtain ⟨rfl, hCalls⟩ := of_decide_eq_true hCall
    exact ⟨p, m, w, hSource, hEmit, hEq.trans hRun, hCalls⟩

end Program

end MiniC
