import MiniC.Proofs.Sources
import MiniC.Proofs.Validation.Lowering

/-! # Compiled modules are valid -/
namespace MiniC
set_option autoImplicit false

open Wasm (Code Instr ValType)
open Wasm.Validation (Context Pushes Neutral)

theorem BodyLowers.ends_in_return {B : Bindings} {labels : List Label} {xs : List (Stmt Ty)}
    {code : Code} {arrays : List (String × Nat)} (h : BodyLowers B labels xs code arrays)
    (hLast : (xs.getLast?.map Stmt.isReturn).getD false = true) :
    ∃ rest, code = rest ++ [Instr.return_] := by
  induction xs generalizing code arrays with
  | nil => cases hLast
  | cons x xs ih =>
    cases h with
    | @cons _ _ _ a b as bs hX hXs =>
      cases xs with
      | nil =>
        cases hXs
        cases hX with
        | retNone => exact ⟨[], rfl⟩
        | retSome hE => exact ⟨_, List.append_nil _⟩
        | _ => cases hLast
      | cons y ys =>
        obtain ⟨rest, rfl⟩ := ih hXs (by rw [List.getLast?_cons_cons] at hLast; exact hLast)
        exact ⟨a ++ rest, (List.append_assoc a rest _).symm⟩

namespace Wasm.Validation

theorem unreachable_of_return {Γ : Context} {code : Code} {v w : State} {c : Control}
    (h : run Γ (code ++ [Instr.return_]) v = some w) (hw : w.controls = [c]) :
    c.unreachable = true := by
  rw [run_append] at h
  obtain ⟨v₁, -, h⟩ := Option.bind_eq_some_iff.mp h
  simp only [run, List.foldlM_cons, List.foldlM_nil, bind_pure] at h
  split at h
  · cases h
  · obtain ⟨v₂, -, h⟩ := Option.bind_eq_some_iff.mp h
    obtain rfl := Option.some.inj h
    rw [State.cut] at hw
    cases hControls : v₂.controls with
    | nil =>
      simp [hControls] at hw
    | cons c' cs =>
      simp only [hControls, List.cons.injEq] at hw
      rw [← hw.1]

/-- The end of a function can be reached only with its results, or it cannot be reached. -/
theorem run_end {Γ : Context} {opener : Opener} {result : Option ValType} {u : Bool}
    (h : result = none ∨ u = true) :
    run Γ [.end_] ⟨[], [⟨opener, result.toList, 0, u⟩]⟩ =
      some ⟨(result.toList.map some).reverse, []⟩ := by
  rw [run_singleton (by simp)]
  cases result with
  | none => rfl
  | some t =>
    obtain rfl : u = true := h.resolve_left (by simp)
    simp [step, State.leave, State.popAll, State.pop, State.popAny, State.pushAll]

end Wasm.Validation

open Wasm.Validation in
theorem Function.Lowered.validates {f : Function Ty} {fn : Wasm.Function} {cells : Globals}
    {m : Memory} {start fin : Frame} {code : Code} {arrays : List (String × Nat)}
    (h : f.Lowered fn cells m start fin code arrays) {sigs : Signatures} {module : Wasm.Module}
    (hTyped : f.WellTyped sigs cells.scope)
    (hSuits : Suits ⟨fn.params ++ fn.locals, fn.result, module.type?⟩ (.ofRun cells start fin) sigs
      (f.Occurs cells.scope)) :
    fn.validates module = true := by
  let Γ : Context := ⟨fn.params ++ fn.locals, fn.result, module.type?⟩
  let v : State := ⟨[], [⟨.function, fn.result.toList, 0, false⟩]⟩
  have hFlat : v.Flat 0 := ⟨⟨_, _, rfl, rfl⟩, by simp⟩
  let ctx : FunctionContext := ⟨sigs, f.name.name, f.returnTy⟩
  have hBody : Stmt.WellTypedAll ctx (f.Occurs cells.scope) f.body := hTyped
  obtain ⟨u, hCode⟩ := h.lowers.neutral hSuits h.result f.body hBody v hFlat
  have hBody : ∃ u, run Γ fn.body v = some (v.mark u) ∧ (fn.result = none ∨ u = true) := by
    rcases h.closed with ⟨hVoid, hBody⟩ | ⟨-, -, hBody⟩
    · exact ⟨u, by rw [hBody, hCode], .inl (by rw [h.result, if_pos hVoid])⟩
    · cases hEnd : f.endsInReturn with
      | true =>
        obtain ⟨rest, hRest⟩ := h.lowers.ends_in_return hEnd
        have hU := unreachable_of_return (hRest ▸ hCode) rfl
        exact ⟨u, by rw [hBody, hEnd, if_pos rfl, List.append_nil, hCode], .inr hU⟩
      | false =>
        refine ⟨true, ?_, .inr rfl⟩
        rw [hBody, hEnd, if_neg (by simp), run_append, hCode, Option.bind_some,
          Neutral.run_unreachable (hFlat.mark u), State.mark_mark, Bool.or_true]
  obtain ⟨u, hRun, hEnd⟩ := hBody
  have hAll : run Γ (fn.body ++ [Instr.end_]) v = some ⟨(fn.result.toList.map some).reverse, []⟩ := by
    rw [run_append, hRun, Option.bind_some]
    exact run_end hEnd
  rw [Wasm.Function.validates]
  exact hAll ▸ rfl

/-- The only function of a module with the name of a function is the code of that function. -/
theorem filter_of_forall₂ {R : Function Ty → Wasm.Function → Prop}
    (hName : ∀ f fn, R f fn → fn.name = f.name.name) {fs : List (Function Ty)}
    {fns : List Wasm.Function} (h : List.Forall₂ R fs fns)
    (hNodup : (fs.map fun f => f.name.name).Nodup) :
    (∀ f ∈ fs, ∃ fn, fns.filter (fun g => g.name = f.name.name) = [fn] ∧ R f fn) ∧
      ∀ x ∉ fs.map fun f => f.name.name, fns.filter (fun g => g.name = x) = [] := by
  induction h with
  | nil => simp
  | @cons f fn fs fns hR hRest ih =>
    obtain ⟨hFresh, hNodup⟩ := List.nodup_cons.mp hNodup
    obtain ⟨hFound, hMissing⟩ := ih hNodup
    have hFn := hName f fn hR
    constructor
    · intro g hg
      rcases List.mem_cons.mp hg with rfl | hg
      · refine ⟨fn, ?_, hR⟩
        rw [List.filter_cons_of_pos (by simpa using hFn), hMissing _ hFresh]
      · obtain ⟨gn, hFilter, hGn⟩ := hFound g hg
        refine ⟨gn, ?_, hGn⟩
        have hNe : f.name.name ≠ g.name.name := by
          intro hEq
          exact hFresh (List.mem_map.mpr ⟨g, hg, hEq.symm⟩)
        rw [List.filter_cons_of_neg (by simpa [hFn] using hNe), hFilter]
    · intro x hx
      rw [List.map_cons, List.mem_cons, not_or] at hx
      rw [List.filter_cons_of_neg (by simpa [hFn] using Ne.symm hx.1), hMissing x hx.2]

theorem hostType_eq_none_iff {name : String} :
    Wasm.hostType? name = none ↔ name ∉ Signatures.host.map Prod.fst := by
  simp [Wasm.hostType?, Signatures.host]

namespace Program.WellTyped

variable {p : Program Ty} {sigs : Signatures}

theorem names (h : p.WellTyped sigs) :
    (p.functions.map fun f => f.name.name).Nodup ∧
      ∀ f ∈ p.functions, f.name.name ∉ Signatures.host.map Prod.fst := by
  have hNodup := h.distinct
  rw [h.signatures, List.map_append, List.map_reverse, List.map_map, List.nodup_append] at hNodup
  obtain ⟨hOwn, -, hDisjoint⟩ := hNodup
  refine ⟨(List.reverse_perm _).nodup_iff.mp hOwn, ?_⟩
  intro f hf hHost
  exact hDisjoint _ (List.mem_reverse.mpr (List.mem_map_of_mem hf)) _ hHost rfl

/-- A known function is one of the program or one of the host. -/
theorem of_lookup (h : p.WellTyped sigs) {name : String} {sig : Signature}
    (hSig : List.lookup name sigs = some sig) :
    (∃ f ∈ p.functions, name = f.name.name ∧ sig = ⟨f.params.map Param.ty, f.returnTy⟩) ∨
      ((name, sig) ∈ Signatures.host ∧ name ∉ p.functions.map fun f => f.name.name) := by
  have hMem := Table.mem_of_lookup hSig
  rw [h.signatures] at hMem
  rcases List.mem_append.mp hMem with hMem | hMem
  · obtain ⟨f, hf, hEq⟩ := List.mem_map.mp (List.mem_reverse.mp hMem)
    obtain ⟨hName, hSig⟩ := Prod.mk.inj hEq
    exact .inl ⟨f, hf, hName.symm, hSig.symm⟩
  · refine .inr ⟨hMem, ?_⟩
    intro hName
    obtain ⟨f, hf, hEq⟩ := List.mem_map.mp hName
    exact h.names.2 f hf (hEq ▸ List.mem_map_of_mem hMem)

theorem callee (h : p.WellTyped sigs) {m : Wasm.Module}
    (hFns : List.Forall₂ (fun f fn => fn.name = f.name.name ∧
      fn.type = ⟨f.params.map fun q => q.ty.valType, f.returnTy.result?⟩) p.functions m.functions)
    {name : String} {sig : Signature} (hSig : List.lookup name sigs = some sig) :
    m.type? name = some ⟨sig.params.map Ty.valType, sig.result.result?⟩ := by
  obtain ⟨hFound, hMissing⟩ := filter_of_forall₂ (fun _ _ => And.left) hFns h.names.1
  rw [Wasm.Module.type?]
  rcases h.of_lookup hSig with ⟨f, hf, rfl, rfl⟩ | ⟨hHost, hName⟩
  · obtain ⟨fn, hFilter, -, hType⟩ := hFound f hf
    rw [hFilter, hostType_eq_none_iff.mpr (h.names.2 f hf)]
    simp [hType]
  · rw [hMissing name hName]
    simp only [Signatures.host, List.mem_cons, Prod.mk.injEq, List.not_mem_nil, or_false] at hHost
    rcases hHost with ⟨rfl, rfl⟩ | ⟨rfl, rfl⟩ <;> rfl

theorem params_ne_void (h : p.WellTyped sigs) {name : String} {sig : Signature}
    (hSig : List.lookup name sigs = some sig) : ∀ t ∈ sig.params, t ≠ .void := by
  rcases h.of_lookup hSig with ⟨f, hf, -, rfl⟩ | ⟨hHost, -⟩
  · intro t ht
    obtain ⟨q, hq, rfl⟩ := List.mem_map.mp ht
    exact h.parameters f hf q hq
  · simp only [Signatures.host, List.mem_cons, Prod.mk.injEq, List.not_mem_nil, or_false] at hHost
    rcases hHost with ⟨-, rfl⟩ | ⟨-, rfl⟩ <;> simp

theorem result_voidFree (h : p.WellTyped sigs) (hVoid : p.VoidFree) {name : String}
    {sig : Signature} (hSig : List.lookup name sigs = some sig) :
    sig.result.reachesVoid = false := by
  rcases h.of_lookup hSig with ⟨f, hf, -, rfl⟩ | ⟨hHost, -⟩
  · exact hVoid _ (List.mem_append_right _ (List.mem_flatMap.mpr ⟨f, hf, List.mem_cons_self⟩))
  · simp only [Signatures.host, List.mem_cons, Prod.mk.injEq, List.not_mem_nil, or_false] at hHost
    rcases hHost with ⟨-, rfl⟩ | ⟨-, rfl⟩ <;> rfl

end Program.WellTyped

/-- Every function of a compiled module is valid. -/
theorem Program.validates_of_emit {source : Program Unit} {p : Program Ty} {m : Wasm.Module}
    (hCheck : source.check = .ok p) (hVoid : p.VoidFree) (hOne : p.OneMachineType)
    (hEmit : p.emit = .ok m) : ∀ fn ∈ m.functions, fn.validates m = true := by
  obtain ⟨sigs, hTyped⟩ := Program.wellTyped_of_check hCheck
  obtain ⟨b, -, -, hHolds⟩ := Program.holds_of_emit hEmit (Program.regular hTyped hVoid hOne)
  have hFns : List.Forall₂ (fun f fn => fn.name = f.name.name ∧
      fn.type = ⟨f.params.map fun q => q.ty.valType, f.returnTy.result?⟩)
      p.functions m.functions := by
    refine hHolds.imp ?_
    rintro f fn ⟨cells, mem, start, fin, code, as, hLowered, -⟩
    exact ⟨hLowered.name, by rw [Wasm.Function.type, hLowered.params, hLowered.result]; rfl⟩
  intro fn hFn
  obtain ⟨f, hf, cells, mem, start, fin, code, as, hLowered, hRegular, -⟩ :=
    exists_of_forall₂ hHolds hFn
  refine hLowered.validates hRegular.typed ⟨?_, hRegular.nonvoid, hRegular.voidFree, ?_, ?_, ?_⟩
  · rw [show fn.params ++ fn.locals = fin.slots from hLowered.slots]
    exact hLowered.typed hRegular
  · exact fun _ _ hSig => hTyped.callee hFns hSig
  · exact fun _ _ hSig => hTyped.params_ne_void hSig
  · exact fun _ _ hSig => hTyped.result_voidFree hVoid hSig

/-- A source with loops, a jump, calls and a global. -/
def countdown : String :=
  "int g; int f(int n) \x7b while (n > 0) \x7b n--; if (n == 5) \x7b break; \x7d g++; logInt(n); \x7d
    return g; \x7d void h(float x) \x7b do \x7b x = -x; \x7d while (f(3)); \x7d"

set_option maxRecDepth 2000 in
theorem Program.validates_of_emit_countdown :
    ∃ (source : Program Unit) (p : Program Ty) (m : Wasm.Module),
      Program.parse countdown = .ok source ∧ source.check = .ok p ∧ p.emit = .ok m ∧
      m.functions.length = 2 ∧ ∀ fn ∈ m.functions, fn.validates m = true := by
  have hCompiles : compilesTo (fun p m => decide (p.VoidFree ∧ p.OneMachineType ∧
      m.functions.length = 2)) countdown = true :=
    compilesTo_ofList (by decide +kernel)
  obtain ⟨p, m, hSource, hEmit, hTest⟩ := exists_of_compilesTo hCompiles
  obtain ⟨tree, hParse, hCheck⟩ := checkSource_eq_ok_iff.mp hSource
  obtain ⟨hVoid, hOne, hLength⟩ := of_decide_eq_true hTest
  exact ⟨tree, p, m, hParse, hCheck, hEmit, hLength,
    Program.validates_of_emit hCheck hVoid hOne hEmit⟩

end MiniC
