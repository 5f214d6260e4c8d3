import MiniC.Proofs.Preservation.Stmt
import MiniC.Proofs.Validation.Program

/-! # The code of a function does what the function does

A function that declares every name once has one slot for each of its variables.  When the function
is called the slots hold its arguments and zeros, as its variables do.
-/
namespace MiniC
set_option autoImplicit false

open Wasm (Code Exec Instr Runtime ValType)

mutual

/-- A statement has its arrays where it declares them. -/
theorem StmtLowers.arrays_perm {B : Bindings} (x : Stmt Ty) {labels : List Label} {code : Code}
    {arrays : List (String × Nat)} (h : StmtLowers B labels x code arrays) :
    (arrays.map Prod.fst).Perm ((x.locals.filter fun d => d.2.isArray).map Prod.fst) := by
  cases h with
  | array hArray hDeclared => simp [Stmt.locals, hArray]
  | scalar hArray hDeclared => simp [Stmt.locals, hArray]
  | scalarInit hArray hDeclared hE => simp [Stmt.locals, hArray]
  | @branch _ s cond thenBody elseBody c t e as bs hCond hThen hElse =>
    rw [Stmt.locals, List.filter_append, List.map_append, List.map_append]
    exact (BodyLowers.arrays_perm thenBody hThen).append (BodyLowers.arrays_perm elseBody hElse)
  | @whileDo _ s cond body c b c' as hCond hBody hCond' => exact BodyLowers.arrays_perm body hBody
  | @doWhile _ s cond body b c as hBody hCond => exact BodyLowers.arrays_perm body hBody
  | @forLoop _ s init update cond body i c b u c' as bs cs hInit hCond hBody hUpdate hCond' =>
    have hI := OptionLowers.arrays_perm init hInit
    have hB := BodyLowers.arrays_perm body hBody
    have hU := OptionLowers.arrays_perm update hUpdate
    simp only [Stmt.locals, List.filter_append, List.map_append, List.append_assoc]
    exact hI.append ((hB.append hU).trans List.perm_append_comm)
  | _ => exact .refl []

theorem BodyLowers.arrays_perm {B : Bindings} (xs : List (Stmt Ty)) {labels : List Label}
    {code : Code} {arrays : List (String × Nat)} (h : BodyLowers B labels xs code arrays) :
    (arrays.map Prod.fst).Perm (((Stmt.localsAll xs).filter fun d => d.2.isArray).map Prod.fst) := by
  cases h with
  | nil => exact .refl []
  | @cons _ x xs a b as bs hX hXs =>
    rw [Stmt.localsAll, List.filter_append, List.map_append, List.map_append]
    exact (StmtLowers.arrays_perm x hX).append (BodyLowers.arrays_perm xs hXs)

theorem OptionLowers.arrays_perm {B : Bindings} (x? : Option (Stmt Ty)) {labels : List Label}
    {code : Code} {arrays : List (String × Nat)} (h : OptionLowers B labels x? code arrays) :
    (arrays.map Prod.fst).Perm
      (((Stmt.localsOption x?).filter fun d => d.2.isArray).map Prod.fst) := by
  cases h with
  | none => exact .refl []
  | @some _ x code as hX => exact StmtLowers.arrays_perm x hX

end

/-- The end of a body that ends in a `return` is not reached. -/
theorem Stmt.execAll_ne_ok {S : Setting} {xs : List (Stmt Ty)}
    (hLast : (xs.getLast?.map isReturn).getD false = true) (s s' : Store) (u : Unit) :
    execAll S xs s ≠ .ok u s' := by
  induction xs generalizing s with
  | nil => cases hLast
  | cons x xs ih =>
    intro hRun
    rw [execAll] at hRun
    obtain ⟨_, s₁, hX, hXs⟩ := Action.bind_eq_ok_iff.mp hRun
    cases xs with
    | nil =>
      cases x with
      | ret s₀ value =>
        cases value with
        | none => cases hX
        | some e =>
          rw [exec] at hX
          obtain ⟨_, _, _, hThrow⟩ := Action.bind_eq_ok_iff.mp hX
          cases hThrow
      | _ => cases hLast
    | cons y ys =>
      rw [List.getLast?_cons_cons] at hLast
      exact ih hLast s₁ hXs

namespace Function

variable {f : Function Ty} {fn : Wasm.Function} {cells : Globals} {m : Memory} {start fin : Frame}
  {code : Code} {arrays : List (String × Nat)}

theorem initialVars_of_local (hNames : (f.declarations.map Prod.fst).Nodup) {args : List Value}
    {x : String} {ty : Ty} (hx : (x, ty) ∈ f.locals) :
    f.initialVars args x = some (Value.zero ty.valType) := by
  rw [Function.declarations, List.map_append] at hNames
  obtain ⟨-, hLocals, hApart⟩ := List.nodup_append.mp hNames
  have hParam : List.lookup x ((f.parameters.map Prod.fst).zip args) = none := by
    rw [Table.lookup_eq_none_iff]
    intro hZip
    obtain ⟨d, hd, rfl⟩ := List.mem_map.mp hZip
    exact hApart _ (List.of_mem_zip hd).1 _ (List.mem_map_of_mem hx) rfl
  have hLocal : List.lookup x (f.locals.map fun d => (d.1, Value.zero d.2.valType)) =
      some (Value.zero ty.valType) := by
    apply Table.lookup_of_mem
    · rw [List.map_map]
      exact hLocals
    · exact List.mem_map.mpr ⟨_, hx, rfl⟩
  rw [initialVars, List.lookup_append, hParam, hLocal]
  rfl

theorem initialVars_of_not_mem {args : List Value} {x : String}
    (hx : x ∉ f.declarations.map Prod.fst) : f.initialVars args x = none := by
  rw [Function.declarations, List.map_append, List.mem_append, not_or] at hx
  rw [initialVars, Table.lookup_eq_none_iff, List.map_append, List.mem_append, List.map_map]
  rintro (hZip | hLocal)
  · obtain ⟨d, hd, rfl⟩ := List.mem_map.mp hZip
    exact hx.1 (List.of_mem_zip hd).1
  · exact hx.2 hLocal

namespace Lowered

variable (h : f.Lowered fn cells m start fin code arrays)

include h

theorem mem_names_iff {x : String} :
    x ∈ fin.names.map Prod.fst ↔ x ∈ f.declarations.map Prod.fst := by
  obtain ⟨added, hPerm, hNames, -⟩ := (h.begun.trans h.declares).names
  have hAdded : fin.names.map Prod.fst = (added.map Prod.fst).map Prod.fst := by simp [hNames]
  rw [hAdded]
  exact (hPerm.map Prod.fst).mem_iff

theorem names_nodup (hNames : (f.declarations.map Prod.fst).Nodup) :
    (fin.names.map Prod.fst).Nodup := by
  obtain ⟨added, hPerm, hAdded, -⟩ := (h.begun.trans h.declares).names
  have hFst : fin.names.map Prod.fst = (added.map Prod.fst).map Prod.fst := by simp [hAdded]
  rw [hFst]
  exact (hPerm.map Prod.fst).nodup_iff.mpr hNames

theorem slots_nodup : (fin.names.map Prod.snd).Nodup := by
  obtain ⟨added, -, hAdded, hOrder, -⟩ := (h.begun.trans h.declares).names
  have hSnd : fin.names.map Prod.snd = added.map Prod.snd := by simp [hAdded]
  rw [hSnd]
  exact hOrder.imp Nat.ne_of_gt

theorem arrays_nodup (hNames : (f.declarations.map Prod.fst).Nodup) :
    (arrays.map Prod.fst).Nodup := by
  rw [(h.lowers.arrays_perm f.body).nodup_iff]
  have hLocals : (f.locals.map Prod.fst).Nodup := by
    rw [Function.declarations, List.map_append] at hNames
    exact (List.nodup_append.mp hNames).2.1
  exact hLocals.sublist (List.filter_sublist.map Prod.fst)

theorem mem_names_of_param {i : Nat} {q : Param} (hq : f.params[i]? = some q) :
    (q.name.name, i) ∈ fin.names := by
  apply Frame.mem_names_of_below h.declares.below
  rw [h.paramNames, List.mem_reverse, List.mem_zipIdx_iff_getElem?]
  simp [hq]

/-- Local variables have the slots after the parameters. -/
theorem mem_names_of_local {x : String} {ty : Ty} (hx : (x, ty) ∈ f.locals) :
    ∃ n, (x, n) ∈ fin.names ∧ f.params.length ≤ n ∧ fin.slots[n]? = some ty.valType := by
  obtain ⟨added, hPerm, hNames, -, hSlots⟩ := h.declares.names
  obtain ⟨⟨d, n⟩, hd, rfl⟩ := List.mem_map.mp (hPerm.mem_iff.mpr hx)
  obtain ⟨hLow, hSlot⟩ := hSlots _ hd
  refine ⟨n, ?_, by simpa [h.paramSlots] using hLow, hSlot⟩
  rw [hNames]
  exact List.mem_append_left _ (List.mem_map.mpr ⟨_, hd, rfl⟩)

theorem initialVars_of_param (hNames : (f.declarations.map Prod.fst).Nodup) {args : List Value}
    (hArgs : args.map Value.type = fn.params) {i : Nat} {q : Param} (hq : f.params[i]? = some q) :
    f.initialVars args q.name.name = (args ++ fn.locals.map Value.zero)[i]? := by
  have hLength : args.length = f.params.length := by
    simpa [h.params] using congrArg List.length hArgs
  have hi := (List.getElem?_eq_some_iff.mp hq).1
  have hParams : (f.parameters.map Prod.fst).Nodup := by
    rw [Function.declarations, List.map_append] at hNames
    exact (List.nodup_append.mp hNames).1
  have hZip : ((f.parameters.map Prod.fst).zip args).map Prod.fst = f.parameters.map Prod.fst :=
    List.map_fst_zip (by simp [parameters, hLength])
  have hMem : (q.name.name, args[i]) ∈ (f.parameters.map Prod.fst).zip args := by
    rw [List.mem_iff_getElem?]
    have hGet := (List.getElem?_eq_some_iff.mp hq).2
    exact ⟨i, by simp [parameters, hGet, hLength, hi]⟩
  rw [initialVars, List.lookup_append, Table.lookup_of_mem (hZip.symm ▸ hParams) hMem,
    List.getElem?_append_left (by omega), List.getElem?_eq_getElem (by omega)]
  rfl

/-- The variables of a function start with the values that are in their slots. -/
theorem initialVars_eq_view (hNames : (f.declarations.map Prod.fst).Nodup) {args : List Value}
    (hArgs : args.map Value.type = fn.params) :
    f.initialVars args = view fin.names (args ++ fn.locals.map Value.zero) := by
  have hDistinct := h.names_nodup hNames
  funext x
  by_cases hx : x ∈ f.declarations.map Prod.fst
  · obtain ⟨⟨y, ty⟩, hd, rfl⟩ := List.mem_map.mp hx
    rcases List.mem_append.mp hd with hParam | hLocal
    · obtain ⟨q, hq, hEq⟩ := List.mem_map.mp hParam
      obtain ⟨i, hi⟩ := List.mem_iff_getElem?.mp hq
      cases hEq
      rw [view, Table.lookup_of_mem hDistinct (h.mem_names_of_param hi)]
      exact h.initialVars_of_param hNames hArgs hi
    · obtain ⟨n, hName, hLow, hSlot⟩ := h.mem_names_of_local hLocal
      have hLength : args.length = f.params.length := by
        simpa [h.params] using congrArg List.length hArgs
      rw [← h.slots, List.getElem?_append_right (by simpa [h.params] using hLow)] at hSlot
      simp only [h.params, List.length_map] at hSlot
      have hZero : (args ++ fn.locals.map Value.zero)[n]? = some (Value.zero ty.valType) := by
        rw [List.getElem?_append_right (by omega), List.getElem?_map, hLength, hSlot]
        rfl
      rw [view, Table.lookup_of_mem hDistinct hName]
      exact (initialVars_of_local hNames hLocal).trans hZero.symm
  · rw [view, Table.lookup_eq_none_iff.mpr fun hName => hx (h.mem_names_iff.mp hName)]
    exact initialVars_of_not_mem hx

theorem related (hNames : (f.declarations.map Prod.fst).Nodup) {args : List Value}
    (hArgs : args.map Value.type = fn.params) (w : World) :
    Related fin ⟨f.initialVars args, w⟩ ⟨[], args ++ fn.locals.map Value.zero, w⟩ := by
  refine ⟨rfl, h.initialVars_eq_view hNames hArgs, ?_⟩
  rw [List.map_append, hArgs, ← h.slots, List.map_map]
  congr 1
  exact List.map_id'' Value.type_zero _

end Lowered

/-- What is left to do when the body of a function has run to its end. -/
def finish (f : Function Ty) : Eval Unit :=
  if f.returnTy = .void then pure () else throw (.halt .trap)

theorem evaluate_eq (S : Setting) (f : Function Ty) (args : List Value) (w : World) :
    f.evaluate S args w =
      match (Stmt.execAll S f.body >>= fun _ => f.finish) ⟨f.initialVars args, w⟩ with
      | .ok _ s => .ok none s.world
      | .error (.return_ v) s => .ok v s.world
      | .error (.jump _) s => .error .stuck s.world
      | .error (.halt h) s => .error h s.world := by
  rw [evaluate]
  cases hRun : Stmt.execAll S f.body ⟨f.initialVars args, w⟩ with
  | ok u s =>
    rw [Action.bind_of_ok hRun, finish]
    by_cases hVoid : f.returnTy = .void
    · simp only [hVoid, if_true]
      rfl
    · simp only [hVoid, if_false]
      rfl
  | error e s =>
    rw [Action.bind_of_error hRun]
    cases e <;> rfl

namespace Lowered

variable (h : f.Lowered fn cells m start fin code arrays) {S : Setting} {R : Runtime}
  {sigs : Signatures}
  (hF : Faithful fin fn.result (.ofRun cells start fin) S R sigs (f.Occurs cells.scope))

include h hF

theorem body_sim (hTyped : f.WellTyped sigs cells.scope) (hHeads : Stmt.HeadsSimpleAll f.body)
    (hArrays : ∀ d ∈ arrays, List.lookup d.1 S.arrays = some d.2) :
    Sim fin fn.result (fun _ _ => False) [] (Stmt.execAll S f.body >>= fun _ => f.finish)
      (Wasm.Code.exec R fn.body) fun _ _ _ => fn.result = none := by
  have hResult : fn.result = f.returnTy.result? := h.result
  have hCode : Sim fin fn.result (fun _ _ => False) [] (Stmt.execAll S f.body)
      (Wasm.Code.exec R code) fun _ _ vs => vs = [] := by
    let ctx : FunctionContext := ⟨sigs, f.name.name, f.returnTy⟩
    have hBody : Stmt.WellTypedAll ctx (f.Occurs cells.scope) f.body := hTyped
    refine .retarget ?_ (h.lowers.sim hF hResult f.body hBody hHeads hArrays)
    rintro j d ⟨-, hDepth⟩
    cases hDepth
  rcases h.closed with ⟨hVoid, hBody⟩ | ⟨hVoid, -, hBody⟩
  · rw [hBody, finish, if_pos hVoid]
    exact hCode.map fun _ _ _ _ => by rw [hResult, hVoid]; rfl
  · rw [hBody, finish, if_neg hVoid]
    cases hEnd : f.endsInReturn with
    | false =>
      rw [if_neg (by simp), Wasm.Code.exec_append h.lowers.balanced (.plain rfl)]
      exact hCode.bind fun _ _ _ _ => .halt (by decide)
    | true =>
      rw [if_pos rfl, List.append_nil]
      intro s σ stack hRelated hStack
      have hAgree := hCode s σ stack hRelated hStack
      cases hRun : Stmt.execAll S f.body s with
      | ok u s' => exact absurd hRun (Stmt.execAll_ne_ok hEnd s s' u)
      | error e s' =>
        rw [hRun] at hAgree
        rw [Action.bind_of_error hRun]
        generalize Wasm.Code.exec R code σ = r at hAgree ⊢
        cases hAgree with
        | jump hTarget hRelated' => exact hTarget.elim
        | return_ hStack' hType hWorld => exact .return_ hStack' hType hWorld
        | halt hStuck hWorld => exact .halt hStuck hWorld

/-- Calling a function and calling its code comes to the same. -/
theorem evaluate_eq_invoke (hTyped : f.WellTyped sigs cells.scope)
    (hHeads : Stmt.HeadsSimpleAll f.body) (hNames : (f.declarations.map Prod.fst).Nodup)
    (hArrays : ∀ d ∈ arrays, List.lookup d.1 S.arrays = some d.2) {args : List Value}
    (hArgs : args.map Value.type = fn.params) :
    f.evaluate S args = fn.invoke R args ∧
      Safe (fn.invoke R args) fun r => r.map Value.type = fn.result := by
  have hOutcome (w : World) : f.evaluate S args w = fn.invoke R args w ∧
      match fn.invoke R args w with
      | .ok r _ => r.map Value.type = fn.result
      | .error e _ => e ≠ .stuck := by
    have hAgree := h.body_sim hF hTyped hHeads hArrays _ _ [] (h.related hNames hArgs w) rfl
    rw [evaluate_eq, Wasm.Function.invoke]
    generalize (Stmt.execAll S f.body >>= fun _ => f.finish) _ = r at hAgree ⊢
    generalize Wasm.Code.exec R fn.body _ = r' at hAgree ⊢
    cases hAgree with
    | ok hRelated hStack hNone => simp [hNone, hRelated.world]
    | jump hTarget hRelated => exact hTarget.elim
    | @return_ v s σ rest hStack hType hWorld =>
      cases v with
      | none => simp [← hType, hWorld]
      | some v => simp [← hType, hStack, hWorld]
    | halt hStuck hWorld => exact ⟨congrArg (EStateM.Result.error _) hWorld, hStuck⟩
  refine ⟨funext fun w => (hOutcome w).1, fun w => ?_⟩
  have hSafe := (hOutcome w).2
  generalize fn.invoke R args w = r at hSafe ⊢
  cases r <;> exact hSafe

end Lowered

end Function

end MiniC
