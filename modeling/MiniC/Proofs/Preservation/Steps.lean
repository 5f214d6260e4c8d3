import Mathlib.Data.List.Nodup
import MiniC.Proofs.Execution.Simulation
import MiniC.Proofs.Validation.Lowering

/-! # Operators and variables

The operations of the machine are those of the program, and reading, assigning and stepping a
variable does the same to it wherever it is.
-/
namespace MiniC
set_option autoImplicit false

open Wasm (Code Exec Instr Runtime ValType)

namespace Wasm.Opcode

/-- An operation that is valid for its operands has a result of its type, or traps. -/
theorem act_safe {op : Opcode} {t r : ValType} (h : op.type? t = some ⟨[t, t], some r⟩)
    {v u : Value} (hv : v.type = t) (hu : u.type = t) (float : FloatOps) :
    Safe (op.act float t [v, u]) fun w => w.type = r := by
  cases v with
  | i32 a =>
    obtain rfl : ValType.i32 = t := hv
    obtain ⟨b, rfl⟩ := Value.eq_i32_of_type hu
    change Safe (op.actInt a b) _
    cases op with
    | divS =>
      cases h
      rw [actInt]
      split
      · exact .trap
      · exact .pure rfl
    | remS =>
      cases h
      rw [actInt]
      split
      · exact .trap
      · exact .pure rfl
    | _ => cases h <;> exact .pure rfl
  | f32 x =>
    obtain rfl : ValType.f32 = t := hv
    cases u with
    | i32 b => cases hu
    | f32 y => cases op <;> cases h <;> exact .pure rfl

end Wasm.Opcode

theorem div_traps_iff {a b : Int32} :
    (b = 0 ∨ Int32.maxValue.toInt < a.toInt.tdiv b.toInt) ↔
      (b = 0 ∨ (a = .minValue ∧ b = -1)) := by
  constructor
  · rintro (hb | h)
    · exact .inl hb
    · refine .inr (Decidable.byContradiction fun hNot => ?_)
      have hDiv : (a / b).toInt = a.toInt.tdiv b.toInt := by
        by_cases ha : a = .minValue
        · exact Int32.toInt_div_of_ne_right a b fun hb => hNot ⟨ha, hb⟩
        · exact Int32.toInt_div_of_ne_left a b ha
      have hLe := Int32.toInt_le (a / b)
      omega
  · rintro (hb | ⟨rfl, rfl⟩)
    · exact .inl hb
    · exact .inr (by decide)

namespace BinaryOp

theorem evalInt_eq {op : BinaryOp} {opcode : Wasm.Opcode} (h : op.opcode? .i32 = some opcode)
    (a b : Int32) : op.evalInt a b = opcode.actInt a b := by
  have hZero : b.toInt = 0 ↔ b = 0 := Int32.toInt_inj (y := 0)
  have hDiv : Int32.ofInt (a.toInt.tdiv b.toInt) = a / b := by
    rw [← Int32.toInt_inj, Int32.toInt_ofInt, Int32.toInt_div]
  have hRem : Int32.ofInt (a.toInt.tmod b.toInt) = a % b := by
    rw [← Int32.toInt_mod, Int32.ofInt_toInt]
  cases op <;> cases h <;>
    simp only [evalInt, Wasm.Opcode.actInt, hZero, hDiv, hRem, div_traps_iff, Int32.ofInt_add,
      Int32.ofInt_sub, Int32.ofInt_mul, Int32.ofInt_toInt, Int32.toInt_inj, Int32.lt_iff_toInt_lt,
      Int32.le_iff_toInt_le, gt_iff_lt, ge_iff_le, ne_eq]

theorem eval_eq {op : BinaryOp} {t : ValType} {opcode : Wasm.Opcode}
    (h : op.opcode? t = some opcode) {v u : Value} (hv : v.type = t) (hu : u.type = t)
    (float : FloatOps) : op.eval float v u = opcode.act float t [v, u] := by
  cases v with
  | i32 a =>
    obtain rfl : ValType.i32 = t := hv
    obtain ⟨b, rfl⟩ := Value.eq_i32_of_type hu
    exact evalInt_eq h a b
  | f32 x =>
    obtain rfl : ValType.f32 = t := hv
    cases u with
    | i32 b => cases hu
    | f32 y => cases op <;> cases h <;> rfl

theorem eval_safe {op : BinaryOp} {lhs rhs ty : Ty} {opcode : Wasm.Opcode}
    (hTy : op.type lhs rhs = .ok ty) (h : op.opcode? lhs.valType = some opcode) {v u : Value}
    (hv : v.type = lhs.valType) (hu : u.type = lhs.valType) (float : FloatOps) :
    Safe (op.eval float v u) fun r => r.type = ty.valType := by
  rw [eval_eq h hv hu]
  exact Wasm.Opcode.act_safe (opcode_type hTy h) hv hu float

end BinaryOp

/-- The operation of a step up or down. -/
def UnaryOp.stepOp : UnaryOp → BinaryOp
  | decrement => .sub
  | _ => .add

/-- A step up or down always has a result. -/
theorem UnaryOp.stepOp_eval {op : UnaryOp} (hOp : op = .increment ∨ op = .decrement) (v : Value)
    (float : FloatOps) :
    ∃ new : Value, new.type = v.type ∧ op.stepOp.eval float v (.one v.type) = pure new ∧
      (if op = .increment then Wasm.Opcode.add else .sub).act float v.type [v, .one v.type] =
        pure new := by
  have hOne : (Value.one v.type).type = v.type := by cases v <;> rfl
  rcases hOp with rfl | rfl
  · have hOpcode : BinaryOp.add.opcode? v.type = some .add := by cases v <;> rfl
    rw [show increment.stepOp = .add from rfl, BinaryOp.eval_eq hOpcode rfl hOne float]
    cases v <;> refine ⟨_, ?_, rfl, rfl⟩ <;> rfl
  · have hOpcode : BinaryOp.sub.opcode? v.type = some .sub := by cases v <;> rfl
    rw [show decrement.stepOp = .sub from rfl, BinaryOp.eval_eq hOpcode rfl hOne float]
    cases v <;> refine ⟨_, ?_, rfl, rfl⟩ <;> rfl

theorem exec_stepCode {R : Runtime} {op : UnaryOp} {v new : Value}
    (hNew : (if op = .increment then Wasm.Opcode.add else .sub).act R.float v.type
      [v, .one v.type] = pure new) {σ : Wasm.State} {stack : List Value}
    (hStack : σ.stack = v :: stack) :
    Wasm.Code.exec R (Emit.stepCode op v.type) σ = .ok () { σ with stack := new :: stack } := by
  have hOne : Wasm.Code.exec R [pushOne v.type] σ =
      .ok () { σ with stack := .one v.type :: v :: stack } := by
    refine Wasm.Code.exec_pure [] (r := some (.one v.type)) ?_ ?_ hStack
    · cases v <;> rfl
    · cases v <;> rfl
  have hArity : (Instr.numeric v.type (if op = .increment then .add else .sub)).arity? R =
      some [v, .one v.type].length := by
    cases v <;> cases op <;> rfl
  have hAct : (Instr.numeric v.type (if op = .increment then .add else .sub)).act R
      [v, .one v.type] = pure (some new) := by
    rw [Instr.act, hNew]
    rfl
  rw [Emit.stepCode, ← List.singleton_append, Wasm.Code.exec_append (.plain _) (.plain rfl),
    Action.bind_of_ok hOne]
  · exact Wasm.Code.exec_pure [v, .one v.type] hArity hAct rfl
  · cases v <;> rfl

/-- What the simulation of the body of a function rests on. -/
structure Faithful (F : Frame) (result : Option ValType) (B : Bindings) (S : Setting) (R : Runtime)
    (sigs : Signatures) (occurs : Ident → Ty → Prop) : Prop where
  suits : Suits ⟨F.slots, result, R.type?⟩ B sigs occurs
  float : S.float = R.float
  passes : S.passes = R.passes
  names : (F.names.map Prod.fst).Nodup
  slots : (F.names.map Prod.snd).Nodup
  slot : ∀ {x : String} {n : Nat}, B.place x (.slot n) → (x, n) ∈ F.names
  cell : ∀ {x : String} {a : Nat} {t : ValType}, B.place x (.cell a t) →
    x ∉ F.names.map Prod.fst ∧ ∃ ty : Ty, List.lookup x S.cells = some (a, ty) ∧ ty.valType = t
  spare : ∀ {t : ValType} {n : Nat}, B.spare t n → n ∉ F.names.map Prod.snd
  declared : ∀ {x : String} {ty : Ty} {n : Nat}, B.declared x ty n → (x, n) ∈ F.names
  text : ∀ {lo a : Nat}, B.text lo a → List.lookup lo S.texts = some a
  call : ∀ {name : String} {sig : Signature} {args : List Value},
    List.lookup name sigs = some sig → args.map Value.type = sig.params.map Ty.valType →
    S.call name args = R.call name args ∧
      Safe (R.call name args) fun r => r.map Value.type = sig.result.result?

theorem view_set {names : List (String × Nat)} (hNames : (names.map Prod.fst).Nodup)
    (hSlots : (names.map Prod.snd).Nodup) {x : String} {n : Nat} (hx : (x, n) ∈ names)
    {locals : List Value} (hn : n < locals.length) (v : Value) :
    view names (locals.set n v) = fun y => if y = x then some v else view names locals y := by
  funext y
  by_cases hy : y = x
  · rw [if_pos hy, hy, view, Table.lookup_of_mem hNames hx]
    simp [hn]
  · rw [if_neg hy, view, view]
    cases hLookup : List.lookup y names with
    | none => rfl
    | some k =>
      have hNe : n ≠ k := by
        rintro rfl
        have hPair := List.inj_on_of_nodup_map hSlots (Table.mem_of_lookup hLookup) hx rfl
        exact hy (Prod.mk.inj hPair).1
      simp [List.getElem?_set_ne hNe]

namespace Related

variable {F : Frame} {s : Store} {σ : Wasm.State}

theorem var (h : Related F s σ) (hNames : (F.names.map Prod.fst).Nodup) {x : String} {n : Nat}
    (hx : (x, n) ∈ F.names) : s.vars x = σ.locals[n]? := by
  rw [h.vars, view, Table.lookup_of_mem hNames hx]
  rfl

theorem not_var (h : Related F s σ) {x : String} (hx : x ∉ F.names.map Prod.fst) :
    s.vars x = none := by
  rw [h.vars, view, Table.lookup_eq_none_iff.mpr hx]
  rfl

theorem slot (h : Related F s σ) {n : Nat} {t : ValType} (hn : F.slots[n]? = some t) :
    ∃ v, σ.locals[n]? = some v ∧ v.type = t ∧ n < σ.locals.length := by
  rw [← h.typed, List.getElem?_map] at hn
  obtain ⟨v, hv, rfl⟩ := Option.map_eq_some_iff.mp hn
  exact ⟨v, hv, rfl, (List.getElem?_eq_some_iff.mp hv).1⟩

theorem typed_set (h : Related F s σ) {n : Nat} {v : Value} (hn : F.slots[n]? = some v.type) :
    (σ.locals.set n v).map Value.type = F.slots := by
  obtain ⟨hLength, hGet⟩ := List.getElem?_eq_some_iff.mp hn
  rw [List.map_set, h.typed, ← hGet, List.set_getElem_self]

theorem assign (h : Related F s σ) (hNames : (F.names.map Prod.fst).Nodup)
    (hSlots : (F.names.map Prod.snd).Nodup) {x : String} {n : Nat} (hx : (x, n) ∈ F.names)
    {v : Value} (hn : F.slots[n]? = some v.type) (stack : List Value) :
    Related F { s with vars := fun y => if y = x then some v else s.vars y }
      { σ with stack := stack, locals := σ.locals.set n v } := by
  obtain ⟨_, -, -, hLength⟩ := h.slot hn
  refine ⟨h.world, ?_, h.typed_set hn⟩
  rw [view_set hNames hSlots hx hLength, ← h.vars]

/-- Slots without names do not matter. -/
theorem spare (h : Related F s σ) {n : Nat} {v : Value} (hn : F.slots[n]? = some v.type)
    (hFree : n ∉ F.names.map Prod.snd) (stack : List Value) :
    Related F s { σ with stack := stack, locals := σ.locals.set n v } := by
  refine ⟨h.world, ?_, h.typed_set hn⟩
  rw [h.vars]
  funext y
  rw [view, view]
  cases hLookup : List.lookup y F.names with
  | none => rfl
  | some k =>
    have hNe : n ≠ k := by
      rintro rfl
      exact hFree (List.mem_map.mpr ⟨_, Table.mem_of_lookup hLookup, rfl⟩)
    simp [List.getElem?_set_ne hNe]

end Related

theorem stepCode_balanced (op : UnaryOp) (t : ValType) : Wasm.Balanced (Emit.stepCode op t) := by
  have hOne : Wasm.Balanced [pushOne t] := .plain (by cases t <;> rfl)
  exact hOne.append (.plain rfl)

theorem loadTwice_balanced (a : Nat) (t : ValType) :
    Wasm.Balanced [pushAddress a, pushAddress a, .load t] :=
  .append (a := [pushAddress a]) (.plain rfl)
    (.append (a := [pushAddress a]) (.plain rfl) (.plain rfl))

variable {F : Frame} {result : Option ValType} {T : Jump → Nat → Prop} {B : Bindings} {S : Setting}
  {R : Runtime} {sigs : Signatures} {occurs : Ident → Ty → Prop} {pre : List Value}

section

variable (hF : Faithful F result B S R sigs occurs)

include hF

theorem read_slot_sim {x : Ident} {n : Nat} {ty : Ty} (hPlace : B.place x.name (.slot n))
    (hTy : occurs x ty) :
    Sim F result T pre (Eval.read S x.name) (Wasm.Code.exec R [.localGet n])
      fun v _ vs => vs = v :: pre ∧ v.type = ty.valType := by
  intro s σ stack hRelated hStack
  obtain ⟨v, hv, hType, -⟩ := hRelated.slot (hF.suits.bindings.place hPlace hTy)
  have hVar := (hRelated.var hF.names (hF.slot hPlace)).trans hv
  rw [Eval.read, hVar, Wasm.Code.exec_localGet hv]
  exact .ok ⟨hRelated.world, hRelated.vars, hRelated.typed⟩ (by rw [hStack]; rfl) ⟨rfl, hType⟩

theorem assign_slot_sim {x : String} {n : Nat} {v : Value} (hx : (x, n) ∈ F.names)
    (hn : F.slots[n]? = some v.type) :
    Sim F result T (v :: pre) (Eval.assign S x v) (Wasm.Code.exec R [.localSet n])
      fun _ _ vs => vs = pre := by
  intro s σ stack hRelated hStack
  obtain ⟨u, hu, -, hLength⟩ := hRelated.slot hn
  have hVar := (hRelated.var hF.names hx).trans hu
  rw [Eval.assign, hVar, Wasm.Code.exec_localSet hStack hLength]
  exact .ok (hRelated.assign hF.names hF.slots hx hn _) rfl rfl

theorem read_cell_sim {x : Ident} {a : Nat} {t : ValType} (hPlace : B.place x.name (.cell a t)) :
    Sim F result T (.i32 (wordOf a) :: pre) (Eval.read S x.name) (Wasm.Code.exec R [.load t])
      fun v _ vs => vs = v :: pre ∧ v.type = t := by
  obtain ⟨hName, ty, hCell, rfl⟩ := hF.cell hPlace
  refine .congr (Eval.onWorld (World.load ty.valType (wordOf a))) ?_ ?_
  · intro s σ hRelated
    rw [Eval.read, hRelated.not_var hName, hCell]
  · exact .act [.i32 (wordOf a)] some rfl rfl (World.load_safe _ _)

theorem assign_cell_sim {x : Ident} {a : Nat} {v : Value}
    (hPlace : B.place x.name (.cell a v.type)) :
    Sim F result T (v :: .i32 (wordOf a) :: pre) (Eval.assign S x.name v)
      (Wasm.Code.exec R [.store v.type]) fun _ _ vs => vs = pre := by
  obtain ⟨hName, ty, hCell, -⟩ := hF.cell hPlace
  refine .congr (Eval.onWorld (World.store (wordOf a) v)) ?_ ?_
  · intro s σ hRelated
    rw [Eval.assign, hRelated.not_var hName, hCell]
  · have hAct : (Instr.store v.type).act R [.i32 (wordOf a), v] =
        (fun _ => none) <$> World.store (wordOf a) v := if_pos rfl
    refine (Sim.act [.i32 (wordOf a), v] (fun _ => none) rfl hAct (World.write_safe _ _)).imp ?_
    rintro _ _ _ ⟨rfl, -⟩
    rfl

theorem read_sim {x : Ident} {p : Place} {ty : Ty} (hPlace : B.place x.name p)
    (hTy : occurs x ty) :
    Sim F result T pre (Eval.read S x.name) (Wasm.Code.exec R p.read)
      fun v _ vs => vs = v :: pre ∧ v.type = ty.valType := by
  cases p with
  | slot n => exact read_slot_sim hF hPlace hTy
  | cell a t =>
    obtain rfl : t = ty.valType := hF.suits.bindings.place hPlace hTy
    rw [Place.read,
      show [pushAddress a, .load ty.valType] = [pushAddress a] ++ [Instr.load ty.valType] from rfl,
      Wasm.Code.exec_append (.plain rfl) (.plain rfl)]
    exact .silent (.const [] rfl rfl) (read_cell_sim hF hPlace)

theorem tee_slot_sim {x : String} {n : Nat} {v : Value} (hx : (x, n) ∈ F.names)
    (hn : F.slots[n]? = some v.type) :
    Sim F result T (v :: pre) (Eval.assign S x v) (Wasm.Code.exec R [.localTee n])
      fun _ _ vs => vs = v :: pre := by
  intro s σ stack hRelated hStack
  obtain ⟨u, hu, -, hLength⟩ := hRelated.slot hn
  have hVar := (hRelated.var hF.names hx).trans hu
  rw [Eval.assign, hVar, Wasm.Code.exec_localTee hStack hLength]
  exact .ok (hRelated.assign hF.names hF.slots hx hn _) hStack rfl

theorem read_slot_twice_sim {x : Ident} {n : Nat} {ty : Ty} (hPlace : B.place x.name (.slot n))
    (hTy : occurs x ty) :
    Sim F result T pre (Eval.read S x.name)
      (Wasm.Code.exec R [.localGet n] >>= fun _ => Wasm.Code.exec R [.localGet n])
      fun v _ vs => vs = v :: v :: pre ∧ v.type = ty.valType := by
  intro s σ stack hRelated hStack
  obtain ⟨v, hv, hType, -⟩ := hRelated.slot (hF.suits.bindings.place hPlace hTy)
  have hVar := (hRelated.var hF.names (hF.slot hPlace)).trans hv
  have hSecond : Wasm.Code.exec R [.localGet n] { σ with stack := v :: σ.stack } =
      .ok () { σ with stack := v :: v :: σ.stack } := Wasm.Code.exec_localGet hv
  rw [Eval.read, hVar, Action.bind_of_ok (Wasm.Code.exec_localGet hv), hSecond]
  exact .ok ⟨hRelated.world, hRelated.vars, hRelated.typed⟩ (by rw [hStack]; rfl) ⟨rfl, hType⟩

/-- A value that is kept in a slot is pushed after a global has been assigned. -/
theorem store_get_agree {x : Ident} {a k : Nat} {v u : Value}
    (hPlace : B.place x.name (.cell a v.type)) {s : Store} {σ : Wasm.State} {stack : List Value}
    (hRelated : Related F s σ) (hStack : σ.stack = v :: .i32 (wordOf a) :: (pre ++ stack))
    (hk : σ.locals[k]? = some u) :
    Agree F result T (fun _ _ vs => vs = u :: pre) stack (Eval.assign S x.name v s)
      ((Wasm.Code.exec R [.store v.type] >>= fun _ => Wasm.Code.exec R [.localGet k]) σ) := by
  obtain ⟨hName, ty, hCell, -⟩ := hF.cell hPlace
  have hAct : (Instr.store v.type).act R [.i32 (wordOf a), v] =
      (fun _ => none) <$> World.store (wordOf a) v := if_pos rfl
  have hSafe := World.write_safe (wordOf a) (wordBytes v.toWord) σ.world
  rw [Eval.assign, hRelated.not_var hName, hCell]
  change Agree F result T _ stack (Eval.onWorld (World.store (wordOf a) v) s) _
  rw [Eval.onWorld, hRelated.world]
  cases hStore : World.store (wordOf a) v σ.world with
  | ok r w =>
    have hOk := hAct ▸ Action.map_of_ok (f := fun _ => none) hStore
    have hGet : Wasm.Code.exec R [.localGet k]
        { σ with stack := pre ++ stack, world := w } =
        .ok () { σ with stack := u :: (pre ++ stack), world := w } := Wasm.Code.exec_localGet hk
    rw [Action.bind_of_ok (Wasm.Code.exec_ok [.i32 (wordOf a), v] rfl hOk hStack)]
    exact hGet ▸ .ok ⟨rfl, hRelated.vars, hRelated.typed⟩ rfl rfl
  | error h w =>
    have hError := hAct ▸ Action.map_of_error (f := fun _ => none) hStore
    rw [World.store] at hStore
    rw [hStore] at hSafe
    rw [Action.bind_of_error (Wasm.Code.exec_error [.i32 (wordOf a), v] rfl hError hStack)]
    exact .halt hSafe rfl

theorem stepCode_sim {op : UnaryOp} (hOp : op = .increment ∨ op = .decrement) (v : Value) :
    Sim F result T (v :: pre) (Eval.onWorld (op.stepOp.eval S.float v (.one v.type)))
      (Wasm.Code.exec R (Emit.stepCode op v.type))
      fun new _ vs => vs = new :: pre ∧ new.type = v.type := by
  obtain ⟨new, hType, hEval, hAct⟩ := UnaryOp.stepOp_eval hOp v R.float
  intro s σ stack hRelated hStack
  rw [hF.float, hEval, exec_stepCode hAct hStack]
  exact .ok ⟨hRelated.world, hRelated.vars, hRelated.typed⟩ rfl ⟨rfl, hType⟩

/-- A step of a variable, put together from its parts: `get` leaves the old value above those of
`kept`, and `set` those of `left`. -/
theorem step_sim_of {op : UnaryOp} (hOp : op = .increment ∨ op = .decrement) {fixity : Fixity}
    {ty : Ty} {s₀ : Span} {x : Ident} {get set : Code} {kept : Value → List Value}
    (left : Value → Value → List Value) (hGetCode : Wasm.Balanced get)
    (hSetCode : Wasm.Balanced set)
    (hGet : Sim F result T pre (Eval.read S x.name) (Wasm.Code.exec R get)
      fun v _ vs => vs = v :: kept v ∧ v.type = ty.valType)
    (hSet : ∀ old new : Value, new.type = ty.valType →
      Sim F result T (new :: kept old) (Eval.assign S x.name new) (Wasm.Code.exec R set)
        fun _ _ vs => vs = left old new) :
    Sim F result T pre (Eval.step S op.stepOp fixity (.var ty s₀ x))
      (Wasm.Code.exec R (get ++ Emit.stepCode op ty.valType ++ set))
      fun r _ vs => ∃ old new : Value, old.type = ty.valType ∧ new.type = ty.valType ∧
        vs = left old new ∧ r = some (match fixity with
          | .before => new
          | .after => old) := by
  rw [Wasm.Code.exec_append (hGetCode.append (stepCode_balanced op _)) hSetCode,
    Wasm.Code.exec_append hGetCode (stepCode_balanced op _), bind_assoc]
  refine hGet.bind ?_
  rintro old _ _ ⟨rfl, hOld⟩
  rw [← hOld]
  refine (stepCode_sim hF hOp old).bind ?_
  rintro new _ _ ⟨rfl, hNew⟩
  have hAssign := hSet old new (hNew.trans hOld)
  rw [← bind_pure (Wasm.Code.exec R set)]
  refine hAssign.bind ?_
  rintro _ _ _ rfl
  exact .pure ⟨old, new, rfl, hNew, rfl, rfl⟩

theorem stepSlot_sim {op : UnaryOp} (hOp : op = .increment ∨ op = .decrement) {fixity : Fixity}
    {used : Bool} {ty : Ty} {s₀ : Span} {x : Ident} {n : Nat} (hPlace : B.place x.name (.slot n))
    (hTy : occurs x ty) :
    Sim F result T pre (Eval.step S op.stepOp fixity (.var ty s₀ x))
      (Wasm.Code.exec R (Emit.stepSlot n (Emit.stepCode op ty.valType) fixity used))
      fun r _ vs => (vs = if used then r.toList ++ pre else pre) ∧
        r.map Value.type = some ty.valType := by
  have hSlot : F.slots[n]? = some ty.valType := hF.suits.bindings.place hPlace hTy
  have hName := hF.slot hPlace
  have hGet : Sim F result T pre (Eval.read S x.name) (Wasm.Code.exec R [.localGet n])
      fun v _ vs => vs = v :: pre ∧ v.type = ty.valType := read_slot_sim hF hPlace hTy
  cases used with
  | false =>
    have hCode (c : Code) : Emit.stepSlot n c fixity false =
        [Instr.localGet n] ++ c ++ [Instr.localSet n] := by
      simp [Emit.stepSlot]
    rw [hCode]
    refine (step_sim_of hF hOp (fun _ _ => pre) (.plain rfl) (.plain rfl) hGet
      fun old new hNew => assign_slot_sim hF hName (hNew ▸ hSlot)).imp ?_
    rintro _ _ _ ⟨old, new, hOld, hNew, rfl, rfl⟩
    cases fixity
    · exact ⟨rfl, congrArg some hNew⟩
    · exact ⟨rfl, congrArg some hOld⟩
  | true =>
    cases fixity with
    | before =>
      have hCode (c : Code) : Emit.stepSlot n c .before true =
          [Instr.localGet n] ++ c ++ [Instr.localTee n] := by
        simp [Emit.stepSlot]
      rw [hCode]
      refine (step_sim_of hF hOp (fun _ new => new :: pre) (.plain rfl) (.plain rfl) hGet
        fun old new hNew => tee_slot_sim hF hName (hNew ▸ hSlot)).imp ?_
      rintro _ _ _ ⟨old, new, hOld, hNew, rfl, rfl⟩
      exact ⟨rfl, congrArg some hNew⟩
    | after =>
      have hCode (c : Code) : Emit.stepSlot n c .after true =
          ([Instr.localGet n] ++ [Instr.localGet n]) ++ c ++ [Instr.localSet n] := by
        simp [Emit.stepSlot]
      have hTwice : Sim F result T pre (Eval.read S x.name)
          (Wasm.Code.exec R ([Instr.localGet n] ++ [Instr.localGet n]))
          fun v _ vs => vs = v :: v :: pre ∧ v.type = ty.valType := by
        rw [Wasm.Code.exec_append (.plain rfl) (.plain rfl)]
        exact read_slot_twice_sim hF hPlace hTy
      rw [hCode]
      refine (step_sim_of hF hOp (fun old _ => old :: pre) (.append (.plain rfl) (.plain rfl))
        (.plain rfl) hTwice fun old new hNew => assign_slot_sim hF hName (hNew ▸ hSlot)).imp ?_
      rintro _ _ _ ⟨old, new, hOld, hNew, rfl, rfl⟩
      exact ⟨rfl, congrArg some hOld⟩

/-- The old value of a global, above the address at which the new one is to be stored. -/
theorem load_cell_sim {x : Ident} {a : Nat} {t : ValType} (hPlace : B.place x.name (.cell a t)) :
    Sim F result T pre (Eval.read S x.name)
      (Wasm.Code.exec R [pushAddress a, pushAddress a, .load t])
      fun v _ vs => vs = v :: .i32 (wordOf a) :: pre ∧ v.type = t := by
  have hAddress : Wasm.Balanced [pushAddress a] := .plain rfl
  have hLoad : Wasm.Balanced [.load t] := .plain rfl
  have hCode : [pushAddress a, pushAddress a, .load t] =
      [pushAddress a] ++ ([pushAddress a] ++ [Instr.load t]) := rfl
  rw [hCode, Wasm.Code.exec_append hAddress (hAddress.append hLoad),
    Wasm.Code.exec_append hAddress hLoad]
  exact .silent (.const [] rfl rfl) (.silent (.const [] rfl rfl) (read_cell_sim hF hPlace))

theorem tee_store_get_sim {x : Ident} {a k : Nat} {v : Value}
    (hPlace : B.place x.name (.cell a v.type)) (hSpare : B.spare v.type k) :
    Sim F result T (v :: .i32 (wordOf a) :: pre) (Eval.assign S x.name v)
      (Wasm.Code.exec R ([Instr.localTee k] ++ ([Instr.store v.type] ++ [Instr.localGet k])))
      fun _ _ vs => vs = v :: pre := by
  have hSlot := hF.suits.bindings.spare hSpare
  intro s σ stack hRelated hStack
  obtain ⟨_, -, -, hLength⟩ := hRelated.slot hSlot
  have hAfter := hRelated.spare hSlot (hF.spare hSpare) σ.stack
  rw [Wasm.Code.exec_append (.plain rfl) (.append (.plain rfl) (.plain rfl)),
    Wasm.Code.exec_append (.plain rfl) (.plain rfl),
    Action.bind_of_ok (Wasm.Code.exec_localTee hStack hLength)]
  exact store_get_agree hF hPlace hAfter hStack (List.getElem?_set_self hLength)

/-- The old value is kept in a slot until the new one has been stored. -/
theorem stepCell_after_sim {op : UnaryOp} (hOp : op = .increment ∨ op = .decrement) {x : Ident}
    {a k : Nat} {v : Value} (hPlace : B.place x.name (.cell a v.type))
    (hSpare : B.spare v.type k) :
    Sim F result T (v :: .i32 (wordOf a) :: pre)
      (Eval.onWorld (op.stepOp.eval S.float v (.one v.type)) >>= fun new =>
        Eval.assign S x.name new)
      (Wasm.Code.exec R ([Instr.localTee k] ++ (Emit.stepCode op v.type ++
        ([Instr.store v.type] ++ [Instr.localGet k]))))
      fun _ _ vs => vs = v :: pre := by
  obtain ⟨new, hType, hEval, hAct⟩ := UnaryOp.stepOp_eval hOp v R.float
  have hSlot := hF.suits.bindings.spare hSpare
  have hPlace' : B.place x.name (.cell a new.type) := hType ▸ hPlace
  intro s σ stack hRelated hStack
  obtain ⟨_, -, -, hLength⟩ := hRelated.slot hSlot
  have hAfter := hRelated.spare hSlot (hF.spare hSpare) (new :: .i32 (wordOf a) :: (pre ++ stack))
  have hStep := exec_stepCode hAct (σ := { σ with locals := σ.locals.set k v }) hStack
  rw [hF.float, hEval, Wasm.Code.exec_append (.plain rfl)
      ((stepCode_balanced op _).append (.append (.plain rfl) (.plain rfl))),
    Wasm.Code.exec_append (stepCode_balanced op _) (.append (.plain rfl) (.plain rfl)),
    Wasm.Code.exec_append (.plain rfl) (.plain rfl),
    Action.bind_of_ok (Wasm.Code.exec_localTee hStack hLength), Action.bind_of_ok hStep, ← hType]
  exact store_get_agree hF hPlace' hAfter rfl (List.getElem?_set_self hLength)

theorem StepLowers.sim {op : UnaryOp} (hOp : op = .increment ∨ op = .decrement) {fixity : Fixity}
    {used : Bool} {ty : Ty} {s₀ : Span} {x : Ident} {code : Code}
    (h : StepLowers B op fixity ty x used code) (hTy : occurs x ty) :
    Sim F result T pre (Eval.step S op.stepOp fixity (.var ty s₀ x)) (Wasm.Code.exec R code)
      fun r _ vs => (vs = if used then r.toList ++ pre else pre) ∧
        r.map Value.type = some ty.valType := by
  cases h with
  | slot hPlace => exact stepSlot_sim hF hOp hPlace hTy
  | @cell a t hPlace =>
    obtain rfl : t = ty.valType := hF.suits.bindings.place hPlace hTy
    refine (step_sim_of hF hOp (fun _ _ => pre) (loadTwice_balanced a _) (.plain rfl)
      (load_cell_sim hF hPlace) fun old new hNew => ?_).imp ?_
    · rw [← hNew] at hPlace ⊢
      exact assign_cell_sim hF hPlace
    · rintro _ _ _ ⟨old, new, hOld, hNew, rfl, rfl⟩
      cases fixity
      · exact ⟨rfl, congrArg some hNew⟩
      · exact ⟨rfl, congrArg some hOld⟩
  | @usedCell a k t hPlace hSpare =>
    obtain rfl : t = ty.valType := hF.suits.bindings.place hPlace hTy
    cases fixity with
    | before =>
      have hCode (c : Code) : stepCellCode a ty.valType c .before (some k) =
          [pushAddress a, pushAddress a, .load ty.valType] ++ c ++
            ([Instr.localTee k] ++ ([Instr.store ty.valType] ++ [Instr.localGet k])) := by
        simp [stepCellCode]
      rw [hCode]
      refine (step_sim_of hF hOp (fun _ new => new :: pre) (loadTwice_balanced a _) (.append (.plain rfl)
        (.append (.plain rfl) (.plain rfl))) (load_cell_sim hF hPlace) fun old new hNew => ?_).imp ?_
      · rw [← hNew] at hPlace hSpare ⊢
        exact tee_store_get_sim hF hPlace hSpare
      · rintro _ _ _ ⟨old, new, hOld, hNew, rfl, rfl⟩
        exact ⟨rfl, congrArg some hNew⟩
    | after =>
      have hRest : Wasm.Balanced ([Instr.localTee k] ++ (Emit.stepCode op ty.valType ++
          ([Instr.store ty.valType] ++ [Instr.localGet k]))) :=
        .append (.plain rfl) ((stepCode_balanced op _).append (.append (.plain rfl) (.plain rfl)))
      have hCode : stepCellCode a ty.valType (Emit.stepCode op ty.valType) .after (some k) =
          [pushAddress a, pushAddress a, .load ty.valType] ++ ([Instr.localTee k] ++
            (Emit.stepCode op ty.valType ++ ([Instr.store ty.valType] ++ [Instr.localGet k]))) := by
        simp [stepCellCode]
      rw [hCode, Wasm.Code.exec_append (loadTwice_balanced a _) hRest]
      refine (load_cell_sim hF hPlace).bind ?_
      rintro old _ _ ⟨rfl, hOld⟩
      rw [← hOld] at hPlace hSpare ⊢
      change Sim F result T _ (Eval.onWorld (op.stepOp.eval S.float old (.one old.type)) >>=
        fun new => Eval.assign S x.name new >>= fun _ => pure (some old)) _ _
      rw [← bind_assoc, ← bind_pure (Wasm.Code.exec R _)]
      refine (stepCell_after_sim hF hOp hPlace hSpare).bind ?_
      rintro _ _ _ rfl
      exact .pure ⟨rfl, rfl⟩

end

theorem StepLowers.balanced {op : UnaryOp} {fixity : Fixity} {used : Bool} {ty : Ty} {x : Ident}
    {code : Code} (h : StepLowers B op fixity ty x used code) : Wasm.Balanced code := by
  have hStep := stepCode_balanced op ty.valType
  cases h with
  | @slot n _ hPlace =>
    have hOld : Wasm.Balanced (if used && fixity = .after then [Instr.localGet n] else []) := by
      split
      · exact .plain rfl
      · exact .nil
    have hLast : Wasm.Balanced [if used && fixity = .before then Instr.localTee n
        else .localSet n] := by
      split <;> exact .plain rfl
    exact (((Wasm.Balanced.plain rfl).append hOld).append hStep).append hLast
  | cell hPlace => exact ((loadTwice_balanced _ _).append hStep).append (.plain rfl)
  | @usedCell a k t hPlace hSpare =>
    have hEnd : Wasm.Balanced [.store t, .localGet k] :=
      .append (a := [.store t]) (.plain rfl) (.plain rfl)
    cases fixity with
    | before => exact ((loadTwice_balanced _ _).append (hStep.append (.plain rfl))).append hEnd
    | after =>
      have hKeep : Wasm.Balanced (.localTee k :: Emit.stepCode op ty.valType) :=
        .append (a := [.localTee k]) (.plain rfl) hStep
      exact ((loadTwice_balanced _ _).append hKeep).append hEnd

end MiniC
