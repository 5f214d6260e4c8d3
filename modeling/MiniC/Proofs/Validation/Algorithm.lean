import MiniC.Wasm.Basic

/-! # Validation

Code is validated in one pass that keeps the types of the operands and the blocks that are open.
After a jump the rest of a block cannot be reached, and there any operand that is missing may be
taken.  All blocks leave the operands as they were.
-/
namespace MiniC.Wasm
set_option autoImplicit false

structure FuncType where
  params : List ValType
  result : Option ValType
  deriving DecidableEq, Repr

def Function.type (f : Function) : FuncType := ⟨f.params, f.result⟩

/-- The types of the functions that every module imports. -/
def hostType? (name : String) : Option FuncType :=
  if name = "log" ∨ name = "logInt" then some ⟨[.i32], none⟩ else none

/-- The type of the only function with the given name. -/
def Module.type? (m : Module) (name : String) : Option FuncType :=
  match hostType? name, m.functions.filter fun f => f.name = name with
  | some t, [] => some t
  | none, [f] => some f.type
  | _, _ => none

def Opcode.type? : ValType → Opcode → Option FuncType
  | .i32, add | .i32, sub | .i32, mul | .i32, divS | .i32, remS | .i32, and | .i32, or | .i32, xor
  | .i32, eq | .i32, ne | .i32, ltS | .i32, gtS | .i32, leS | .i32, geS =>
    some ⟨[.i32, .i32], some .i32⟩
  | .i32, eqz => some ⟨[.i32], some .i32⟩
  | .f32, add | .f32, sub | .f32, mul | .f32, div => some ⟨[.f32, .f32], some .f32⟩
  | .f32, eq | .f32, ne | .f32, lt | .f32, gt | .f32, le | .f32, ge =>
    some ⟨[.f32, .f32], some .i32⟩
  | .f32, neg => some ⟨[.f32], some .f32⟩
  | _, _ => none

namespace Validation

inductive Opener where
  | function | block | loop | if_ | else_
  deriving DecidableEq, Repr

/-- An open block. -/
structure Control where
  opener : Opener
  results : List ValType
  /-- The number of operands below the block. -/
  height : Nat
  unreachable : Bool
  deriving DecidableEq, Repr

/-- The operands that a branch to the block takes: a loop is branched to at its start. -/
def Control.labelTypes (c : Control) : List ValType := if c.opener = .loop then [] else c.results

/-- The operands and the open blocks, the newest first.  An operand of which nothing is known is
`none`. -/
structure State where
  operands : List (Option ValType)
  controls : List Control
  deriving DecidableEq, Repr

/-- The slots and the result of the function around the code, and the functions to be called. -/
structure Context where
  slots : List ValType
  result : Option ValType
  callee? : String → Option FuncType

/-- The type of an instruction that does nothing but take and leave operands. -/
def Context.type? (Γ : Context) : Instr → Option FuncType
  | .i32Const _ => some ⟨[], some .i32⟩
  | .f32Const _ => some ⟨[], some .f32⟩
  | .localGet n => Γ.slots[n]?.map fun t => ⟨[], some t⟩
  | .localSet n => Γ.slots[n]?.map fun t => ⟨[t], none⟩
  | .localTee n => Γ.slots[n]?.map fun t => ⟨[t], some t⟩
  | .load t => some ⟨[.i32], some t⟩
  | .store t => some ⟨[.i32, t], none⟩
  | .load8S => some ⟨[.i32], some .i32⟩
  | .store8 => some ⟨[.i32, .i32], none⟩
  | .numeric t op => op.type? t
  | .call name => Γ.callee? name
  | _ => none

section

variable {Γ : Context} {n : Nat} {t : ValType}

theorem Context.type?_localGet (h : Γ.slots[n]? = some t) :
    Γ.type? (.localGet n) = some ⟨[], some t⟩ := by
  change Γ.slots[n]?.map _ = _
  rw [h, Option.map_some]

theorem Context.type?_localSet (h : Γ.slots[n]? = some t) :
    Γ.type? (.localSet n) = some ⟨[t], none⟩ := by
  change Γ.slots[n]?.map _ = _
  rw [h, Option.map_some]

theorem Context.type?_localTee (h : Γ.slots[n]? = some t) :
    Γ.type? (.localTee n) = some ⟨[t], some t⟩ := by
  change Γ.slots[n]?.map _ = _
  rw [h, Option.map_some]

end

namespace State

def pushAll (ts : List ValType) (v : State) : State :=
  { v with operands := (ts.map some).reverse ++ v.operands }

/-- Takes an operand of the innermost block. -/
def popAny (v : State) : Option (Option ValType × State) :=
  match v.controls, v.operands with
  | [], _ => none
  | c :: _, operands =>
    if operands.length = c.height then if c.unreachable then some (none, v) else none
    else
      match operands with
      | [] => none
      | t :: ts => some (t, { v with operands := ts })

def pop (t : ValType) (v : State) : Option State := do
  let (actual, v) ← v.popAny
  if actual = none ∨ actual = some t then return v else none

/-- Takes operands of the given types, the last one from the top. -/
def popAll (ts : List ValType) (v : State) : Option State :=
  ts.reverse.foldlM (fun v t => v.pop t) v

def enter (opener : Opener) (v : State) : State :=
  { v with controls := ⟨opener, [], v.operands.length, false⟩ :: v.controls }

/-- Closes the innermost block. -/
def leave (v : State) : Option (Control × State) :=
  match v.controls with
  | [] => none
  | c :: cs => do
    let v ← v.popAll c.results
    if v.operands.length = c.height then return (c, { v with controls := cs }) else none

/-- The rest of the innermost block cannot be reached. -/
def cut (v : State) : State :=
  match v.controls with
  | [] => v
  | c :: cs => ⟨v.operands.drop (v.operands.length - c.height), { c with unreachable := true } :: cs⟩

def apply (t : FuncType) (v : State) : Option State := do
  let v ← v.popAll t.params
  return v.pushAll t.result.toList

end State

open State in
def step (Γ : Context) (v : State) : Instr → Option State
  | .drop => do
    let (_, v) ← v.popAny
    return v
  | .block => return v.enter .block
  | .loop => return v.enter .loop
  | .if_ => do
    let v ← v.pop .i32
    return v.enter .if_
  | .else_ => do
    let (c, v) ← v.leave
    if c.opener = .if_ then return v.enter .else_ else none
  | .end_ => do
    let (c, v) ← v.leave
    return v.pushAll c.results
  | .br depth => do
    let c ← v.controls[depth]?
    let v ← v.popAll c.labelTypes
    return v.cut
  | .brIf depth => do
    let v ← v.pop .i32
    let c ← v.controls[depth]?
    let v ← v.popAll c.labelTypes
    return v.pushAll c.labelTypes
  | .return_ => do
    let v ← v.popAll Γ.result.toList
    return v.cut
  | .unreachable => return v.cut
  | i => do v.apply (← Γ.type? i)

/-- Nothing may follow the end of the function. -/
def run (Γ : Context) (code : Code) (v : State) : Option State :=
  code.foldlM (fun v i => if v.controls = [] then none else step Γ v i) v

variable {Γ : Context}

theorem run_append (a b : Code) (v : State) : run Γ (a ++ b) v = (run Γ a v).bind (run Γ b) :=
  List.foldlM_append

theorem run_singleton {i : Instr} {v : State} (h : v.controls ≠ []) :
    run Γ [i] v = step Γ v i := by
  simp [run, h]

theorem step_eq_apply {i : Instr} {t : FuncType} {v : State} (h : Γ.type? i = some t) :
    step Γ v i = v.apply t := by
  cases i <;> first | (simp only [step, h]; rfl) | cases h

/-- The operands of the innermost block are all known. -/
def State.Known (v : State) : Prop := ∃ c cs, v.controls = c :: cs ∧ c.height ≤ v.operands.length

namespace State

theorem Known.pushAll {v : State} (h : v.Known) (ts : List ValType) : (v.pushAll ts).Known := by
  obtain ⟨c, cs, hControls, hHeight⟩ := h
  refine ⟨c, cs, hControls, ?_⟩
  simp only [State.pushAll, List.length_append]
  omega

theorem Known.controls_ne_nil {v : State} (h : v.Known) : v.controls ≠ [] := by
  obtain ⟨c, cs, hControls, -⟩ := h
  simp [hControls]

theorem pushAll_nil (v : State) : v.pushAll [] = v := rfl

theorem pushAll_append (ts us : List ValType) (v : State) :
    v.pushAll (ts ++ us) = (v.pushAll ts).pushAll us := by
  simp [pushAll]

theorem popAny_pushAll {v : State} (h : v.Known) (t : ValType) :
    (v.pushAll [t]).popAny = some (some t, v) := by
  obtain ⟨c, cs, hControls, hHeight⟩ := h
  have hNe : v.operands.length + 1 ≠ c.height := by omega
  simp only [popAny, pushAll, hControls]
  simp [hNe, ← hControls]

theorem pop_pushAll {v : State} (h : v.Known) (t : ValType) :
    (v.pushAll [t]).pop t = some v := by
  simp [pop, popAny_pushAll h]

theorem popAll_pushAll {v : State} (h : v.Known) (ts : List ValType) :
    (v.pushAll ts).popAll ts = some v := by
  induction ts generalizing v with
  | nil => rfl
  | cons t ts ih =>
    rw [show t :: ts = [t] ++ ts from rfl, pushAll_append, popAll, List.reverse_append,
      List.foldlM_append]
    change ((v.pushAll [t]).pushAll ts).popAll ts >>= _ = some v
    rw [ih (h.pushAll [t])]
    simp [pop_pushAll h]

end State

/-- The code leaves operands of the given types and nothing else. -/
def Pushes (Γ : Context) (code : Code) (ts : List ValType) : Prop :=
  ∀ v : State, v.Known → run Γ code v = some (v.pushAll ts)

namespace Pushes

theorem nil : Pushes Γ [] [] := fun _ _ => rfl

theorem append {a b : Code} {ts us : List ValType} (ha : Pushes Γ a ts) (hb : Pushes Γ b us) :
    Pushes Γ (a ++ b) (ts ++ us) := by
  intro v hv
  rw [run_append, ha v hv, Option.bind_some, hb _ (hv.pushAll ts), State.pushAll_append]

theorem applyAbove (ts : List ValType) (t : FuncType) {a : Code} {i : Instr}
    (ha : Pushes Γ a (ts ++ t.params)) (hi : Γ.type? i = some t) :
    Pushes Γ (a ++ [i]) (ts ++ t.result.toList) := by
  intro v hv
  have hKnown : (v.pushAll ts).Known := hv.pushAll ts
  rw [run_append, ha v hv, Option.bind_some, run_singleton (hv.pushAll _).controls_ne_nil,
    step_eq_apply hi, State.pushAll_append, State.apply, State.popAll_pushAll hKnown,
    State.pushAll_append]
  rfl

theorem apply (t : FuncType) {a : Code} {i : Instr} (ha : Pushes Γ a t.params)
    (hi : Γ.type? i = some t) : Pushes Γ (a ++ [i]) t.result.toList :=
  applyAbove [] t ha hi

theorem instr {i : Instr} {t : ValType} (hi : Γ.type? i = some ⟨[], some t⟩) :
    Pushes Γ [i] [t] :=
  apply ⟨[], some t⟩ nil hi

theorem drop {a : Code} {t : ValType} (ha : Pushes Γ a [t]) : Pushes Γ (a ++ [Instr.drop]) [] := by
  intro v hv
  rw [run_append, ha v hv, Option.bind_some, run_singleton (hv.pushAll _).controls_ne_nil]
  simp [step, State.popAny_pushAll hv, State.pushAll_nil]

end Pushes

namespace State

/-- The innermost block has no operands of its own, and the innermost `n` blocks have no results. -/
structure Flat (n : Nat) (v : State) : Prop where
  level : ∃ c cs, v.controls = c :: cs ∧ v.operands.length = c.height
  blocks : ∀ d < n, ∃ c, v.controls[d]? = some c ∧ c.results = []

/-- The same state, but the rest of the innermost block cannot be reached if `u` holds. -/
def mark (u : Bool) (v : State) : State :=
  { v with controls := v.controls.modifyHead fun c => { c with unreachable := c.unreachable || u } }

theorem Flat.known {n : Nat} {v : State} (h : v.Flat n) : v.Known := by
  obtain ⟨c, cs, hControls, hLevel⟩ := h.level
  exact ⟨c, cs, hControls, Nat.le_of_eq hLevel.symm⟩

theorem mark_false (v : State) : v.mark false = v := by
  obtain ⟨operands, controls⟩ := v
  cases controls <;> simp [mark]

theorem mark_mark (u u' : Bool) (v : State) : (v.mark u).mark u' = v.mark (u || u') := by
  obtain ⟨operands, controls⟩ := v
  cases controls <;> simp [mark, Bool.or_assoc]

theorem controls_mark {v : State} {c : Control} {cs : List Control} (h : v.controls = c :: cs)
    (u : Bool) :
    (v.mark u).controls = { c with unreachable := c.unreachable || u } :: cs := by
  rw [mark, h]
  rfl

theorem Flat.mark {n : Nat} {v : State} (h : v.Flat n) (u : Bool) : (v.mark u).Flat n := by
  obtain ⟨c, cs, hControls, hLevel⟩ := h.level
  have hMark := controls_mark hControls u
  refine ⟨⟨_, cs, hMark, hLevel⟩, ?_⟩
  intro d hd
  obtain ⟨c', hc', hResults⟩ := h.blocks d hd
  rw [hControls] at hc'
  rw [hMark]
  cases d with
  | zero =>
    cases hc'
    exact ⟨_, rfl, hResults⟩
  | succ d => exact ⟨c', hc', hResults⟩

theorem Flat.enter {n : Nat} {v : State} (h : v.Flat n) (opener : Opener) :
    (v.enter opener).Flat (n + 1) := by
  refine ⟨⟨_, v.controls, rfl, rfl⟩, ?_⟩
  intro d hd
  cases d with
  | zero => exact ⟨_, rfl, rfl⟩
  | succ d => exact h.blocks d (Nat.lt_of_succ_lt_succ hd)

theorem leave_enter (v : State) (opener : Opener) (u : Bool) :
    ((v.enter opener).mark u).leave = some (⟨opener, [], v.operands.length, u⟩, v) := by
  simp [enter, mark, leave, popAll]

theorem Flat.cut {n : Nat} {v : State} (h : v.Flat n) : v.cut = v.mark true := by
  obtain ⟨c, cs, hControls, hLevel⟩ := h.level
  simp [State.cut, State.mark, hControls, hLevel]

end State

/-- Inside `n` blocks of its function the code leaves the operands as they were and closes every
block that it opens. -/
def Neutral (Γ : Context) (n : Nat) (code : Code) : Prop :=
  ∀ v : State, v.Flat n → ∃ u, run Γ code v = some (v.mark u)

namespace Neutral

variable {n : Nat}

theorem of_pushes {code : Code} (h : Pushes Γ code []) : Neutral Γ n code := by
  intro v hv
  exact ⟨false, by rw [h v hv.known, State.mark_false, State.pushAll_nil]⟩

theorem append {a b : Code} (ha : Neutral Γ n a) (hb : Neutral Γ n b) : Neutral Γ n (a ++ b) := by
  intro v hv
  obtain ⟨u, hA⟩ := ha v hv
  obtain ⟨u', hB⟩ := hb _ (hv.mark u)
  exact ⟨u || u', by rw [run_append, hA, Option.bind_some, hB, State.mark_mark]⟩

/-- A block is neutral if what stands between its first and its last instruction is. -/
theorem enclose {first : Instr} {opener : Opener} {code : Code} {v v₀ : State} (hv : v.Flat n)
    (hFirst : run Γ [first] v₀ = some (v.enter opener)) (h : Neutral Γ (n + 1) code) :
    ∃ u, run Γ ([first] ++ code) v₀ = some ((v.enter opener).mark u) ∧
      run Γ ([first] ++ code ++ [Instr.end_]) v₀ = some v := by
  obtain ⟨u, hCode⟩ := h _ (hv.enter opener)
  have hInside : run Γ ([first] ++ code) v₀ = some ((v.enter opener).mark u) := by
    rw [run_append, hFirst, Option.bind_some, hCode]
  refine ⟨u, hInside, ?_⟩
  rw [run_append, hInside, Option.bind_some, run_singleton (by simp [State.enter, State.mark]),
    step, State.leave_enter]
  rfl

theorem block {code : Code} (h : Neutral Γ (n + 1) code) :
    Neutral Γ n ([Instr.block] ++ code ++ [Instr.end_]) := by
  intro v hv
  have hFirst : run Γ [.block] v = some (v.enter .block) := run_singleton hv.known.controls_ne_nil
  obtain ⟨u, -, hRun⟩ := enclose hv hFirst h
  exact ⟨false, by rw [hRun, State.mark_false]⟩

theorem loop {code : Code} (h : Neutral Γ (n + 1) code) :
    Neutral Γ n ([Instr.loop] ++ code ++ [Instr.end_]) := by
  intro v hv
  have hFirst : run Γ [.loop] v = some (v.enter .loop) := run_singleton hv.known.controls_ne_nil
  obtain ⟨u, -, hRun⟩ := enclose hv hFirst h
  exact ⟨false, by rw [hRun, State.mark_false]⟩

theorem run_if {v : State} (hv : v.Known) :
    run Γ [.if_] (v.pushAll [.i32]) = some (v.enter .if_) := by
  rw [run_singleton (hv.pushAll _).controls_ne_nil]
  simp [step, State.pop_pushAll hv]

theorem if_ {c code : Code} (hc : Pushes Γ c [.i32]) (h : Neutral Γ (n + 1) code) :
    Neutral Γ n (c ++ ([Instr.if_] ++ code ++ [Instr.end_])) := by
  intro v hv
  obtain ⟨u, -, hRun⟩ := enclose hv (run_if hv.known) h
  exact ⟨false, by rw [run_append, hc v hv.known, Option.bind_some, hRun, State.mark_false]⟩

theorem ifElse {c t e : Code} (hc : Pushes Γ c [.i32]) (ht : Neutral Γ (n + 1) t)
    (he : Neutral Γ (n + 1) e) :
    Neutral Γ n (c ++ ([Instr.if_] ++ t ++ ([Instr.else_] ++ e ++ [Instr.end_]))) := by
  intro v hv
  obtain ⟨u, hThen, -⟩ := enclose hv (run_if hv.known) ht
  have hElse : run Γ [.else_] ((v.enter .if_).mark u) = some (v.enter .else_) := by
    rw [run_singleton (by simp [State.enter, State.mark]), step, State.leave_enter]
    rfl
  obtain ⟨u', -, hRun⟩ := enclose hv hElse he
  refine ⟨false, ?_⟩
  rw [run_append, hc v hv.known, Option.bind_some, run_append, hThen, Option.bind_some, hRun,
    State.mark_false]

theorem br {d : Nat} (hd : d < n) : Neutral Γ n [.br d] := by
  intro v hv
  obtain ⟨c, hc, hResults⟩ := hv.blocks d hd
  refine ⟨true, ?_⟩
  rw [run_singleton hv.known.controls_ne_nil, step, hc]
  simp [Control.labelTypes, hResults, State.popAll, hv.cut]

theorem brIf {c : Code} {d : Nat} (hc : Pushes Γ c [.i32]) (hd : d < n) :
    Neutral Γ n (c ++ [Instr.brIf d]) := by
  intro v hv
  obtain ⟨c', hc', hResults⟩ := hv.blocks d hd
  refine ⟨false, ?_⟩
  rw [run_append, hc v hv.known, Option.bind_some,
    run_singleton (hv.known.pushAll _).controls_ne_nil, step]
  simp [State.pop_pushAll hv.known, hc', Control.labelTypes, hResults, State.popAll,
    State.pushAll_nil, State.mark_false]

theorem run_unreachable {v : State} (hv : v.Flat n) :
    run Γ [.unreachable] v = some (v.mark true) := by
  rw [run_singleton hv.known.controls_ne_nil, step, hv.cut]
  rfl

theorem return_ {c : Code} (hc : Pushes Γ c Γ.result.toList) :
    Neutral Γ n (c ++ [Instr.return_]) := by
  intro v hv
  refine ⟨true, ?_⟩
  rw [run_append, hc v hv.known, Option.bind_some,
    run_singleton (hv.known.pushAll _).controls_ne_nil, step]
  simp [State.popAll_pushAll hv.known, hv.cut]

end Neutral

end Validation

/-- The function is valid in the module. -/
def Function.validates (m : Module) (f : Function) : Bool :=
  let v : Validation.State := ⟨[], [⟨.function, f.result.toList, 0, false⟩]⟩
  match Validation.run ⟨f.params ++ f.locals, f.result, m.type?⟩ (f.body ++ [Instr.end_]) v with
  | some v => v.controls.isEmpty
  | none => false

end MiniC.Wasm
