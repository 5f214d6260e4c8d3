import MiniC.Proofs.Validation.Algorithm

/-! # The height of the operand stack

Code is followed by the number of its operands alone, whatever their types.  A block has operands of
its own: those below it cannot be taken in it, and none of its own may be left at its end.
-/
namespace MiniC.Wasm
set_option autoImplicit false

def FuncType.effect (t : FuncType) : Nat × Nat := (t.params.length, t.result.toList.length)

namespace Heights

/-- The number of operands in the innermost block and in each block around it. -/
structure Stack where
  height : Nat
  below : List Nat
  deriving DecidableEq, Repr

/-- The result of the function around the code, and the functions to be called. -/
structure Context where
  result : Option ValType
  callee? : String → Option FuncType

/-- The number of operands that an instruction takes and the number that it leaves. -/
def Context.effect? (Γ : Context) : Instr → Option (Nat × Nat)
  | .i32Const _ | .f32Const _ | .localGet _ => some (0, 1)
  | .localTee _ | .load _ | .load8S => some (1, 1)
  | .localSet _ | .drop | .brIf _ => some (1, 0)
  | .store _ | .store8 => some (2, 0)
  | .numeric t op => (op.type? t).map FuncType.effect
  | .call name => (Γ.callee? name).map FuncType.effect
  | .return_ => some (Γ.result.toList.length, 0)
  | .br _ | .unreachable => some (0, 0)
  | .block | .loop | .if_ | .else_ | .end_ => none

namespace Stack

def raise (n : Nat) (v : Stack) : Stack := { v with height := v.height + n }

def apply (effect : Nat × Nat) (v : Stack) : Option Stack :=
  if effect.1 ≤ v.height then some { v with height := v.height - effect.1 + effect.2 } else none

def enter (v : Stack) : Stack := ⟨0, v.height :: v.below⟩

def leave (v : Stack) : Option Stack :=
  match v.height, v.below with
  | 0, h :: below => some ⟨h, below⟩
  | _, _ => none

theorem raise_raise (n k : Nat) (v : Stack) : (v.raise n).raise k = v.raise (n + k) := by
  simp only [raise, Nat.add_assoc]

theorem apply_raise (n takes leaves : Nat) (v : Stack) :
    (v.raise (n + takes)).apply (takes, leaves) = some (v.raise (n + leaves)) := by
  have hEnough : takes ≤ v.height + (n + takes) := by omega
  have hHeight : v.height + (n + takes) - takes + leaves = v.height + (n + leaves) := by omega
  simp only [apply, raise, hEnough, if_true, hHeight]

theorem leave_enter (v : Stack) : v.enter.leave = some v := rfl

end Stack

def step (Γ : Context) (v : Stack) : Instr → Option Stack
  | .block | .loop => some v.enter
  | .if_ => (v.apply (1, 0)).map Stack.enter
  | .else_ => v.leave.map Stack.enter
  | .end_ => v.leave
  | i => (Γ.effect? i).bind v.apply

def run (Γ : Context) (code : Code) (v : Stack) : Option Stack := code.foldlM (step Γ) v

variable {Γ : Context}

theorem run_append (a b : Code) (v : Stack) : run Γ (a ++ b) v = (run Γ a v).bind (run Γ b) :=
  List.foldlM_append

theorem run_singleton (i : Instr) (v : Stack) : run Γ [i] v = step Γ v i := by
  simp [run]

theorem step_eq_apply {i : Instr} {effect : Nat × Nat} (hi : Γ.effect? i = some effect)
    (v : Stack) : step Γ v i = v.apply effect := by
  cases i <;> first | (simp only [step, hi]; rfl) | cases hi

/-- The code leaves `n` operands more than there were and takes none of those. -/
def Nets (Γ : Context) (code : Code) (n : Nat) : Prop :=
  ∀ v : Stack, run Γ code v = some (v.raise n)

namespace Nets

variable {a b c : Code} {n k : Nat}

theorem nil : Nets Γ [] 0 := fun _ => rfl

theorem append (ha : Nets Γ a n) (hb : Nets Γ b k) : Nets Γ (a ++ b) (n + k) := by
  intro v
  rw [run_append, ha v, Option.bind_some, hb, Stack.raise_raise]

theorem applyAbove (n : Nat) {takes leaves : Nat} {i : Instr} (ha : Nets Γ a (n + takes))
    (hi : Γ.effect? i = some (takes, leaves)) : Nets Γ (a ++ [i]) (n + leaves) := by
  intro v
  rw [run_append, ha v, Option.bind_some, run_singleton, step_eq_apply hi, Stack.apply_raise]

theorem apply {takes leaves : Nat} {i : Instr} (ha : Nets Γ a takes)
    (hi : Γ.effect? i = some (takes, leaves)) : Nets Γ (a ++ [i]) leaves := by
  simpa using applyAbove 0 (by simpa using ha) hi

theorem instr {i : Instr} (hi : Γ.effect? i = some (0, n)) : Nets Γ [i] n := nil.apply hi

theorem unique (h : Nets Γ a n) (h' : Nets Γ a k) : n = k := by
  have hBoth : (⟨0, []⟩ : Stack).raise n = (⟨0, []⟩ : Stack).raise k :=
    Option.some.inj ((h _).symm.trans (h' _))
  simpa [Stack.raise] using hBoth

/-- An instruction that takes more operands than the code before it has left. -/
theorem not_of_lt {takes leaves : Nat} {i : Instr} (ha : Nets Γ a n)
    (hi : Γ.effect? i = some (takes, leaves)) (hLt : n < takes) : ¬ Nets Γ (a ++ [i]) k := by
  intro h
  have hRun := h ⟨0, []⟩
  rw [run_append, ha, Option.bind_some, run_singleton, step_eq_apply hi, Stack.apply,
    if_neg (by simpa [Stack.raise] using hLt)] at hRun
  cases hRun

theorem enclose {first : Instr} {v v₀ : Stack} (hFirst : step Γ v₀ first = some v.enter)
    (h : Nets Γ a 0) : run Γ ([first] ++ a) v₀ = some v.enter ∧
      run Γ ([first] ++ a ++ [Instr.end_]) v₀ = some v := by
  have hInside : run Γ ([first] ++ a) v₀ = some v.enter := by
    rw [run_append, run_singleton, hFirst, Option.bind_some, h]
    rfl
  refine ⟨hInside, ?_⟩
  rw [run_append, hInside, Option.bind_some, run_singleton]
  exact v.leave_enter

theorem block (h : Nets Γ a 0) : Nets Γ ([Instr.block] ++ a ++ [Instr.end_]) 0 :=
  fun _ => (enclose rfl h).2

theorem loop (h : Nets Γ a 0) : Nets Γ ([Instr.loop] ++ a ++ [Instr.end_]) 0 :=
  fun _ => (enclose rfl h).2

theorem if_ (hc : Nets Γ c 1) (h : Nets Γ a 0) :
    Nets Γ (c ++ ([Instr.if_] ++ a ++ [Instr.end_])) 0 := by
  intro v
  have hFirst : step Γ (v.raise 1) .if_ = some v.enter := rfl
  rw [run_append, hc v, Option.bind_some, (enclose hFirst h).2]
  rfl

theorem ifElse (hc : Nets Γ c 1) (ha : Nets Γ a 0) (hb : Nets Γ b 0) :
    Nets Γ (c ++ ([Instr.if_] ++ a ++ ([Instr.else_] ++ b ++ [Instr.end_]))) 0 := by
  intro v
  have hFirst : step Γ (v.raise 1) .if_ = some v.enter := rfl
  have hElse : step Γ v.enter .else_ = some v.enter := rfl
  rw [run_append, hc v, Option.bind_some, run_append, (enclose hFirst ha).1, Option.bind_some,
    (enclose hElse hb).2]
  rfl

end Nets

end Heights

end MiniC.Wasm
