import MiniC.Proofs.Execution.Evaluation
import MiniC.Proofs.Execution.Machine

/-! # Simulation

Code simulates a part of a program if both leave the same world, the same values of the variables and
the same results behind, and end in the same way: a jump in the program is a branch of a depth that
is known.  Simulations are put together like the programs themselves.
-/
namespace MiniC
set_option autoImplicit false

open Wasm (Code Exec Instr Runtime ValType)

/-- The values of the variables, which are in slots. -/
def view (names : List (String × Nat)) (locals : List Value) (x : String) : Option Value :=
  (List.lookup x names).bind fun n => locals[n]?

structure Related (F : Frame) (s : Store) (σ : Wasm.State) : Prop where
  world : s.world = σ.world
  vars : s.vars = view F.names σ.locals
  typed : σ.locals.map Value.type = F.slots

variable {F : Frame} {result : Option ValType} {T : Jump → Nat → Prop} {α β γ δ : Type}

/-- The endings agree; after a normal end the given operands are on the stack and have the given
property together with the results. -/
inductive Agree (F : Frame) (result : Option ValType) (T : Jump → Nat → Prop)
    (post : α → β → List Value → Prop) (stack : List Value) :
    EStateM.Result Exit Store α → EStateM.Result Wasm.Exit Wasm.State β → Prop
  | ok {a : α} {b : β} {vs : List Value} {s : Store} {σ : Wasm.State} : Related F s σ →
      σ.stack = vs ++ stack → post a b vs → Agree F result T post stack (.ok a s) (.ok b σ)
  | jump {j : Jump} {d : Nat} {s : Store} {σ : Wasm.State} :
      T j d → Related F s σ →
      Agree F result T post stack (.error (.jump j) s) (.error (.branch d) σ)
  | return_ {v : Option Value} {s : Store} {σ : Wasm.State} {rest : List Value} :
      σ.stack = v.toList ++ rest → v.map Value.type = result → s.world = σ.world →
      Agree F result T post stack (.error (.return_ v) s) (.error .return_ σ)
  | halt {h : Halt} {s : Store} {σ : Wasm.State} : h ≠ .stuck → s.world = σ.world →
      Agree F result T post stack (.error (.halt h) s) (.error (.halt h) σ)

/-- The run `y` simulates `x` whenever the operands `pre` are on the stack, and takes them. -/
def Sim (F : Frame) (result : Option ValType) (T : Jump → Nat → Prop) (pre : List Value) (x : Eval α)
    (y : Exec β) (post : α → β → List Value → Prop) : Prop :=
  ∀ s σ stack, Related F s σ → σ.stack = pre ++ stack →
    Agree F result T post stack (x s) (y σ)

namespace Sim

variable {pre : List Value} {x : Eval α} {y : Exec β}

theorem pure {a : α} {b : β} {post : α → β → List Value → Prop} (h : post a b pre) :
    Sim F result T pre (Pure.pure a) (Pure.pure b) post :=
  fun _ _ _ hRelated hStack => .ok hRelated hStack h

theorem bind {f : α → Eval γ} {g : β → Exec δ} {mid : α → β → List Value → Prop}
    {post : γ → δ → List Value → Prop} (hx : Sim F result T pre x y mid)
    (hf : ∀ a b vs, mid a b vs → Sim F result T vs (f a) (g b) post) :
    Sim F result T pre (x >>= f) (y >>= g) post := by
  intro s σ stack hRelated hStack
  have hFirst := hx s σ stack hRelated hStack
  change Agree F result T post stack (EStateM.bind x f s) (EStateM.bind y g σ)
  rw [EStateM.bind, EStateM.bind]
  generalize x s = r at hFirst ⊢
  generalize y σ = r' at hFirst ⊢
  cases hFirst with
  | ok hRelated' hStack' hMid => exact hf _ _ _ hMid _ _ _ hRelated' hStack'
  | jump hTarget hRelated' => exact .jump hTarget hRelated'
  | return_ hStack' hType hWorld => exact .return_ hStack' hType hWorld
  | halt hStuck hWorld => exact .halt hStuck hWorld

theorem imp {post post' : α → β → List Value → Prop} (h : Sim F result T pre x y post)
    (hImp : ∀ a b vs, post a b vs → post' a b vs) : Sim F result T pre x y post' := by
  intro s σ stack hRelated hStack
  have hAgree := h s σ stack hRelated hStack
  generalize x s = r at hAgree ⊢
  generalize y σ = r' at hAgree ⊢
  cases hAgree with
  | ok hRelated' hStack' hPost => exact .ok hRelated' hStack' (hImp _ _ _ hPost)
  | jump hTarget hRelated' => exact .jump hTarget hRelated'
  | return_ hStack' hType hWorld => exact .return_ hStack' hType hWorld
  | halt hStuck hWorld => exact .halt hStuck hWorld

theorem halt {h : Halt} {post : α → β → List Value → Prop} (hStuck : h ≠ .stuck) :
    Sim F result T pre (throw (.halt h)) (throw (.halt h)) post :=
  fun _ _ _ hRelated _ => .halt hStuck hRelated.world

theorem congr (x' : Eval α) {post : α → β → List Value → Prop}
    (hEq : ∀ s σ, Related F s σ → x s = x' s) (h : Sim F result T pre x' y post) :
    Sim F result T pre x y post := by
  intro s σ stack hRelated hStack
  rw [hEq s σ hRelated]
  exact h s σ stack hRelated hStack

/-- Code that only prepares operands may come first. -/
theorem silent {x : Eval γ} {y : Exec Unit} {y' : Exec δ} {vs : List Value}
    {post : γ → δ → List Value → Prop}
    (h : Sim F result T pre (Pure.pure ()) y fun _ _ ws => ws = vs)
    (h' : Sim F result T vs x y' post) :
    Sim F result T pre x (y >>= fun _ => y') post := by
  rw [← pure_bind () fun _ => x]
  refine h.bind ?_
  rintro _ _ _ rfl
  exact h'

/-- An instruction takes its operands and leaves what `k` makes of the result. -/
theorem act {R : Runtime} {i : Instr} (args : List Value) {x : Act α} (k : α → Option Value)
    {P : α → Prop} (hArity : i.arity? R = some args.length) (hAct : i.act R args = k <$> x)
    (hSafe : Safe x P) :
    Sim F result T (args.reverse ++ pre) (Eval.onWorld x) (Wasm.Code.exec R [i])
      fun a _ vs => vs = (k a).toList ++ pre ∧ P a := by
  intro s σ stack hRelated hStack
  have hSafe := hSafe σ.world
  rw [List.append_assoc] at hStack
  rw [Eval.onWorld, hRelated.world]
  cases hx : x σ.world with
  | ok a w =>
    rw [hx] at hSafe
    have hOk : i.act R args σ.world = .ok (k a) w := by
      rw [hAct, Action.map_of_ok hx]
    rw [Wasm.Code.exec_ok args hArity hOk hStack]
    exact .ok ⟨rfl, hRelated.vars, hRelated.typed⟩ (List.append_assoc _ _ _).symm ⟨rfl, hSafe⟩
  | error h w =>
    rw [hx] at hSafe
    have hError : i.act R args σ.world = .error h w := by
      rw [hAct, Action.map_of_error hx]
    rw [Wasm.Code.exec_error args hArity hError hStack]
    exact .halt hSafe rfl

/-- An instruction whose result depends on its operands alone. -/
theorem const {R : Runtime} {i : Instr} (args : List Value) {v : Value}
    (hArity : i.arity? R = some args.length) (hAct : i.act R args = Pure.pure (some v)) :
    Sim F result T (args.reverse ++ pre) (Pure.pure ()) (Wasm.Code.exec R [i])
      fun _ _ vs => vs = v :: pre := by
  intro s σ stack hRelated hStack
  rw [List.append_assoc] at hStack
  rw [Wasm.Code.exec_pure args hArity hAct hStack]
  exact .ok ⟨hRelated.world, hRelated.vars, hRelated.typed⟩ rfl rfl

theorem map {f : α → γ} {mid : α → β → List Value → Prop} {post : γ → β → List Value → Prop}
    (h : Sim F result T pre x y mid) (hPost : ∀ a b vs, mid a b vs → post (f a) b vs) :
    Sim F result T pre (x >>= fun a => Pure.pure (f a)) y post := by
  rw [← bind_pure y]
  exact h.bind fun a b vs hMid => .pure (hPost a b vs hMid)

theorem silent_pure {y : Exec Unit} {vs : List Value} {a : γ} {post : γ → Unit → List Value → Prop}
    (h : Sim F result T pre (Pure.pure ()) y fun _ _ ws => ws = vs) (hPost : post a () vs) :
    Sim F result T pre (Pure.pure a) y post := by
  rw [← bind_pure y]
  exact .silent h (.pure hPost)

/-- The block of a label ends where a jump of its kind leads. -/
theorem enter {T' : Jump → Nat → Prop} {l : Label} {x : Eval Unit} {y : Exec Unit}
    {post : Unit → Unit → List Value → Prop}
    (hT : ∀ j d, T' j d → if l = some j then d = 0 else ∃ d', d = d' + 1 ∧ T j d')
    (h : Sim F result T' [] x y post) :
    Sim F result T pre (Eval.catching l x) (Exec.enter y) fun a b vs => a = b ∧ vs = pre := by
  intro s σ stack hRelated hStack
  have hInside : Related F s { σ with stack := [] } :=
    ⟨hRelated.world, hRelated.vars, hRelated.typed⟩
  have hAgree := h s { σ with stack := [] } [] hInside rfl
  rw [Eval.catching, Exec.enter]
  generalize x s = r at hAgree ⊢
  generalize y { σ with stack := [] } = r' at hAgree ⊢
  cases hAgree with
  | ok hRelated' hStack' hPost =>
    exact .ok ⟨hRelated'.world, hRelated'.vars, hRelated'.typed⟩ hStack ⟨rfl, rfl⟩
  | @jump j d s' σ' hTarget hRelated' =>
    have hDepth := hT j d hTarget
    by_cases hLabel : l = some j
    · rw [if_pos hLabel] at hDepth
      subst hDepth
      simp only [hLabel, if_true]
      exact .ok ⟨hRelated'.world, hRelated'.vars, hRelated'.typed⟩ hStack ⟨rfl, rfl⟩
    · rw [if_neg hLabel] at hDepth
      obtain ⟨d', rfl, hTarget'⟩ := hDepth
      simp only [hLabel, if_false]
      exact .jump hTarget' hRelated'
  | return_ hStack' hType hWorld => exact .return_ hStack' hType hWorld
  | halt hStuck hWorld => exact .halt hStuck hWorld

/-- No block is needed for jumps that do not occur. -/
theorem catching {l : Label} {x : Eval Unit} {y : Exec Unit}
    (hT : ∀ j d, T j d → l ≠ some j) (h : Sim F result T pre x y fun _ _ vs => vs = pre) :
    Sim F result T pre (Eval.catching l x) y fun _ _ vs => vs = pre := by
  intro s σ stack hRelated hStack
  have hAgree := h s σ stack hRelated hStack
  rw [Eval.catching]
  generalize x s = r at hAgree ⊢
  generalize y σ = r' at hAgree ⊢
  cases hAgree with
  | ok hRelated' hStack' hPost => exact .ok hRelated' hStack' hPost
  | @jump j d s' σ' hTarget hRelated' =>
    simp only [hT j d hTarget, if_false]
    exact .jump hTarget hRelated'
  | return_ hStack' hType hWorld => exact .return_ hStack' hType hWorld
  | halt hStuck hWorld => exact .halt hStuck hWorld

/-- More jumps may be allowed than there are. -/
theorem retarget {T' : Jump → Nat → Prop} {post : α → β → List Value → Prop}
    (hT : ∀ j d, T' j d → T j d) (h : Sim F result T' pre x y post) :
    Sim F result T pre x y post := by
  intro s σ stack hRelated hStack
  have hAgree := h s σ stack hRelated hStack
  generalize x s = r at hAgree ⊢
  generalize y σ = r' at hAgree ⊢
  cases hAgree with
  | ok hRelated' hStack' hPost => exact .ok hRelated' hStack' hPost
  | jump hTarget hRelated' => exact .jump (hT _ _ hTarget) hRelated'
  | return_ hStack' hType hWorld => exact .return_ hStack' hType hWorld
  | halt hStuck hWorld => exact .halt hStuck hWorld

/-- A pass through a loop, after which the value on top says whether there is another one. -/
theorem pass {R : Runtime} {T' : Jump → Nat → Prop} {z : Eval Bool} {y : Exec Unit}
    (hT : ∀ j d, T' j d → ∃ d', d = d' + 1 ∧ T j d')
    (h : Sim F result T' [] z y
      fun again _ vs => ∃ k, vs = [.i32 k] ∧ again = decide (k ≠ 0)) :
    Sim F result T pre z (Exec.enter (y >>= fun _ => (Instr.brIf 0).exec R))
      fun a b vs => a = b ∧ vs = pre := by
  intro s σ stack hRelated hStack
  have hInside : Related F s { σ with stack := [] } :=
    ⟨hRelated.world, hRelated.vars, hRelated.typed⟩
  have hAgree := h s { σ with stack := [] } [] hInside rfl
  have hBind : (y >>= fun _ => (Instr.brIf 0).exec R) { σ with stack := [] } =
      EStateM.bind y (fun _ => (Instr.brIf 0).exec R) { σ with stack := [] } := rfl
  rw [Exec.enter, hBind, EStateM.bind]
  generalize z s = r at hAgree ⊢
  generalize y { σ with stack := [] } = r' at hAgree ⊢
  cases hAgree with
  | @ok a b vs s' σ' hRelated' hStack' hPost =>
    obtain ⟨k, rfl, rfl⟩ := hPost
    have hAfter : Related F s' { σ' with stack := σ.stack } :=
      ⟨hRelated'.world, hRelated'.vars, hRelated'.typed⟩
    simp only [Instr.exec, Action.bind_of_ok (Exec.popInt_eq hStack')]
    by_cases hk : k = 0
    · simp only [hk, ne_eq, not_true_eq_false, if_false, decide_false]
      exact .ok hAfter hStack ⟨rfl, rfl⟩
    · simp only [hk, ne_eq, not_false_eq_true, if_true, decide_true]
      exact .ok hAfter hStack ⟨rfl, rfl⟩
  | @jump j d s' σ' hTarget hRelated' =>
    obtain ⟨d', rfl, hTarget'⟩ := hT j d hTarget
    exact .jump hTarget' hRelated'
  | return_ hStack' hType hWorld => exact .return_ hStack' hType hWorld
  | halt hStuck hWorld => exact .halt hStuck hWorld

end Sim

namespace Eval

/-- Passes through a loop that is tested last. -/
def repeatWhile (z : Eval Bool) : Nat → Eval Unit
  | 0 => throw (.halt .timeout)
  | n + 1 => do
    if ← z then repeatWhile z n

theorem whileLoop_eq (test : Eval Bool) (body : Eval Unit) (n : Nat) :
    whileLoop test body n = test >>= fun b =>
      if b then repeatWhile (body >>= fun _ => test) n else pure () := by
  induction n with
  | zero => rfl
  | succ n ih =>
    rw [whileLoop, ih]
    congr 1
    funext b
    cases b with
    | true => simp [repeatWhile]
    | false => rfl

theorem doLoop_eq (test : Eval Bool) (body : Eval Unit) (n : Nat) :
    doLoop test body n = repeatWhile (body >>= fun _ => test) n := by
  cases n with
  | zero => rfl
  | succ n =>
    rw [doLoop, whileLoop_eq, repeatWhile, bind_assoc]

end Eval

theorem Sim.iterate {pre : List Value} {z : Eval Bool} {y : Exec Bool}
    (h : Sim F result T pre z y fun a b vs => a = b ∧ vs = pre) (n : Nat) :
    Sim F result T pre (Eval.repeatWhile z n) (Exec.iterate y n) fun _ _ vs => vs = pre := by
  induction n with
  | zero => exact .halt (by decide)
  | succ n ih =>
    refine h.bind ?_
    rintro a _ _ ⟨rfl, rfl⟩
    cases a with
    | true => exact ih
    | false => exact .pure rfl

end MiniC
