import MiniC.Proofs.Execution.Machine

/-! # Operands that code does not use

A run that comes to its end also does so when there are more operands below those on the stack, and
it leaves them where they are.  This holds of every instruction that is not the start of a block, and
so of all code without blocks.
-/
namespace MiniC.Wasm
set_option autoImplicit false

/-- The state with the given operands below those on the stack. -/
def State.above (σ : State) (vs : List Value) : State := { σ with stack := σ.stack ++ vs }

namespace Exec

variable {α β : Type}

/-- Operands below the stack change nothing in a run that ends, and stay there. -/
def KeepsBelow (x : Exec α) : Prop :=
  ∀ ⦃σ τ : State⦄ ⦃a : α⦄, x σ = .ok a τ → ∀ vs, x (σ.above vs) = .ok a (τ.above vs)

namespace KeepsBelow

theorem pure (a : α) : KeepsBelow (Pure.pure a) := by
  rintro σ _ _ ⟨⟩ vs
  rfl

theorem throw (e : Exit) : KeepsBelow (MonadExcept.throw e : Exec α) := by
  rintro σ τ a ⟨⟩

theorem bind {x : Exec α} {f : α → Exec β} (hx : KeepsBelow x) (hf : ∀ a, KeepsBelow (f a)) :
    KeepsBelow (x >>= f) := by
  intro σ τ b h vs
  obtain ⟨a, ρ, hRun, hRest⟩ := Action.bind_eq_ok_iff.mp h
  rw [Action.bind_of_ok (hx hRun vs)]
  exact hf a hRest vs

theorem push (vs : List Value) : KeepsBelow (Exec.push vs) := by
  rintro σ _ _ ⟨⟩ below
  simp [Exec.push, State.above]

theorem pop : KeepsBelow Exec.pop := by
  intro σ τ v h below
  rw [Exec.pop] at h
  split at h
  · next hStack =>
    cases h
    exact pop_eq (by rw [State.above, hStack, List.cons_append])
  · cases h

theorem popInt : KeepsBelow Exec.popInt := by
  intro σ τ a h below
  rw [Exec.popInt] at h
  split at h
  · next v stack hStack =>
    cases h
    exact popInt_eq (by rw [State.above, hStack, List.cons_append])
  · cases h

theorem popMany (n : Nat) : KeepsBelow (Exec.popMany n) := by
  intro σ τ args h below
  rw [Exec.popMany] at h
  split at h
  · next hLength =>
    cases h
    have hAbove : n ≤ (σ.above below).stack.length := by
      rw [State.above, List.length_append]
      omega
    rw [Exec.popMany, if_pos hAbove]
    simp only [State.above, List.take_append_of_le_length hLength,
      List.drop_append_of_le_length hLength]
  · cases h

theorem getLocal (n : Nat) : KeepsBelow (Exec.getLocal n) := by
  intro σ τ v h below
  rw [Exec.getLocal] at h
  split at h
  · next hLocal =>
    cases h
    exact getLocal_eq hLocal
  · cases h

theorem setLocal (n : Nat) (v : Value) : KeepsBelow (Exec.setLocal n v) := by
  intro σ τ u h below
  rw [Exec.setLocal] at h
  split at h
  · next hLength =>
    cases h
    exact setLocal_eq (σ := σ.above below) hLength v
  · cases h

theorem onWorld (x : Act α) : KeepsBelow (Exec.onWorld x) := by
  intro σ τ a h below
  simp only [Exec.onWorld, State.above] at h ⊢
  cases hRun : x σ.world with
  | ok b w =>
    rw [hRun] at h
    cases h
    rfl
  | error e w =>
    rw [hRun] at h
    cases h

end KeepsBelow

end Exec

theorem Instr.exec_keepsBelow (R : Runtime) (i : Instr) : Exec.KeepsBelow (i.exec R) := by
  cases hArity : i.arity? R with
  | some n =>
    rw [exec_of_arity hArity]
    exact .bind (.popMany _) fun args => .bind (.onWorld _) fun r => .push _
  | none =>
    cases i with
    | localGet n => exact .bind (.getLocal n) fun v => .push _
    | localSet n => exact .bind .pop fun v => .setLocal n v
    | localTee n => exact .bind .pop fun v => .bind (.setLocal n v) fun _ => .push _
    | br d => exact .throw _
    | brIf d =>
      refine .bind .popInt fun a => ?_
      split
      · exact .throw _
      · exact .pure _
    | return_ => exact .throw _
    | unreachable => exact .throw _
    | _ =>
      simp only [exec, hArity]
      exact .throw _

namespace Code

variable {code : Code}

theorem balanced_of_isPlain (h : ∀ i ∈ code, i.isPlain = true) : Balanced code := by
  induction code with
  | nil => exact .nil
  | cons i code ih =>
    obtain ⟨hHead, hTail⟩ := List.forall_mem_cons.mp h
    exact .append (a := [i]) (.plain hHead) (ih hTail)

theorem exec_keepsBelow (R : Runtime) (h : ∀ i ∈ code, i.isPlain = true) :
    Exec.KeepsBelow (exec R code) := by
  induction code with
  | nil => exact .pure ()
  | cons i code ih =>
    obtain ⟨hHead, hTail⟩ := List.forall_mem_cons.mp h
    rw [← List.singleton_append, exec_append (.plain hHead) (balanced_of_isPlain hTail),
      exec_plain hHead]
    exact .bind (i.exec_keepsBelow R) fun _ => ih hTail

end Code

end MiniC.Wasm
