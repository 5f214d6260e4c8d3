import MiniC.Proofs.Frames

/-! # Two runs side by side

A program that is changed without effect on what it means is run like the unchanged one, step by
step: results, errors and states are those of the other run with the same kind of change.
-/
namespace MiniC
set_option autoImplicit false

variable {α β γ δ ε σ : Type}

/-- Changes a result by `g` and an error by `f`. -/
def transfer (f : ε → ε) (g : α → β) : Except ε α → Except ε β
  | .ok a => .ok (g a)
  | .error e => .error (f e)

section

variable {f : ε → ε}

theorem transfer_bind {x : Except ε α} {x' : Except ε β} {k : α → Except ε γ} {k' : β → Except ε δ}
    {h : α → β} {g : γ → δ} (hx : x' = transfer f h x) (hk : ∀ a, k' (h a) = transfer f g (k a)) :
    (x' >>= k') = transfer f g (x >>= k) := by
  subst hx
  cases x with
  | ok a => exact hk a
  | error e => rfl

theorem transfer_map {x : Except ε α} {x' : Except ε β} {h : α → β} {k : α → γ} {k' : β → δ}
    {g : γ → δ} (hx : x' = transfer f h x) (hk : ∀ a, k' (h a) = g (k a)) :
    k' <$> x' = transfer f g (k <$> x) := by
  subst hx
  cases x with
  | ok a => exact congrArg Except.ok (hk a)
  | error e => rfl

theorem transfer_ite {c : Prop} [Decidable c] {x y : Except ε α} {x' y' : Except ε β} {g : α → β}
    (hx : x' = transfer f g x) (hy : y' = transfer f g y) :
    (if c then x' else y') = transfer f g (if c then x else y) := by
  split
  · exact hx
  · exact hy

end

/-- The two actions do the same, one of them in a state changed by `g`, with an error changed by `f`.
`inv` is kept by the other. -/
def Tracks (f : ε → ε) (g : σ → σ) (inv : σ → Prop) (x x' : EStateM ε σ α) : Prop :=
  ∀ s, inv s →
    match x s with
    | .ok a s' => inv s' ∧ x' (g s) = .ok a (g s')
    | .error e s' => x' (g s) = .error (f e) (g s')

namespace Tracks

variable {f : ε → ε} {g : σ → σ} {inv : σ → Prop}

theorem pure {a : α} : Tracks f g inv (Pure.pure a) (Pure.pure a) := fun _ h => ⟨h, rfl⟩

theorem throw {e e' : ε} (h : e' = f e) :
    Tracks f g inv (MonadExcept.throw e : EStateM ε σ α) (MonadExcept.throw e') := by
  intro s _
  rw [h]
  rfl

theorem bind {x x' : EStateM ε σ α} {k k' : α → EStateM ε σ β} (hx : Tracks f g inv x x')
    (hk : ∀ a, Tracks f g inv (k a) (k' a)) : Tracks f g inv (x >>= k) (x' >>= k') := by
  intro s hs
  have hRun := hx s hs
  cases h : x s with
  | ok a s' =>
    rw [h] at hRun
    rw [Action.bind_of_ok h, Action.bind_of_ok hRun.2]
    exact hk a s' hRun.1
  | error e s' =>
    rw [h] at hRun
    rw [Action.bind_of_error h]
    exact Action.bind_of_error hRun

theorem map {x x' : EStateM ε σ α} {h : α → β} (hx : Tracks f g inv x x') :
    Tracks f g inv (x >>= fun a => Pure.pure (h a)) (x' >>= fun a => Pure.pure (h a)) :=
  hx.bind fun _ => pure

theorem ite {c : Prop} [Decidable c] {x x' y y' : EStateM ε σ α} (hx : Tracks f g inv x x')
    (hy : Tracks f g inv y y') :
    Tracks f g inv (if c then x else y) (if c then x' else y') := by
  split
  · exact hx
  · exact hy

theorem modify {h : σ → σ} (hInv : ∀ s, inv s → inv (h s)) (hg : ∀ s, g (h s) = h (g s)) :
    Tracks f g inv (modify h) (modify h) := by
  intro s hs
  refine ⟨hInv s hs, ?_⟩
  change EStateM.Result.ok _ (h (g s)) = .ok _ (g (h s))
  rw [hg]

end Tracks

end MiniC
