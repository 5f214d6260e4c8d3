import MiniC.Span.Slice

/-! # Actions that may have no result

Some operations are partial: a span cannot be made of every pair of offsets, not every span can be cut
out of a source, and an assertion may fail.  An action that meets such an operation outside of its
domain has no result, neither a value nor an error.  The same holds of a loop that takes more rounds
than it was given, and of an addition that is checked and does not fit.
-/
namespace MiniC
set_option autoImplicit false

/-- Why there is no result. -/
inductive Fault where
  /-- An assertion failed, or an operation was used outside of its domain. -/
  | outside
  /-- A loop took too many rounds. -/
  | rounds
  /-- A sum did not fit the type of its summands. -/
  | overflow
  deriving DecidableEq, Repr

/-- Actions on a state that end with a value or an error, or have no result. -/
abbrev Guarded (σ ε α : Type) : Type := StateT σ (ExceptT ε (Except Fault)) α

namespace Guarded

variable {σ ε α β : Type}

/-- How the action ends when it starts in the given state. -/
def ending (x : Guarded σ ε α) (s : σ) : Except Fault (Except ε (α × σ)) := x s

/-- The action ends with a value. -/
def Gives (x : Guarded σ ε α) (s : σ) (a : α) (s' : σ) : Prop := x.ending s = .ok (.ok (a, s'))

/-- The action ends with an error. -/
def Fails (x : Guarded σ ε α) (s : σ) (e : ε) : Prop := x.ending s = .ok (.error e)

/-- The action has no result. -/
def Faults (x : Guarded σ ε α) (s : σ) (f : Fault) : Prop := x.ending s = .error f

def stuck (f : Fault) : Guarded σ ε α := fun _ => .error f

/-- The result of a partial operation. -/
def demand : Option α → Guarded σ ε α
  | some a => pure a
  | none => stuck .outside

def ensure (c : Prop) [Decidable c] : Guarded σ ε Unit := demand (if c then some () else none)

/-- What is given up if a sum does not fit. -/
def ensureFits (c : Prop) [Decidable c] : Guarded σ ε Unit := if c then pure () else stuck .overflow

/-- An action without partial operations. -/
def ofAction (x : EStateM ε σ α) : Guarded σ ε α := fun s =>
  match x s with
  | .ok a s' => .ok (.ok (a, s'))
  | .error e _ => .ok (.error e)

section

variable {x : Guarded σ ε α} {f : α → Guarded σ ε β} {s s' s'' : σ} {a : α} {b : β} {e : ε}
  {fault : Fault}

theorem ending_bind_of_gives (h : x.Gives s a s') : (x >>= f).ending s = (f a).ending s' := by
  rw [Gives, ending] at h
  change (ExceptT.bind (x s) _) = _
  rw [h]
  rfl

theorem Gives.pure (a : α) (s : σ) : Gives (Pure.pure a : Guarded σ ε α) s a s := rfl

theorem Fails.throw (e : ε) (s : σ) : Fails (throw e : Guarded σ ε α) s e := rfl

theorem Gives.bind (hx : x.Gives s a s') (hf : (f a).Gives s' b s'') :
    (x >>= f).Gives s b s'' := (ending_bind_of_gives hx).trans hf

theorem Fails.bind (hx : x.Fails s e) : (x >>= f).Fails s e := by
  rw [Fails, ending] at hx ⊢
  change (ExceptT.bind (x s) _) = _
  rw [hx]
  rfl

theorem Gives.bind_fails (hx : x.Gives s a s') (hf : (f a).Fails s' e) : (x >>= f).Fails s e :=
  (ending_bind_of_gives hx).trans hf

theorem Faults.bind (hx : x.Faults s fault) : (x >>= f).Faults s fault := by
  rw [Faults, ending] at hx ⊢
  change (ExceptT.bind (x s) _) = _
  rw [hx]
  rfl

end

theorem Gives.discard {x : Guarded σ ε α} {s s' : σ} {a : α} (hx : x.Gives s a s') :
    Gives (discard x) s () s' := by
  rw [Gives, ending] at hx ⊢
  change ExceptT.bind (x s) _ = _
  rw [hx]
  rfl

theorem Faults.discard {x : Guarded σ ε α} {s : σ} {fault : Fault} (hx : x.Faults s fault) :
    Faults (discard x) s fault := by
  rw [Faults, ending] at hx ⊢
  change ExceptT.bind (x s) _ = _
  rw [hx]
  rfl

theorem Gives.demand {o : Option α} {a : α} (h : o = some a) (s : σ) :
    Gives (demand o : Guarded σ ε α) s a s := by
  rw [h]
  rfl

theorem Gives.ensure {c : Prop} [Decidable c] (h : c) (s : σ) :
    Gives (ensure c : Guarded σ ε Unit) s () s := .demand (if_pos h) s

theorem Gives.ensureFits {c : Prop} [Decidable c] (h : c) (s : σ) :
    Gives (ensureFits c : Guarded σ ε Unit) s () s := by
  rw [Guarded.ensureFits, if_pos h]
  exact .pure () s

theorem Faults.ensureFits {c : Prop} [Decidable c] (h : ¬ c) (s : σ) :
    Faults (ensureFits c : Guarded σ ε Unit) s .overflow := by
  rw [Guarded.ensureFits, if_neg h]
  rfl

theorem Gives.get (s : σ) : Gives (MonadState.get : Guarded σ ε σ) s s s := rfl

theorem Gives.modify (f : σ → σ) (s : σ) :
    Gives (modify f : Guarded σ ε PUnit) s ⟨⟩ (f s) := rfl

theorem Gives.ofAction {x : EStateM ε σ α} {s s' : σ} {a : α} (h : x s = .ok a s') :
    (ofAction x).Gives s a s' := by
  rw [Gives, ending, Guarded.ofAction, h]

theorem Fails.ofAction {x : EStateM ε σ α} {s s' : σ} {e : ε} (h : x s = .error e s') :
    (ofAction x).Fails s e := by
  rw [Fails, ending, Guarded.ofAction, h]

/-- The value or the error, if there is one. -/
def result (x : Guarded σ ε α) (s : σ) : Except Fault (Except ε α) :=
  (x.ending s).map fun r => r.map Prod.fst

theorem Gives.result {x : Guarded σ ε α} {s s' : σ} {a : α} (h : x.Gives s a s') :
    x.result s = .ok (.ok a) := by
  rw [Guarded.result, show x.ending s = _ from h]
  rfl

theorem Fails.result {x : Guarded σ ε α} {s : σ} {e : ε} (h : x.Fails s e) :
    x.result s = .ok (.error e) := by
  rw [Guarded.result, show x.ending s = _ from h]
  rfl

theorem Faults.result {x : Guarded σ ε α} {s : σ} {fault : Fault} (h : x.Faults s fault) :
    x.result s = .error fault := by
  rw [Guarded.result, show x.ending s = _ from h]
  rfl

end Guarded

end MiniC
