import MiniC.Proofs.Layout

/-! # How lowering may end

A run that lowers a part of a program ends with a value or with an error.  What is said here of both
at once is put together along the steps of the run; the actions on memory and on frames can only run
out of memory, find an element that is too wide, or miss a name.
-/
namespace MiniC
set_option autoImplicit false

/-- Every run ends with a value that satisfies `Q`, or with an error that is not one of the `bad`
ones. -/
def Ends {σ α : Type} (bad : CodeError → Prop) (Q : α → Prop)
    (x : EStateM (Located CodeError) σ α) : Prop :=
  ∀ s, match x s with
    | .ok a _ => Q a
    | .error e _ => ¬ bad e.value

namespace Ends

variable {σ α β : Type} {bad : CodeError → Prop} {P Q : α → Prop} {R : β → Prop}

theorem ok {x : EStateM (Located CodeError) σ α} (h : Ends bad Q x) {s s' : σ} {a : α}
    (hRun : x s = .ok a s') : Q a := by
  have hEnd := h s
  rwa [hRun] at hEnd

theorem error {x : EStateM (Located CodeError) σ α} (h : Ends bad Q x) {s s' : σ}
    {e : Located CodeError} (hRun : x s = .error e s') : ¬ bad e.value := by
  have hEnd := h s
  rwa [hRun] at hEnd

theorem pure {a : α} (h : Q a) :
    Ends bad Q (Pure.pure a : EStateM (Located CodeError) σ α) := fun _ => h

theorem throw {e : Located CodeError} (h : ¬ bad e.value) :
    Ends bad Q (MonadExcept.throw e : EStateM (Located CodeError) σ α) := fun _ => h

theorem modify {f : σ → σ} :
    Ends bad (fun _ => True) (modify f : EStateM (Located CodeError) σ PUnit) := fun _ => trivial

theorem bind {x : EStateM (Located CodeError) σ α} {f : α → EStateM (Located CodeError) σ β}
    (hx : Ends bad P x) (hf : ∀ a, P a → Ends bad R (f a)) : Ends bad R (x >>= f) := by
  intro s
  cases hRun : x s with
  | ok a s' =>
    rw [Action.bind_of_ok hRun]
    exact hf a (hx.ok hRun) s'
  | error e s' =>
    rw [Action.bind_of_error hRun]
    exact hx.error hRun

theorem map {x : EStateM (Located CodeError) σ α} {f : α → β} (hx : Ends bad P x)
    (hf : ∀ a, P a → R (f a)) : Ends bad R (x >>= fun a => Pure.pure (f a)) :=
  hx.bind fun a ha => pure (hf a ha)

theorem inMemory {x : Alloc α} (hx : Ends bad Q x) : Ends bad Q (Emit.inMemory x) := by
  intro s
  rw [Emit.inMemory]
  cases hRun : x s.memory with
  | ok a m => exact hx.ok hRun
  | error e m => exact hx.error hRun

theorem newSlot (ty : Wasm.ValType) : Ends bad (fun _ => True) (Emit.newSlot ty) :=
  fun _ => trivial

theorem declare (x : Ident) (ty : Ty) : Ends bad (fun _ => True) (Emit.declare x ty) :=
  fun _ => trivial

theorem resolve (h : ∀ n, ¬ bad (.unresolved n)) (globals : Globals) (x : Ident) :
    Ends bad (fun _ => True) (Emit.resolve globals x) := by
  intro s
  rw [Emit.resolve_eq]
  cases s.place? globals x.name with
  | some p => trivial
  | none => exact h x.name

section

variable (hMemory : ∀ cursor len, ¬ bad (.outOfMemory cursor len))

include hMemory

theorem alloc (len : Nat) (span : Span) : Ends bad (fun _ => True) (Memory.alloc len span) := by
  intro m
  by_cases hRoom : m.cursor + len ≤ Wasm.pageSize
  · rw [Memory.alloc, if_pos hRoom]
    trivial
  · rw [Memory.alloc, if_neg hRoom]
    exact hMemory m.cursor len

theorem placeString (text : String) (span : Span) :
    Ends bad (fun _ => True) (Memory.placeString text span) := by
  intro m
  rw [Memory.placeString, Memory.get_bind]
  cases List.lookup span.lo m.strings with
  | some address => trivial
  | none =>
    exact ((alloc hMemory _ span).bind fun _ _ => modify.bind fun _ _ => modify.bind fun _ _ =>
      pure trivial) m

theorem reserveArray (hElement : ¬ bad (.unsupportedElement .float)) (ty : Ty) (span : Span) :
    Ends bad (fun _ => True) (Memory.reserveArray ty span) := by
  rw [Memory.reserveArray]
  split
  · exact throw hElement
  · exact alloc hMemory _ _

end

end Ends

end MiniC
