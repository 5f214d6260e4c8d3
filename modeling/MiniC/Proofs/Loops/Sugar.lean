import MiniC.Proofs.Guarded.Generator

/-! # A `for` loop as a `while` loop

A `for` loop stands for its first statement with a loop behind it whose body ends with the update.
That is so as long as no jump goes to the end of the body: from there a `continue` goes on to the
update, which it would skip in the other loop.

The code is the same then, and so is everything that is left behind after an error.
-/
namespace MiniC
set_option autoImplicit false

open Wasm (Code)

namespace Stmt

variable {α : Type}

/-- A jump of the given kind stands in the statement, outside of its loops. -/
inductive HasJump (j : Jump) : Stmt α → Prop where
  | here {s : Span} : HasJump j (jump s j)
  | thenBody {s : Span} {cond : Expr α} {x : Stmt α} {xs ys : List (Stmt α)} (hx : x ∈ xs)
      (h : HasJump j x) : HasJump j (branch s cond xs ys)
  | elseBody {s : Span} {cond : Expr α} {y : Stmt α} {xs ys : List (Stmt α)} (hy : y ∈ ys)
      (h : HasJump j y) : HasJump j (branch s cond xs ys)

theorem jumpsAny_eq_true_iff {j : Jump} {xs : List (Stmt α)} :
    jumpsAny j xs = true ↔ ∃ x ∈ xs, x.jumps j = true := by
  induction xs with
  | nil => simp [jumpsAny]
  | cons x xs ih => simp [jumpsAny, ih]

theorem HasJump.jumps {j : Jump} {x : Stmt α} (h : HasJump j x) : x.jumps j = true := by
  induction h with
  | here => exact decide_eq_true rfl
  | thenBody hx _ ih =>
    rw [Stmt.jumps, jumpsAny_eq_true_iff.2 ⟨_, hx, ih⟩, Bool.true_or]
  | elseBody hy _ ih =>
    rw [Stmt.jumps, jumpsAny_eq_true_iff.2 ⟨_, hy, ih⟩, Bool.or_true]

mutual

theorem hasJump_of_jumps {j : Jump} (x : Stmt α) (h : x.jumps j = true) : HasJump j x := by
  cases x with
  | jump s k =>
    obtain rfl : k = j := of_decide_eq_true h
    exact .here
  | branch s cond thenBody elseBody =>
    rw [jumps, Bool.or_eq_true] at h
    rcases h with h | h
    · obtain ⟨x, hx, hJump⟩ := exists_hasJump thenBody h
      exact .thenBody hx hJump
    · obtain ⟨y, hy, hJump⟩ := exists_hasJump elseBody h
      exact .elseBody hy hJump
  | _ => cases h

theorem exists_hasJump {j : Jump} (xs : List (Stmt α)) (h : jumpsAny j xs = true) :
    ∃ x ∈ xs, HasJump j x := by
  cases xs with
  | nil => cases h
  | cons x xs =>
    rw [jumpsAny, Bool.or_eq_true] at h
    rcases h with h | h
    · exact ⟨x, List.mem_cons_self, hasJump_of_jumps x h⟩
    · obtain ⟨y, hy, hJump⟩ := exists_hasJump xs h
      exact ⟨y, List.mem_cons_of_mem x hy, hJump⟩

end

/-- The search for jumps finds none exactly if there is none. -/
theorem jumpsAny_eq_false_iff {j : Jump} {xs : List (Stmt α)} :
    jumpsAny j xs = false ↔ ∀ x ∈ xs, ¬HasJump j x := by
  constructor
  · intro h x hx hJump
    rw [jumpsAny_eq_true_iff.2 ⟨x, hx, hJump.jumps⟩] at h
    cases h
  · intro h
    rw [← Bool.not_eq_true]
    intro hJumps
    obtain ⟨x, hx, hJump⟩ := exists_hasJump xs hJumps
    exact h x hx hJump

theorem jumpsAny_append (j : Jump) (xs ys : List (Stmt α)) :
    jumpsAny j (xs ++ ys) = (jumpsAny j xs || jumpsAny j ys) := by
  induction xs with
  | nil => rfl
  | cons x xs ih => rw [List.cons_append, jumpsAny, jumpsAny, ih, Bool.or_assoc]

section

variable (globals : Globals) (labels : List Label)

theorem emitAll_append (xs ys : List (Stmt Ty)) :
    emitAll globals labels (xs ++ ys) = do
      let a ← emitAll globals labels xs
      let b ← emitAll globals labels ys
      return a ++ b := by
  induction xs with
  | nil => simp only [List.nil_append, emitAll, pure_bind, bind_pure]
  | cons x xs ih =>
    simp only [List.cons_append, emitAll, ih, bind_assoc, pure_bind, List.append_assoc]

theorem emitAll_toList (x? : Option (Stmt Ty)) :
    emitAll globals labels x?.toList = emitOption globals labels x? := by
  cases x? with
  | none => rfl
  | some x => exact emitAll_singleton x

end

end Stmt

namespace Emit

theorem emit_getD_one (globals : Globals) (t : Span) (cond : Option (Expr Ty)) :
    (cond.getD (.const .int t (.int 1))).emit globals = condition globals cond := by
  cases cond with
  | none => rfl
  | some e => rfl

/-- If there is no block around the body, the update may as well stand at its end. -/
theorem repeatLoop_false (body update cond : Emit Code) :
    repeatLoop false (do
      let b ← body
      let u ← update
      return b ++ u) (return []) cond = repeatLoop false body update cond := by
  simp only [repeatLoop, blockIf, Bool.false_eq_true, if_false, bind_assoc, pure_bind,
    List.nil_append, List.append_assoc]

end Emit

/-- How an action ends depends only on the code that it appends. -/
theorem Emits.ending_eq {x x' : Generating Unit} {y : Emit Code} {g : Generator}
    (h : Emits g.labels x y) (h' : Emits g.labels x' y) :
    Guarded.ending x g = Guarded.ending x' g := by
  have h := h g.frame g.body
  have h' := h' g.frame g.body
  rw [List.append_nil] at h h'
  cases hy : y g.frame with
  | error e s =>
    rw [hy] at h h'
    exact Eq.trans h h'.symm
  | ok code s =>
    rw [hy] at h h'
    exact Eq.trans h h'.symm

namespace Stmt

/-- The statements that a `for` loop stands for.  The loop has the span `s`, and a condition that
is left out has the span `t`. -/
def whileForm (s t : Span) (init : Option (Stmt Ty)) (cond : Option (Expr Ty))
    (update : Option (Stmt Ty)) (body : List (Stmt Ty)) : List (Stmt Ty) :=
  init.toList ++
    [loop s .whileDo (cond.getD (.const .int t (.int 1))) (body ++ update.toList)]

section

variable (globals : Globals) (s s' t : Span) (init : Option (Stmt Ty)) (cond : Option (Expr Ty))
  (update : Option (Stmt Ty)) (body : List (Stmt Ty))

theorem emit_forLoop (labels : List Label) (hBody : ∀ x ∈ body, ¬HasJump .continue_ x)
    (hUpdate : ∀ x ∈ update, ¬HasJump .continue_ x) :
    (forLoop s init cond update body).emit globals labels =
      emitAll globals labels (whileForm s' t init cond update body) := by
  have hPlain : jumpsAny .continue_ body = false := jumpsAny_eq_false_iff.2 hBody
  -- The other loop looks for jumps in the update, too.
  have hWhile : jumpsAny .continue_ (body ++ update.toList) = false := by
    rw [jumpsAny_append, hPlain, Bool.false_or, jumpsAny_eq_false_iff]
    exact fun x hx => hUpdate x (Option.mem_toList.1 hx)
  rw [whileForm, emitAll_append, emitAll_toList, emitAll_singleton, emit, emit, hPlain, hWhile,
    Emit.emit_getD_one, emitAll_append, emitAll_toList, Emit.repeatLoop_false]
  rfl

/-- A `for` loop without a `continue` of its own is lowered like the statements it stands for: from
every frame and under all labels to the same code and frame, or the same error and frame, and the
generator goes from every state to the same state, or fails with the same error. -/
theorem forLoop_lowers_as_while (hBody : ∀ x ∈ body, ¬HasJump .continue_ x)
    (hUpdate : ∀ x ∈ update, ¬HasJump .continue_ x) :
    (∀ labels frame, (forLoop s init cond update body).emit globals labels frame =
      emitAll globals labels (whileForm s' t init cond update body) frame) ∧
    ∀ g, Guarded.ending (Generating.stmt globals (forLoop s init cond update body)) g =
      Guarded.ending (Generating.block globals (whileForm s' t init cond update body)) g := by
  have hEmit (labels : List Label) : (forLoop s init cond update body).emit globals labels = _ :=
    emit_forLoop globals s s' t init cond update body labels hBody hUpdate
  constructor
  · intro labels frame
    rw [hEmit]
  · intro g
    have hFor : Emits g.labels _ _ := Emits.stmt globals (forLoop s init cond update body)
    rw [hEmit] at hFor
    exact hFor.ending_eq (Emits.block globals _)

end

/-- `n--`, for the end of a loop. -/
def countDown : Stmt Ty :=
  .expr .start (.unary .int .start .decrement .after (.var .int .start ⟨"n", .start⟩))

/-- A body with a string in it, and a `continue` that belongs to a loop of its own. -/
def waiting : List (Stmt Ty) :=
  [.loop .start .whileDo (.var .int .start ⟨"n", .start⟩) [.jump .start .continue_],
    .expr .start (.string (.pointer .char) .start "n")]

theorem forLoop_lowers_as_while_waiting :
    let init : Option (Stmt Ty) := some (.declare .start ⟨"n", .start⟩ .int none)
    (∀ x ∈ waiting, ¬HasJump .continue_ x) ∧ (∀ x ∈ some countDown, ¬HasJump .continue_ x) ∧
      (∃ code frame,
        (forLoop .start init none (some countDown) waiting).emit [] [] ⟨.empty, [], []⟩ =
          .ok code frame ∧
        emitAll [] [] (whileForm .start .start init none (some countDown) waiting)
          ⟨.empty, [], []⟩ = .ok code frame ∧
        frame.memory.data = [⟨1, [110, 0]⟩]) ∧
      Guarded.ending
          (Generating.stmt [] (forLoop .start init none (some countDown) waiting))
          ⟨⟨.empty, [], []⟩, [none], [.block]⟩ =
        Guarded.ending
          (Generating.block [] (whileForm .start .start init none (some countDown) waiting))
          ⟨⟨.empty, [], []⟩, [none], [.block]⟩ := by
  intro init
  have hBody : ∀ x ∈ waiting, ¬HasJump .continue_ x := jumpsAny_eq_false_iff.1 rfl
  have hUpdate : ∀ x ∈ some countDown, ¬HasJump .continue_ x := by
    rintro _ ⟨⟩ hJump
    cases hJump
  obtain ⟨hEmit, hGenerate⟩ := forLoop_lowers_as_while [] .start .start .start init none
    (some countDown) waiting hBody hUpdate
  exact ⟨hBody, hUpdate, ⟨_, _, rfl, (hEmit [] _).symm, rfl⟩, hGenerate _⟩

end Stmt

end MiniC
