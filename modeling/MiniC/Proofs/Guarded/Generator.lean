import MiniC.Proofs.Guarded.Basic
import MiniC.Proofs.Structure.Slots
import MiniC.Wasm.Text

/-! # Generating code into a buffer

The generator appends the code of a function to a buffer and keeps a stack of the blocks that are
open.  Opening a block takes an instruction that opens one, and the slots of a function are cut after
its parameters; otherwise there is no result.  The generator always has one, which is the code of the
function.
-/
namespace MiniC
set_option autoImplicit false

open Guarded (demand ensure stuck Gives Fails)
open Wasm (Code Instr)

/-- A function in the making. -/
structure Generator where
  frame : Frame
  /-- The open blocks, innermost first. -/
  labels : List Label
  body : Code

abbrev Generating (α : Type) : Type := Guarded Generator (Located CodeError) α

namespace Generating

variable {α : Type}

def inFrame (x : Emit α) : Generating α := fun g =>
  match x g.frame with
  | .ok a s => .ok (.ok (a, { g with frame := s }))
  | .error e _ => .ok (.error e)

def push (code : Code) : Generating Unit := modify fun g => { g with body := g.body ++ code }

/-- Appends code that has no blocks of its own. -/
def plain (x : Emit Code) : Generating Unit := do
  let code ← inFrame x
  push code

def openBlock (i : Instr) (label : Label) : Generating Unit := do
  ensure (i.opensBlock = true)
  push [i]
  modify fun g => { g with labels := label :: g.labels }

def closeBlock : Generating Unit := do
  modify fun g => { g with labels := g.labels.tail }
  push [.end_]

/-- A loop that tests last. -/
def repeatLoop (cond : Emit Code) (wrapped : Bool) (body update : Generating Unit) :
    Generating Unit := do
  openBlock .loop none
  if wrapped then
    openBlock .block (some .continue_)
    body
    closeBlock
  else body
  update
  plain cond
  push [.brIf 0]
  closeBlock

/-- A loop that tests first. -/
def whileLoop (cond : Emit Code) (wrapped : Bool) (body update : Generating Unit) :
    Generating Unit := do
  plain cond
  openBlock .if_ (some .break_)
  repeatLoop cond wrapped body update
  closeBlock

variable (globals : Globals)

mutual

def stmt : Stmt Ty → Generating Unit
  | .ret _ value => do
    plain (Emit.optionExpr globals value)
    push [.return_]
  | .assign _ target value => plain (Emit.assign globals target value)
  | .declare s name ty init =>
    if ty.isArray then plain (Emit.declareArray s name ty init)
    else plain (Emit.declareScalar globals name ty init)
  | .store _ base offset value => do
    plain (Emit.elementAddress base (base.emit globals) (offset.emit globals))
    plain (value.emit globals)
    push [.store8]
  | .branch _ cond thenBody elseBody => do
    plain (cond.emit globals)
    openBlock .if_ none
    block thenBody
    if elseBody.isEmpty then pure ()
    else
      push [.else_]
      block elseBody
    closeBlock
  | .loop _ .whileDo cond body =>
    whileLoop (cond.emit globals) (Stmt.jumpsAny .continue_ body) (block body) (pure ())
  | .loop _ .doWhile cond body => do
    let wrapped := Stmt.jumpsAny .continue_ body
    if Stmt.jumpsAny .break_ body then
      openBlock .block (some .break_)
      repeatLoop (cond.emit globals) wrapped (block body) (pure ())
      closeBlock
    else repeatLoop (cond.emit globals) wrapped (block body) (pure ())
  | .forLoop _ init cond update body => do
    optionStmt init
    whileLoop (Emit.condition globals cond) (Stmt.jumpsAny .continue_ body) (block body)
      (optionStmt update)
  | .jump s j => do
    let g ← get
    plain (Emit.jump g.labels s j)
  | .expr _ value => plain (Emit.effect globals value)

def block : List (Stmt Ty) → Generating Unit
  | [] => pure ()
  | x :: xs => do
    stmt x
    block xs

def optionStmt : Option (Stmt Ty) → Generating Unit
  | none => pure ()
  | some x => stmt x

end

def function (f : Function Ty) : Generating Wasm.Function := do
  inFrame (f.params.forM fun p => discard (Emit.declare p.name p.ty))
  block globals f.body
  let body ← inFrame (f.close (← get).body)
  let slots := (← get).frame.slots
  ensure (f.params.length ≤ slots.length)
  return {
    name := f.name.name
    params := slots.take f.params.length
    result := if f.returnTy = .void then none else some f.returnTy.valType
    locals := slots.drop f.params.length
    body := body }

end Generating

namespace Builder

end Builder

namespace Generating

theorem inFrame_gives {α : Type} {x : Emit α} {frame s : Frame} {a : α} (h : x frame = .ok a s)
    (labels : List Label) (body : Code) :
    Gives (inFrame x) ⟨frame, labels, body⟩ a ⟨s, labels, body⟩ := by
  rw [Gives, Guarded.ending, inFrame, h]

theorem inFrame_fails {α : Type} {x : Emit α} {frame s : Frame} {e : Located CodeError}
    (h : x frame = .error e s) (labels : List Label) (body : Code) :
    Fails (inFrame x) ⟨frame, labels, body⟩ e := by
  rw [Fails, Guarded.ending, inFrame, h]

end Generating

/-- With the blocks `now` open and `front` behind it, the action goes on to what `y` emits and leaves
the blocks `after` open. -/
def Produces (after now : List Label) (front : Code) (x : Generating Unit) (y : Emit Code) : Prop :=
  ∀ frame body,
    match y frame with
    | .ok code s => x.Gives ⟨frame, now, body ++ front⟩ () ⟨s, after, body ++ code⟩
    | .error e _ => x.Fails ⟨frame, now, body ++ front⟩ e

/-- The action appends what `y` emits. -/
abbrev Emits (labels : List Label) (x : Generating Unit) (y : Emit Code) : Prop :=
  Produces labels labels [] x y

namespace Produces

variable {after now : List Label} {front : Code} {x x' : Generating Unit} {y : Emit Code}

theorem done {code : Code} (h : front = code) : Produces now now front (pure ()) (pure code) := by
  intro frame body
  rw [h]
  exact .pure _ _

/-- An action at the end. -/
theorem last (h : Produces after now front (x >>= fun _ => pure ()) y) :
    Produces after now front x y := by
  rwa [show (x >>= fun _ => pure ()) = x from bind_pure x] at h

theorem emits {z : Emit Code} {g : Code → Emit Code} (h : Emits now x z)
    (hNext : ∀ code, Produces after now (front ++ code) x' (g code)) :
    Produces after now front (x >>= fun _ => x') (z >>= g) := by
  intro frame body
  have h := h frame (body ++ front)
  rw [List.append_nil] at h
  cases hz : z frame with
  | error e s =>
    rw [hz] at h
    rw [Action.bind_of_error hz]
    exact h.bind
  | ok code s =>
    rw [hz] at h
    have h : x.Gives _ () ⟨s, now, body ++ front ++ code⟩ := h
    rw [List.append_assoc] at h
    rw [Action.bind_of_ok hz]
    have hNext := hNext code s body
    cases hg : g code s with
    | error e s' =>
      rw [hg] at hNext
      exact h.bind_fails hNext
    | ok code' s' =>
      rw [hg] at hNext
      exact h.bind hNext

/-- An action that always has a result and leaves the frame as it is. -/
theorem step {now' : List Label} {front' : Code}
    (hx : ∀ frame body, x.Gives ⟨frame, now, body ++ front⟩ () ⟨frame, now', body ++ front'⟩)
    (h : Produces after now' front' x' y) : Produces after now front (x >>= fun _ => x') y := by
  intro frame body
  have h := h frame body
  cases hy : y frame with
  | error e s =>
    rw [hy] at h
    exact (hx frame body).bind_fails h
  | ok code s =>
    rw [hy] at h
    exact (hx frame body).bind h

theorem push {code : Code} (h : Produces after now (front ++ code) x y) :
    Produces after now front (Generating.push code >>= fun _ => x) y := by
  refine step (fun frame body => ?_) h
  rw [← List.append_assoc]
  exact .modify _ _

theorem openBlock {i : Instr} {label : Label} (hi : i.opensBlock = true)
    (h : Produces after (label :: now) (front ++ [i]) x y) :
    Produces after now front (Generating.openBlock i label >>= fun _ => x) y := by
  refine step (fun frame body => ?_) h
  rw [← List.append_assoc]
  exact (Gives.ensure hi _).bind ((Gives.modify _ _).bind (.modify _ _))

theorem closeBlock {label : Label} (h : Produces after now (front ++ [.end_]) x y) :
    Produces after (label :: now) front (Generating.closeBlock >>= fun _ => x) y := by
  refine step (fun frame body => ?_) h
  rw [← List.append_assoc]
  exact (Gives.modify _ _).bind (.modify _ _)

end Produces

namespace Emits

variable {labels : List Label}

theorem plain (y : Emit Code) : Emits labels (Generating.plain y) y := by
  intro frame body
  rw [List.append_nil]
  cases hy : y frame with
  | error e s => exact (Generating.inFrame_fails hy labels body).bind
  | ok code s => exact (Generating.inFrame_gives hy labels body).bind (.modify _ _)

theorem nothing : Emits labels (pure ()) (pure []) := .done rfl

theorem repeatLoop {wrapped : Bool} {body update : Generating Unit} {b u : Emit Code}
    (cond : Emit Code) (hBody : Emits (Emit.bodyLabels wrapped labels) body b)
    (hUpdate : Emits (none :: labels) update u) :
    Emits labels (Generating.repeatLoop cond wrapped body update)
      (Emit.repeatLoop wrapped b u cond) := by
  refine .openBlock rfl ?_
  cases wrapped with
  | true =>
    refine .openBlock rfl (hBody.emits fun bCode => .closeBlock ?_)
    refine hUpdate.emits fun uCode => (plain cond).emits fun cCode => ?_
    refine .push (.last (.closeBlock (.done ?_)))
    simp [Emit.blockIf]
  | false =>
    refine hBody.emits fun bCode => hUpdate.emits fun uCode => (plain cond).emits fun cCode => ?_
    refine .push (.last (.closeBlock (.done ?_)))
    simp [Emit.blockIf]

theorem whileLoop {wrapped : Bool} {body update : Generating Unit} {b u : Emit Code}
    (cond : Emit Code)
    (hBody : Emits (Emit.bodyLabels wrapped (some .break_ :: labels)) body b)
    (hUpdate : Emits (none :: some .break_ :: labels) update u) :
    Emits labels (Generating.whileLoop cond wrapped body update)
      (Emit.guarded cond (Emit.repeatLoop wrapped b u cond)) := by
  refine (plain cond).emits fun code => .openBlock rfl ?_
  refine (repeatLoop cond hBody hUpdate).emits fun inner => ?_
  exact .last (.closeBlock (.done (by simp)))

variable (globals : Globals)

mutual

/-- The generator appends the code of a statement. -/
theorem stmt (x : Stmt Ty) {labels : List Label} :
    Emits labels (Generating.stmt globals x) (x.emit globals labels) := by
  cases x with
  | ret s value =>
    exact (plain _).emits fun code => .last (.push (.done (by simp)))
  | assign s target value => exact plain _
  | declare s name ty init =>
    rw [Generating.stmt, Stmt.emit]
    split
    · exact plain _
    · exact plain _
  | store s base offset value =>
    refine (plain _).emits fun address => (plain _).emits fun code => ?_
    exact .last (.push (.done (by simp)))
  | branch s cond thenBody elseBody =>
    rw [Generating.stmt, Stmt.emit]
    refine (plain _).emits fun code => .openBlock rfl ((block thenBody).emits fun thenCode => ?_)
    cases elseBody with
    | nil => exact .last (.closeBlock (.done (by simp)))
    | cons x xs =>
      refine .push ((block (x :: xs)).emits fun elseCode => ?_)
      exact .last (.closeBlock (.done (by simp)))
  | loop s kind cond body =>
    cases kind with
    | whileDo => exact whileLoop _ (block body) nothing
    | doWhile =>
      rw [Generating.stmt, Stmt.emit]
      have hBlock (labels : List Label) :
        Emits (Emit.bodyLabels (Stmt.jumpsAny .continue_ body) labels)
          (Generating.block globals body) _ := block body
      cases Stmt.jumpsAny .break_ body with
      | true =>
        refine .openBlock rfl ((repeatLoop _ (hBlock _) nothing).emits fun code => ?_)
        exact .last (.closeBlock (.done (by simp [Emit.blockIf])))
      | false =>
        refine .last ((repeatLoop _ (hBlock _) nothing).emits fun code => .done ?_)
        simp [Emit.blockIf]
  | forLoop s init cond update body =>
    rw [Generating.stmt, Stmt.emit]
    refine (optionStmt init).emits fun start => ?_
    exact .last ((whileLoop _ (block body) (optionStmt update)).emits fun code => .done (by simp))
  | jump s j =>
    intro frame body
    exact plain _ frame body
  | expr s value => exact plain _

theorem block (xs : List (Stmt Ty)) {labels : List Label} :
    Emits labels (Generating.block globals xs) (Stmt.emitAll globals labels xs) := by
  cases xs with
  | nil => exact nothing
  | cons x xs =>
    rw [Generating.block, Stmt.emitAll]
    refine (stmt x).emits fun code => .last ((block xs).emits fun rest => .done (by simp))

theorem optionStmt (x? : Option (Stmt Ty)) {labels : List Label} :
    Emits labels (Generating.optionStmt globals x?) (Stmt.emitOption globals labels x?) := by
  cases x? with
  | none => exact nothing
  | some x => exact stmt x

end

end Emits

namespace Generating

end Generating

namespace Builder

end Builder

end MiniC
