import MiniC.Proofs.Execution.World
import MiniC.Proofs.Frames
import MiniC.Proofs.Validation.Algorithm

/-! # Running code

Flat code is first cut into blocks.  A block has operands of its own; a branch leaves as many blocks
as it says, and one more unless that is a loop, which starts again.  The number of passes through a
loop and the depth of calls are limited.
-/
namespace MiniC.Wasm
set_option autoImplicit false

namespace Opcode

def actInt (op : Opcode) (a b : Int32) : Act Value :=
  match op with
  | add => return .i32 (a + b)
  | sub => return .i32 (a - b)
  | mul => return .i32 (a * b)
  | divS => if b = 0 ∨ (a = .minValue ∧ b = -1) then throw .trap else return .i32 (a / b)
  | remS => if b = 0 then throw .trap else return .i32 (a % b)
  | and => return .i32 (a &&& b)
  | or => return .i32 (a ||| b)
  | xor => return .i32 (a ^^^ b)
  | eq => return .ofBool (a = b)
  | ne => return .ofBool (a ≠ b)
  | ltS => return .ofBool (a < b)
  | gtS => return .ofBool (b < a)
  | leS => return .ofBool (a ≤ b)
  | geS => return .ofBool (b ≤ a)
  | _ => throw .stuck

def actFloat (float : FloatOps) (op : Opcode) (x y : Binary32) : Act Value :=
  match op with
  | add => return .f32 (float.add x y)
  | sub => return .f32 (float.sub x y)
  | mul => return .f32 (float.mul x y)
  | div => return .f32 (float.div x y)
  | eq => return .ofBool (float.eq x y)
  | ne => return .ofBool (float.ne x y)
  | lt => return .ofBool (float.lt x y)
  | gt => return .ofBool (float.gt x y)
  | le => return .ofBool (float.le x y)
  | ge => return .ofBool (float.ge x y)
  | _ => throw .stuck

def act (float : FloatOps) : ValType → Opcode → List Value → Act Value
  | .i32, op, [.i32 a, .i32 b] => op.actInt a b
  | .i32, eqz, [.i32 a] => return .ofBool (a = 0)
  | .f32, op, [.f32 x, .f32 y] => op.actFloat float x y
  | .f32, neg, [.f32 x] => return .f32 x.neg
  | _, _, _ => throw .stuck

end Opcode

/-- What the code of a function runs with. -/
structure Runtime where
  float : FloatOps
  /-- How often a loop may be passed through. -/
  passes : Nat
  type? : String → Option FuncType
  call : String → List Value → Act (Option Value)

structure State where
  stack : List Value
  locals : List Value
  world : World
  deriving DecidableEq, Repr

/-- How code is left before its end. -/
inductive Exit where
  | branch (depth : Nat)
  | return_
  | halt (h : Halt)
  deriving DecidableEq, Repr

abbrev Exec (α : Type) : Type := EStateM Exit State α

namespace Exec

variable {α : Type}

def stuck : Exec α := throw (.halt .stuck)

def onWorld (x : Act α) : Exec α := fun σ =>
  match x σ.world with
  | .ok a w => .ok a { σ with world := w }
  | .error h w => .error (.halt h) { σ with world := w }

def push (vs : List Value) : Exec Unit := fun σ => .ok () { σ with stack := vs ++ σ.stack }

/-- The topmost operands, the top last. -/
def popMany (n : Nat) : Exec (List Value) := fun σ =>
  if n ≤ σ.stack.length then .ok (σ.stack.take n).reverse { σ with stack := σ.stack.drop n }
  else .error (.halt .stuck) σ

def pop : Exec Value := fun σ =>
  match σ.stack with
  | v :: stack => .ok v { σ with stack := stack }
  | [] => .error (.halt .stuck) σ

def popInt : Exec Int32 := fun σ =>
  match σ.stack with
  | .i32 a :: stack => .ok a { σ with stack := stack }
  | _ => .error (.halt .stuck) σ

def getLocal (n : Nat) : Exec Value := fun σ =>
  match σ.locals[n]? with
  | some v => .ok v σ
  | none => .error (.halt .stuck) σ

def setLocal (n : Nat) (v : Value) : Exec Unit := fun σ =>
  if n < σ.locals.length then .ok () { σ with locals := σ.locals.set n v }
  else .error (.halt .stuck) σ

/-- Runs the code of a block; the result is whether it was left by a branch to its label. -/
def enter (x : Exec Unit) : Exec Bool := fun σ =>
  match x { σ with stack := [] } with
  | .ok _ σ' => .ok false { σ' with stack := σ.stack }
  | .error (.branch 0) σ' => .ok true { σ' with stack := σ.stack }
  | .error (.branch (d + 1)) σ' => .error (.branch d) σ'
  | .error e σ' => .error e σ'

/-- Passes through a loop again and again as long as it is branched to. -/
def iterate (x : Exec Bool) : Nat → Exec Unit
  | 0 => throw (.halt .timeout)
  | n + 1 => do
    if ← x then iterate x n

end Exec

namespace Instr

/-- Whether the instruction neither opens nor closes a block. -/
def isPlain : Instr → Bool
  | block | loop | if_ | else_ | end_ => false
  | _ => true

/-- What an instruction does with its operands. -/
def act (R : Runtime) : Instr → List Value → Act (Option Value)
  | i32Const a, [] => return some (.i32 a)
  | f32Const x, [] => return some (.f32 x)
  | load t, [.i32 a] => some <$> World.load t a
  | store t, [.i32 a, v] => if v.type = t then (fun _ => none) <$> World.store a v else throw .stuck
  | load8S, [.i32 a] => some <$> World.loadByte a
  | store8, [.i32 a, .i32 b] => (fun _ => none) <$> World.storeByte a b
  | numeric t op, args => some <$> op.act R.float t args
  | call name, args => R.call name args
  | drop, [_] => return none
  | _, _ => throw .stuck

/-- The number of operands of an instruction. -/
def arity? (R : Runtime) : Instr → Option Nat
  | i32Const _ | f32Const _ => some 0
  | load _ | load8S | drop => some 1
  | store _ | store8 => some 2
  | numeric t op => (op.type? t).map fun ty => ty.params.length
  | call name => (R.type? name).map fun ty => ty.params.length
  | _ => none

theorem arity?_numeric {R : Runtime} {t : ValType} {op : Opcode} {ty : FuncType}
    (h : op.type? t = some ty) : (numeric t op).arity? R = some ty.params.length := by
  change (op.type? t).map _ = _
  rw [h, Option.map_some]

theorem arity?_call {R : Runtime} {name : String} {ty : FuncType} (h : R.type? name = some ty) :
    (call name).arity? R = some ty.params.length := by
  change (R.type? name).map _ = _
  rw [h, Option.map_some]

open Exec in
/-- Runs an instruction that is not the start of a block. -/
def exec (R : Runtime) : Instr → Exec Unit
  | localGet n => do push [← getLocal n]
  | localSet n => do
    let v ← pop
    setLocal n v
  | localTee n => do
    let v ← pop
    setLocal n v
    push [v]
  | br d => throw (.branch d)
  | brIf d => do
    if (← popInt) ≠ 0 then throw (.branch d)
  | return_ => throw .return_
  | unreachable => throw (.halt .trap)
  | i =>
    match i.arity? R with
    | none => stuck
    | some n => do
      let args ← popMany n
      let result ← onWorld (i.act R args)
      push result.toList

end Instr

/-- Code cut into blocks. -/
inductive Tree where
  | plain (i : Instr)
  | block (body : List Tree)
  | loop (body : List Tree)
  | cond (thenBody elseBody : List Tree)

namespace Tree

/-- The start of a block that is not closed yet. -/
inductive Opening where
  | block | loop | if_
  | else_ (thenBody : List Tree)

def Opening.close (body : List Tree) : Opening → Tree
  | block => .block body
  | loop => .loop body
  | if_ => .cond body []
  | else_ thenBody => .cond thenBody body

/-- The trees of code, `acc` being those already found in the innermost open block. -/
def parseFrom (acc : List Tree) (opens : List (Opening × List Tree)) : Code → Option (List Tree)
  | [] => if opens.isEmpty then some acc else none
  | .block :: code => parseFrom [] ((.block, acc) :: opens) code
  | .loop :: code => parseFrom [] ((.loop, acc) :: opens) code
  | .if_ :: code => parseFrom [] ((.if_, acc) :: opens) code
  | .else_ :: code =>
    match opens with
    | (.if_, before) :: opens => parseFrom [] ((.else_ acc, before) :: opens) code
    | _ => none
  | .end_ :: code =>
    match opens with
    | (opening, before) :: opens => parseFrom (before ++ [opening.close acc]) opens code
    | [] => none
  | i :: code => parseFrom (acc ++ [.plain i]) opens code

mutual

def exec (R : Runtime) : Tree → Exec Unit
  | plain i => i.exec R
  | block body => discard (Exec.enter (execAll R body))
  | loop body => Exec.iterate (Exec.enter (execAll R body)) R.passes
  | cond thenBody elseBody => do
    if (← Exec.popInt) ≠ 0 then discard (Exec.enter (execAll R thenBody))
    else discard (Exec.enter (execAll R elseBody))

def execAll (R : Runtime) : List Tree → Exec Unit
  | [] => return ()
  | t :: ts => do
    t.exec R
    execAll R ts

end

end Tree

def Code.exec (R : Runtime) (code : Code) : Exec Unit :=
  match Tree.parseFrom [] [] code with
  | some ts => Tree.execAll R ts
  | none => Exec.stuck

namespace Tree

/-- In any surroundings the code is the given trees. -/
def Parses (code : Code) (ts : List Tree) : Prop :=
  ∀ acc opens rest, parseFrom acc opens (code ++ rest) = parseFrom (acc ++ ts) opens rest

namespace Parses

variable {a b t e code : Code} {ts us : List Tree}

theorem nil : Parses [] [] := by
  intro acc opens rest
  rw [List.append_nil, List.nil_append]

theorem append (ha : Parses a ts) (hb : Parses b us) : Parses (a ++ b) (ts ++ us) := by
  intro acc opens rest
  rw [List.append_assoc, ha, hb, List.append_assoc]

theorem plain {i : Instr} (h : i.isPlain = true) :
    Parses [i] [.plain i] := by
  intro acc opens rest
  cases i <;> first | rfl | cases h

theorem block (h : Parses code ts) : Parses ([Instr.block] ++ code ++ [Instr.end_]) [.block ts] := by
  intro acc opens rest
  rw [List.append_assoc, List.append_assoc]
  change parseFrom [] ((.block, acc) :: opens) (code ++ ([Instr.end_] ++ rest)) = _
  rw [h]
  rfl

theorem loop (h : Parses code ts) : Parses ([Instr.loop] ++ code ++ [Instr.end_]) [.loop ts] := by
  intro acc opens rest
  rw [List.append_assoc, List.append_assoc]
  change parseFrom [] ((.loop, acc) :: opens) (code ++ ([Instr.end_] ++ rest)) = _
  rw [h]
  rfl

theorem if_ (h : Parses t ts) : Parses ([Instr.if_] ++ t ++ [Instr.end_]) [.cond ts []] := by
  intro acc opens rest
  rw [List.append_assoc, List.append_assoc]
  change parseFrom [] ((.if_, acc) :: opens) (t ++ ([Instr.end_] ++ rest)) = _
  rw [h]
  rfl

theorem ifElse (ht : Parses t ts) (he : Parses e us) :
    Parses ([Instr.if_] ++ t ++ ([Instr.else_] ++ e ++ [Instr.end_])) [.cond ts us] := by
  intro acc opens rest
  rw [List.append_assoc, List.append_assoc]
  change parseFrom [] ((.if_, acc) :: opens) (t ++ (([Instr.else_] ++ e ++ [Instr.end_]) ++ rest)) = _
  rw [ht, List.append_assoc, List.append_assoc]
  change parseFrom [] ((.else_ ([] ++ ts), acc) :: opens) (e ++ ([Instr.end_] ++ rest)) = _
  rw [he]
  rfl

end Parses

theorem execAll_append (R : Runtime) (ts us : List Tree) :
    execAll R (ts ++ us) = execAll R ts >>= fun _ => execAll R us := by
  induction ts with
  | nil => rfl
  | cons t ts ih =>
    simp only [List.cons_append, execAll, ih, bind_assoc]

theorem execAll_singleton (R : Runtime) (t : Tree) : execAll R [t] = t.exec R := by
  simp [execAll]

end Tree

/-- Code in which every block that is opened is closed. -/
def Balanced (code : Code) : Prop := ∃ ts, Tree.Parses code ts

namespace Balanced

variable {a b t e code : Code}

theorem nil : Balanced [] := ⟨[], .nil⟩

theorem append (ha : Balanced a) (hb : Balanced b) : Balanced (a ++ b) := by
  obtain ⟨ts, ha⟩ := ha
  obtain ⟨us, hb⟩ := hb
  exact ⟨ts ++ us, ha.append hb⟩

theorem plain {i : Instr} (h : i.isPlain = true) :
    Balanced [i] := ⟨_, .plain h⟩

theorem block (h : Balanced code) : Balanced ([Instr.block] ++ code ++ [Instr.end_]) := by
  obtain ⟨ts, h⟩ := h
  exact ⟨_, h.block⟩

theorem loop (h : Balanced code) : Balanced ([Instr.loop] ++ code ++ [Instr.end_]) := by
  obtain ⟨ts, h⟩ := h
  exact ⟨_, h.loop⟩

theorem if_ (h : Balanced t) : Balanced ([Instr.if_] ++ t ++ [Instr.end_]) := by
  obtain ⟨ts, h⟩ := h
  exact ⟨_, h.if_⟩

theorem ifElse (ht : Balanced t) (he : Balanced e) :
    Balanced ([Instr.if_] ++ t ++ ([Instr.else_] ++ e ++ [Instr.end_])) := by
  obtain ⟨ts, ht⟩ := ht
  obtain ⟨us, he⟩ := he
  exact ⟨_, ht.ifElse he⟩

end Balanced

namespace Code

variable {R : Runtime} {a b t e code : Code}

theorem exec_of_parses {ts : List Tree} (h : Tree.Parses code ts) :
    exec R code = Tree.execAll R ts := by
  have hParse := h [] [] []
  rw [List.append_nil, List.nil_append] at hParse
  rw [exec, hParse]
  rfl

theorem exec_nil : exec R [] = pure () := rfl

theorem exec_append (ha : Balanced a) (hb : Balanced b) :
    exec R (a ++ b) = exec R a >>= fun _ => exec R b := by
  obtain ⟨ts, ha⟩ := ha
  obtain ⟨us, hb⟩ := hb
  rw [exec_of_parses (ha.append hb), exec_of_parses ha, exec_of_parses hb, Tree.execAll_append]

theorem exec_plain {i : Instr} (h : i.isPlain = true) :
    exec R [i] = i.exec R := by
  rw [exec_of_parses (.plain h), Tree.execAll_singleton, Tree.exec]

theorem exec_block (h : Balanced code) :
    exec R ([Instr.block] ++ code ++ [Instr.end_]) = discard (Exec.enter (exec R code)) := by
  obtain ⟨ts, h⟩ := h
  rw [exec_of_parses h.block, exec_of_parses h, Tree.execAll_singleton, Tree.exec]

theorem exec_loop (h : Balanced code) :
    exec R ([Instr.loop] ++ code ++ [Instr.end_]) =
      Exec.iterate (Exec.enter (exec R code)) R.passes := by
  obtain ⟨ts, h⟩ := h
  rw [exec_of_parses h.loop, exec_of_parses h, Tree.execAll_singleton, Tree.exec]

theorem exec_if (h : Balanced t) :
    exec R ([Instr.if_] ++ t ++ [Instr.end_]) = Exec.popInt >>= fun k =>
      if k ≠ 0 then discard (Exec.enter (exec R t)) else discard (Exec.enter (exec R [])) := by
  obtain ⟨ts, h⟩ := h
  rw [exec_of_parses h.if_, exec_of_parses h, Tree.execAll_singleton, Tree.exec, exec_nil,
    Tree.execAll]

theorem exec_ifElse (ht : Balanced t) (he : Balanced e) :
    exec R ([Instr.if_] ++ t ++ ([Instr.else_] ++ e ++ [Instr.end_])) = Exec.popInt >>= fun k =>
      if k ≠ 0 then discard (Exec.enter (exec R t)) else discard (Exec.enter (exec R e)) := by
  obtain ⟨ts, ht⟩ := ht
  obtain ⟨us, he⟩ := he
  rw [exec_of_parses (ht.ifElse he), exec_of_parses ht, exec_of_parses he, Tree.execAll_singleton,
    Tree.exec]

end Code

namespace Instr

variable {R : Runtime}

theorem isPlain_of_arity {i : Instr} {n : Nat} (h : i.arity? R = some n) : i.isPlain = true := by
  cases i <;> first | rfl | cases h

theorem exec_of_arity {i : Instr} {n : Nat} (h : i.arity? R = some n) :
    i.exec R = Exec.popMany n >>= fun args => Exec.onWorld (i.act R args) >>= fun r =>
      Exec.push r.toList := by
  cases i <;> first | (simp only [exec, h]; done) | cases h

end Instr

namespace Exec

theorem popMany_eq {σ : State} (args : List Value) {stack : List Value}
    (h : σ.stack = args.reverse ++ stack) :
    popMany args.length σ = .ok args { σ with stack := stack } := by
  simp [popMany, h]

theorem pop_eq {σ : State} {v : Value} {stack : List Value} (h : σ.stack = v :: stack) :
    pop σ = .ok v { σ with stack := stack } := by
  rw [pop, h]

theorem popInt_eq {σ : State} {a : Int32} {stack : List Value} (h : σ.stack = .i32 a :: stack) :
    popInt σ = .ok a { σ with stack := stack } := by
  rw [popInt, h]

theorem getLocal_eq {σ : State} {n : Nat} {v : Value} (h : σ.locals[n]? = some v) :
    getLocal n σ = .ok v σ := by
  rw [getLocal, h]

theorem setLocal_eq {σ : State} {n : Nat} (h : n < σ.locals.length) (v : Value) :
    setLocal n v σ = .ok () { σ with locals := σ.locals.set n v } := by
  rw [setLocal, if_pos h]

end Exec

namespace Code

variable {R : Runtime} {σ : State} {n : Nat} {v : Value} {stack : List Value}

theorem exec_ok {i : Instr} (args : List Value) {r : Option Value} {w : World}
    (hArity : i.arity? R = some args.length) (hAct : i.act R args σ.world = .ok r w)
    (h : σ.stack = args.reverse ++ stack) :
    exec R [i] σ = .ok () { σ with stack := r.toList ++ stack, world := w } := by
  rw [exec_plain (Instr.isPlain_of_arity hArity), Instr.exec_of_arity hArity,
    Action.bind_of_ok (Exec.popMany_eq args h)]
  have hWorld : Exec.onWorld (i.act R args) { σ with stack := stack } =
      .ok r { σ with stack := stack, world := w } := by
    rw [Exec.onWorld, hAct]
  rw [Action.bind_of_ok hWorld]
  rfl

theorem exec_error {i : Instr} (args : List Value) {h : Halt} {w : World}
    (hArity : i.arity? R = some args.length) (hAct : i.act R args σ.world = .error h w)
    (hStack : σ.stack = args.reverse ++ stack) :
    exec R [i] σ = .error (.halt h) { σ with stack := stack, world := w } := by
  rw [exec_plain (Instr.isPlain_of_arity hArity), Instr.exec_of_arity hArity,
    Action.bind_of_ok (Exec.popMany_eq args hStack)]
  have hWorld : Exec.onWorld (i.act R args) { σ with stack := stack } =
      .error (.halt h) { σ with stack := stack, world := w } := by
    rw [Exec.onWorld, hAct]
  rw [Action.bind_of_error hWorld]

/-- An instruction whose result does not depend on the world. -/
theorem exec_pure {i : Instr} (args : List Value) {r : Option Value}
    (hArity : i.arity? R = some args.length) (hAct : i.act R args = pure r)
    (h : σ.stack = args.reverse ++ stack) :
    exec R [i] σ = .ok () { σ with stack := r.toList ++ stack } :=
  exec_ok args hArity (by rw [hAct]; rfl) h

theorem exec_i32Const (R : Runtime) (a : Int32) (σ : State) :
    exec R [.i32Const a] σ = .ok () { σ with stack := .i32 a :: σ.stack } :=
  exec_pure (r := some (.i32 a)) [] rfl rfl rfl

theorem exec_pushAddress (R : Runtime) (n : Nat) (σ : State) :
    exec R [pushAddress n] σ = .ok () { σ with stack := .i32 (wordOf n) :: σ.stack } :=
  exec_i32Const R (wordOf n) σ

theorem exec_localGet (h : σ.locals[n]? = some v) :
    exec R [.localGet n] σ = .ok () { σ with stack := v :: σ.stack } := by
  rw [exec_plain rfl, Instr.exec, Action.bind_of_ok (Exec.getLocal_eq h)]
  rfl

theorem exec_localSet (h : σ.stack = v :: stack) (hn : n < σ.locals.length) :
    exec R [.localSet n] σ = .ok () { σ with stack := stack, locals := σ.locals.set n v } := by
  have hSet := Exec.setLocal_eq (σ := { σ with stack := stack }) hn v
  rw [exec_plain rfl, Instr.exec, Action.bind_of_ok (Exec.pop_eq h), hSet]

theorem exec_localTee (h : σ.stack = v :: stack) (hn : n < σ.locals.length) :
    exec R [.localTee n] σ = .ok () { σ with locals := σ.locals.set n v } := by
  have hSet := Exec.setLocal_eq (σ := { σ with stack := stack }) hn v
  rw [exec_plain rfl, Instr.exec, Action.bind_of_ok (Exec.pop_eq h), Action.bind_of_ok hSet,
    Exec.push, h]
  rfl

end Code

/-- Calls a function; a run that reaches the end of the body leaves the result there. -/
def Function.invoke (R : Runtime) (f : Function) (args : List Value) : Act (Option Value) :=
  fun w =>
  let finish (σ : State) : EStateM.Result Halt World (Option Value) :=
    match f.result, σ.stack with
    | none, _ => .ok none σ.world
    | some t, v :: _ => if v.type = t then .ok (some v) σ.world else .error .stuck σ.world
    | some _, [] => .error .stuck σ.world
  match Code.exec R f.body ⟨[], args ++ f.locals.map Value.zero, w⟩ with
  | .ok _ σ | .error .return_ σ | .error (.branch 0) σ => finish σ
  | .error (.branch (_ + 1)) σ => .error .stuck σ.world
  | .error (.halt h) σ => .error h σ.world

/-- Calls a function of the host or of the module. -/
def Module.call (m : Module) (float : FloatOps) : Nat → String → List Value → Act (Option Value)
  | 0, name, args =>
    if (hostType? name).isSome then World.record name args else throw .timeout
  | n + 1, name, args =>
    if (hostType? name).isSome then World.record name args
    else
      match m.function? name with
      | none => throw .stuck
      | some f => f.invoke ⟨float, n, m.type?, m.call float n⟩ args

end MiniC.Wasm
