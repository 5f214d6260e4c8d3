import MiniC.Code.Module

/-! # Values and the world outside

A run can change the linear memory and call the functions of the host; both are the world.  What
arithmetic on floats gives is left open, except that changing the sign flips the sign bit.
-/
namespace MiniC
set_option autoImplicit false

open Wasm (ValType)

inductive Value where
  | i32 (a : Int32)
  | f32 (x : Binary32)
  deriving DecidableEq, Repr

namespace Value

def type : Value → ValType
  | i32 _ => .i32
  | f32 _ => .f32

def zero : ValType → Value
  | .i32 => i32 0
  | .f32 => f32 ⟨0⟩

def ofBool (b : Bool) : Value := i32 (if b then 1 else 0)

def toWord : Value → UInt32
  | i32 a => a.toUInt32
  | f32 x => x.bits

def ofWord : ValType → UInt32 → Value
  | .i32, w => i32 w.toInt32
  | .f32, w => f32 ⟨w⟩

@[simp] theorem type_zero (t : ValType) : (zero t).type = t := by
  cases t <;> rfl

@[simp] theorem type_ofWord (t : ValType) (w : UInt32) : (ofWord t w).type = t := by
  cases t <;> rfl

theorem eq_i32_of_type {v : Value} (h : v.type = .i32) : ∃ a, v = i32 a := by
  cases v with
  | i32 a => exact ⟨a, rfl⟩
  | f32 x => cases h

end Value

structure FloatOps where
  add : Binary32 → Binary32 → Binary32
  sub : Binary32 → Binary32 → Binary32
  mul : Binary32 → Binary32 → Binary32
  div : Binary32 → Binary32 → Binary32
  eq : Binary32 → Binary32 → Bool
  ne : Binary32 → Binary32 → Bool
  lt : Binary32 → Binary32 → Bool
  gt : Binary32 → Binary32 → Bool
  le : Binary32 → Binary32 → Bool
  ge : Binary32 → Binary32 → Bool

structure World where
  memory : List UInt8
  /-- The calls to the host, the latest last. -/
  calls : List (String × List Value)
  deriving DecidableEq, Repr

/-- Why a run ends without a result.  A run is stuck if it does what a valid one never does. -/
inductive Halt where
  | trap | timeout | stuck
  deriving DecidableEq, Repr

abbrev Act (α : Type) : Type := EStateM Halt World α

namespace World

/-- The bytes at an address, unless they are outside of the memory. -/
def read (a : Int32) (len : Nat) : Act (List UInt8) := fun w =>
  let start := a.toUInt32.toNat
  if start + len ≤ w.memory.length then .ok ((w.memory.drop start).take len) w else .error .trap w

def write (a : Int32) (bytes : List UInt8) : Act Unit := fun w =>
  let start := a.toUInt32.toNat
  let stop := start + bytes.length
  if stop ≤ w.memory.length then
    .ok () { w with memory := w.memory.take start ++ bytes ++ w.memory.drop stop }
  else .error .trap w

/-- The word of the given bytes, the lowest first. -/
def wordOfBytes (bytes : List UInt8) : UInt32 :=
  bytes.foldr (fun b w => b.toUInt32 ||| w <<< 8) 0

def load (t : ValType) (a : Int32) : Act Value := do
  let bytes ← read a 4
  return .ofWord t (wordOfBytes bytes)

def store (a : Int32) (v : Value) : Act Unit := write a (wordBytes v.toWord)

/-- A byte with its sign extended. -/
def loadByte (a : Int32) : Act Value := do
  let bytes ← read a 1
  return .i32 (bytes.headD 0).toInt8.toInt32

/-- Keeps the lowest eight bits. -/
def storeByte (a b : Int32) : Act Unit := write a [b.toUInt32.toUInt8]

/-- A call to a function of the host. -/
def record (name : String) (args : List Value) : Act (Option Value) := fun w =>
  .ok none { w with calls := w.calls ++ [(name, args)] }

end World

/-- The action is never stuck, and its results have the given property. -/
def Safe {α : Type} (x : Act α) (P : α → Prop) : Prop :=
  ∀ w, match x w with
    | .ok a _ => P a
    | .error h _ => h ≠ .stuck

namespace Safe

variable {α β : Type} {P Q : α → Prop}

theorem pure {a : α} (h : P a) : Safe (Pure.pure a) P := fun _ => h

theorem trap : Safe (throw .trap : Act α) P := fun _ => (by decide : Halt.trap ≠ .stuck)

theorem bind {x : Act α} {f : α → Act β} {R : β → Prop} (hx : Safe x P)
    (hf : ∀ a, P a → Safe (f a) R) : Safe (x >>= f) R := by
  intro w
  have hw := hx w
  change match EStateM.bind x f w with
    | .ok b _ => R b
    | .error h _ => h ≠ .stuck
  rw [EStateM.bind]
  cases hRun : x w with
  | ok a w' =>
    rw [hRun] at hw
    exact hf a hw w'
  | error e w' =>
    rw [hRun] at hw
    exact hw

end Safe

namespace World

theorem read_safe (a : Int32) (len : Nat) : Safe (read a len) fun _ => True := by
  intro w
  simp only [read]
  by_cases h : a.toUInt32.toNat + len ≤ w.memory.length <;> simp [h]

theorem write_safe (a : Int32) (bytes : List UInt8) : Safe (write a bytes) fun _ => True := by
  intro w
  simp only [write]
  by_cases h : a.toUInt32.toNat + bytes.length ≤ w.memory.length <;> simp [h]

theorem load_safe (t : ValType) (a : Int32) : Safe (load t a) fun v => v.type = t :=
  (read_safe a 4).bind fun _ _ => .pure (Value.type_ofWord t _)

theorem loadByte_safe (a : Int32) : Safe (loadByte a) fun v => v.type = .i32 :=
  (read_safe a 1).bind fun _ _ => .pure rfl

end World

end MiniC
