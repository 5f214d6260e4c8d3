import MiniC.Text.Numeral

/-! # Types of the source language

Array elements take one byte each, whatever their type, unless they are arrays themselves; every
other value takes four bytes.
-/
namespace MiniC
set_option autoImplicit false

inductive Ty where
  | int
  | float
  | char
  | void
  | pointer (element : Ty)
  | array (element : Ty) (size : Nat)
  deriving DecidableEq, Repr

namespace Ty

def nameChars : Ty → List Char
  | int => ['i', 'n', 't']
  | float => ['f', 'l', 'o', 'a', 't']
  | char => ['c', 'h', 'a', 'r']
  | void => ['v', 'o', 'i', 'd']
  | pointer t => '*' :: t.nameChars
  | array t n => t.nameChars ++ '[' :: Text.natDigits n ++ [']']

/-- A pointer is written before the name of its element type, an array size after it. -/
def name (t : Ty) : String := String.ofList t.nameChars

def pointerTo (t : Ty) : Nat → Ty
  | 0 => t
  | n + 1 => pointer (t.pointerTo n)

/-- An array with the given sizes, the first one belonging to the outermost array. -/
def arrayOf (t : Ty) (sizes : List Nat) : Ty := sizes.foldr (fun n e => array e n) t

@[simp] theorem arrayOf_nil (t : Ty) : t.arrayOf [] = t := rfl

@[simp] theorem arrayOf_cons (t : Ty) (n : Nat) (sizes : List Nat) :
    t.arrayOf (n :: sizes) = array (t.arrayOf sizes) n := rfl

def element? : Ty → Option Ty
  | pointer t | array t _ => some t
  | _ => none

def base : Ty → Ty
  | pointer t | array t _ => t.base
  | t => t

def isArray : Ty → Bool
  | array .. => true
  | _ => false

def isIndexable : Ty → Bool
  | pointer _ | array .. => true
  | _ => false

def isIntegral : Ty → Bool
  | int | char => true
  | _ => false

def isNumeric : Ty → Bool
  | int | char | float => true
  | _ => false

def maxByteLength : Nat := 0xFFFFFFFF

/-- The length of a value in bytes; the product for nested arrays stops at `maxByteLength`. -/
def byteLength : Ty → Nat
  | array t n => if t.isArray then min (t.byteLength * n) maxByteLength else n
  | _ => 4

/-- Whether a value of type `value` may be stored where `target` is expected: the types are equal,
or both are integral, or an array stands for a pointer to its elements. -/
def isAssignable (target value : Ty) : Bool :=
  target = value || (target.isIntegral && value.isIntegral) ||
    match target, value with
    | pointer t, array v _ => t = v
    | _, _ => false

theorem isAssignable_iff (target value : Ty) :
    isAssignable target value = true ↔
      target = value ∨ (target.isIntegral = true ∧ value.isIntegral = true) ∨
        ∃ t n, target = pointer t ∧ value = array t n := by
  cases target <;> cases value <;> simp [isAssignable, isIntegral]
  exact eq_comm

end Ty

end MiniC
