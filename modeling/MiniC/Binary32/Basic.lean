/-! # Single-precision numbers

A number is its 32-bit interchange pattern: a sign bit, eight exponent bits and twenty-three
fraction bits.  Nothing is computed with such numbers here beyond changing the sign, so two
patterns of NaN stay apart.
-/
namespace MiniC
set_option autoImplicit false

structure Binary32 where
  bits : UInt32
  deriving DecidableEq, Repr

namespace Binary32

def ofNat (n : Nat) : Binary32 := ⟨UInt32.ofNat n⟩

def toNat (x : Binary32) : Nat := x.bits.toNat

theorem toNat_lt (x : Binary32) : x.toNat < 0x100000000 := x.bits.toNat_lt

def isNegative (x : Binary32) : Bool := decide (0x80000000 ≤ x.toNat)

def fractionCount : Nat := 0x800000

def exponentField (x : Binary32) : Nat := x.toNat / fractionCount % 256

def fractionField (x : Binary32) : Nat := x.toNat % fractionCount

def isNaN (x : Binary32) : Bool := x.exponentField == 255 && x.fractionField != 0

def isInfinite (x : Binary32) : Bool := x.exponentField == 255 && x.fractionField == 0

/-- The integer `m` in the magnitude `m * 2 ^ q` of a finite number. -/
def significand (x : Binary32) : Nat :=
  if x.exponentField = 0 then x.fractionField else fractionCount + x.fractionField

/-- The exponent `q` in the magnitude `m * 2 ^ q` of a finite number. -/
def scale (x : Binary32) : Int := (max x.exponentField 1 : Nat) - 150

/-- Flips the sign bit, of NaN too. -/
def neg (x : Binary32) : Binary32 := ⟨x.bits ^^^ 0x80000000⟩

def one : Binary32 := ⟨0x3F800000⟩

def infinity : Binary32 := ⟨0x7F800000⟩

end Binary32

end MiniC
