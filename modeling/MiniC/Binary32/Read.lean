import MiniC.Binary32.Basic

/-! # Reading decimals as single-precision numbers

A decimal is a ratio of naturals, and a ratio is rounded once, to the nearest number, a half going
to the number with the even significand.  Ratios beyond the largest number read as infinity.
-/
namespace MiniC
set_option autoImplicit false

/-- The quotient rounded to the nearest natural, a half going to the even one. -/
def roundDiv (num den : Nat) : Nat :=
  let q := num / den
  let r := num % den
  if 2 * r < den then q
  else if den < 2 * r then q + 1
  else if q % 2 = 0 then q else q + 1

def floorLog2Ratio (num den : Nat) : Int :=
  let k : Int := (Nat.log2 num : Int) - (Nat.log2 den : Int)
  if den <<< k.toNat ≤ num <<< (-k).toNat then k else k - 1

namespace Binary32

/-- The number nearest to the ratio `num / den`. -/
def ofRatio (num den : Nat) : Binary32 :=
  if num = 0 then ofNat 0
  else
    let q : Int := max (floorLog2Ratio num den - 23) (-149)
    let m := roundDiv (num <<< (-q).toNat) (den <<< q.toNat)
    ofNat (min ((q + 149).toNat * fractionCount + m) infinity.toNat)

end Binary32

def digitsValue (digits : List Char) : Nat :=
  digits.foldl (fun n c => 10 * n + (c.toNat - '0'.toNat)) 0

def Binary32.ofDecimal (text : List Char) : Binary32 :=
  let whole := text.takeWhile Char.isDigit
  let fraction := (text.dropWhile Char.isDigit).drop 1
  .ofRatio (digitsValue (whole ++ fraction)) (Nat.pow 10 fraction.length)

end MiniC
