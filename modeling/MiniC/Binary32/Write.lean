import MiniC.Text.Numeral
import MiniC.Binary32.Basic

/-! # The shortest decimal text of a single-precision number

The reals that read as a given positive number form an interval; its ends belong to it exactly when
the significand is even.  The number is written with the point of that interval on the coarsest
decimal grid that has one.  Of two such points the nearer is taken, and the upper one if the number
lies half way between them.
-/
namespace MiniC.Binary32
set_option autoImplicit false

/-- The number `digits * 10 ^ exponent`. -/
structure Decimal where
  digits : Nat
  exponent : Int
  deriving DecidableEq, Repr

/-- A positive number as `4 * m * 2 ^ q`, with the bounds of the interval that reads as it in the
same unit `2 ^ q`. -/
structure Neighbourhood where
  lower : Nat
  value : Nat
  upper : Nat
  scale : Int
  closed : Bool

/-- The gap below a power of two is half as wide as the one above it. -/
def neighbourhood (x : Binary32) : Neighbourhood where
  lower := 4 * x.significand - (if x.fractionField = 0 ∧ 1 < x.exponentField then 1 else 2)
  value := 4 * x.significand
  upper := 4 * x.significand + 2
  scale := x.scale - 2
  closed := x.significand % 2 == 0

def Neighbourhood.onGrid? (v : Neighbourhood) (p : Int) : Option Decimal :=
  let unit := Nat.pow 10 (-p).toNat <<< v.scale.toNat
  let step := Nat.pow 10 p.toNat <<< (-v.scale).toNat
  let inside (n : Nat) : Bool :=
    if v.closed then v.lower * unit ≤ n * step && n * step ≤ v.upper * unit
    else v.lower * unit < n * step && n * step < v.upper * unit
  let below := v.value * unit / step
  let above := below + 1
  let upward := v.value * unit - below * step ≥ above * step - v.value * unit
  match inside below, inside above with
  | false, false => none
  | true, false => some ⟨below, p⟩
  | false, true => some ⟨above, p⟩
  | true, true => some (if upward then ⟨above, p⟩ else ⟨below, p⟩)

/-- The grids to try, from the coarsest; the last ones hold every single-precision number. -/
def grids : List Int := (List.range 200).map fun n : Nat => 40 - (n : Int)

def shortest (x : Binary32) : Decimal :=
  (grids.findSome? x.neighbourhood.onGrid?).getD ⟨0, 0⟩

def positional (digits : List Char) (exponent : Int) : List Char :=
  if exponent < 0 then
    ['0', '.'] ++ List.replicate (-exponent - 1).toNat '0' ++ digits
  else
    let whole := exponent.toNat + 1
    if digits.length ≤ whole then
      digits ++ List.replicate (whole - digits.length) '0' ++ ['.', '0']
    else digits.take whole ++ ['.'] ++ digits.drop whole

def scientific (digits : List Char) (exponent : Int) : List Char :=
  digits.take 1 ++ (if digits.length ≤ 1 then [] else '.' :: digits.drop 1) ++
    'e' :: Text.intDigits exponent

/-- The text of a decimal: positional from `10 ^ (-4)` to below `10 ^ 16`, scientific outside. -/
def Decimal.text (d : Decimal) : List Char :=
  let digits := Text.natDigits d.digits
  let exponent := d.exponent + digits.length - 1
  if -4 ≤ exponent ∧ exponent < 16 then positional digits exponent
  else scientific digits exponent

def magnitudeText (x : Binary32) : List Char :=
  if x.isInfinite then ['i', 'n', 'f']
  else if x.significand = 0 then ['0', '.', '0']
  else x.shortest.text

/-- The text of a number; NaN has no sign. -/
def text (x : Binary32) : String :=
  String.ofList <|
    if x.isNaN then ['N', 'a', 'N']
    else if x.isNegative then '-' :: x.magnitudeText
    else x.magnitudeText

end MiniC.Binary32
