/-! # Decimal numerals

Integers are written without padding, grouping or a plus sign.
-/
namespace MiniC.Text
set_option autoImplicit false

def natDigits (n : Nat) : List Char := Nat.toDigits 10 n

def intDigits : Int → List Char
  | .ofNat n => natDigits n
  | .negSucc n => '-' :: natDigits (n + 1)

def ofNat (n : Nat) : String := String.ofList (natDigits n)

def ofInt (n : Int) : String := String.ofList (intDigits n)

@[simp] theorem toList_ofNat (n : Nat) : (ofNat n).toList = natDigits n := by simp [ofNat]

@[simp] theorem toList_ofInt (n : Int) : (ofInt n).toList = intDigits n := by simp [ofInt]

end MiniC.Text
