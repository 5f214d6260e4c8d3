import MiniC.Binary32.Read
import MiniC.Token.Basic

/-! # Values of literals

What the text of a literal token stands for.
-/
namespace MiniC.Token
set_option autoImplicit false

/-- The value of an integer literal, if it fits a signed 32-bit word. -/
def intValue? (text : List Char) : Option Int32 :=
  let n := digitsValue text
  if n < 0x80000000 then some (Int32.ofNat n) else none

def escapedChar : Char → Char
  | 'n' => '\n'
  | 't' => '\t'
  | 'r' => '\r'
  | '0' => '\x00'
  | c => c

/-- Resolves escapes: a backslash and the character after it stand for one character. -/
def unescape : Bool → List Char → List Char
  | _, [] => []
  | true, c :: text => escapedChar c :: unescape false text
  | false, c :: text => if c = '\\' then unescape true text else c :: unescape false text

def interior (text : List Char) : List Char := (text.drop 1).dropLast

def stringValue (text : List Char) : String := String.ofList (interior text)

def escapedStringValue (text : List Char) : String := String.ofList (unescape false (interior text))

end MiniC.Token
