import MiniC.Text.Printable
import MiniC.Text.ExtendingMark

/-! # Quoted text

The form in which characters and texts appear in messages and in printed trees.  Each character is
escaped on its own; the delimiter is the only quote mark that is escaped.
-/
namespace MiniC.Text
set_option autoImplicit false

def hexDigits (n : Nat) : List Char := Nat.toDigits 16 n

/-- Whether a character may stand for itself between quotes. -/
def isPlain (c : Char) : Bool := isPrintable c && !isExtendingMark c

def codePointEscape (c : Char) : List Char :=
  ['\\', 'u', '\x7b'] ++ hexDigits c.toNat ++ ['\x7d']

def escapeChar (delim c : Char) : List Char :=
  if c = '\x00' then ['\\', '0']
  else if c = '\t' then ['\\', 't']
  else if c = '\r' then ['\\', 'r']
  else if c = '\n' then ['\\', 'n']
  else if c = '\\' then ['\\', '\\']
  else if c = delim then ['\\', c]
  else if isPlain c then [c]
  else codePointEscape c

def escape (delim : Char) (text : List Char) : List Char := text.flatMap (escapeChar delim)

@[simp] theorem escape_cons (delim c : Char) (text : List Char) :
    escape delim (c :: text) = escapeChar delim c ++ escape delim text := by
  simp [escape]

def quote (text : String) : String :=
  String.ofList ('"' :: escape '"' text.toList ++ ['"'])

def quoteChar (c : Char) : String :=
  String.ofList ('\'' :: escapeChar '\'' c ++ ['\''])

end MiniC.Text
