import MiniC.Span.Slice
import MiniC.Token.Lexeme

/-! # Placing lexemes in the source

Positions count bytes and lines, the lines with 32 bits.  Every lexeme becomes a token; a line break
inside a string that no backslash escapes becomes a faulty token of its own, placed before the token
of the string.
-/
namespace MiniC
set_option autoImplicit false

structure Pos where
  offset : Nat
  /-- From the greatest number of 32 bits the count goes on with zero. -/
  line : UInt32
  deriving DecidableEq, Repr

namespace Pos

def start : Pos := ⟨0, 1⟩

def next (p : Pos) (c : Char) : Pos :=
  ⟨p.offset + c.utf8Size, if c = '\n' then p.line + 1 else p.line⟩

def after (p : Pos) (text : List Char) : Pos := text.foldl next p

@[simp] theorem after_nil (p : Pos) : p.after [] = p := rfl

@[simp] theorem after_cons (p : Pos) (c : Char) (text : List Char) :
    p.after (c :: text) = (p.next c).after text := rfl

theorem after_append (p : Pos) (a b : List Char) : p.after (a ++ b) = (p.after a).after b :=
  List.foldl_append

@[simp] theorem offset_after (p : Pos) (text : List Char) :
    (p.after text).offset = p.offset + Text.byteLength text := by
  induction text generalizing p with
  | nil => rfl
  | cons c text ih => simp [ih, next, Nat.add_assoc]

@[simp] theorem line_after (p : Pos) (text : List Char) :
    (p.after text).line = p.line + .ofNat (text.count '\n') := by
  induction text generalizing p with
  | nil => simp
  | cons c text ih =>
    by_cases hc : c = '\n'
    · subst hc
      rw [after_cons, ih, List.count_cons_self, Nat.add_comm, UInt32.ofNat_add, ← UInt32.add_assoc]
      rfl
    · simp [ih, next, hc]

def spanOf (p : Pos) (text : List Char) : Span := ⟨p.offset, Text.byteLength text, p.line.toNat⟩

end Pos

namespace Token

/-- The tokens for the line breaks of a string, `text` being what follows its opening quote. -/
def lineBreaks : Pos → Bool → List Char → List Token
  | _, _, [] => []
  | p, true, c :: text => lineBreaks (p.next c) false text
  | p, false, c :: text =>
    if c = '\n' then
      ⟨.flaw .unescapedLineBreak, p.spanOf [c], [c]⟩ :: lineBreaks (p.next c) false text
    else lineBreaks (p.next c) (c = '\\') text

def isStringKind : Kind → Bool
  | .string | .escapedString | .flaw .unclosedString => true
  | _ => false

def ofLexeme (p : Pos) (x : Lexeme) : List Token :=
  let breaks :=
    if isStringKind x.kind then lineBreaks (p.after (x.text.take 1)) false (x.text.drop 1) else []
  breaks ++ [⟨x.kind, p.spanOf x.text, x.text⟩]

def place : Pos → List Lexeme → List Token
  | p, [] => [⟨.eof, p.spanOf [], []⟩]
  | p, x :: xs => ofLexeme p x ++ place (p.after x.text) xs

/-- All tokens of a source, the faulty ones and those that only separate others included. -/
def scan (source : String) : List Token := place .start (Lexeme.ofText source.toList)

def firstFlaw? (tokens : List Token) : Option (Located Flaw) := tokens.findSome? flaw?

end Token

end MiniC
