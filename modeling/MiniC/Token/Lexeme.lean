import MiniC.Token.Basic

/-! # Cutting a text into lexemes

A lexeme is a kind and a nonempty piece of text.  `extent` decides how far the lexeme at the front
of a text reaches, by the longest match; it gives the number of characters after the first one.
The lexemes of a text are, in order, the whole text: no character is lost or read twice.
-/
namespace MiniC
set_option autoImplicit false

structure Lexeme where
  kind : Kind
  text : List Char
  deriving DecidableEq, Repr

namespace Lexeme

def isBlank (c : Char) : Bool :=
  c = ' ' || c = '\t' || c = '\n' || c = '\x0c' || c = '\r'

def isWordStart (c : Char) : Bool := c.isAlpha || c = '_'

def isWordChar (c : Char) : Bool := c.isAlphanum || c = '_'

def runLength (p : Char → Bool) (cs : List Char) : Nat := (cs.takeWhile p).length

theorem take_runLength (p : Char → Bool) (cs : List Char) :
    cs.take (runLength p cs) = cs.takeWhile p := by
  induction cs with
  | nil => rfl
  | cons c cs ih =>
    rw [runLength, List.takeWhile_cons]
    split
    · simpa [runLength] using ih
    · rfl

theorem drop_runLength (p : Char → Bool) (cs : List Char) :
    cs.drop (runLength p cs) = cs.dropWhile p := by
  induction cs with
  | nil => rfl
  | cons c cs ih =>
    rw [runLength, List.takeWhile_cons, List.dropWhile_cons]
    split
    · simpa [runLength] using ih
    · rfl

/-- The length of a string literal after its opening quote, up to its closing quote.  The flag says
whether the character before is a backslash that escapes the next one. -/
def stringLength? : Bool → List Char → Option Nat
  | _, [] => none
  | true, _ :: cs => (stringLength? false cs).map (· + 1)
  | false, c :: cs =>
    if c = '"' then some 1 else (stringLength? (c = '\\') cs).map (· + 1)

/-- The length of a block comment after its two opening characters, up to the first closer. -/
def commentLength? : List Char → Option Nat
  | [] => none
  | c :: cs =>
    if c = '*' ∧ cs.head? = some '/' then some 2 else (commentLength? cs).map (· + 1)

def stringExtent (cs : List Char) : Kind × Nat :=
  match stringLength? false cs with
  | none => (.flaw .unclosedString, cs.length)
  | some n => (if '\\' ∈ cs.take n then .escapedString else .string, n)

def commentExtent (cs : List Char) : Kind × Nat :=
  match commentLength? cs with
  | none => (.flaw .unclosedComment, cs.length + 1)
  | some n => (.blockComment, n + 1)

def wordExtent (c : Char) (cs : List Char) : Kind × Nat :=
  let n := runLength isWordChar cs
  (match Keyword.ofSpelling? (c :: cs.take n) with
    | some k => .keyword k
    | none => .identifier, n)

def numberExtent (cs : List Char) : Kind × Nat :=
  let n := runLength Char.isDigit cs
  match cs.drop n with
  | '.' :: d :: rest =>
    if d.isDigit then (.decimal, n + 2 + runLength Char.isDigit rest) else (.number, n)
  | _ => (.number, n)

def symbolExtent (c : Char) (cs : List Char) : Kind × Nat :=
  match cs.head?.bind (Symbol.ofPair? c) with
  | some s => (.symbol s, 1)
  | none =>
    match Symbol.ofChar? c with
    | some s => (.symbol s, 0)
    | none => (.flaw (.unexpectedChar c), 0)

/-- The kind of the lexeme that starts with `c`, and how many characters of `cs` belong to it. -/
def extent (c : Char) (cs : List Char) : Kind × Nat :=
  if c = '"' then stringExtent cs
  else if isWordStart c then wordExtent c cs
  else if c.isDigit then numberExtent cs
  else if isBlank c then (.whitespace, runLength isBlank cs)
  else if c = '/' ∧ cs.head? = some '/' then (.lineComment, runLength (· ≠ '\n') cs)
  else if c = '/' ∧ cs.head? = some '*' then commentExtent (cs.drop 1)
  else symbolExtent c cs

def ofText : List Char → List Lexeme
  | [] => []
  | c :: cs =>
    ⟨(extent c cs).1, c :: cs.take (extent c cs).2⟩ :: ofText (cs.drop (extent c cs).2)
termination_by cs => cs.length
decreasing_by
  simp only [List.length_drop, List.length_cons]
  omega

@[simp] theorem ofText_nil : ofText [] = [] := by rw [ofText]

theorem ofText_cons (c : Char) (cs : List Char) :
    ofText (c :: cs) =
      ⟨(extent c cs).1, c :: cs.take (extent c cs).2⟩ :: ofText (cs.drop (extent c cs).2) := by
  rw [ofText]

/-- The lexemes are the text, cut into nonempty pieces. -/
theorem flatMap_text_ofText (cs : List Char) : (ofText cs).flatMap Lexeme.text = cs := by
  induction cs using ofText.induct with
  | case1 => simp
  | case2 c cs ih => simp [ofText_cons, ih]

theorem text_ne_nil_of_mem_ofText {cs : List Char} {x : Lexeme} (h : x ∈ ofText cs) :
    x.text ≠ [] := by
  induction cs using ofText.induct with
  | case1 => simp at h
  | case2 c cs ih =>
    rw [ofText_cons, List.mem_cons] at h
    rcases h with rfl | h
    · simp
    · exact ih h

end Lexeme

end MiniC
