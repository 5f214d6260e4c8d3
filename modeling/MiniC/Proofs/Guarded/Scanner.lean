import MiniC.Proofs.Guarded.Basic
import MiniC.Token.Place

/-! # Scanning with a cursor

The scanner reads a source one character after the other.  Its cursor counts bytes and lines beside
the characters that are left; spans are made of offsets, and texts are cut out of the source with
them.  A span of offsets that do not fit, a text that does not start and end between characters, and
an assertion that does not hold leave the scanner without a result.

Lines are counted with 32 bits.  Whether sums are checked is up to the build: the scanner then stops
at a line feed that does not fit the count, which otherwise goes on with zero.
-/
namespace MiniC
set_option autoImplicit false

open Guarded (demand ensure ensureFits stuck)

/-- Where the scanner stands: the characters that are left, the place before them, the place where the
current token starts, and the tokens so far. -/
structure Cursor where
  rest : List Char
  pos : Pos
  mark : Pos
  tokens : List Token

abbrev Scanner (α : Type) : Type := Guarded Cursor (Located Flaw) α

namespace Scanner

variable {α : Type} (checked : Bool) (source : String)

def atEnd : Scanner Bool := return (← get).rest.isEmpty

/-- The next character; at the end it is a zero character, which may also stand in the source. -/
def peek : Scanner Char := return (← get).rest.headD '\x00'

def advance : Scanner Char := do
  let c ← get
  match c.rest with
  | [] => return '\x00'
  | x :: rest =>
    ensureFits (checked = true → x = '\n' → c.pos.line.toNat + 1 < 0x100000000)
    set { c with rest := rest, pos := c.pos.next x }
    return x

def setMark : Scanner Unit := modify fun c => { c with mark := c.pos }

/-- The character after the next one, found by the offset of the cursor. -/
def peekSecond : Scanner Char := do
  let c ← get
  let parts ← demand (Text.splitBytes? c.pos.offset source.toList)
  return (parts.2.drop 1).headD '\x00'

/-- The span from a place to the cursor. -/
def spanFrom (p : Pos) : Scanner Span := do
  let c ← get
  demand (Span.ofBounds? p.offset c.pos.offset p.line.toNat)

/-- The span of the current token. -/
def span : Scanner Span := do
  let c ← get
  spanFrom c.mark

def produceAt (k : Kind) (s : Span) : Scanner Unit := do
  let text ← demand (s.slice? source)
  modify fun c => { c with tokens := c.tokens ++ [⟨k, s, text.toList⟩] }

def produce (k : Kind) : Scanner Unit := do
  let s ← span
  produceAt source k s

/-- Runs a bounded loop with a bound that the characters left cannot exceed. -/
def budgeted (x : Nat → Scanner α) : Scanner α := fun c => x (c.rest.length + 1) c

def whileDo (cond : Scanner Bool) (body : Scanner Unit) : Nat → Scanner Unit
  | 0 => stuck .rounds
  | n + 1 => do
    let b ← cond
    if b then
      body
      whileDo cond body n
    else return ()

def skipWhile (p : Char → Bool) : Scanner Unit :=
  budgeted (whileDo (return p (← peek)) (discard (advance checked)))

def word : Scanner Kind := do
  skipWhile checked Lexeme.isWordChar
  let s ← span
  let text ← demand (s.slice? source)
  match Keyword.ofSpelling? text.toList with
  | some k => return .keyword k
  | none => return .identifier

def number : Scanner Kind := do
  skipWhile checked Char.isDigit
  let c ← peek
  if c = '.' then
    let d ← peekSecond source
    if d.isDigit then
      discard (advance checked)
      skipWhile checked Char.isDigit
      return .decimal
    else return .number
  else return .number

def whitespace : Scanner Kind := do
  skipWhile checked Lexeme.isBlank
  return .whitespace

def lineComment : Scanner Kind := do
  let c ← advance checked
  ensure (c = '/')
  budgeted (whileDo (return !(← atEnd) && (← peek) ≠ '\n')
    (discard (advance checked)))
  return .lineComment

/-- What follows a star in a block comment: more stars, and a slash or `more` of the comment. -/
def commentEnd (more : Scanner Kind) : Scanner Kind := do
  skipWhile checked (· = '*')
  let ended ← atEnd
  if ended then return .flaw .unclosedComment
  else
    let c ← advance checked
    if c = '/' then return .blockComment
    else more

def commentRest : Nat → Scanner Kind
  | 0 => stuck .rounds
  | n + 1 => do
    let ended ← atEnd
    if ended then return .flaw .unclosedComment
    else
      let c ← advance checked
      if c ≠ '*' then commentRest n
      else commentEnd checked (commentRest n)

def blockComment : Scanner Kind := do
  let c ← advance checked
  ensure (c = '*')
  budgeted (commentRest checked)

/-- The rest of a string literal.  A line break in it gives a token, and scanning goes on. -/
def stringRest : Nat → Bool → Bool → Scanner Kind
  | 0, _, _ => stuck .rounds
  | n + 1, hasEscape, escaping => do
    let ended ← atEnd
    if ended then return .flaw .unclosedString
    else
      let p := (← get).pos
      let c ← advance checked
      let s ← spanFrom p
      if escaping then stringRest n hasEscape false
      else if c = '"' then return if hasEscape then .escapedString else .string
      else if c = '\n' then
        produceAt source (.flaw .unescapedLineBreak) s
        stringRest n hasEscape false
      else if c = '\\' then stringRest n true true
      else stringRest n hasEscape false

/-- The kind of the token that starts with `c`, which is behind the cursor. -/
def kindFrom (c : Char) : Scanner Kind := do
  if c = '/' then
    let d ← peek
    if d = '/' then lineComment checked
    else if d = '*' then blockComment checked
    else return .symbol .slash
  else if c = '"' then budgeted fun n => stringRest checked source n false false
  else
    let d ← peek
    match Symbol.ofPair? c d with
    | some s =>
      discard (advance checked)
      return .symbol s
    | none =>
      match Symbol.ofChar? c with
      | some s => return .symbol s
      | none =>
        if Lexeme.isWordStart c then word checked source
        else if c.isDigit then number checked source
        else if Lexeme.isBlank c then whitespace checked
        else return .flaw (.unexpectedChar c)

def nextKind : Scanner Kind := do
  let ended ← atEnd
  setMark
  if ended then return .eof
  else
    let c ← advance checked
    kindFrom checked source c

def nextToken : Scanner Kind := do
  let k ← nextKind checked source
  produce source k
  return k

/-- All tokens up to the end of the source. -/
def tokensRest : Nat → Scanner Unit
  | 0 => stuck .rounds
  | n + 1 => do
    let k ← nextToken checked source
    if k = .eof then return ()
    else tokensRest n

/-- What is wrong with a faulty token. -/
def flawOf (t : Token) : Scanner Flaw :=
  match t.kind with
  | .flaw (.unexpectedChar _) => do
    let text ← demand (t.span.slice? source)
    return .unexpectedChar (text.toList.headD '\x00')
  | .flaw f => return f
  | _ => stuck .outside

/-- The first faulty token is an error. -/
def report (ts : List Token) : Scanner Unit :=
  match ts.find? fun t => t.kind.isFlaw with
  | some t => do
    let f ← flawOf source t
    throw ⟨t.span, f⟩
  | none => return ()

/-- The tokens of the source. -/
def tokens : Scanner (List Token) := do
  budgeted (tokensRest checked source)
  let c ← get
  report source c.tokens
  return c.tokens

end Scanner

namespace Cursor

def start (source : String) : Cursor := ⟨source.toList, .start, .start, []⟩

/-- The cursor `n` characters further. -/
def skip (c : Cursor) (n : Nat) : Cursor :=
  { c with rest := c.rest.drop n, pos := c.pos.after (c.rest.take n) }

theorem skip_skip (c : Cursor) (m n : Nat) : (c.skip m).skip n = c.skip (m + n) := by
  simp only [skip, List.drop_drop, ← Pos.after_append, ← List.take_add]

/-- The cursor stands in the source with `front` before the mark and `text` between the mark and the
cursor. -/
structure At (source : String) (front text : List Char) (c : Cursor) : Prop where
  split : source.toList = front ++ (text ++ c.rest)
  mark : c.mark = Pos.start.after front
  pos : c.pos = c.mark.after text

theorem At.skip {source : String} {front text : List Char} {c : Cursor} (h : c.At source front text)
    (n : Nat) : (c.skip n).At source front (text ++ c.rest.take n) where
  split := by
    rw [h.split, Cursor.skip, List.append_assoc, List.take_append_drop]
  mark := h.mark
  pos := by
    change c.pos.after _ = c.mark.after _
    rw [h.pos, Pos.after_append]

/-- The cursor with more tokens. -/
def push (c : Cursor) (ts : List Token) : Cursor := { c with tokens := c.tokens ++ ts }

theorem At.push {source : String} {front text : List Char} {c : Cursor} (h : c.At source front text)
    (ts : List Token) : (c.push ts).At source front text := ⟨h.split, h.mark, h.pos⟩

/-- A build that checks sums can count the lines that are left. -/
def Roomy (checked : Bool) (c : Cursor) : Prop :=
  checked = true → c.pos.line.toNat + c.rest.count '\n' < 0x100000000

theorem Roomy.skip {checked : Bool} {c : Cursor} (h : c.Roomy checked) (n : Nat) :
    (c.skip n).Roomy checked := by
  intro hChecked
  have hRoom := h hChecked
  have hRest : c.rest.count '\n' = (c.rest.take n).count '\n' + (c.rest.drop n).count '\n' := by
    rw [← List.count_append, List.take_append_drop]
  change (c.pos.after (c.rest.take n)).line.toNat + (c.rest.drop n).count '\n' < _
  rw [Pos.line_after, UInt32.toNat_add, UInt32.toNat_ofNat']
  omega

theorem Roomy.push {checked : Bool} {c : Cursor} (h : c.Roomy checked) (ts : List Token) :
    (c.push ts).Roomy checked := h

end Cursor

end MiniC
