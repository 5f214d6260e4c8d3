import MiniC.Text.Quote
import MiniC.Span.Basic
import MiniC.Token.Symbol

/-! # Tokens

A token is a kind, a span and the text that stands there.  Faulty source text is a token too, whose
kind says what is wrong with it.
-/
namespace MiniC
set_option autoImplicit false

inductive Flaw where
  | unexpectedChar (c : Char)
  | unclosedString
  | unclosedComment
  | unescapedLineBreak
  deriving DecidableEq, Repr

namespace Flaw

def message : Flaw → String
  | unexpectedChar c => "unexpected character " ++ Text.quoteChar c
  | unclosedString => "unterminated string literal"
  | unclosedComment => "unterminated block comment"
  | unescapedLineBreak => "line break inside string literal"

def label : Flaw → String
  | unexpectedChar _ => "UnexpectedChar"
  | unclosedString => "UnclosedString"
  | unclosedComment => "UnclosedComment"
  | unescapedLineBreak => "UnescapedLineBreak"

/-- How a faulty token is called in messages about other tokens. -/
def description : Flaw → String
  | unexpectedChar _ => "unexpected character"
  | unclosedString => "unclosed string"
  | unclosedComment => "unclosed comment"
  | unescapedLineBreak => "unescaped line break"

end Flaw

inductive Kind where
  | keyword (k : Keyword)
  | symbol (s : Symbol)
  | identifier
  | number
  | decimal
  | string
  /-- A string literal with at least one backslash. -/
  | escapedString
  | whitespace
  | lineComment
  | blockComment
  | eof
  | flaw (f : Flaw)
  deriving DecidableEq, Repr

namespace Kind

def isTrivia : Kind → Bool
  | whitespace | lineComment | blockComment => true
  | _ => false

def isFlaw : Kind → Bool
  | flaw _ => true
  | _ => false

def isBaseType : Kind → Bool
  | keyword k => k.isBaseType
  | _ => false

def description : Kind → String
  | keyword k => "`" ++ k.spelling ++ "`"
  | symbol s => "`" ++ s.spelling ++ "`"
  | identifier => "identifier"
  | number => "integer literal"
  | decimal => "decimal literal"
  | string | escapedString => "string literal"
  | whitespace => "whitespace"
  | lineComment | blockComment => "comment"
  | eof => "end of file"
  | flaw f => f.description

def label : Kind → String
  | keyword k => k.label
  | symbol s => s.label
  | identifier => "Identifier"
  | number => "Number"
  | decimal => "Decimal"
  | string => "String"
  | escapedString => "EscapedString"
  | whitespace => "Whitespace"
  | lineComment => "InlineComment"
  | blockComment => "MultilineComment"
  | eof => "Eof"
  | flaw f => "Error" ++ f.label

end Kind

structure Token where
  kind : Kind
  span : Span
  text : List Char
  deriving DecidableEq, Repr

namespace Token

def listing (t : Token) : String := "Token(" ++ t.kind.label ++ ", " ++ t.span.rangeText ++ ")"

def flaw? (t : Token) : Option (Located Flaw) :=
  match t.kind with
  | .flaw f => some ⟨t.span, f⟩
  | _ => none

end Token

end MiniC
