/-! # Keywords and symbols

The fixed spellings of the language.  A symbol has one or two characters; `ofPair?` and `ofChar?`
find it again from them.
-/
namespace MiniC
set_option autoImplicit false

inductive Keyword where
  | int | float | char | void
  | return_ | if_ | else_ | while_ | do_ | for_ | continue_ | break_
  deriving DecidableEq, Repr

namespace Keyword

def all : List Keyword :=
  [int, float, char, void, return_, if_, else_, while_, do_, for_, continue_, break_]

def spelling : Keyword → String
  | int => "int"
  | float => "float"
  | char => "char"
  | void => "void"
  | return_ => "return"
  | if_ => "if"
  | else_ => "else"
  | while_ => "while"
  | do_ => "do"
  | for_ => "for"
  | continue_ => "continue"
  | break_ => "break"

def label : Keyword → String
  | int => "Int"
  | float => "Float"
  | char => "Char"
  | void => "Void"
  | return_ => "Return"
  | if_ => "If"
  | else_ => "Else"
  | while_ => "While"
  | do_ => "Do"
  | for_ => "For"
  | continue_ => "Continue"
  | break_ => "Break"

def ofSpelling? (text : List Char) : Option Keyword :=
  all.find? fun k => decide (k.spelling.toList = text)

def isBaseType : Keyword → Bool
  | int | float | char | void => true
  | _ => false

end Keyword

inductive Symbol where
  | lparen | rparen | lbrace | rbrace | lbracket | rbracket | semicolon | comma
  | assign | plus | minus | star | slash | percent
  | eqEq | notEq | less | lessEq | greater | greaterEq
  | andAnd | amp | orOr | pipe | caret | bang | plusPlus | minusMinus
  deriving DecidableEq, Repr

namespace Symbol

def spelling : Symbol → String
  | lparen => "("
  | rparen => ")"
  | lbrace => "\x7b"
  | rbrace => "\x7d"
  | lbracket => "["
  | rbracket => "]"
  | semicolon => ";"
  | comma => ","
  | assign => "="
  | plus => "+"
  | minus => "-"
  | star => "*"
  | slash => "/"
  | percent => "%"
  | eqEq => "=="
  | notEq => "!="
  | less => "<"
  | lessEq => "<="
  | greater => ">"
  | greaterEq => ">="
  | andAnd => "&&"
  | amp => "&"
  | orOr => "||"
  | pipe => "|"
  | caret => "^"
  | bang => "!"
  | plusPlus => "++"
  | minusMinus => "--"

def label : Symbol → String
  | lparen => "LParen"
  | rparen => "RParen"
  | lbrace => "LBrace"
  | rbrace => "RBrace"
  | lbracket => "LBracket"
  | rbracket => "RBracket"
  | semicolon => "Semicolon"
  | comma => "Comma"
  | assign => "Assign"
  | plus => "Plus"
  | minus => "Minus"
  | star => "Star"
  | slash => "Slash"
  | percent => "Percent"
  | eqEq => "EqEq"
  | notEq => "NotEq"
  | less => "Less"
  | lessEq => "LessEq"
  | greater => "Greater"
  | greaterEq => "GreaterEq"
  | andAnd => "AndAnd"
  | amp => "Amp"
  | orOr => "OrOr"
  | pipe => "Pipe"
  | caret => "Caret"
  | bang => "Bang"
  | plusPlus => "PlusPlus"
  | minusMinus => "MinusMinus"

def ofPair? : Char → Char → Option Symbol
  | '+', '+' => some plusPlus
  | '-', '-' => some minusMinus
  | '=', '=' => some eqEq
  | '!', '=' => some notEq
  | '<', '=' => some lessEq
  | '>', '=' => some greaterEq
  | '&', '&' => some andAnd
  | '|', '|' => some orOr
  | _, _ => none

def ofChar? : Char → Option Symbol
  | '(' => some lparen
  | ')' => some rparen
  | '\x7b' => some lbrace
  | '\x7d' => some rbrace
  | '[' => some lbracket
  | ']' => some rbracket
  | ';' => some semicolon
  | ',' => some comma
  | '=' => some assign
  | '+' => some plus
  | '-' => some minus
  | '*' => some star
  | '/' => some slash
  | '%' => some percent
  | '<' => some less
  | '>' => some greater
  | '&' => some amp
  | '|' => some pipe
  | '^' => some caret
  | '!' => some bang
  | _ => none

end Symbol

end MiniC
