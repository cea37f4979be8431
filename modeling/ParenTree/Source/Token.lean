import ParenTree.Source.Span

-- Tokens: the words of a source text, each with its kind, its spelling and its place.

namespace ParenTree

namespace Token

inductive Kind
  | endOfInput
  | newline
  | ident
  | int
  | float
  | string
  | kwFn
  | kwLet
  | kwReturn
  | kwIf
  | kwElse
  | kwTrue
  | kwFalse
  | kwNop
  | plus
  | minus
  | star
  | slash
  | percent
  | assign
  | equal
  | notEqual
  | less
  | lessEqual
  | greater
  | greaterEqual
  | and
  | or
  | bang
  | define
  | openParen
  | closeParen
  | openBrace
  | closeBrace
  | openBracket
  | closeBracket
  | comma
  | semicolon
deriving DecidableEq, Repr

namespace Kind

def keywords : List (String × Kind) :=
  [("fn", kwFn), ("let", kwLet), ("return", kwReturn), ("if", kwIf), ("else", kwElse), ("true", kwTrue),
   ("false", kwFalse), ("nop", kwNop)]

def ofWord (word : String) : Kind :=
  (keywords.lookup word).getD ident

def ofPair : Char → Char → Option Kind
  | '=', '=' => some equal
  | '!', '=' => some notEqual
  | '<', '=' => some lessEqual
  | '>', '=' => some greaterEqual
  | '&', '&' => some and
  | '|', '|' => some or
  | ':', '=' => some define
  | _, _ => none

def ofChar : Char → Option Kind
  | '+' => some plus
  | '-' => some minus
  | '*' => some star
  | '/' => some slash
  | '%' => some percent
  | '=' => some assign
  | '<' => some less
  | '>' => some greater
  | '!' => some bang
  | '(' => some openParen
  | ')' => some closeParen
  | '{' => some openBrace
  | '}' => some closeBrace
  | '[' => some openBracket
  | ']' => some closeBracket
  | ',' => some comma
  | ';' => some semicolon
  | _ => none

def isSeparator (k : Kind) : Bool :=
  k = newline || k = semicolon

end Kind
end Token

structure Token where
  kind : Token.Kind
  lexeme : String
  span : Span
deriving DecidableEq, Repr

end ParenTree
