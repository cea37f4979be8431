import ParenTree.Source.Lexeme
import ParenTree.Text.Quoted

-- What is wrong with a source text, and how a message says it. A diagnostic has a place, a wording, perhaps a hint, and a code
-- that follows from the stage that found the fault and from the wording.

namespace ParenTree

namespace Diagnostic

inductive Stage
  | lexer
  | parser
  | elsewhere
deriving DecidableEq, Repr

-- Letters without their case. Apart from ASCII, only the Kelvin sign has an ASCII letter as its small form.
def foldCase (c : Char) : Char :=
  if 'A' ≤ c && c ≤ 'Z' then Char.ofNat (c.toNat + 32)
  else if c = '\u212A' then 'k'
  else c

def occursIn (pattern : List Char) : List Char → Bool
  | [] => pattern.isEmpty
  | c :: cs => pattern.isPrefixOf (c :: cs) || occursIn pattern cs

def inferCode (stage : Stage) (message : String) : String :=
  let text := message.toList.map foldCase
  match stage with
  | .lexer =>
    if occursIn "invalid character".toList text then "TD1001"
    else if occursIn "unterminated string literal".toList text then "TD1002"
    else if occursIn "unterminated block comment".toList text then "TD1003"
    else "TD1000"
  | .parser =>
    if "expected ".toList.isPrefixOf text then "TD2001"
    else if occursIn "invalid assignment target".toList text then "TD2002"
    else "TD2000"
  | .elsewhere => "TD0001"

end Diagnostic

structure Diagnostic where
  span : Span
  message : String
  hint : Option String
  code : String
deriving DecidableEq, Repr

namespace Diagnostic

def found (stage : Stage) (span : Span) (message : String) (hint : Option String) : Diagnostic :=
  ⟨span, message, hint, inferCode stage message⟩

def hintLine : Option String → String
  | some hint => if hint = "" then "" else "\n  hint: " ++ hint
  | none => ""

def text (d : Diagnostic) : String :=
  d.span.format ++ ": error[" ++ (if d.code = "" then "TD0001" else d.code) ++ "]: " ++ d.message ++ hintLine d.hint

end Diagnostic

namespace LexicalFault

def message : LexicalFault → String
  | invalidCharacter c => "invalid character " ++ Text.quoted (String.singleton c)
  | unterminatedString => "unterminated string literal"
  | unterminatedComment => "unterminated block comment"

def hint : LexicalFault → String
  | invalidCharacter _ => "remove or escape the character"
  | unterminatedString => "add a closing quote"
  | unterminatedComment => "add closing */"

def extent : LexicalFault → Nat
  | unterminatedComment => 2
  | _ => 1

end LexicalFault

inductive Expectation
  | variableName
  | defineSign
  | functionName
  | openParen
  | parameterName
  | closeParen
  | openBrace
  | closeBrace
  | closeBracket
  | expression
  | separator
  | blockEnd
deriving DecidableEq, Repr

namespace Expectation

def message : Expectation → String
  | variableName => "expected variable name"
  | defineSign => "expected '=' or ':='"
  | functionName => "expected function name"
  | openParen => "expected '('"
  | parameterName => "expected parameter name"
  | closeParen => "expected ')'"
  | openBrace => "expected '\x7b'"
  | closeBrace => "expected '\x7d'"
  | closeBracket => "expected ']'"
  | expression => "expected expression"
  | separator => "expected newline or ';' after statement"
  | blockEnd => "expected '\x7d'"

def hint : Expectation → Option String
  | separator => some "put each statement on its own line"
  | blockEnd => some "close the block opened earlier"
  | _ => none

end Expectation

inductive SyntacticFault
  | expected (what : Expectation)
  | invalidTarget
deriving DecidableEq, Repr

namespace SyntacticFault

def message : SyntacticFault → String
  | expected what => what.message
  | invalidTarget => "invalid assignment target"

def hint : SyntacticFault → Option String
  | expected what => what.hint
  | invalidTarget => some "only plain names can be assigned"

end SyntacticFault

inductive SourceFault
  | lexical (span : Span) (cause : LexicalFault)
  | syntactic (span : Span) (cause : SyntacticFault)
deriving DecidableEq, Repr

def SourceFault.diagnostic : SourceFault → Diagnostic
  | lexical span cause => .found .lexer span cause.message (some cause.hint)
  | syntactic span cause => .found .parser span cause.message cause.hint

end ParenTree
