import ParenTree.Source.Token

-- The first word of a text. Every class of words is recognized by its first character or two, and its length is found by a
-- scan over what follows. A word is reported by the number of characters that follow its first one, so that cutting the text
-- there loses nothing.

namespace ParenTree

inductive LexicalFault
  | invalidCharacter (c : Char)
  | unterminatedString
  | unterminatedComment
deriving DecidableEq, Repr

inductive Piece
  | layout
  | token (kind : Token.Kind)
deriving DecidableEq, Repr

namespace Lexeme

def isSpace (c : Char) : Bool :=
  c = ' ' || c = '\t' || c = '\r'

def isDigit (c : Char) : Bool :=
  '0' ≤ c && c ≤ '9'

def isNameStart (c : Char) : Bool :=
  ('a' ≤ c && c ≤ 'z') || ('A' ≤ c && c ≤ 'Z') || c = '_'

def isNamePart (c : Char) : Bool :=
  isNameStart c || isDigit c

def run (p : Char → Bool) (cs : List Char) : Nat :=
  (cs.takeWhile p).length

-- How far a string reaches, its closing quote included. A backslash takes the next character with it.
def stringEnd : (seen : Nat) → List Char → Option Nat
  | _, [] => none
  | seen, '"' :: _ => some (seen + 1)
  | seen, '\\' :: _ :: cs => stringEnd (seen + 2) cs
  | seen, _ :: cs => stringEnd (seen + 1) cs

def commentEnd : (seen : Nat) → List Char → Option Nat
  | _, [] => none
  | seen, '*' :: '/' :: _ => some (seen + 2)
  | seen, _ :: cs => commentEnd (seen + 1) cs

-- The rest of a number behind its first digit: digits, and a point if digits follow it.
def number (cs : List Char) : Piece × Nat :=
  let whole := run isDigit cs
  match cs.drop whole with
  | '.' :: d :: ds =>
    if isDigit d then (.token .float, whole + 2 + run isDigit ds) else (.token .int, whole)
  | _ => (.token .int, whole)

def word (c : Char) (cs : List Char) : Piece × Nat :=
  let length := run isNamePart cs
  (.token (.ofWord (.ofList (c :: cs.take length))), length)

def operator (c : Char) (cs : List Char) : Except LexicalFault (Piece × Nat) :=
  match cs.head?.bind (Token.Kind.ofPair c), Token.Kind.ofChar c with
  | some kind, _ => .ok (.token kind, 1)
  | none, some kind => .ok (.token kind, 0)
  | none, none => .error (.invalidCharacter c)

def slash (cs : List Char) : Except LexicalFault (Piece × Nat) :=
  match cs with
  | '/' :: rest => .ok (.layout, 1 + run (· ≠ '\n') rest)
  | '*' :: rest =>
    match commentEnd 1 rest with
    | some length => .ok (.layout, length)
    | none => .error .unterminatedComment
  | _ => operator '/' cs

def first (c : Char) (cs : List Char) : Except LexicalFault (Piece × Nat) :=
  if isSpace c then .ok (.layout, run isSpace cs)
  else if c = '/' then slash cs
  else if c = '\n' then .ok (.token .newline, 0)
  else if isDigit c then .ok (number cs)
  else if isNameStart c then .ok (word c cs)
  else if c = '"' then
    match stringEnd 0 cs with
    | some length => .ok (.token .string, length)
    | none => .error .unterminatedString
  else operator c cs

end Lexeme
end ParenTree
