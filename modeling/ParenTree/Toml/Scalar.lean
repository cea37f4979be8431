import ParenTree.Source.Lexeme
import ParenTree.Text.Decimal
import ParenTree.Toml.Value

-- The values of TOML that have no parts: texts, numbers, truth values, dates and times. Every reader here tells how many
-- characters belong to what it has read.

namespace ParenTree.Toml

open Lexeme (isDigit run)

def isBlank (c : Char) : Bool :=
  c = ' ' || c = '\t'

def isIllegal (multiline : Bool) (c : Char) : Bool :=
  (c.toNat < 32 || c.toNat = 127) && c ≠ '\t' && !(multiline && c = '\n')

def isHexDigit (c : Char) : Bool :=
  isDigit c || ('a' ≤ c && c ≤ 'f') || ('A' ≤ c && c ≤ 'F')

def hexValue (c : Char) : Nat :=
  if isDigit c then c.toNat - '0'.toNat
  else if 'a' ≤ c then c.toNat - 'a'.toNat + 10
  else c.toNat - 'A'.toNat + 10

def number (base : Nat) (digits : List Char) : Nat :=
  (digits.filter (· ≠ '_')).foldl (fun n c => base * n + hexValue c) 0

def codePoint (width : Nat) (cs : List Char) : Except Stop Char :=
  let digits := cs.take width
  if digits.length = width && digits.all isHexDigit then
    let n := number 16 digits
    if n < 0xD800 || (0xE000 ≤ n && n < 0x110000) then .ok (.ofNat n)
    else .error (.invalid .invalidCodePoint (cs.length - width))
  else .error (.invalid .invalidHex cs.length)

-- A backslash at the end of a line takes away the line end and all blanks behind it. Where the text ends behind the blanks, the
-- missing quote is the fault.
def lineJoin (cs : List Char) : Except Stop Nat :=
  let blanks := run isBlank cs
  match cs.drop blanks with
  | '\n' :: rest => .ok (blanks + 1 + run (fun c => isBlank c || c = '\n') rest)
  | [] => .ok blanks
  | rest => .error (.invalid .invalidEscape rest.length)

def escape (multiline : Bool) (cs : List Char) : Except Stop (List Char × Nat) :=
  match cs with
  | 'b' :: _ => .ok (['\x08'], 1)
  | 't' :: _ => .ok (['\t'], 1)
  | 'n' :: _ => .ok (['\n'], 1)
  | 'f' :: _ => .ok (['\x0c'], 1)
  | 'r' :: _ => .ok (['\r'], 1)
  | '"' :: _ => .ok (['"'], 1)
  | '\\' :: _ => .ok (['\\'], 1)
  | 'u' :: ds => (codePoint 4 ds).map fun c => ([c], 5)
  | 'U' :: ds => (codePoint 8 ds).map fun c => ([c], 9)
  | _ =>
    if multiline && (cs.head?.map fun c => isBlank c || c = '\n').getD false then (lineJoin cs).map fun n => ([], n)
    else .error (.invalid .invalidEscape (cs.length - 1))

-- What stands before the closing double quote, or before the closing three, and how many characters there are up to the end of
-- the quotes.
def escapedText (multiline : Bool) (cs : List Char) : Except Stop (List Char × Nat) :=
  match cs with
  | [] => .error (.invalid .unterminatedText 0)
  | c :: rest =>
    if c = '"' && !multiline then .ok ([], 1)
    else if c = '"' && ['"', '"'].isPrefixOf rest then .ok ([], 3)
    else if c = '\\' then do
      let (chars, n) ← escape multiline rest
      let (more, length) ← escapedText multiline (rest.drop n)
      return (chars ++ more, 1 + n + length)
    else if c ≠ '"' && isIllegal multiline c then .error (.invalid (.illegalInText c) cs.length)
    else do
      let (more, length) ← escapedText multiline rest
      return (c :: more, 1 + length)
termination_by cs.length
decreasing_by all_goals simp only [List.length_drop, List.length_cons]; omega

def before? (delimiter : List Char) : List Char → Option (List Char)
  | [] => none
  | c :: cs => if delimiter.isPrefixOf (c :: cs) then some [] else (before? delimiter cs).map (c :: ·)

def checkLegal (multiline : Bool) (part : List Char) (left : Nat) : Except Stop Unit :=
  match part.dropWhile (!isIllegal multiline ·) with
  | [] => .ok ()
  | c :: cs => .error (.invalid (.illegalElsewhere c) (cs.length + 1 + left))

-- The same between single quotes, where nothing is an escape.
def verbatimText (multiline : Bool) (cs : List Char) : Except Stop (List Char × Nat) :=
  let delimiter := List.replicate (if multiline then 3 else 1) '\''
  match before? delimiter cs with
  | none => .error (.invalid (.missingDelimiter (.ofList delimiter)) 0)
  | some inner => do
    checkLegal multiline inner (cs.length - inner.length)
    return (inner, inner.length + delimiter.length)

def content (quote : Char) (multiline : Bool) (cs : List Char) : Except Stop (List Char × Nat) :=
  if quote = '"' then escapedText multiline cs else verbatimText multiline cs

def lineText (quote : Char) (cs : List Char) : Except Stop (String × Nat) :=
  (content quote false cs).map fun (inner, n) => (.ofList inner, n)

-- A text behind its three opening quotes. A newline right behind them does not count. Up to two quotes may stand before the
-- closing three.
def blockText (quote : Char) (cs : List Char) : Except Stop (String × Nat) := do
  let skipped := if cs.head? = some '\n' then 1 else 0
  let (inner, n) ← content quote true (cs.drop skipped)
  let more := ((cs.drop (skipped + n)).take 2).takeWhile (· = quote)
  return (.ofList (inner ++ more), skipped + n + more.length)

def quotedText (quote : Char) (cs : List Char) : Except Stop (String × Nat) :=
  if [quote, quote].isPrefixOf cs then (blockText quote (cs.drop 2)).map fun (s, n) => (s, n + 2)
  else lineText quote cs

def twoDigits? : List Char → Option Nat
  | a :: b :: _ => if isDigit a && isDigit b then some (10 * hexValue a + hexValue b) else none
  | _ => none

def within? (low high : Nat) (cs : List Char) : Option Nat :=
  (twoDigits? cs).filter fun n => low ≤ n && n ≤ high

structure Date where
  year : Nat
  month : Nat
  day : Nat
deriving DecidableEq, Repr

namespace Date

def isLeap (year : Nat) : Bool :=
  (year % 4 = 0 && year % 100 ≠ 0) || year % 400 = 0

def daysIn (year month : Nat) : Nat :=
  if month = 2 then (if isLeap year then 29 else 28)
  else if month = 4 || month = 6 || month = 9 || month = 11 then 30
  else 31

def isValid (d : Date) : Bool :=
  1 ≤ d.year && d.day ≤ daysIn d.year d.month

def read? (cs : List Char) : Option Date := do
  let century ← twoDigits? cs
  let year ← twoDigits? (cs.drop 2)
  let month ← within? 1 12 (cs.drop 5)
  let day ← within? 1 31 (cs.drop 8)
  if cs[4]? = some '-' && cs[7]? = some '-' then some ⟨100 * century + year, month, day⟩ else none

end Date

def timeLength? (cs : List Char) : Option Nat := do
  let _ ← within? 0 23 cs
  let _ ← within? 0 59 (cs.drop 3)
  let _ ← within? 0 59 (cs.drop 6)
  if cs[2]? = some ':' && cs[5]? = some ':' then
    match cs.drop 8 with
    | '.' :: rest => if run isDigit rest = 0 then some 8 else some (9 + run isDigit rest)
    | _ => some 8
  else none

def offsetLength (cs : List Char) : Nat :=
  match cs with
  | c :: rest =>
    if c = 'Z' || c = 'z' then 1
    else if (c = '+' || c = '-') && (within? 0 23 rest).isSome && rest[2]? = some ':' &&
        (within? 0 59 (rest.drop 3)).isSome then 6
    else 0
  | [] => 0

def timeOfDayLength (cs : List Char) : Nat :=
  match cs with
  | c :: rest =>
    if c = 'T' || c = 't' || c = ' ' then
      match timeLength? rest with
      | some n => 1 + n + offsetLength (rest.drop n)
      | none => 0
    else 0
  | [] => 0

def moment? (cs : List Char) : Option (Except Stop Nat) :=
  match Date.read? cs with
  | some date =>
    if date.isValid then some (.ok (10 + timeOfDayLength (cs.drop 10))) else some (.error (.invalid .invalidMoment cs.length))
  | none => (timeLength? cs).map .ok

def moreDigits (isDigit : Char → Bool) : List Char → List Char
  | '_' :: c :: cs => if isDigit c then '_' :: c :: moreDigits isDigit cs else []
  | c :: cs => if isDigit c then c :: moreDigits isDigit cs else []
  | [] => []

def digits (isDigit : Char → Bool) : List Char → List Char
  | c :: cs => if isDigit c then c :: moreDigits isDigit cs else []
  | [] => []

def base? (c : Char) : Option (Nat × (Char → Bool)) :=
  if c = 'x' then some (16, isHexDigit)
  else if c = 'b' then some (2, fun c => c = '0' || c = '1')
  else if c = 'o' then some (8, fun c => '0' ≤ c && c ≤ '7')
  else none

def based? (cs : List Char) : Option (Value × Nat) :=
  match cs with
  | '0' :: c :: rest => do
    let (base, isDigit) ← base? c
    let ds := digits isDigit rest
    if ds.isEmpty then none else some (.integer (number base ds), 2 + ds.length)
  | _ => none

def fractionLength (cs : List Char) : Nat :=
  match cs with
  | '.' :: rest =>
    let n := (digits isDigit rest).length
    if n = 0 then 0 else 1 + n
  | _ => 0

def exponentLength (cs : List Char) : Nat :=
  match cs with
  | e :: rest =>
    if e = 'e' || e = 'E' then
      let sign := if rest.head? = some '+' || rest.head? = some '-' then 1 else 0
      let n := (digits isDigit (rest.drop sign)).length
      if n = 0 then 0 else 1 + sign + n
    else 0
  | [] => 0

-- The whole part of a decimal number: a zero alone, or digits that do not begin with one.
def wholePart (cs : List Char) : List Char :=
  match cs with
  | '0' :: _ => ['0']
  | _ => digits isDigit cs

-- A decimal number. With a fraction or an exponent it is kept as it is spelled.
def decimal? (cs : List Char) : Option (Except Stop (Value × Nat)) :=
  let sign := if cs.head? = some '+' || cs.head? = some '-' then 1 else 0
  let whole := wholePart (cs.drop sign)
  if whole.isEmpty then none
  else
    let n := sign + whole.length
    let fraction := fractionLength (cs.drop n)
    let length := n + fraction + exponentLength (cs.drop (n + fraction))
    let count := (whole.filter (· ≠ '_')).length
    if length ≠ n then some (.ok (.decimal (.ofList (cs.take length)), length))
    else if Text.maxDigits < count then some (.error (.longInteger count))
    else
      let value : Int := number 10 whole
      some (.ok (.integer (if cs.head? = some '-' then -value else value), length))

def special? (cs : List Char) : Option (Value × Nat) :=
  let sign := if cs.head? = some '+' || cs.head? = some '-' then 1 else 0
  let name := (cs.drop sign).take 3
  if name = ['i', 'n', 'f'] || name = ['n', 'a', 'n'] then some (.decimal (.ofList (cs.take (sign + 3))), sign + 3)
  else none

def scalar (cs : List Char) : Except Stop (Value × Nat) :=
  match cs with
  | '"' :: rest => (quotedText '"' rest).map fun (s, n) => (.text s, n + 1)
  | '\'' :: rest => (quotedText '\'' rest).map fun (s, n) => (.text s, n + 1)
  | _ =>
    if "true".toList.isPrefixOf cs then .ok (.boolean true, 4)
    else if "false".toList.isPrefixOf cs then .ok (.boolean false, 5)
    else
      match moment? cs with
      | some length => length.map fun n => (.moment (.ofList (cs.take n)), n)
      | none =>
        match based? cs, decimal? cs, special? cs with
        | some found, _, _ => .ok found
        | none, some found, _ => found
        | none, none, some found => .ok found
        | none, none, none => .error (.invalid .invalidValue cs.length)

end ParenTree.Toml
