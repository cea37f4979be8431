import ParenTree.Source.Span
import ParenTree.Text.Quoted

-- What a TOML document holds, and why a text is not one.

namespace ParenTree.Toml

abbrev Key := List String

def Key.text : Key → String
  | [part] => "(" ++ Text.quoted part ++ ",)"
  | key => "(" ++ ", ".intercalate (key.map Text.quoted) ++ ")"

-- Numbers with a fraction or an exponent, dates and times are kept as they are spelled.
inductive Value
  | text (s : String)
  | integer (n : Int)
  | decimal (spelling : String)
  | boolean (b : Bool)
  | moment (spelling : String)
  | array (items : List Value)
  | table (entries : List (String × Value))

abbrev Table := List (String × Value)

inductive Cause
  | invalidStatement
  | unfinishedStatement
  | unclosedTableHeader
  | unclosedArrayHeader
  | invalidKey
  | missingEquals
  | invalidValue
  | invalidMoment
  | unclosedArray
  | unclosedTable
  | unterminatedText
  | missingDelimiter (delimiter : String)
  | illegalInText (c : Char)
  | illegalElsewhere (c : Char)
  | invalidEscape
  | invalidHex
  | invalidCodePoint
  | declaredTwice (key : Key)
  | redefined (key : Key)
  | immutable (key : Key)
  | occupied
  | duplicate (name : String)
deriving DecidableEq, Repr

def Cause.message : Cause → String
  | invalidStatement => "Invalid statement"
  | unfinishedStatement => "Expected newline or end of document after a statement"
  | unclosedTableHeader => "Expected ']' at the end of a table declaration"
  | unclosedArrayHeader => "Expected ']]' at the end of an array declaration"
  | invalidKey => "Invalid initial character for a key part"
  | missingEquals => "Expected '=' after a key in a key/value pair"
  | invalidValue => "Invalid value"
  | invalidMoment => "Invalid date or datetime"
  | unclosedArray => "Unclosed array"
  | unclosedTable => "Unclosed inline table"
  | unterminatedText => "Unterminated string"
  | missingDelimiter delimiter => "Expected " ++ Text.quoted delimiter
  | illegalInText c => "Illegal character " ++ Text.quoted (.singleton c)
  | illegalElsewhere c => "Found invalid character " ++ Text.quoted (.singleton c)
  | invalidEscape => "Unescaped '\\' in a string"
  | invalidHex => "Invalid hex value"
  | invalidCodePoint => "Escaped character is not a Unicode scalar value"
  | declaredTwice key => "Cannot declare " ++ key.text ++ " twice"
  | redefined key => "Cannot redefine namespace " ++ key.text
  | immutable key => "Cannot mutate immutable namespace " ++ key.text
  | occupied => "Cannot overwrite a value"
  | duplicate name => "Duplicate inline table key " ++ Text.quoted name

-- Why the reader stops, and how many characters of the text are left there. An integer of too many digits is not seen as a
-- fault of the document, and stops the reader all the same.
inductive Stop
  | invalid (cause : Cause) (left : Nat)
  | longInteger (digits : Nat)
deriving DecidableEq, Repr

inductive Fault
  | invalid (cause : Cause) (place : Option Position)
  | longInteger (digits : Nat)
deriving DecidableEq, Repr

def Stop.fault (text : List Char) : Stop → Fault
  | invalid cause 0 => .invalid cause none
  | invalid cause left => .invalid cause (some (Position.afterAll ⟨1, 1, 0⟩ (text.take (text.length - left))))
  | longInteger digits => .longInteger digits

def placeText : Option Position → String
  | none => "end of document"
  | some p => "line " ++ toString p.line ++ ", column " ++ toString p.col

def Fault.message : Fault → String
  | invalid cause place => cause.message ++ " (at " ++ placeText place ++ ")"
  | longInteger digits =>
    "Exceeds the limit (4300 digits) for integer string conversion: value has " ++ toString digits ++
      " digits; use sys.set_int_max_str_digits() to increase the limit"

namespace Table

def contains (t : Table) (name : String) : Bool :=
  (t.lookup name).isSome

def replace (t : Table) (name : String) (v : Value) : Table :=
  t.map fun entry => if entry.1 = name then (name, v) else entry

-- Changes the table behind a key; tables on the way that are not there are made. In an array it is the last table that counts,
-- if `arrays` lets arrays be entered at all.
def update (arrays : Bool) (change : Table → Except Cause Table) : Key → Table → Except Cause Table
  | [], t => change t
  | name :: names, t =>
    match t.lookup name with
    | none => do
      let inner ← update arrays change names []
      return t ++ [(name, .table inner)]
    | some (.table inner) => do
      let inner ← update arrays change names inner
      return t.replace name (.table inner)
    | some (.array items) =>
      match arrays, items.getLast? with
      | true, some (.table inner) => do
        let inner ← update arrays change names inner
        return t.replace name (.array (items.dropLast ++ [.table inner]))
      | _, _ => .error .occupied
    | some _ => .error .occupied

def add (cause : Cause) (name : String) (v : Value) (t : Table) : Except Cause Table :=
  if t.contains name then .error cause else .ok (t ++ [(name, v)])

def append (name : String) (t : Table) : Except Cause Table :=
  match t.lookup name with
  | none => .ok (t ++ [(name, .array [.table []])])
  | some (.array items) => .ok (t.replace name (.array (items ++ [.table []])))
  | some _ => .error .occupied

end Table
end ParenTree.Toml
