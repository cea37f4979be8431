import ParenTree.Layout.Normal
import ParenTree.Layout.Words
import ParenTree.Text.Blank

-- From words to text. Words are kept apart by one space, except next to a parenthesis or to blanks that are there already.

namespace ParenTree.Layout

def opens (word : String) : Bool :=
  match word.toList.getLast? with
  | some c => Text.isBlank c || c = '('
  | none => false

def needsSpace (previous word : String) : Bool :=
  word ≠ ")" && !opens previous && !word.toList.any Text.isBlank

def joinBehind (text previous : String) : List String → String
  | [] => text
  | word :: words => joinBehind (text ++ (if needsSpace previous word then " " else "") ++ word) word words

def join : List String → String
  | [] => ""
  | word :: words => joinBehind word word words

def render (d : Datum) (depth : Int) : Except DumpFault (String × Int) := do
  let value ← d.normalize none
  let (words, depth) ← flatten value depth
  return (join words, depth)

end ParenTree.Layout
