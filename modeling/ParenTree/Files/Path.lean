import ParenTree.Text.Quoted

-- Paths as they are written, and locations, which are the names from the root of the file tree down to a place in it.

namespace ParenTree

abbrev Location := List String

def Location.text (l : Location) : String :=
  "/" ++ "/".intercalate l

-- A written path: its slashes in front, and its parts. Empty parts and single dots are never parts.
structure Path where
  anchor : String
  parts : List String
deriving DecidableEq, Repr

namespace Path

def splitSlashes : List Char → List (List Char)
  | [] => [[]]
  | '/' :: cs => [] :: splitSlashes cs
  | c :: cs =>
    match splitSlashes cs with
    | [] => [[c]]
    | part :: parts => (c :: part) :: parts

-- Slashes in front: exactly two stay two, more are the same as one.
def anchorOf (cs : List Char) : String :=
  match (cs.takeWhile (· = '/')).length with
  | 0 => ""
  | 2 => "//"
  | _ => "/"

def ofString (s : String) : Path where
  anchor := anchorOf s.toList
  parts := ((splitSlashes s.toList).map String.ofList).filter fun part => part ≠ "" && part ≠ "."

def isAbsolute (p : Path) : Bool :=
  p.anchor ≠ ""

def text (p : Path) : String :=
  let s := p.anchor ++ "/".intercalate p.parts
  if s = "" then "." else s

def step (l : Location) (part : String) : Location :=
  if part = ".." then l.dropLast else l ++ [part]

def follow (l : Location) (parts : List String) : Location :=
  parts.foldl step l

end Path
end ParenTree
