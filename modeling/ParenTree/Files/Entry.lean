import ParenTree.Files.Path

-- File trees, as the one who runs a command may use them.

namespace ParenTree

-- A directory is read for the names in it; it is searched on the way to what is in it.
structure Access where
  read : Bool := true
  search : Bool := true
deriving DecidableEq, Repr

inductive Entry
  | file (bytes : List UInt8) (readable : Bool := true)
  | directory (entries : List (String × Entry)) (access : Access := {})

-- Why it cannot even be told whether there is an entry.
inductive Barrier
  | denied
  | longName
deriving DecidableEq, Repr

inductive ReadFault
  | notFound
  | notDirectory
  | isDirectory
  | barred (barrier : Barrier)
deriving DecidableEq, Repr

namespace ReadFault

def number : ReadFault → Nat
  | notFound => 2
  | barred .denied => 13
  | notDirectory => 20
  | isDirectory => 21
  | barred .longName => 36

def reason : ReadFault → String
  | notFound => "No such file or directory"
  | barred .denied => "Permission denied"
  | notDirectory => "Not a directory"
  | isDirectory => "Is a directory"
  | barred .longName => "File name too long"

def message (f : ReadFault) (path : String) : String :=
  "[Errno " ++ toString f.number ++ "] " ++ f.reason ++ ": " ++ Text.quoted path

end ReadFault

-- The most bytes that a name, and a path, can have.
def nameLimit : Nat := 255

def pathLimit : Nat := 4095

namespace Entry

def entries : Entry → List (String × Entry)
  | file .. => []
  | directory es _ => es

def access : Entry → Access
  | file .. => {}
  | directory _ access => access

def isFile : Entry → Bool
  | file .. => true
  | directory .. => false

-- The entry at a location below this one. Below a file there is nothing.
def look : Entry → Location → Except Barrier (Option Entry)
  | e, [] => .ok (some e)
  | file .., _ :: _ => .ok none
  | directory es access, name :: names =>
    if !access.search then .error .denied
    else if nameLimit < name.utf8ByteSize then .error .longName
    else
      match es.lookup name with
      | some inner => inner.look names
      | none => .ok none

-- Follows the parts of a path from an entry whose parent directories are `above`, the nearest first. Two dots lead to the
-- parent; above the root is the root. Only directories have a parent and entries to follow.
def walk (above : List Entry) (here : Entry) : List String → Except ReadFault Entry
  | [] => .ok here
  | part :: parts =>
    match here with
    | file .. => .error .notDirectory
    | directory es access =>
      if !access.search then .error (.barred .denied)
      else if part = ".." then
        match above with
        | [] => walk [] here parts
        | parent :: above => walk above parent parts
      else if nameLimit < part.utf8ByteSize then .error (.barred .longName)
      else
        match es.lookup part with
        | some inner => walk (here :: above) inner parts
        | none => .error .notFound

-- Goes down to a location where one already is, past all that could bar the way; with the directories above it.
def enter (above : List Entry) (here : Entry) : Location → Except ReadFault (List Entry × Entry)
  | [] => .ok (above, here)
  | name :: names =>
    match here.entries.lookup name with
    | some inner => enter (here :: above) inner names
    | none => .error .notFound

def content : Entry → Except ReadFault (List UInt8)
  | file bytes true => .ok bytes
  | directory _ ⟨true, _⟩ => .error .isDirectory
  | _ => .error (.barred .denied)

-- Puts an entry at a location, with the directories that lead to it. A new directory leaves what is in one that is there.
def place (e : Entry) : Location → Entry → Entry
  | [], here =>
    match e with
    | directory [] access => directory here.entries access
    | _ => e
  | name :: names, here =>
    let inner := place e names ((here.entries.lookup name).getD (directory []))
    directory ((name, inner) :: here.entries.filter (·.1 ≠ name)) here.access

end Entry
end ParenTree
