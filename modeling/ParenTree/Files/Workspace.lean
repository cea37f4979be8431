import ParenTree.Files.Entry
import ParenTree.Text.Utf8

-- Where a command runs: a file tree, a working directory in it, and the home directories of its users.

namespace ParenTree

-- The entries of the root directory are those of the whole tree. The user without a name is the one who runs the command.
structure Workspace where
  entries : List (String × Entry)
  access : Access := {}
  cwd : Location
  homes : List (String × Location)

inductive PathFault
  | nullByte
  | noHome
deriving DecidableEq, Repr

def PathFault.message : PathFault → String
  | nullByte => "embedded null byte"
  | noHome => "Could not determine home directory."

structure Obstacle where
  location : Location
  barrier : Barrier
deriving DecidableEq, Repr

def Obstacle.message (o : Obstacle) : String :=
  (ReadFault.barred o.barrier).message o.location.text

namespace Workspace

def root (w : Workspace) : Entry :=
  .directory w.entries w.access

def hasNull (s : String) : Bool :=
  s.toList.any (· = '\x00')

-- Where a path without slashes in front begins, and the parts that are left. A first part with a tilde names the home of a user.
def home (w : Workspace) (parts : List String) : Except PathFault (Location × List String) :=
  match parts with
  | [] => .ok (w.cwd, [])
  | part :: rest =>
    match part.toList with
    | '~' :: user =>
      if hasNull part then .error .nullByte
      else
        match w.homes.lookup (.ofList user) with
        | some place => .ok (place, rest)
        | none => .error .noHome
    | _ => .ok (w.cwd, part :: rest)

def locate (w : Workspace) (p : Path) : Except PathFault Location := do
  let (start, parts) ← if p.isAbsolute then pure ([], p.parts) else w.home p.parts
  if parts.any hasNull then throw .nullByte
  return Path.follow start parts

def outset (w : Workspace) (p : Path) : Except ReadFault (List Entry × Entry) :=
  if p.isAbsolute then .ok ([], w.root) else w.root.enter [] w.cwd

def read (w : Workspace) (p : Path) : Except ReadFault (List UInt8) :=
  if pathLimit < p.text.utf8ByteSize then .error (.barred .longName)
  else do
    let (above, here) ← w.outset p
    let found ← here.walk above p.parts
    found.content

def look (w : Workspace) (l : Location) : Except Obstacle (Option Entry) :=
  if pathLimit < l.text.utf8ByteSize then .error ⟨l, .longName⟩
  else (w.root.look l).mapError (⟨l, ·⟩)

def hasEntry (w : Workspace) (l : Location) : Except Obstacle Bool :=
  (w.look l).map Option.isSome

def isFile (w : Workspace) (l : Location) : Except Obstacle Bool :=
  (w.look l).map fun found => (found.map Entry.isFile).getD false

end Workspace

namespace Text

-- Every way to end a line becomes a single newline.
def unifyNewlines : List Char → List Char
  | '\r' :: '\n' :: cs => '\n' :: unifyNewlines cs
  | '\r' :: cs => '\n' :: unifyNewlines cs
  | c :: cs => c :: unifyNewlines cs
  | [] => []

def ofBytes (bytes : List UInt8) : Except Utf8.Fault String := do
  return .ofList (unifyNewlines (← Utf8.decode bytes))

end Text
end ParenTree
