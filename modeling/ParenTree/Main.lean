import ParenTree.Command.Run

-- The command line program. It takes a picture of the files that a command can look at, and leaves the rest to `Command.run`.

namespace ParenTree.Main

def trail (start : Location) (parts : List String) : List Location :=
  (List.range (parts.length + 1)).map fun n => Path.follow start (parts.take n)

def above (l : Location) : List Location :=
  trail [] l

-- All places that a command looks at: the way to its source, and settings next to it and above it.
def places (cwd : Location) (homes : List (String × Location)) (arguments : List String) : List Location :=
  let operand := match Command.Request.ofArguments arguments with
    | .ok (.run ⟨.dump, operand, _, _⟩) => Path.ofString operand
    | _ => .ofString ""
  let way := trail (if operand.isAbsolute then [] else cwd) operand.parts
  let origins := cwd :: way ++ homes.map (·.2)
  (origins.flatMap above).eraseDups.flatMap fun l => [l, l ++ [Settings.fileName]]

inductive Answer
  | bytes (bytes : List UInt8)
  | directory
  | denied
  | longName
  | nothing

def isDirectoryCode : UInt32 := 21

def ask (l : Location) : IO Answer := do
  try
    let bytes ← IO.FS.readBinFile l.text
    return .bytes bytes.toList
  catch
    | .inappropriateType _ code _ => return if code = isDirectoryCode then .directory else .nothing
    | .permissionDenied .. => return .denied
    | .invalidArgument .. => return .longName
    | _ => return .nothing

-- A name that no entry has. What is said about it tells whether a directory can be searched, and whether it is one.
def overlong : String :=
  .ofList (List.replicate (nameLimit + 1) 'x')

def probe (l : Location) : IO (Option Entry) := do
  let below ← ask (l ++ [overlong])
  match ← ask l, below with
  | .bytes bytes, _ => return some (.file bytes)
  | .directory, .longName => return some (.directory [])
  | .directory, _ => return some (.directory [] ⟨true, false⟩)
  | .denied, .longName => return some (.directory [] ⟨false, true⟩)
  | .denied, .denied => return some (.directory [] ⟨false, false⟩)
  | .denied, _ => return some (.file [] false)
  | _, _ => return none

-- Adds the entry at a location of the machine to a file tree, unless the tree has something that bars the way to it.
def look (root : Entry) (l : Location) : IO Entry := do
  match root.look l, ← probe l with
  | .ok _, some e => return .place e l root
  | _, _ => return root

end ParenTree.Main

open ParenTree in
def main (arguments : List String) : IO UInt32 := do
  let cwd := (Path.ofString (← IO.currentDir).toString).parts
  let home ← IO.getEnv "HOME"
  let homes := home.toList.map fun h => ("", (Path.ofString h).parts)
  let root ← (Main.places cwd homes arguments).foldlM Main.look (.directory [])
  let outcome := Command.run ⟨root.entries, root.access, cwd, homes⟩ arguments
  (← IO.getStdout).putStr outcome.out
  (← IO.getStderr).putStr outcome.err
  return outcome.status.toUInt32
