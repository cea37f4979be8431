import ParenTree.Files.Workspace
import ParenTree.Toml.Document

-- Settings. They are read from the nearest file of their name, in the directory where the search begins or in one above it.

namespace ParenTree

inductive LogLevel
  | debug
  | info
  | warning
  | error
deriving DecidableEq, Repr

namespace LogLevel

def all : List LogLevel := [debug, info, warning, error]

def name : LogLevel → String
  | debug => "debug"
  | info => "info"
  | warning => "warning"
  | error => "error"

-- No letter outside ASCII has one of the letters of a name as its small form.
def ofName? (s : String) : Option LogLevel :=
  all.find? (·.name = s.toLower)

end LogLevel

structure Settings where
  initialIndent : Nat
  logLevel : LogLevel
  file : Option Location
deriving DecidableEq, Repr

namespace Settings

def fileName : String := "treedump.toml"

def default : Settings :=
  ⟨0, .warning, none⟩

-- The nearest file of settings, seen from a directory whose names are given from the last to the first.
def nearest? (w : Workspace) (names : List String) : Except Obstacle (Option Location) := do
  let file := names.reverse ++ [fileName]
  if ← w.hasEntry file then return some file
  match names with
  | [] => return none
  | _ :: names => nearest? w names

def origin (w : Workspace) (start : Location) : Except Obstacle Location := do
  if ← w.isFile start then return start.dropLast
  return start

def find? (w : Workspace) (start : Location) : Except Obstacle (Option Location) := do
  let dir ← origin w start
  nearest? w dir.reverse

inductive Fault
  | unreadable (fault : ReadFault)
  | invalid (fault : Toml.Fault)
  | notTable (name : String)
  | indentNotInteger
  | indentNegative
  | unknownLevel
deriving DecidableEq, Repr

def levelChoices : String := "debug, error, info, warning"

def Fault.text (file : Location) : Fault → String
  | unreadable fault => "unable to read " ++ fileName ++ ": " ++ fault.message file.text
  | invalid fault => "invalid " ++ fileName ++ ": " ++ fault.message
  | notTable name => "[" ++ name ++ "] must be a table"
  | indentNotInteger => "[dump].initial_indent must be an integer"
  | indentNegative => "[dump].initial_indent must not be negative"
  | unknownLevel => "[log].level must be one of: " ++ levelChoices

def tableOf (document : Toml.Table) (name : String) : Except Fault Toml.Table :=
  match document.lookup name with
  | none => .ok []
  | some (.table entries) => .ok entries
  | some _ => .error (.notTable name)

def indentOf (dump : Toml.Table) : Except Fault Nat :=
  match dump.lookup "initial_indent" with
  | none => .ok 0
  | some (.integer (.ofNat n)) => .ok n
  | some (.integer (.negSucc _)) => .error .indentNegative
  | some _ => .error .indentNotInteger

def levelOf (log : Toml.Table) : Except Fault LogLevel :=
  match log.lookup "level" with
  | none => .ok .warning
  | some (.text name) =>
    match LogLevel.ofName? name with
    | some level => .ok level
    | none => .error .unknownLevel
  | some _ => .error .unknownLevel

def ofDocument (file : Location) (document : Toml.Table) : Except Fault Settings := do
  let indent ← indentOf (← tableOf document "dump")
  let level ← levelOf (← tableOf document "log")
  return ⟨indent, level, some file⟩

-- Why there are no settings: a fault in their file, or something that no part of the program accounts for.
inductive Failure
  | faulty (file : Location) (fault : Fault)
  | undecodable (fault : Utf8.Fault)
  | longInteger (digits : Nat)
  | lost (fault : PathFault)
  | obstructed (obstacle : Obstacle)
deriving DecidableEq, Repr

def Failure.message : Failure → String
  | faulty file fault => file.text ++ ": " ++ fault.text file
  | undecodable fault => fault.message
  | longInteger digits => (Toml.Fault.longInteger digits).message
  | lost fault => fault.message
  | obstructed obstacle => obstacle.message

def ofBytes (file : Location) (bytes : List UInt8) : Except Failure Settings :=
  match Text.ofBytes bytes with
  | .error fault => .error (.undecodable fault)
  | .ok text =>
    match Toml.parse text with
    | .error (.longInteger digits) => .error (.longInteger digits)
    | .error fault => .error (.faulty file (.invalid fault))
    | .ok document => (ofDocument file document).mapError (.faulty file)

def read (w : Workspace) (file : Location) : Except Failure Settings :=
  match w.read ⟨"/", file⟩ with
  | .error fault => .error (.faulty file (.unreadable fault))
  | .ok bytes => ofBytes file bytes

def loadAt (w : Workspace) (start : Location) : Except Failure Settings :=
  match find? w start with
  | .error obstacle => .error (.obstructed obstacle)
  | .ok none => .ok default
  | .ok (some file) => read w file

def load (w : Workspace) (start : Path) : Except Failure Settings :=
  match w.locate start with
  | .error fault => .error (.lost fault)
  | .ok start => loadAt w start

end Settings
end ParenTree
