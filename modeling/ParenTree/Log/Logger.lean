import ParenTree.Text.Quoted
import ParenTree.Text.Uppercase

-- Loggers by name. A logger gets its one handler when it is first asked for, and a level each time.

namespace ParenTree.Log

inductive Level
  | number (n : Int)
  | name (s : String)
deriving DecidableEq, Repr

structure LevelFault where
  name : String
deriving DecidableEq, Repr

def LevelFault.message (f : LevelFault) : String :=
  "Unknown level: " ++ Text.quoted f.name

namespace Level

def names : List (String × Int) :=
  [("CRITICAL", 50), ("FATAL", 50), ("ERROR", 40), ("WARNING", 30), ("WARN", 30), ("INFO", 20), ("DEBUG", 10),
   ("NOTSET", 0)]

def warning : Level := number 30

def resolve : Level → Except LevelFault Int
  | number n => .ok n
  | name s =>
    let upper := Text.uppercase s
    match names.lookup upper with
    | some n => .ok n
    | none => .error ⟨upper⟩

end Level

structure Logger where
  handlers : Nat
  level : Int
deriving DecidableEq, Repr

abbrev Loggers := List (String × Logger)

def canonicalName (name : String) : String :=
  if name = "" then "root" else name

def defaultName : String := "treedump"

namespace Loggers

def get (ls : Loggers) (name : String) : Logger :=
  (ls.lookup name).getD ⟨0, 0⟩

def set (ls : Loggers) (name : String) (l : Logger) : Loggers :=
  (name, l) :: ls.filter (·.1 ≠ name)

-- Asks for a logger at a level. An unknown level leaves the logger with its handler and the level it had.
def obtain (ls : Loggers) (name : String) (level : Level) : Except LevelFault (String × Logger) × Loggers :=
  let name := canonicalName name
  let logger := { ls.get name with handlers := max 1 (ls.get name).handlers }
  match level.resolve with
  | .ok n =>
    let logger := { logger with level := n }
    (.ok (name, logger), ls.set name logger)
  | .error fault => (.error fault, ls.set name logger)

end Loggers
end ParenTree.Log
