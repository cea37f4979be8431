import ParenTree.Command.Arguments
import ParenTree.Config.Settings
import ParenTree.Dumper.Model
import ParenTree.Syntax.Parser

-- What a command does: it reads its settings and its source, and prints the tree of the source or why there is none.

namespace ParenTree.Command

structure Outcome where
  status : Nat
  out : String
  err : String
deriving DecidableEq, Repr

def version : String := "0.3.0"

def usage : Option Verb → String
  | none => "usage: " ++ programName ++ " [-h] [--version] \x7bdump,expr\x7d ..."
  | some verb =>
    "usage: " ++ programName ++ " " ++ verb.name ++ " [-h] [--indent INDENT] [-v] " ++ verb.operand

inductive DepthFault
  | blank
  | overflow (cause : Layout.Overflow)
deriving DecidableEq, Repr

def DepthFault.message : DepthFault → String
  | blank => "'int' object is not iterable"
  | overflow cause => cause.message

inductive Failure
  | settings (failure : Settings.Failure)
  | unreadable (path : String) (fault : ReadFault)
  | undecodable (fault : Utf8.Fault)
  | source (failure : Parser.Failure)
  | dump (fault : Fault)
  | depth (fault : DepthFault)

namespace Failure

def internal (message : String) : String :=
  "internal dumper error: " ++ message

def message : Failure → String
  | settings (.faulty file fault) => (Settings.Failure.faulty file fault).message
  | settings failure => internal failure.message
  | unreadable path fault => "unable to read " ++ path ++ ": " ++ fault.message path
  | undecodable fault => internal fault.message
  | source (.fault fault) => fault.diagnostic.text
  | source .outOfTokens => internal "list index out of range"
  | dump (.dump fault) => fault.message
  | dump fault => internal fault.message
  | depth fault => internal fault.message

end Failure

structure Report where
  log : List String
  result : Except Failure String

def logLine (message : String) : String :=
  "DEBUG: " ++ message ++ "\n"

-- The depth to lay out a program at. Its statements, if it has any, are indented one level deeper.
def layoutDepth (program : Program) : Option Nat → Except DepthFault Nat
  | none => .error .blank
  | some depth =>
    if program.body.isEmpty then .ok depth
    else
      match Layout.overflow? (depth + 1) with
      | some cause => .error (.overflow cause)
      | none => .ok depth

def startLog (program : Program) : Option Nat → List String
  | none => []
  | some depth => [(Event.dumping program.toDatum.typeName depth).message]

def dumperLog (d : Dumper) : List String :=
  d.events.reverse.map Event.message

-- A depth that the program cannot be laid out at is found only after all of it is expanded.
def dumpSource (file source : String) (depth : Option Nat) : Report :=
  match Program.ofSource file source with
  | .error failure => ⟨[], .error (.source failure)⟩
  | .ok program =>
    match layoutDepth program depth with
    | .ok depth =>
      let (result, d) := program.dump depth
      ⟨dumperLog d, result.mapError .dump⟩
    | .error fault =>
      let (result, d) := program.expand
      ⟨startLog program depth ++ dumperLog d, (result.mapError .dump).bind fun _ => .error (.depth fault)⟩

namespace Invocation

def sourceName (i : Invocation) : String :=
  match i.verb with
  | .dump => (Path.ofString i.operand).text
  | .expr => "<expr>"

def source (i : Invocation) (w : Workspace) : Except Failure String :=
  match i.verb with
  | .expr => .ok i.operand
  | .dump =>
    match w.read (.ofString i.operand) with
    | .error fault => .error (.unreadable i.sourceName fault)
    | .ok bytes => (Text.ofBytes bytes).mapError .undecodable

def settings (i : Invocation) (w : Workspace) : Except Settings.Failure Settings :=
  match i.verb with
  | .dump => Settings.load w (.ofString i.operand)
  | .expr => Settings.loadAt w w.cwd

def depth (i : Invocation) (s : Settings) : Option Nat :=
  match i.indent with
  | .unset => some s.initialIndent
  | .depth n => some n
  | .blank => none

def logLevel (i : Invocation) (s : Settings) : LogLevel :=
  if i.verbose then .debug else s.logLevel

def settingsLog (s : Settings) : List String :=
  match s.file with
  | some file => ["loaded " ++ file.text]
  | none => []

def report (i : Invocation) (w : Workspace) (s : Settings) : Report :=
  match i.source w with
  | .error failure => ⟨settingsLog s, .error failure⟩
  | .ok source =>
    let r := dumpSource i.sourceName source (i.depth s)
    { r with log := settingsLog s ++ r.log }

def finish : Except Failure String → Nat × String
  | .ok text => (0, text ++ "\n")
  | .error failure => (1, failure.message ++ "\n")

def run (i : Invocation) (w : Workspace) : Outcome :=
  match i.settings w with
  | .error failure => ⟨1, (Failure.settings failure).message ++ "\n", ""⟩
  | .ok s =>
    let r := i.report w s
    let (status, out) := finish r.result
    ⟨status, out, if i.logLevel s = .debug then String.join (r.log.map logLine) else ""⟩

end Invocation

def run (w : Workspace) (arguments : List String) : Outcome :=
  match Request.ofArguments arguments with
  | .error refusal => ⟨2, "", usage refusal.verb ++ "\n" ++ refusal.message ++ "\n"⟩
  | .ok .version => ⟨0, programName ++ " " ++ version ++ "\n", ""⟩
  | .ok (.help verb) => ⟨0, usage verb ++ "\n", ""⟩
  | .ok (.run invocation) => invocation.run w

end ParenTree.Command
