import ParenTree.Text.Decimal
import ParenTree.Text.Quoted

-- Command lines. Every argument is first told apart as an option or not, whatever stands around it; then they are taken from
-- left to right. The first argument that is no option names the command, and all behind it is for the command alone.

namespace ParenTree.Command

inductive Switch
  | help
  | version
  | indent
  | verbose
deriving DecidableEq, Repr

namespace Switch

def takesValue : Switch → Bool
  | indent => true
  | _ => false

def label : Switch → String
  | help => "-h/--help"
  | version => "--version"
  | indent => "--indent"
  | verbose => "-v/--verbose"

end Switch

abbrev Options := List (String × Switch)

def generalOptions : Options :=
  [("-h", .help), ("--help", .help), ("--version", .version)]

def commandOptions : Options :=
  [("-h", .help), ("--help", .help), ("--indent", .indent), ("-v", .verbose), ("--verbose", .verbose)]

inductive Verb
  | dump
  | expr
deriving DecidableEq, Repr

namespace Verb

def name : Verb → String
  | dump => "dump"
  | expr => "expr"

def operand : Verb → String
  | dump => "source"
  | expr => "text"

def ofName? (s : String) : Option Verb :=
  [dump, expr].find? (·.name = s)

end Verb

inductive ArgumentFault
  | ambiguous (argument : String) (candidates : List String)
  | missing (name : String)
  | unknownCommand (name : String)
  | valueExpected (switch : Switch)
  | valueIgnored (switch : Switch) (value : String)
  | invalidIndent (value : String)
  | negativeIndent
  | unrecognized (arguments : List String)
deriving DecidableEq, Repr

namespace ArgumentFault

def about (name message : String) : String :=
  "argument " ++ name ++ ": " ++ message

def message : ArgumentFault → String
  | ambiguous argument candidates =>
    "ambiguous option: " ++ argument ++ " could match " ++ ", ".intercalate candidates
  | missing name => "the following arguments are required: " ++ name
  | unknownCommand name => about "command" ("invalid choice: " ++ Text.quoted name ++ " (choose from 'dump', 'expr')")
  | valueExpected switch => about switch.label "expected one argument"
  | valueIgnored switch value => about switch.label ("ignored explicit argument " ++ Text.quoted value)
  | invalidIndent value => about "--indent" ("invalid indent: " ++ Text.quoted value)
  | negativeIndent => about "--indent" "indent must not be negative"
  | unrecognized arguments => "unrecognized arguments: " ++ " ".intercalate arguments

end ArgumentFault

structure Refusal where
  verb : Option Verb
  fault : ArgumentFault
deriving DecidableEq, Repr

def programName : String := "treedump"

def Refusal.message (r : Refusal) : String :=
  let program := match r.verb with
    | some verb => programName ++ " " ++ verb.name
    | none => programName
  program ++ ": error: " ++ r.fault.message

inductive Word
  | plain (text : String)
  | separator
  | option (spelling : String) (switch : Switch) (attached : Option String)
  | stray (text : String)
deriving DecidableEq, Repr

def isNumber (cs : List Char) : Bool :=
  !cs.isEmpty && cs.all fun c => (Text.digitValue? c).isSome

-- Whether a text behind a dash makes a negative number: digits, with a point before the last of them or not. A newline may
-- follow.
def isMagnitude (cs : List Char) : Bool :=
  let cs := if cs.getLast? = some '\n' then cs.dropLast else cs
  isNumber cs ||
    match cs.dropWhile fun c => (Text.digitValue? c).isSome with
    | '.' :: fraction => isNumber fraction
    | _ => false

def splitEquals (cs : List Char) : List Char × Option String :=
  match cs.dropWhile (· ≠ '=') with
  | _ :: value => (cs.takeWhile (· ≠ '='), some (.ofList value))
  | [] => (cs, none)

-- All options that an argument may stand for, if it is not written in full: an option with two dashes may be cut short, and a
-- value may follow an option with one dash at once.
def candidates (options : Options) (cs : List Char) : List (String × Switch × Option String) :=
  match cs with
  | '-' :: '-' :: _ =>
    let (start, value) := splitEquals cs
    (options.filter fun o => start.isPrefixOf o.1.toList).map fun o => (o.1, o.2, value)
  | '-' :: c :: value =>
    (options.filter fun o => o.1.toList = ['-', c]).map fun o => (o.1, o.2, some (.ofList value))
  | _ => []

def classify (options : Options) (argument : String) : Except ArgumentFault Word :=
  match argument.toList with
  | '-' :: c :: cs =>
    let (start, value) := splitEquals ('-' :: c :: cs)
    match options.lookup argument, options.lookup (.ofList start), value with
    | some switch, _, _ => .ok (.option argument switch none)
    | none, some switch, some value => .ok (.option (.ofList start) switch (some value))
    | _, _, _ =>
      match candidates options ('-' :: c :: cs) with
      | [(spelling, switch, attached)] => .ok (.option spelling switch attached)
      | [] => .ok (if isMagnitude (c :: cs) || (c :: cs).contains ' ' then .plain argument else .stray argument)
      | several => .error (.ambiguous argument (several.map (·.1)))
  | _ => .ok (.plain argument)

def classifyAll (options : Options) : List String → Except ArgumentFault (List Word)
  | [] => .ok []
  | argument :: arguments =>
    if argument = "--" then .ok (.separator :: arguments.map .plain)
    else do
      let word ← classify options argument
      return word :: (← classifyAll options arguments)

def cluster (options : Options) (switch : Switch) : List Char → Except ArgumentFault (List Switch)
  | [] => .error (.valueIgnored switch "")
  | c :: cs =>
    match options.lookup (.ofList ['-', c]) with
    | none => .error (.valueIgnored switch (.ofList (c :: cs)))
    | some next => if cs.isEmpty then .ok [switch, next] else (cluster options next cs).map (switch :: ·)

def flags (options : Options) (spelling : String) (switch : Switch) :
    Option String → Except ArgumentFault (List Switch)
  | none => .ok [switch]
  | some attached =>
    match spelling.toList with
    | '-' :: '-' :: _ => .error (.valueIgnored switch attached)
    | _ => cluster options switch attached.toList

inductive Indent
  | unset
  | depth (n : Nat)
  -- That there is one, but not which.
  | blank
deriving DecidableEq, Repr

structure Invocation where
  verb : Verb
  operand : String
  indent : Indent
  verbose : Bool
deriving DecidableEq, Repr

inductive Request
  | version
  | help (verb : Option Verb)
  | run (invocation : Invocation)
deriving DecidableEq, Repr

-- The depth that a text stands for. Two dashes only part arguments, so as a value they are none.
def readIndent (value : String) : Except ArgumentFault Indent :=
  if value = "--" then .ok .blank
  else
    match Text.readInteger? value with
    | some (.ofNat n) => .ok (.depth n)
    | some (.negSucc _) => .error .negativeIndent
    | none => .error (.invalidIndent value)

structure Told where
  operand : Option String
  indent : Indent
  verbose : Bool
  extras : List String

namespace Told

def nothing : Told :=
  ⟨none, .unset, false, []⟩

def leave (t : Told) (extras : List String) : Told :=
  { t with extras := t.extras ++ extras }

end Told

-- Takes the words of a command from left to right; `none` if help is asked for. The first plain word is the operand, and two
-- dashes next to it go with it.
def takeWords : Told → List Word → Except ArgumentFault (Option Told)
  | t, [] => .ok (some t)
  | t, .plain text :: words =>
    match t.operand, words with
    | none, .separator :: words => takeWords { t with operand := some text } words
    | none, words => takeWords { t with operand := some text } words
    | some _, words => takeWords (t.leave [text]) words
  | t, .separator :: words =>
    match t.operand, words with
    | none, .plain text :: words => takeWords { t with operand := some text } words
    | _, words => takeWords (t.leave ["--"]) words
  | t, .stray text :: words => takeWords (t.leave [text]) words
  | t, .option spelling switch attached :: words =>
    if switch.takesValue then
      match attached, words with
      | some attached, words => do
        let indent ← readIndent attached
        takeWords { t with indent := indent } words
      | none, .plain value :: words => do
        let indent ← readIndent value
        takeWords { t with indent := indent } words
      | none, _ => .error (.valueExpected switch)
    else do
      let switches ← flags commandOptions spelling switch attached
      if switches.contains .help then return none
      takeWords { t with verbose := true } words

def readCommand (verb : Verb) (arguments : List String) : Except ArgumentFault (Request × List String) := do
  match ← takeWords .nothing (← classifyAll commandOptions arguments) with
  | none => return (.help (some verb), [])
  | some told =>
    match told.operand with
    | none => throw (.missing verb.operand)
    | some operand => return (.run ⟨verb, operand, told.indent, told.verbose⟩, told.extras)

def takeGeneral (extras : List String) : List Word → (arguments : List String) → Except Refusal Request
  | .plain name :: _, _ :: arguments =>
    match Verb.ofName? name with
    | none => .error ⟨none, .unknownCommand name⟩
    | some verb =>
      match readCommand verb arguments with
      | .error fault => .error ⟨some verb, fault⟩
      | .ok (.run invocation, rest) =>
        if (extras ++ rest).isEmpty then .ok (.run invocation)
        else .error ⟨none, .unrecognized (extras ++ rest)⟩
      | .ok (request, _) => .ok request
  | .separator :: .plain _ :: _, _ => .error ⟨none, .unknownCommand "--"⟩
  | .separator :: words, _ :: arguments => takeGeneral (extras ++ ["--"]) words arguments
  | .stray text :: words, _ :: arguments => takeGeneral (extras ++ [text]) words arguments
  | .option spelling switch attached :: _, _ =>
    match flags generalOptions spelling switch attached with
    | .error fault => .error ⟨none, fault⟩
    | .ok switches => .ok (if switches.head? = some .version then .version else .help none)
  | _, _ => .error ⟨none, .missing "command"⟩

def Request.ofArguments (arguments : List String) : Except Refusal Request :=
  match classifyAll generalOptions arguments with
  | .error fault => .error ⟨none, fault⟩
  | .ok words => takeGeneral [] words arguments

end ParenTree.Command
