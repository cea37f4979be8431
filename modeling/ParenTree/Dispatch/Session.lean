import ParenTree.Dispatch.Receiver
import ParenTree.Text.Quoted

-- A visitor at work among receivers whose members may change between visits.

namespace ParenTree.Dispatch

structure Session where
  visitor : Visitor
  main : String
  receivers : List (String × Receiver)

inductive Step (α : Type)
  | visit (node : Datum) (args : List α)
  | visitOn (receiver : String) (node : Datum) (args : List α)
  | set (receiver name : String) (member : Member)
  | delete (receiver name : String)

namespace Session

variable {α : Type}

def replace (s : Session) (name : String) (r : Receiver) : Session :=
  { s with receivers := s.receivers.map fun entry => if entry.1 = name then (name, r) else entry }

def visitOn (s : Session) (receiver : String) (node : Datum) (args : List α) :
    Except Fault (Option (Call α)) × Session :=
  match s.receivers.lookup receiver with
  | none => (.error (.unknownForm (Text.quoted receiver)), s)
  | some r =>
    match s.visitor.visit r node args with
    | (result, visitor) => (result.map some, { s with visitor := visitor })

def perform (s : Session) : Step α → Except Fault (Option (Call α)) × Session
  | .visit node args => s.visitOn s.main node args
  | .visitOn receiver node args => s.visitOn receiver node args
  | .set receiver name member =>
    match s.receivers.lookup receiver with
    | none => (.error (.unknownForm (Text.quoted receiver)), s)
    | some r => (.ok none, s.replace receiver (r.set name member))
  | .delete receiver name =>
    match s.receivers.lookup receiver with
    | none => (.error (.unknownForm (Text.quoted receiver)), s)
    | some r =>
      match r.delete? name with
      | some r => (.ok none, s.replace receiver r)
      | none => (.error (.noField r.blueprint.cls.name name), s)

def run (s : Session) : List (Step α) → List (Except Fault (Option (Call α))) × Session
  | [] => ([], s)
  | step :: steps =>
    let (answer, s) := s.perform step
    let (answers, s) := s.run steps
    (answer :: answers, s)

end Session

abbrev Blueprints := List (String × Blueprint)

-- Declares one more class. Its constants, which come with their types, win over handlers of the same name, and its own members
-- over inherited ones.
def Blueprints.declare (known : Blueprints) (name : String) (bases handlers : List String)
    (constants : List (String × String)) : Blueprints :=
  let inherited := bases.flatMap fun base => ((known.lookup base).map Blueprint.members).getD []
  let own := constants.map (fun c => (c.1, Member.constant c.2)) ++ handlers.map (·, Member.handler name)
  (name, ⟨⟨known.length, name⟩, own ++ inherited⟩) :: known

-- One receiver of each class that is listed, with nothing of its own. Each has a number that no other has.
def Session.start (visitor : Visitor) (main : String) (classes : List (String × Blueprint)) : Session :=
  ⟨visitor, main, classes.zipIdx.map fun (entry, id) => (entry.1, ⟨id, entry.2, []⟩)⟩

end ParenTree.Dispatch
