import ParenTree.Tree.Datum
import ParenTree.Tree.Fault

-- What a handler does. A handler works on one node and deals with its dumper step by step: it asks for children, runs dumps of
-- its own, looks at the depth. A script is such a course of steps, with all that may follow each answer of the dumper.

namespace ParenTree

-- The steps of a handler on the node `o`. Only parts of the node can be asked for, so dumps come to an end.
inductive Script (o : Datum) (α : Type)
  | done (result : α)
  | request (part : Datum) (isPart : part.IsPartOf o) (next : Nat → Script o α)
  | dump (part : Datum) (isPart : part.IsPartOf o) (next : Except Fault String → Script o α)
  | format (value : Datum) (next : Except Fault String → Script o α)
  | isNop (d : Datum) (next : Bool → Script o α)
  | depth (next : Int → Script o α)
  | setDepth (depth : Int) (next : Script o α)

namespace Script

variable {o : Datum} {α β : Type}

def bind : Script o α → (α → Script o β) → Script o β
  | done a, f => f a
  | request part isPart next, f => request part isPart fun tag => (next tag).bind f
  | dump part isPart next, f => dump part isPart fun text => (next text).bind f
  | format value next, f => format value fun text => (next text).bind f
  | isNop d next, f => isNop d fun b => (next b).bind f
  | depth next, f => depth fun n => (next n).bind f
  | setDepth n next, f => setDepth n (next.bind f)

instance : Monad (Script o) where
  pure := done
  bind := bind

end Script

abbrev Action (o : Datum) := ExceptT Fault (Script o)

namespace Action

variable {o : Datum}

def ofScript {α : Type} (s : Script o (Except Fault α)) : Action o α :=
  ExceptT.mk s

def child (part : { d : Datum // d.IsPartOf o }) : Action o Datum :=
  ofScript (.request part.1 part.2 fun tag => .done (.ok (.unfilled (.asked tag))))

def dump (part : { d : Datum // d.IsPartOf o }) : Action o String :=
  ofScript (.dump part.1 part.2 .done)

def format (value : Datum) : Action o String :=
  ofScript (.format value .done)

def isNop (d : Datum) : Action o Bool :=
  ofScript (.isNop d fun b => .done (.ok b))

def depth : Action o Int :=
  ofScript (.depth fun n => .done (.ok n))

def setDepth (n : Int) : Action o Unit :=
  ofScript (.setDepth n (.done (.ok ())))

def field (name : String) : Action o { d : Datum // d.IsPartOf o } :=
  match o.field? name with
  | some d => return d
  | none => throw (.noField o.typeName name)

def elements (name : String) : Action o (List { d : Datum // d.IsPartOf o }) := do
  let d ← field name
  match d.1.elements? with
  | some es => return es.map fun e => ⟨e.1, Nat.lt_of_le_of_lt e.2 d.2⟩
  | none => throw (.notIterable d.1.typeName)

def lift {α : Type} (r : Except DumpFault α) : Action o α :=
  match r with
  | .ok a => return a
  | .error fault => throw (.dump fault)

def orElse {α : Type} (first rescue : Action o α) : Action o α :=
  tryCatch first fun fault =>
    match fault with
    | .dump _ => rescue
    | fault => throw fault

end Action

abbrev Handler := (o : Datum) → Action o Datum

end ParenTree
