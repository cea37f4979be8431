import ParenTree.Dispatch.Visitor
import ParenTree.Tree.Datum

-- Receivers and visits on them. A receiver has the members of its class, and members of its own that come before them. What a
-- visit gives is a record of the handler that ran: on which receiver, for which node.

namespace ParenTree

-- What may stand behind a name: a handler, with the name of whoever defines it, or a value of a type that cannot be called.
inductive Member
  | handler (owner : String)
  | constant (typeName : String)
deriving DecidableEq, Repr

namespace Member

def isCallable : Member → Bool
  | handler _ => true
  | constant _ => false

end Member

structure Blueprint where
  cls : ReceiverClass
  members : List (String × Member)
deriving DecidableEq, Repr

-- Receivers of one class are told apart by their number.
structure Receiver where
  id : Nat
  blueprint : Blueprint
  own : List (String × Member)
deriving DecidableEq, Repr

namespace Receiver

def member? (r : Receiver) (name : String) : Option Member :=
  (r.own.lookup name).or (r.blueprint.members.lookup name)

def callable (r : Receiver) (name : String) : Bool :=
  ((r.member? name).map Member.isCallable).getD false

def set (r : Receiver) (name : String) (a : Member) : Receiver :=
  { r with own := (name, a) :: r.own.filter (·.1 ≠ name) }

def delete? (r : Receiver) (name : String) : Option Receiver :=
  match r.own.lookup name with
  | some _ => some { r with own := r.own.filter (·.1 ≠ name) }
  | none => none

end Receiver

-- A call of a handler: the receiver that it is bound to, who defines it, its name, and what it is given.
structure Call (α : Type) where
  receiver : Nat
  owner : String
  handler : String
  node : Datum
  args : List α

namespace Visitor

variable {α : Type}

def call (r : Receiver) (name : String) (node : Datum) (args : List α) : Except Fault (Call α) :=
  match r.member? name with
  | some (.handler owner) => .ok ⟨r.id, owner, name, node, args⟩
  | some (.constant typeName) => .error (.notCallable typeName)
  | none => .error (.noField r.blueprint.cls.name name)

def visit (v : Visitor) (r : Receiver) (node : Datum) (args : List α) : Except Fault (Call α) × Visitor :=
  match v.checkArity r.blueprint.cls.name args.length with
  | .error fault => (.error (.dump fault), v)
  | .ok () =>
    match v.resolve r.blueprint.cls r.callable node.type with
    | .error fault => (.error (.dump fault), v)
    | .ok (name, v) => (call r name node args, v)

end Visitor
end ParenTree
