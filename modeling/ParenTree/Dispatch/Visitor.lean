import ParenTree.Tree.Fault
import ParenTree.Tree.NodeType

-- Finding the handler of a node. A handler is named after the verb of its visitor and a type; the nearest type in the lineage
-- of the node whose handler can be called decides. The name that was found is kept for the class of the receiver and the type
-- of the node, and is not looked for again.

namespace ParenTree

structure ReceiverClass where
  id : Nat
  name : String
deriving DecidableEq, Repr

structure Occasion where
  receiver : Nat
  node : NodeType
deriving DecidableEq, Repr

structure Visitor where
  verb : String
  minArgs : Int
  maxArgs : Option Int
  cache : List (Occasion × String)
deriving DecidableEq, Repr

namespace Visitor

def new (verb : String) (minArgs : Int) (maxArgs : Option Int) : Visitor :=
  ⟨verb, minArgs, maxArgs, []⟩

def exceeds (given : Nat) : Option Int → Bool
  | some maxArgs => maxArgs < given
  | none => false

def checkArity (v : Visitor) (receiver : String) (given : Nat) : Except DumpFault Unit :=
  if (given : Int) < v.minArgs || exceeds given v.maxArgs then .error (.arity receiver given v.minArgs v.maxArgs)
  else .ok ()

def handlerName (v : Visitor) (type : TypeRef) : String :=
  v.verb ++ "_" ++ type.name

def lookup? (v : Visitor) (callable : String → Bool) (type : NodeType) : Option String :=
  (type.lineage.map v.handlerName).find? callable

def cached? (v : Visitor) (receiver : ReceiverClass) (type : NodeType) : Option String :=
  v.cache.lookup ⟨receiver.id, type⟩

def remember (v : Visitor) (receiver : ReceiverClass) (type : NodeType) (name : String) : Visitor :=
  { v with cache := (⟨receiver.id, type⟩, name) :: v.cache }

-- The name of the handler of a type, and the visitor that knows it from now on. A failure is not kept.
def resolve (v : Visitor) (receiver : ReceiverClass) (callable : String → Bool) (type : NodeType) :
    Except DumpFault (String × Visitor) :=
  match v.cached? receiver type with
  | some name => .ok (name, v)
  | none =>
    match v.lookup? callable type with
    | some name => .ok (name, v.remember receiver type name)
    | none => .error (.noHandler receiver.name type.name v.verb)

end Visitor
end ParenTree
