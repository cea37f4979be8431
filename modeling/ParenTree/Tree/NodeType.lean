-- Types of nodes. Two types may share a name, so a type is told apart by an identity of its own; its lineage lists it and the
-- types it extends, the nearest first.

namespace ParenTree

inductive TypeId
  | builtin (name : String)
  | declared (index : Nat)
deriving DecidableEq, Repr

structure TypeRef where
  id : TypeId
  name : String
deriving DecidableEq, Repr

structure NodeType where
  self : TypeRef
  bases : List TypeRef
deriving DecidableEq, Repr

namespace NodeType

def name (t : NodeType) : String :=
  t.self.name

def lineage (t : NodeType) : List TypeRef :=
  t.self :: t.bases

def isA (t : NodeType) (id : TypeId) : Bool :=
  t.lineage.any (·.id = id)

end NodeType

namespace TypeRef

def builtin (name : String) : TypeRef :=
  ⟨.builtin name, name⟩

def object : TypeRef := builtin "object"

end TypeRef

namespace NodeType

def object : NodeType :=
  ⟨.object, []⟩

def builtin (name : String) : NodeType :=
  ⟨.builtin name, [.object]⟩

def bool : NodeType :=
  ⟨.builtin "bool", [.builtin "int", .object]⟩

def node : NodeType :=
  builtin "Node"

def syntactic (name : String) : NodeType :=
  ⟨.builtin name, [.builtin "Node", .object]⟩

end NodeType
end ParenTree
