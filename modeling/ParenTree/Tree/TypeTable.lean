import ParenTree.Tree.Datum

-- Declared types. The lineage of a type with several bases is merged from theirs so that every type comes before what it
-- extends and the bases keep their order.

namespace ParenTree

inductive LineageFault
  | noConsistentOrder (bases : List String)
  | duplicateBase (name : String)
deriving DecidableEq, Repr

def LineageFault.message : LineageFault → String
  | noConsistentOrder bases =>
    "Cannot create a consistent method resolution\norder (MRO) for bases " ++ ", ".intercalate bases
  | duplicateBase name => "duplicate base class " ++ name

namespace Lineage

def blocked (t : TypeRef) (lists : List (List TypeRef)) : Bool :=
  lists.any fun list => (list.drop 1).any (·.id = t.id)

def candidate? (lists : List (List TypeRef)) : Option TypeRef :=
  (lists.filterMap List.head?).find? fun t => !blocked t lists

def advance (t : TypeRef) (lists : List (List TypeRef)) : List (List TypeRef) :=
  lists.map fun list =>
    match list with
    | [] => []
    | u :: us => if u.id = t.id then us else u :: us

def heads (lists : List (List TypeRef)) : List TypeRef :=
  (lists.filterMap List.head?).foldl (fun seen t => if seen.any (·.id = t.id) then seen else seen ++ [t]) []

-- Merges lineages. Every round takes a type off some list, so there are no more rounds than types.
def merge (lists : List (List TypeRef)) : (rounds : Nat) → Except LineageFault (List TypeRef)
  | 0 => .ok []
  | rounds + 1 =>
    if lists.all List.isEmpty then .ok []
    else
      match candidate? lists with
      | some t => (merge (advance t lists) rounds).map (t :: ·)
      | none => .error (.noConsistentOrder ((heads lists).map TypeRef.name))

def duplicate? : List TypeRef → Option TypeRef
  | [] => none
  | t :: ts => if ts.any (·.id = t.id) then some t else duplicate? ts

def ofBases (bases : List NodeType) : Except LineageFault (List TypeRef) :=
  match duplicate? (bases.map NodeType.self) with
  | some t => .error (.duplicateBase t.name)
  | none =>
    let lists := bases.map NodeType.lineage ++ [bases.map NodeType.self]
    merge lists lists.flatten.length

end Lineage

structure TypeTable where
  entries : List (String × NodeType)
  declared : Nat

namespace TypeTable

def constructs : List (String × Option String) :=
  [("Nop", none), ("LiteralExpr", none), ("IdentifierExpr", none), ("UnaryExpr", none), ("BinaryExpr", none),
   ("AssignExpr", none), ("CallExpr", some "args"), ("ListExpr", some "items"), ("BlockExpr", some "statements"),
   ("IfExpr", none), ("LetStmt", none), ("ReturnStmt", none), ("FunctionDecl", none), ("Program", some "body")]

def initial : TypeTable where
  entries := ("object", .object) :: ("Node", .node) :: constructs.map fun c => (c.1, .syntactic c.1)
  declared := 0

def find? (table : TypeTable) (key : String) : Option NodeType :=
  table.entries.lookup key

def get (table : TypeTable) (key : String) : NodeType :=
  (table.find? key).getD .object

def declare (table : TypeTable) (key name : String) (bases : List String) : Except LineageFault TypeTable := do
  let lineage ← Lineage.ofBases (bases.map table.get)
  let type : NodeType := ⟨⟨.declared table.declared, name⟩, lineage⟩
  return ⟨(key, type) :: table.entries, table.declared + 1⟩

def defaultLists (type : NodeType) : List String :=
  type.lineage.filterMap fun t =>
    match t.id with
    | .builtin name => (constructs.lookup name).join
    | .declared _ => none

def create (type : NodeType) (fields : List (String × Datum)) : Datum :=
  .node type (fields ++ (defaultLists type).map (·, .list []))

end TypeTable
end ParenTree
