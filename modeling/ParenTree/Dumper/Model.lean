import ParenTree.Dumper.Basic
import ParenTree.Syntax.Object

-- The dump of programs. Operators lead their groups, as in `(+ 1 2)`; blocks, the bodies of functions and the branches of an
-- `if` go on lines of their own, one level deeper.

namespace ParenTree.Model

-- A backslash keeps the character behind it from being looked at, unless that ends the line.
def escapeQuotes : List Char → List Char
  | [] => []
  | '\\' :: c :: cs => if c = '\n' then '\\' :: escapeQuotes (c :: cs) else '\\' :: c :: escapeQuotes cs
  | '\'' :: cs => '\\' :: '\'' :: escapeQuotes cs
  | c :: cs => c :: escapeQuotes cs

def quoteLiteral (value : String) : String :=
  .ofList ('\'' :: escapeQuotes value.toList ++ ['\''])

variable {o : Datum}

def child (name : String) : Action o Datum := do
  Action.child (← Action.field name)

def plain (name : String) : Action o Datum := do
  return (← Action.field name).1

def children (name : String) : Action o (List Datum) := do
  (← Action.elements name).mapM Action.child

def lines (name : String) : Action o (List Datum) := do
  return (← children name).flatMap fun d => [.marker .lineBreak, d]

def indented (items : List Datum) : List Datum :=
  .marker .indent :: items ++ [.marker .dedent]

def dumpList (o : Datum) : Action o Datum :=
  match o.items? with
  | some items => return .list (← items.mapM Action.child)
  | none => throw (.notIterable o.typeName)

def dumpNop (o : Datum) : Action o Datum :=
  return .group []

def dumpProgram (o : Datum) : Action o Datum := do
  return .list (.text "program" :: indented (← lines "body"))

def dumpLiteral (o : Datum) : Action o Datum := do
  match ← plain "kind" with
  | .text "string" =>
    match ← plain "value" with
    | .text value => return .text (quoteLiteral value)
    | d => throw (.notText d.typeName)
  | _ => plain "value"

def dumpIdentifier (o : Datum) : Action o Datum :=
  plain "name"

def dumpUnary (o : Datum) : Action o Datum := do
  return .list [← plain "op", ← child "expr"]

def dumpBinary (o : Datum) : Action o Datum := do
  return .list [← plain "op", ← child "left", ← child "right"]

def dumpAssign (o : Datum) : Action o Datum := do
  return .list [.text "=", ← child "target", ← child "value"]

def dumpCall (o : Datum) : Action o Datum := do
  let callee ← child "callee"
  return .list (.text "call" :: callee :: (← children "args"))

def dumpListExpr (o : Datum) : Action o Datum := do
  return .list (.text "[]" :: (← children "items"))

def dumpBlock (o : Datum) : Action o Datum := do
  if (← plain "statements").isEmpty then return .list [.text "block"]
  else return .list (.text "block" :: indented (← lines "statements"))

def branch (name : String) (d : Datum) : List Datum :=
  [.marker .lineBreak, .group [.literal name, d]]

def dumpConditional (o : Datum) : Action o Datum := do
  let condition ← child "condition"
  let thenBlock ← child "then_block"
  let elseBranch ← Action.field "else_branch"
  let others ← if ← Action.isNop elseBranch.1 then pure [] else branch "else" <$> Action.child elseBranch
  return .list (.text "if" :: condition :: indented (branch "then" thenBlock ++ others))

def dumpLet (o : Datum) : Action o Datum := do
  return .list [.text "let", ← plain "name", ← child "expr"]

def dumpReturn (o : Datum) : Action o Datum := do
  let value ← Action.field "expr"
  if ← Action.isNop value.1 then return .list [.text "return"]
  else return .list [.text "return", ← Action.child value]

def dumpFunction (o : Datum) : Action o Datum := do
  let name ← plain "name"
  let params ← Action.elements "params"
  let body ← child "body"
  return .list (.text "fn" :: name :: .list (params.map Subtype.val) :: indented [.marker .lineBreak, body])

def handlers : List (String × Handler) :=
  [("dump_list", dumpList), ("dump_Nop", dumpNop), ("dump_Program", dumpProgram),
   ("dump_LiteralExpr", dumpLiteral), ("dump_IdentifierExpr", dumpIdentifier), ("dump_UnaryExpr", dumpUnary),
   ("dump_BinaryExpr", dumpBinary), ("dump_AssignExpr", dumpAssign), ("dump_CallExpr", dumpCall),
   ("dump_ListExpr", dumpListExpr), ("dump_BlockExpr", dumpBlock), ("dump_IfExpr", dumpConditional),
   ("dump_LetStmt", dumpLet), ("dump_ReturnStmt", dumpReturn), ("dump_FunctionDecl", dumpFunction)]

end ParenTree.Model

namespace ParenTree

def DumperClass.model : DumperClass :=
  DumperClass.plain.extend "ModelTreeDumper" Model.handlers (some [.builtin "Nop"])

def Program.expand (p : Program) : Except Fault Datum × Dumper :=
  (Dumper.new .model 0).expand p.toDatum

def Program.dump (p : Program) (depth : Int) : Except Fault String × Dumper :=
  (Dumper.new .model depth).dump p.toDatum

end ParenTree
