import ParenTree.Syntax.Node
import ParenTree.Tree.Datum

-- Syntax trees as data. Each node becomes an object of the type of its construct, with its parts as fields.

namespace ParenTree

namespace Span

def toDatum (s : Span) : Datum :=
  .node (.builtin "Span")
    [("file", .text s.file), ("line", .int s.line), ("col", .int s.col), ("start", .int s.start), ("end", .int s.stop)]

end Span

namespace Node

def typeName : Node → String
  | nop .. => "Nop"
  | literal .. => "LiteralExpr"
  | ident .. => "IdentifierExpr"
  | unary .. => "UnaryExpr"
  | binary .. => "BinaryExpr"
  | assign .. => "AssignExpr"
  | call .. => "CallExpr"
  | list .. => "ListExpr"
  | block .. => "BlockExpr"
  | conditional .. => "IfExpr"
  | letStmt .. => "LetStmt"
  | returnStmt .. => "ReturnStmt"
  | function .. => "FunctionDecl"

def object (name : String) (span : Span) (fields : List (String × Datum)) : Datum :=
  .node (.syntactic name) (("span", span.toDatum) :: fields)

mutual

def toDatum : Node → Datum
  | nop s => object "Nop" s []
  | literal s kind value => object "LiteralExpr" s [("value", .text value), ("kind", .text kind.name)]
  | ident s name => object "IdentifierExpr" s [("name", .text name)]
  | unary s op operand => object "UnaryExpr" s [("op", .text op), ("expr", operand.toDatum)]
  | binary s left op right =>
    object "BinaryExpr" s [("left", left.toDatum), ("op", .text op), ("right", right.toDatum)]
  | assign s target value => object "AssignExpr" s [("target", target.toDatum), ("value", value.toDatum)]
  | call s callee args => object "CallExpr" s [("callee", callee.toDatum), ("args", .list (toData args))]
  | list s items => object "ListExpr" s [("items", .list (toData items))]
  | block s statements => object "BlockExpr" s [("statements", .list (toData statements))]
  | conditional s condition thenBlock elseBranch =>
    object "IfExpr" s
      [("condition", condition.toDatum), ("then_block", thenBlock.toDatum), ("else_branch", elseBranch.toDatum)]
  | letStmt s name value => object "LetStmt" s [("name", .text name), ("expr", value.toDatum)]
  | returnStmt s value => object "ReturnStmt" s [("expr", value.toDatum)]
  | function s name params body =>
    object "FunctionDecl" s [("name", .text name), ("params", .list (params.map .text)), ("body", body.toDatum)]

def toData : List Node → List Datum
  | [] => []
  | n :: ns => n.toDatum :: toData ns

end

end Node

def Program.toDatum (p : Program) : Datum :=
  Node.object "Program" p.span [("body", .list (Node.toData p.body))]

end ParenTree
