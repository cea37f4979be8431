import ParenTree.Source.Token

-- Syntax trees. Every node knows the range of source that it came from. A `nop` stands in for an absent child as well: the
-- operand of a bare return, the other branch of an `if` without `else`.

namespace ParenTree

inductive LiteralKind
  | int
  | float
  | string
  | «true»
  | «false»
deriving DecidableEq, Repr

namespace LiteralKind

def name : LiteralKind → String
  | int => "int"
  | float => "float"
  | string => "string"
  | «true» => "true"
  | «false» => "false"

def ofToken? : Token.Kind → Option LiteralKind
  | .int => some int
  | .float => some float
  | .string => some string
  | .kwTrue => some «true»
  | .kwFalse => some «false»
  | _ => none

end LiteralKind

inductive Node
  | nop (span : Span)
  | literal (span : Span) (kind : LiteralKind) (value : String)
  | ident (span : Span) (name : String)
  | unary (span : Span) (op : String) (operand : Node)
  | binary (span : Span) (left : Node) (op : String) (right : Node)
  | assign (span : Span) (target value : Node)
  | call (span : Span) (callee : Node) (args : List Node)
  | list (span : Span) (items : List Node)
  | block (span : Span) (statements : List Node)
  | conditional (span : Span) (condition thenBlock elseBranch : Node)
  | letStmt (span : Span) (name : String) (value : Node)
  | returnStmt (span : Span) (value : Node)
  | function (span : Span) (name : String) (params : List String) (body : Node)
deriving Repr

namespace Node

def span : Node → Span
  | nop s | literal s _ _ | ident s _ | unary s _ _ | binary s _ _ _ | assign s _ _ | call s _ _ | list s _ | block s _
  | conditional s _ _ _ | letStmt s _ _ | returnStmt s _ | function s _ _ _ => s

def isNop : Node → Bool
  | nop _ => true
  | _ => false

end Node

structure Program where
  span : Span
  body : List Node
deriving Repr

end ParenTree
