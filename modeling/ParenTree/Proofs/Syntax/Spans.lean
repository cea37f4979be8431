import ParenTree.Syntax.Node

-- Trees apart from where they stand in the source.

namespace ParenTree

namespace Node

mutual

-- A tree with all of its spans and the values of its literals changed.
def map (onSpan : Span → Span) (onValue : LiteralKind → String → String) : Node → Node
  | nop s => nop (onSpan s)
  | literal s kind value => literal (onSpan s) kind (onValue kind value)
  | ident s name => ident (onSpan s) name
  | unary s op operand => unary (onSpan s) op (operand.map onSpan onValue)
  | binary s left op right => binary (onSpan s) (left.map onSpan onValue) op (right.map onSpan onValue)
  | assign s target value => assign (onSpan s) (target.map onSpan onValue) (value.map onSpan onValue)
  | call s callee args => call (onSpan s) (callee.map onSpan onValue) (mapAll onSpan onValue args)
  | list s items => list (onSpan s) (mapAll onSpan onValue items)
  | block s statements => block (onSpan s) (mapAll onSpan onValue statements)
  | conditional s condition thenBlock elseBranch =>
    conditional (onSpan s) (condition.map onSpan onValue) (thenBlock.map onSpan onValue)
      (elseBranch.map onSpan onValue)
  | letStmt s name value => letStmt (onSpan s) name (value.map onSpan onValue)
  | returnStmt s value => returnStmt (onSpan s) (value.map onSpan onValue)
  | function s name params body => function (onSpan s) name params (body.map onSpan onValue)

def mapAll (onSpan : Span → Span) (onValue : LiteralKind → String → String) : List Node → List Node
  | [] => []
  | n :: ns => n.map onSpan onValue :: mapAll onSpan onValue ns

end

theorem mapAll_eq_map (onSpan : Span → Span) (onValue : LiteralKind → String → String) (ns : List Node) :
    mapAll onSpan onValue ns = ns.map (map onSpan onValue) := by
  induction ns
  case nil => rfl
  case cons n ns hi => simp [mapAll, hi]

end Node

def Program.map (onSpan : Span → Span) (onValue : LiteralKind → String → String) (p : Program) : Program :=
  ⟨onSpan p.span, Node.mapAll onSpan onValue p.body⟩

-- The span of nothing in no file.
def Span.blank : Span := ⟨"", 0, 0, 0, 0⟩

-- A program without its spans.
def Program.bare : Program → Program :=
  Program.map (fun _ => .blank) fun _ value => value

end ParenTree
