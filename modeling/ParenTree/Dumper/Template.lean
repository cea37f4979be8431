import ParenTree.Dumper.Basic

-- Handlers written as data. A template is a value with holes; what goes into a hole is found by dealing with the node and its
-- dumper, from left to right.

namespace ParenTree

inductive Wrapping
  | list
  | tuple
  | group
  | placeholder (tag : Tag)
deriving DecidableEq, Repr

def Wrapping.apply : Wrapping → Datum → Datum
  | list, d => .list [d]
  | tuple, d => .tuple [d]
  | group, d => .group [d]
  | placeholder tag, d => .hold tag d

inductive Template
  | value (d : Datum)
  | list (items : List Template)
  | tuple (items : List Template)
  | group (items : List Template)
  | grouped (items : List Template)
  | placeholder (tag : Tag) (content : Template)
  | nest (times : Nat) (wrapping : Wrapping) (inner : Template)
  | child (field : String)
  | twice (field : String)
  -- The placeholders of all that a field goes through; only among items.
  | each (field : String)
  | dump (field : String)
  | field (name : String)
  | self
  | typeName
  | indent
  | setDepth (depth : Int)
  | format (inner : Template)
  | sequence (steps : List Template)
  | ifNop (field : String) (yes no : Template)
  | raise (text : String)
  | attempt (first rescue : Template)
  | unknown (quotedName : String)

namespace Template

def wrap (wrapping : Wrapping) : Nat → Datum → Datum
  | 0, d => d
  | n + 1, d => wrap wrapping n (wrapping.apply d)

def childOf (o : Datum) (name : String) : Action o Datum := do
  Action.child (← Action.field name)

mutual

def eval (o : Datum) : Template → Action o Datum
  | value d => return d
  | list items => return .list (← evalItems o items)
  | tuple items => return .tuple (← evalItems o items)
  | group items => return .group (← evalItems o items)
  | grouped items => do Action.lift (Datum.grouped (← evalItems o items))
  | placeholder tag content => return .hold tag (← eval o content)
  | nest times wrapping inner => return wrap wrapping times (← eval o inner)
  | child name => childOf o name
  | twice name => do
    let d ← childOf o name
    return .list [d, d]
  | each _ => throw (.unknownForm "'each'")
  | dump name => return .text (← Action.dump (← Action.field name))
  | field name => return (← Action.field name).1
  | self => return o
  | typeName => return .text o.typeName
  | indent => return .text (Layout.indentation (← Action.depth))
  | setDepth depth => do
    Action.setDepth depth
    return .list []
  | format inner => do
    let d ← Action.lift ((← eval o inner).normalize none)
    return .text (← Action.format d)
  | sequence steps => evalLast o .null steps
  | ifNop name yes no => do
    if ← Action.isNop (← Action.field name).1 then eval o yes else eval o no
  | raise text => throw (.raised text)
  | attempt first rescue => Action.orElse (eval o first) (eval o rescue)
  | unknown quotedName => throw (.unknownForm quotedName)

def evalItems (o : Datum) : List Template → Action o (List Datum)
  | [] => return []
  | each name :: items => do
    let children ← (← Action.elements name).mapM Action.child
    return children ++ (← evalItems o items)
  | item :: items => do
    let d ← eval o item
    return d :: (← evalItems o items)

def evalLast (o : Datum) (last : Datum) : List Template → Action o Datum
  | [] => return last
  | step :: steps => do
    let d ← eval o step
    evalLast o d steps

end

def handler (t : Template) : Handler :=
  fun o => t.eval o

end Template
end ParenTree
