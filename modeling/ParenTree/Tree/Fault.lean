-- What can go wrong while a tree is dumped, and how it is said.

namespace ParenTree

inductive DumpFault
  | noHandler (receiver nodeType verb : String)
  | arity (receiver : String) (given minArgs : Int) (maxArgs : Option Int)
  | malformed (valueType : String) (context : Option String)
deriving DecidableEq, Repr

namespace DumpFault

def expected (minArgs : Int) : Option Int → String
  | none => "at least " ++ toString minArgs
  | some maxArgs =>
    if minArgs = maxArgs then toString minArgs else toString minArgs ++ ".." ++ toString maxArgs

def origin : Option String → String
  | some context => if context = "" then "" else " (from " ++ context ++ ")"
  | none => ""

def message : DumpFault → String
  | noHandler receiver nodeType verb =>
    receiver ++ " can't " ++ verb ++ " instance of " ++ nodeType ++ ": no " ++ verb ++ "_" ++ nodeType ++
      " handler on any base class"
  | arity receiver given minArgs maxArgs =>
    receiver ++ " visited with " ++ toString given ++ " extra arguments, expected " ++ expected minArgs maxArgs
  | malformed valueType context =>
    "unsupported dump value of type " ++ valueType ++ origin context

end DumpFault

inductive Fault
  | dump (fault : DumpFault)
  | noField (typeName field : String)
  | notIterable (typeName : String)
  | notText (typeName : String)
  | notCallable (typeName : String)
  | raised (text : String)
  | unknownForm (quotedName : String)
deriving DecidableEq, Repr

def Fault.message : Fault → String
  | dump fault => fault.message
  | noField typeName field => "'" ++ typeName ++ "' object has no attribute '" ++ field ++ "'"
  | notIterable typeName => "'" ++ typeName ++ "' object is not iterable"
  | notText typeName => "expected string or bytes-like object, got '" ++ typeName ++ "'"
  | notCallable typeName => "'" ++ typeName ++ "' object is not callable"
  | raised text => text
  | unknownForm quotedName => quotedName

end ParenTree
