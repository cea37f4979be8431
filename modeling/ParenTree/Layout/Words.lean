import ParenTree.Tree.Datum
import ParenTree.Tree.Fault

-- From values to words. A group stands between parentheses, a line break is a word of its own that ends with the indentation of
-- the next line. Steps in and out move the depth for all that follows, in whatever group it is.

namespace ParenTree.Layout

def indentation (depth : Int) : String :=
  .ofList (List.replicate (2 * depth.toNat) ' ')

-- The most characters that a text can have, and the most times that one can be repeated.
def textLimit : Nat := 9223372036854775807

inductive Overflow
  | uncountable
  | tooLong
deriving DecidableEq, Repr

def Overflow.message : Overflow → String
  | uncountable => "cannot fit 'int' into an index-sized integer"
  | tooLong => "repeated string is too long"

def overflow? (depth : Int) : Option Overflow :=
  if textLimit < depth.toNat then some .uncountable
  else if textLimit < 2 * depth.toNat then some .tooLong
  else none

theorem length_indentation (depth : Int) : (indentation depth).length = 2 * depth.toNat := by
  rw [indentation, String.length_ofList, List.length_replicate]

theorem overflow?_eq_none_iff {depth : Int} : overflow? depth = none ↔ (indentation depth).length ≤ textLimit := by
  rw [overflow?, length_indentation]
  split
  case isTrue h =>
    simp only [reduceCtorEq, false_iff]
    omega
  case isFalse =>
    split <;> simp only [reduceCtorEq, false_iff, true_iff] <;> omega

-- The words of the data on a stack, behind the words so far, the latest first; and the depth after them.
def emit (depth : Int) (words : List String) (stack : List Datum) : Except DumpFault (List String × Int) :=
  match stack with
  | [] => .ok (words.reverse, depth)
  | .literal s :: stack => emit depth (s :: words) stack
  | .group items :: stack => emit depth ("(" :: words) (items ++ .literal ")" :: stack)
  | .marker .lineBreak :: stack => emit depth (("\n" ++ indentation depth) :: words) stack
  | .marker .indent :: stack => emit (depth + 1) words stack
  | .marker .dedent :: stack => emit (depth - 1) words stack
  | .filled _ content :: stack => emit depth words (content :: stack)
  | d :: _ => .error (.malformed d.typeName (some "flatten"))
termination_by Datum.weightAll stack
decreasing_by all_goals simp only [Datum.weightAll, Datum.weightAll_append, Datum.weight]; omega

def flatten (value : Datum) (depth : Int) : Except DumpFault (List String × Int) :=
  emit depth [] [value]

end ParenTree.Layout
