import ParenTree.Tree.Datum
import ParenTree.Tree.Fault

-- Normal values. A handler may return texts, lists and tuples; in a normal value texts are literals and lists and tuples are
-- groups, at any depth. What is a literal, a group, a marker or a placeholder already stays as it is, even if a group holds
-- data that are not normal.

namespace ParenTree.Datum

def normalLeaf (context : Option String) : Datum → Except DumpFault Datum
  | text s => .ok (literal s)
  | literal s => .ok (literal s)
  | group items => .ok (group items)
  | marker m => .ok (marker m)
  | unfilled tag => .ok (unfilled tag)
  | filled tag content => .ok (filled tag content)
  | d => .error (.malformed d.typeName context)

-- A list that is being made normal: its items still to come, and the normal values so far, the latest first.
structure Frame where
  items : List Datum
  done : List Datum

namespace Frame

def work : List Frame → Nat
  | [] => 0
  | frame :: outer => weightAll frame.items + 1 + work outer

end Frame

def normalFrames (context : Option String) (items done : List Datum) (outer : List Frame) : Except DumpFault Datum :=
  match items with
  | [] =>
    match outer with
    | [] => .ok (group done.reverse)
    | frame :: outer => normalFrames context frame.items (group done.reverse :: frame.done) outer
  | list inner :: items => normalFrames context inner [] (⟨items, done⟩ :: outer)
  | tuple inner :: items => normalFrames context inner [] (⟨items, done⟩ :: outer)
  | d :: items =>
    match normalLeaf context d with
    | .ok value => normalFrames context items (value :: done) outer
    | .error fault => .error fault
termination_by weightAll items + Frame.work outer
decreasing_by
  · simp only [weightAll, Frame.work]; omega
  · simp only [weightAll, weight, Frame.work]; omega
  · simp only [weightAll, weight, Frame.work]; omega
  · have := d.weight_pos
    simp only [weightAll]; omega

def normalize (context : Option String) : Datum → Except DumpFault Datum
  | list items => normalFrames context items [] []
  | tuple items => normalFrames context items [] []
  | d => normalLeaf context d

def grouped (items : List Datum) : Except DumpFault Datum :=
  normalize none (tuple items)

end ParenTree.Datum
