import ParenTree.Proofs.Layout.Flattening

-- What a handler returns is made normal with a stack on which the lists that are not done lie open. What comes out is what the
-- recursion over lists and tuples gives, and laying it out loses nothing of what was in them.

namespace ParenTree

namespace Datum

open Layout (flatten flatten_eq)

mutual

-- The leaves of what a handler returns. Only lists and tuples are entered, so groups and placeholders are leaves here.
def rawLeaves : Datum → List Datum
  | list items => rawLeavesAll items
  | tuple items => rawLeavesAll items
  | d => [d]

def rawLeavesAll : List Datum → List Datum
  | [] => []
  | d :: ds => d.rawLeaves ++ rawLeavesAll ds

end

-- Leaves that have a normal value.
def isAccepted : Datum → Bool
  | text _ | literal _ | group _ | marker _ | unfilled _ | filled _ _ => true
  | _ => false

-- Leaves that other data may be inside of.
def isCompound : Datum → Bool
  | group _ | unfilled _ | filled _ _ => true
  | _ => false

mutual

-- The normal value of a datum, as if every leaf had one.
def recast : Datum → Datum
  | list items => group (recastAll items)
  | tuple items => group (recastAll items)
  | text s => literal s
  | d => d

def recastAll : List Datum → List Datum
  | [] => []
  | d :: ds => d.recast :: recastAll ds

end

mutual

-- The words of what a handler returns, leaf by leaf: each leaf is laid out at the depth that the one before it leaves, and
-- parentheses stand around those of a list or tuple.
def spread (depth : Int) : Datum → Except DumpFault (List String × Int)
  | list items => do
    let inside ← spreadAll depth items
    return ("(" :: inside.1 ++ [")"], inside.2)
  | tuple items => do
    let inside ← spreadAll depth items
    return ("(" :: inside.1 ++ [")"], inside.2)
  | text s => return ([s], depth)
  | leaf => flatten leaf depth

def spreadAll (depth : Int) : List Datum → Except DumpFault (List String × Int)
  | [] => return ([], depth)
  | d :: ds => do
    let first ← d.spread depth
    let others ← spreadAll first.2 ds
    return (first.1 ++ others.1, others.2)

end

section

variable {context : Option String} {items : List Datum}

theorem normalAll_eq_checked (h : ∀ d ∈ items, d.normal context = checked isAccepted context d.rawLeaves d.recast) :
    normalAll context items = checked isAccepted context (rawLeavesAll items) (recastAll items) := by
  induction items
  case nil => rfl
  case cons d ds hi =>
    obtain ⟨hd, hs⟩ := List.forall_mem_cons.mp h
    rw [normalAll, hd, hi hs]
    exact (checked_append d.rawLeaves (rawLeavesAll ds) d.recast (recastAll ds) List.cons).symm

theorem normal_eq_checked (context : Option String) (d : Datum) :
    d.normal context = checked isAccepted context d.rawLeaves d.recast := by
  induction d using inductInside
  case list items hi | tuple items hi =>
    rw [normal, normalAll_eq_checked hi]
    exact (checked_map (rawLeavesAll items) (recastAll items) group).symm
  all_goals rfl

theorem allWords_recastAll (h : ∀ d ∈ items, ∀ depth, d.recast.words depth = d.spread depth) (depth : Int) :
    allWords depth (recastAll items) = spreadAll depth items := by
  induction items generalizing depth
  case nil => rfl
  case cons d ds hi =>
    obtain ⟨hd, hs⟩ := List.forall_mem_cons.mp h
    simp only [recastAll, allWords, spreadAll, hd, hi hs]

theorem words_recast (d : Datum) (depth : Int) : d.recast.words depth = d.spread depth := by
  induction d using inductInside generalizing depth
  case list items hi | tuple items hi => rw [recast, words, spread, allWords_recastAll hi]
  case text => rfl
  all_goals exact (flatten_eq _ _).symm

theorem leavesAll_recastAll (h : ∀ d ∈ items, d.recast.leaves = d.rawLeaves.flatMap fun leaf => leaf.recast.leaves) :
    leavesAll (recastAll items) = (rawLeavesAll items).flatMap fun leaf => leaf.recast.leaves := by
  induction items
  case nil => rfl
  case cons d ds hi =>
    obtain ⟨hd, hs⟩ := List.forall_mem_cons.mp h
    rw [recastAll, leavesAll, rawLeavesAll, List.flatMap_append, hd, hi hs]

theorem leaves_recast (d : Datum) : d.recast.leaves = d.rawLeaves.flatMap fun leaf => leaf.recast.leaves := by
  induction d using inductInside
  case list items hi | tuple items hi => exact leavesAll_recastAll hi
  all_goals exact (List.flatMap_singleton ..).symm

end

-- Of the leaves that have a normal value, only those with something inside may be impossible to lay out.
theorem printable_recast_leaf {leaf : Datum} (h : leaf.isAccepted) (depth : Int) :
    (∀ l ∈ leaf.recast.leaves, l.isPrintable) ↔ (leaf.isCompound → ∃ out, flatten leaf depth = .ok out) := by
  rw [flatten_eq, words_ok_iff]
  cases leaf
  case group | filled | unfilled => exact ⟨fun h _ => h, fun h => h rfl⟩
  case text | literal | marker => simp [recast, leaves, isPrintable, isCompound]
  all_goals cases h

end Datum

namespace Layout

open Datum

-- Whatever a handler returns has the normal value that the recursion gives, or is refused for its first leaf without one. A
-- normal value can be laid out if all leaves with something inside can, and then it has the words of its leaves in order.
theorem normalize_eq_recursion (d : Datum) (context : Option String) :
    match d.rawLeaves.find? (!·.isAccepted) with
    | some leaf => d.normalize context = .error (.malformed leaf.typeName context)
    | none => d.normalize context = .ok d.recast ∧
      (∀ depth depth', (∃ out, flatten d.recast depth = .ok out) ↔
        ∀ leaf ∈ d.rawLeaves, leaf.isCompound → ∃ out, flatten leaf depth' = .ok out) ∧
      ∀ depth, flatten d.recast depth = d.spread depth := by
  rw [normalize_eq_normal, normal_eq_checked, checked]
  cases hf : d.rawLeaves.find? (!·.isAccepted)
  case some leaf => rfl
  case none =>
    have ha : ∀ leaf ∈ d.rawLeaves, leaf.isAccepted := by simpa using hf
    refine ⟨rfl, fun depth depth' => ?_, fun depth => ?_⟩
    case refine_1 =>
      rw [flatten_eq, words_ok_iff, leaves_recast, List.forall_mem_flatMap]
      exact forall₂_congr fun leaf hl => printable_recast_leaf (ha leaf hl) depth'
    case refine_2 => rw [flatten_eq, words_recast]

end Layout
end ParenTree
