import ParenTree.Number.Binary64
import ParenTree.Tree.NodeType

-- Data: whatever a tree may hold and whatever a handler may hand over to be printed. Trees are made of instances of node types
-- whose fields are data again. Printable values are literals, groups and markers, and placeholders for values that come later.

namespace ParenTree

inductive Marker
  | lineBreak
  | indent
  | dedent
deriving DecidableEq, Repr

-- What tells placeholders apart: a number, and whether a handler asked for the placeholder or it was handed in.
inductive Tag
  | asked (n : Nat)
  | given (n : Nat)
deriving DecidableEq, Repr

inductive Datum
  | text (s : String)
  | int (n : Int)
  | float (x : Binary64)
  | bool (b : Bool)
  | null
  | list (items : List Datum)
  | tuple (items : List Datum)
  | dict
  | literal (s : String)
  | group (items : List Datum)
  | marker (m : Marker)
  | unfilled (tag : Tag)
  | filled (tag : Tag) (content : Datum)
  | node (type : NodeType) (fields : List (String × Datum))

namespace Datum

def type : Datum → NodeType
  | text _ => .builtin "str"
  | int _ => .builtin "int"
  | float _ => .builtin "float"
  | bool _ => .bool
  | null => .builtin "NoneType"
  | list _ => .builtin "list"
  | tuple _ => .builtin "tuple"
  | dict => .builtin "dict"
  | literal _ => .builtin "Literal"
  | group _ => .builtin "Group"
  | marker _ => .builtin "Marker"
  | unfilled _ | filled _ _ => .builtin "Deferred"
  | node type _ => type

def typeName (d : Datum) : String :=
  d.type.name

mutual

-- A measure that is smaller for every part of a datum. What is written with brackets weighs two more than its items, so that a
-- list of its items and one bracket is lighter still.
def weight : Datum → Nat
  | list items | tuple items | group items => 2 + weightAll items
  | filled _ content => 1 + content.weight
  | node _ fields => 1 + weightFields fields
  | _ => 1

def weightAll : List Datum → Nat
  | [] => 0
  | d :: ds => d.weight + weightAll ds

def weightFields : List (String × Datum) → Nat
  | [] => 0
  | f :: fs => weightField f + weightFields fs

def weightField : String × Datum → Nat
  | (_, d) => d.weight

end

theorem weight_pos (d : Datum) : 0 < d.weight := by
  cases d <;> simp only [weight] <;> omega

theorem weight_le_weightAll {d : Datum} {ds : List Datum} (h : d ∈ ds) : d.weight ≤ weightAll ds := by
  induction ds with
  | nil => cases h
  | cons e es ih =>
    simp only [weightAll]
    cases h with
    | head => omega
    | tail _ h => have := ih h; omega

theorem weightAll_append (ds es : List Datum) : weightAll (ds ++ es) = weightAll ds + weightAll es := by
  induction ds with
  | nil => simp [weightAll]
  | cons d ds ih => simp only [List.cons_append, weightAll, ih]; omega

def IsPartOf (d o : Datum) : Prop :=
  d.weight < o.weight

theorem weight_lookup_le {fields : List (String × Datum)} {f : String} {d : Datum}
    (h : fields.lookup f = some d) : d.weight ≤ weightFields fields := by
  induction fields with
  | nil => simp at h
  | cons field fields ih =>
    obtain ⟨g, e⟩ := field
    simp only [weightFields, weightField]
    simp only [List.lookup_cons] at h
    split at h
    · cases h; omega
    · have := ih h; omega

def field? (o : Datum) (f : String) : Option { d : Datum // d.IsPartOf o } :=
  match o with
  | node _ fields =>
    match h : fields.lookup f with
    | some d => some ⟨d, by have := weight_lookup_le h; simp only [IsPartOf, weight]; omega⟩
    | none => none
  | _ => none

-- The data that come one after the other when a datum is gone through; `none` if that is not possible. No one is heavier than
-- the datum.
def elements? (d : Datum) : Option (List { e : Datum // e.weight ≤ d.weight }) :=
  match d with
  | list items =>
    some (items.attach.map fun e =>
      ⟨e.1, by have := weight_le_weightAll e.2; simp only [weight]; omega⟩)
  | tuple items =>
    some (items.attach.map fun e =>
      ⟨e.1, by have := weight_le_weightAll e.2; simp only [weight]; omega⟩)
  | text s => some (s.toList.map fun c => ⟨text (.singleton c), by simp [weight]⟩)
  | dict => some []
  | _ => none

def items? (o : Datum) : Option (List { d : Datum // d.IsPartOf o }) :=
  match o with
  | list items =>
    some (items.attach.map fun d =>
      ⟨d.1, by have := weight_le_weightAll d.2; simp only [IsPartOf, weight]; omega⟩)
  | _ => none

def isEmpty : Datum → Bool
  | text s => s = ""
  | int n => n = 0
  | float x => x.isZero
  | bool b => !b
  | null | dict => true
  | list items | tuple items => items.isEmpty
  | _ => false

def display : Datum → String
  | text s => s
  | int n => toString n
  | float x => x.text
  | bool true => "True"
  | bool false => "False"
  | null => "None"
  | d => "<" ++ d.typeName ++ ">"

def hold (tag : Tag) : Datum → Datum
  | null => unfilled tag
  | d => filled tag d

def word (d : Datum) : Datum :=
  literal d.display

mutual

-- Equality of contents. Numbers compare by value whatever their type, a list differs from a tuple, and a placeholder is equal
-- to itself only.
def same : Datum → Datum → Bool
  | text s, text t => s = t
  | float x, float y => x.same y
  | float x, int n => x.isInt n
  | float x, bool b => x.isInt (if b then 1 else 0)
  | int n, float y => y.isInt n
  | int n, int m => n = m
  | int n, bool b => n = if b then 1 else 0
  | bool b, float y => y.isInt (if b then 1 else 0)
  | bool b, int n => n = if b then 1 else 0
  | bool b, bool c => b = c
  | null, null => true
  | list xs, list ys => sameAll xs ys
  | tuple xs, tuple ys => sameAll xs ys
  | dict, dict => true
  | literal s, literal t => s = t
  | group xs, group ys => sameAll xs ys
  | marker m, marker k => m = k
  | unfilled i, unfilled j => i = j
  | filled i _, filled j _ => i = j
  | _, _ => false

def sameAll : List Datum → List Datum → Bool
  | [], [] => true
  | x :: xs, y :: ys => x.same y && sameAll xs ys
  | _, _ => false

end

end Datum
end ParenTree
