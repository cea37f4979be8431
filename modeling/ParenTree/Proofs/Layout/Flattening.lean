import ParenTree.Proofs.Layout.Words

-- The words of a value are found with a stack on which the groups that are not done lie open. What comes out is what the
-- recursion over the value gives, and what cannot be printed is blamed in the order of that recursion.

namespace ParenTree

namespace Datum

mutual

-- The leaves of a value from left to right. Only groups and placeholders with a content have something inside.
def leaves : Datum → List Datum
  | group items => leavesAll items
  | filled _ content => content.leaves
  | d => [d]

def leavesAll : List Datum → List Datum
  | [] => []
  | d :: ds => d.leaves ++ leavesAll ds

end

def isPrintable : Datum → Bool
  | literal _ | marker _ => true
  | _ => false

mutual

-- The words of a value that begins at `depth`, and the depth behind it, as if every leaf could be printed. The depth goes from
-- each item to the next, out of groups as well as into them.
def lay (depth : Int) : Datum → List String × Int
  | literal s => ([s], depth)
  | group items => ("(" :: (layAll depth items).1 ++ [")"], (layAll depth items).2)
  | marker .lineBreak => (["\n" ++ .ofList (List.replicate (2 * (max depth 0).toNat) ' ')], depth)
  | marker .indent => ([], depth + 1)
  | marker .dedent => ([], depth - 1)
  | filled _ content => content.lay depth
  | _ => ([], depth)

def layAll (depth : Int) : List Datum → List String × Int
  | [] => ([], depth)
  | d :: ds => ((d.lay depth).1 ++ (layAll (d.lay depth).2 ds).1, (layAll (d.lay depth).2 ds).2)

end

-- An outcome, unless one of the leaves does not fit.
def checked {α : Type} (fits : Datum → Bool) (context : Option String) (ds : List Datum) (outcome : α) : Except DumpFault α :=
  match ds.find? (!fits ·) with
  | some leaf => .error (.malformed leaf.typeName context)
  | none => .ok outcome

section

variable {α β γ : Type} {fits : Datum → Bool} {context : Option String}

theorem checked_append (ds es : List Datum) (a : α) (b : β) (f : α → β → γ) :
    checked fits context (ds ++ es) (f a b) = (do
      let x ← checked fits context ds a
      let y ← checked fits context es b
      return f x y) := by
  simp only [checked, List.find?_append]
  cases ds.find? (!fits ·) <;> cases es.find? (!fits ·) <;> rfl

theorem checked_map (ds : List Datum) (a : α) (f : α → β) :
    checked fits context ds (f a) = (do
      let x ← checked fits context ds a
      return f x) := by
  simp only [checked]
  cases ds.find? (!fits ·) <;> rfl

theorem checked_ok_iff {ds : List Datum} {a : α} :
    (∃ out, checked fits context ds a = .ok out) ↔ ∀ leaf ∈ ds, fits leaf := by
  rw [checked]
  cases hf : ds.find? (!fits ·)
  case none =>
    have hn : ∀ leaf ∈ ds, fits leaf := by simpa using hf
    exact iff_of_true ⟨a, rfl⟩ hn
  case some leaf =>
    have hl : fits leaf = false := by simpa using List.find?_some hf
    refine iff_of_false ?_ fun h => ?_
    case refine_1 => rintro ⟨_, ⟨⟩⟩
    case refine_2 => exact Bool.false_ne_true (hl.symm.trans (h leaf (List.mem_of_find?_eq_some hf)))

end

theorem indentation_eq (depth : Int) :
    Layout.indentation depth = .ofList (List.replicate (2 * (max depth 0).toNat) ' ') := by
  have h : (max depth 0).toNat = depth.toNat := by omega
  rw [h, Layout.indentation]

theorem allWords_eq_checked {ds : List Datum}
    (h : ∀ d ∈ ds, ∀ depth, d.words depth = checked isPrintable (some "flatten") d.leaves (d.lay depth)) (depth : Int) :
    allWords depth ds = checked isPrintable (some "flatten") (leavesAll ds) (layAll depth ds) := by
  induction ds generalizing depth
  case nil => rfl
  case cons d ds hi =>
    obtain ⟨hd, hs⟩ := List.forall_mem_cons.mp h
    rw [allWords, hd, leavesAll, layAll]
    rw [checked_append d.leaves (leavesAll ds) (d.lay depth) (layAll (d.lay depth).2 ds) fun x y => (x.1 ++ y.1, y.2)]
    -- The items behind begin at the depth that the first leaves, if it leaves one.
    cases hc : d.leaves.find? (!·.isPrintable)
    case some => simp only [checked, hc, bind, Except.bind]
    case none => simp only [checked, hc, bind, Except.bind, hi hs]

theorem words_eq_checked (d : Datum) (depth : Int) :
    d.words depth = checked isPrintable (some "flatten") d.leaves (d.lay depth) := by
  induction d using inductInside generalizing depth
  case group items hi =>
    rw [words, allWords_eq_checked hi, leaves, lay]
    exact (checked_map (leavesAll items) (layAll depth items) fun inside => ("(" :: inside.1 ++ [")"], inside.2)).symm
  case filled content hi => exact hi depth
  case marker m =>
    cases m
    case lineBreak =>
      rw [words, lay, indentation_eq]
      rfl
    all_goals rfl
  all_goals rfl

-- Whether a value can be laid out is told by its leaves.
theorem words_ok_iff {d : Datum} {depth : Int} : (∃ out, d.words depth = .ok out) ↔ ∀ leaf ∈ d.leaves, leaf.isPrintable := by
  rw [words_eq_checked]
  exact checked_ok_iff

end Datum

namespace Layout

-- Every value is laid out as the recursion says or refused for its first leaf that cannot be printed, whatever the depth.
theorem flatten_eq_recursion (value : Datum) (depth : Int) :
    flatten value depth =
      match value.leaves.find? (!·.isPrintable) with
      | some leaf => .error (.malformed leaf.typeName (some "flatten"))
      | none => .ok (value.lay depth) := by
  rw [flatten_eq, Datum.words_eq_checked]
  rfl

end Layout
end ParenTree
