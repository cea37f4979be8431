import ParenTree.Layout.Normal

-- Normalization, which keeps its open lists on a stack, is the plain recursion over lists and tuples.

namespace ParenTree.Datum

mutual

def normal (context : Option String) : Datum → Except DumpFault Datum
  | list items => do return group (← normalAll context items)
  | tuple items => do return group (← normalAll context items)
  | d => normalLeaf context d

def normalAll (context : Option String) : List Datum → Except DumpFault (List Datum)
  | [] => return []
  | d :: ds => do
    let value ← d.normal context
    return value :: (← normalAll context ds)

end

-- What is left to do once the innermost frame has become a value.
def resume (context : Option String) (value : Datum) : List Frame → Except DumpFault Datum
  | [] => .ok value
  | frame :: outer => normalFrames context frame.items (value :: frame.done) outer

theorem normal_of_leaf {context : Option String} {d : Datum} (hl : ∀ items, d ≠ list items) (ht : ∀ items, d ≠ tuple items) :
    d.normal context = normalLeaf context d := by
  cases d
  case list items => exact absurd rfl (hl items)
  case tuple items => exact absurd rfl (ht items)
  all_goals rw [normal] <;> simp

theorem normalFrames_eq (context : Option String) (items done : List Datum) (outer : List Frame) :
    normalFrames context items done outer = (do
      let values ← normalAll context items
      resume context (group (done.reverse ++ values)) outer) := by
  -- Once a list inside is done, the frame around it goes on with less work than there was.
  induction hn : weightAll items + Frame.work outer using Nat.strongRecOn generalizing items done outer
  case ind n hi =>
    subst hn
    have inside (inner others : List Datum) (h : weightAll items = 2 + weightAll inner + weightAll others) :
        normalFrames context inner [] (⟨others, done⟩ :: outer) = (do
          let inside ← normalAll context inner
          let values ← normalAll context others
          resume context (group (done.reverse ++ group inside :: values)) outer) := by
      rw [hi _ (by simp only [Frame.work]; omega) _ _ _ rfl]
      cases normalAll context inner
      case error => rfl
      case ok values =>
        have := hi _ (by omega) others (group values :: done) outer rfl
        simp only [List.reverse_cons, List.append_assoc, List.singleton_append] at this
        exact this
    rw [normalFrames.eq_def]
    split
    case h_1 => cases outer <;> simp [normalAll, resume]
    case h_2 inner others | h_3 inner others =>
      rw [inside inner others (by simp only [weightAll, weight])]
      simp [normalAll, normal]
    case h_4 d others hl ht =>
      simp only [normalAll]
      rw [normal_of_leaf hl ht]
      cases normalLeaf context d
      case error => rfl
      case ok value =>
        have := d.weight_pos
        have := hi _ (by simp only [weightAll]; omega) others (value :: done) outer rfl
        simp only [List.reverse_cons, List.append_assoc, List.singleton_append] at this
        simp only [this, bind_pure_comp, bind_map_left, bind_assoc]
        rfl

theorem normalize_eq_normal (context : Option String) (d : Datum) : d.normalize context = d.normal context := by
  cases d
  case list items | tuple items =>
    simp only [normalize, normal, normalFrames_eq]
    cases normalAll context items <;> rfl
  all_goals rw [normalize, normal] <;> simp

end ParenTree.Datum
