-- Why a work list ends. At every step the first entry is replaced by any number of lighter ones. Such steps cannot go on
-- forever, although nothing bounds the number of entries.

namespace ParenTree

structure Agenda where
  weights : List Nat

namespace Agenda

-- An agenda before which another one comes: lighter entries stand in place of the first one, and the others are kept or
-- dropped.
inductive Before : Agenda → Agenda → Prop
  | keep {first : Nat} {lighter others : List Nat} :
    (∀ w ∈ lighter, w < first) → Before ⟨lighter ++ others⟩ ⟨first :: others⟩
  | drop {first : Nat} {lighter others : List Nat} :
    (∀ w ∈ lighter, w < first) → Before ⟨lighter⟩ ⟨first :: others⟩

theorem acc_nil : Acc Before ⟨[]⟩ :=
  ⟨_, fun _ h => nomatch h⟩

theorem acc_append {lighter others : List Nat}
    (h : ∀ w ∈ lighter, ∀ rest, Acc Before ⟨rest⟩ → Acc Before ⟨w :: rest⟩) (ho : Acc Before ⟨others⟩) :
    Acc Before ⟨lighter ++ others⟩ := by
  induction lighter with
  | nil => exact ho
  | cons w ws ih => exact h w (by simp) _ (ih fun v hv => h v (by simp [hv]))

theorem acc_cons (first : Nat) (others : List Nat) (ho : Acc Before ⟨others⟩) : Acc Before ⟨first :: others⟩ := by
  induction first using Nat.strongRecOn generalizing others with
  | ind first ih =>
    refine ⟨_, fun agenda h => ?_⟩
    cases h with
    | keep hl => exact acc_append (fun w hw rest hr => ih w (hl w hw) rest hr) ho
    | @drop _ lighter _ hl =>
      have := acc_append (fun w hw rest hr => ih w (hl w hw) rest hr) acc_nil
      simpa using this

theorem wellFounded : WellFounded Before := by
  refine ⟨fun ⟨weights⟩ => ?_⟩
  induction weights with
  | nil => exact acc_nil
  | cons w ws ih => exact acc_cons w ws ih

instance : WellFoundedRelation Agenda :=
  ⟨Before, wellFounded⟩

end Agenda
end ParenTree
