import Mathlib.Data.List.Infix
import ParenTree.Config.Settings
import ParenTree.Proofs.Files.Walk

-- The search for settings as it goes on, from each directory to the one above. It cannot go on forever: the root is above itself,
-- and there the search stops.

namespace ParenTree

namespace Location

-- The way up to the root from a directory, and from the one above it.
theorem reverse_inits_concat (names : Location) (name : String) :
    (names ++ [name]).inits.reverse = (names ++ [name]) :: names.inits.reverse := by
  simp [List.inits_append]

theorem singleton_prefix_reverse_inits (dir : Location) : [dir] <+: dir.inits.reverse := by
  rcases List.eq_nil_or_concat' dir with rfl | ⟨names, name, rfl⟩
  case inl => exact List.prefix_refl _
  case inr =>
    rw [reverse_inits_concat]
    exact List.prefix_append [_] _

end Location

-- The location itself, or the directory of a file.
def Workspace.base (w : Workspace) (l : Location) : Location :=
  match w.root.at? l with
  | some (.file ..) => l.dropLast
  | _ => l

namespace Settings

-- A directory can be looked at for settings, and has none.
structure Bare (w : Workspace) (dir : Location) : Prop where
  clear : w.Clear (dir ++ [fileName])
  missing : ¬w.Has (dir ++ [fileName])

-- A search from a directory on: the directories that it sees, and what it comes to. Only where no settings are does it ask for
-- the directory above, and it ends where that is the same one.
inductive Ascent (w : Workspace) : Location → List Location → Except Obstacle (Option Location) → Prop
  | barred {dir b} : w.Barred (dir ++ [fileName]) b → Ascent w dir [dir] (.error ⟨dir ++ [fileName], b⟩)
  | found {dir} :
    w.Clear (dir ++ [fileName]) → w.Has (dir ++ [fileName]) → Ascent w dir [dir] (.ok (some (dir ++ [fileName])))
  | ended {dir} : Bare w dir → dir.dropLast = dir → Ascent w dir [dir] (.ok none)
  | onward {dir seen r} : Bare w dir → dir.dropLast ≠ dir → Ascent w dir.dropLast seen r → Ascent w dir (dir :: seen) r

-- A search from a location on. It first looks whether that is a file.
inductive Search (w : Workspace) (start : Location) : List Location → Except Obstacle (Option Location) → Prop
  | barred {b} : w.Barred start b → Search w start [] (.error ⟨start, b⟩)
  | begun {seen r} : w.Clear start → Ascent w (w.base start) seen r → Search w start seen r

variable {w : Workspace} {dir : Location} {name : String} {b : Barrier} {seen : List Location}
  {r : Except Obstacle (Option Location)}

theorem nearest?_of_barred (h : w.Barred (dir ++ [fileName]) b) :
    nearest? w dir.reverse = .error ⟨dir ++ [fileName], b⟩ := by
  rw [nearest?.eq_def]
  simp only [List.reverse_reverse, Workspace.hasEntry_of_barred h]
  rfl

theorem nearest?_of_has (hc : w.Clear (dir ++ [fileName])) (h : w.Has (dir ++ [fileName])) :
    nearest? w dir.reverse = .ok (some (dir ++ [fileName])) := by
  rw [nearest?.eq_def]
  simp only [List.reverse_reverse, Workspace.hasEntry_of_has hc h]
  rfl

theorem nearest?_nil_of_bare (h : Bare w []) : nearest? w [] = .ok none := by
  rw [nearest?, List.reverse_nil, Workspace.hasEntry_of_not_has h.clear h.missing]
  rfl

theorem nearest?_concat_of_bare (h : Bare w (dir ++ [name])) :
    nearest? w (dir ++ [name]).reverse = nearest? w dir.reverse := by
  rw [List.reverse_concat, nearest?, List.reverse_cons, List.reverse_reverse,
    Workspace.hasEntry_of_not_has h.clear h.missing]
  rfl

namespace Ascent

theorem nearest?_eq (h : Ascent w dir seen r) : nearest? w dir.reverse = r := by
  induction h
  case barred hb => exact nearest?_of_barred hb
  case found hc he => exact nearest?_of_has hc he
  case ended dir hb ht =>
    rcases List.eq_nil_or_concat' dir with rfl | ⟨names, name, rfl⟩
    case inl => exact nearest?_nil_of_bare hb
    case inr => simp at ht
  case onward dir _ _ hb ht _ hi =>
    rcases List.eq_nil_or_concat' dir with rfl | ⟨names, name, rfl⟩
    case inl => exact absurd rfl ht
    case inr =>
      rw [List.dropLast_concat] at hi
      rw [nearest?_concat_of_bare hb, hi]

-- The directories that are seen are the first ones on the way up to the root, and none is left out.
theorem seen_prefix_inits (h : Ascent w dir seen r) : seen <+: dir.inits.reverse := by
  induction h
  case barred dir _ _ => exact Location.singleton_prefix_reverse_inits dir
  case found dir _ _ => exact Location.singleton_prefix_reverse_inits dir
  case ended dir _ _ => exact Location.singleton_prefix_reverse_inits dir
  case onward dir _ _ _ ht _ hi =>
    rcases List.eq_nil_or_concat' dir with rfl | ⟨names, name, rfl⟩
    case inl => exact absurd rfl ht
    case inr =>
      rw [List.dropLast_concat] at hi
      rw [Location.reverse_inits_concat, List.prefix_cons_inj]
      exact hi

end Ascent

theorem barred_or_has_or_bare (w : Workspace) (dir : Location) :
    (∃ b, w.Barred (dir ++ [fileName]) b) ∨ (w.Clear (dir ++ [fileName]) ∧ w.Has (dir ++ [fileName])) ∨ Bare w dir := by
  rcases w.clear_or_barred (dir ++ [fileName]) with hc | hb
  case inr => exact .inl hb
  case inl =>
    by_cases he : w.Has (dir ++ [fileName])
    case pos => exact .inr (.inl ⟨hc, he⟩)
    case neg => exact .inr (.inr ⟨hc, he⟩)

-- Every search comes to an end, since a location has only so many names to leave out.
theorem exists_ascent (w : Workspace) (dir : Location) : ∃ seen r, Ascent w dir seen r := by
  induction dir using List.reverseRecOn
  case nil =>
    rcases barred_or_has_or_bare w [] with ⟨b, hb⟩ | ⟨hc, he⟩ | hb
    case inl => exact ⟨_, _, .barred hb⟩
    case inr.inl => exact ⟨_, _, .found hc he⟩
    case inr.inr => exact ⟨_, _, .ended hb rfl⟩
  case append_singleton names name hi =>
    rcases barred_or_has_or_bare w (names ++ [name]) with ⟨b, hb⟩ | ⟨hc, he⟩ | hb
    case inl => exact ⟨_, _, .barred hb⟩
    case inr.inl => exact ⟨_, _, .found hc he⟩
    case inr.inr =>
      obtain ⟨seen, r, ha⟩ := hi
      have hd : (names ++ [name]).dropLast = names := List.dropLast_concat
      exact ⟨_, _, .onward hb (by simp) (hd.symm ▸ ha)⟩

end Settings

end ParenTree
