import ParenTree.Proofs.Config.Ascent
import ParenTree.Proofs.Config.Content

-- Which file of settings counts: of the directories on the way down to where the work is, the deepest one that has such a file
-- gives it. Only something that cannot be looked at keeps the search from finding it.

namespace ParenTree

namespace Workspace

-- The directory that a location is in: itself, or the one that has it or would have it.
def directoryOf (w : Workspace) (l : Location) : Location :=
  match w.root.at? l with
  | some (.directory ..) => l
  | _ => l.dropLast

-- The directories around a location: all those above it, up to the root, and the location itself unless it is a file.
def Around (w : Workspace) (l dir : Location) : Prop :=
  dir <+: l ∧ (w.HasFile l → dir ≠ l)

variable {w : Workspace} {l dir : Location}

theorem base_of_hasFile (h : w.HasFile l) : w.base l = l.dropLast := by
  obtain ⟨bytes, readable, he⟩ := h
  rw [base, he]

theorem base_of_not_hasFile (h : ¬w.HasFile l) : w.base l = l := by
  rw [base]
  split
  case h_1 bytes readable he => exact absurd ⟨bytes, readable, he⟩ h
  case h_2 => rfl

theorem base_prefix (w : Workspace) (l : Location) : w.base l <+: l := by
  by_cases h : w.HasFile l
  case pos =>
    rw [base_of_hasFile h]
    exact List.dropLast_prefix l
  case neg =>
    rw [base_of_not_hasFile h]

-- No file is the root, and what is above it is a directory around it.
theorem around_iff : w.Around l dir ↔ dir <+: w.base l := by
  rw [Around]
  by_cases h : w.HasFile l
  case neg => simp [base_of_not_hasFile h, h]
  case pos =>
    rw [base_of_hasFile h]
    rcases List.eq_nil_or_concat' l with rfl | ⟨names, name, rfl⟩
    case inl => exact absurd h w.not_hasFile_nil
    case inr =>
      rw [List.dropLast_concat, List.prefix_concat_iff]
      constructor
      case mp =>
        rintro ⟨hp, hn⟩
        exact hp.resolve_left (hn h)
      case mpr =>
        intro hp
        refine ⟨.inr hp, fun _ hd => ?_⟩
        have hl := hp.length_le
        rw [hd, List.length_append, List.length_singleton] at hl
        omega

end Workspace

namespace Settings

-- The file of settings of the deepest directory that has one, on the way from the root down to a directory.
def Nearest (w : Workspace) (dir file : Location) : Prop :=
  ∃ above, above <+: dir ∧ file = above ++ [fileName] ∧ w.Has file ∧
    ∀ other, other <+: dir → w.Has (other ++ [fileName]) → other <+: above

-- No directory on the way has a file of settings.
def Absent (w : Workspace) (dir : Location) : Prop :=
  ∀ above, above <+: dir → ¬w.Has (above ++ [fileName])

-- It cannot be told whether a directory on the way has a file of settings, and no deeper one has.
def Blocked (w : Workspace) (dir : Location) (o : Obstacle) : Prop :=
  ∃ above b, above <+: dir ∧ o = ⟨above ++ [fileName], b⟩ ∧ w.Barred (above ++ [fileName]) b ∧
    ∀ other, other <+: dir → above.length < other.length → Bare w other

-- What a search can come to.
inductive Verdict (w : Workspace) (dir : Location) : Except Obstacle (Option Location) → Prop
  | blocked {o} : Blocked w dir o → Verdict w dir (.error o)
  | nearest {file} : (∀ o, ¬Blocked w dir o) → Nearest w dir file → Verdict w dir (.ok (some file))
  | absent : (∀ o, ¬Blocked w dir o) → Absent w dir → Verdict w dir (.ok none)

-- What keeps a search from its end: the location where it begins cannot be looked at, or the settings of a directory around it
-- cannot, and no deeper directory has settings.
inductive Obstructed (w : Workspace) (start : Location) : Obstacle → Prop
  | start {b} : w.Barred start b → Obstructed w start ⟨start, b⟩
  | around {dir b} :
    w.Clear start → w.Around start dir → w.Barred (dir ++ [fileName]) b →
    (∀ other, w.Around start other → dir.length < other.length → Bare w other) → Obstructed w start ⟨dir ++ [fileName], b⟩

variable {w : Workspace} {start dir file file' : Location} {name : String} {o o' : Obstacle} {b : Barrier}
  {seen : List Location} {r : Except Obstacle (Option Location)}

theorem Nearest.unique (h : Nearest w dir file) (h' : Nearest w dir file') : file = file' := by
  obtain ⟨above, hd, rfl, he, hm⟩ := h
  obtain ⟨above', hd', rfl, he', hm'⟩ := h'
  rw [(hm' above hd he).eq_of_length (Nat.le_antisymm (hm' above hd he).length_le (hm above' hd' he').length_le)]

theorem Absent.not_nearest (h : Absent w dir) : ¬Nearest w dir file := by
  rintro ⟨above, hd, rfl, he, -⟩
  exact h above hd he

theorem Blocked.unique (h : Blocked w dir o) (h' : Blocked w dir o') : o = o' := by
  obtain ⟨above, b, hd, rfl, hb, hm⟩ := h
  obtain ⟨above', b', hd', rfl, hb', hm'⟩ := h'
  have hl : ¬above.length < above'.length := fun hl => (hm above' hd' hl).clear b' hb'
  have hl' : ¬above'.length < above.length := fun hl => (hm' above hd hl).clear b hb
  obtain rfl : above = above' :=
    (List.prefix_of_prefix_length_le hd hd' (Nat.le_of_not_lt hl')).eq_of_length (by omega)
  rw [hb.unique hb']

-- One directory deeper, where there are no settings, nothing changes.
theorem nearest_concat (h : ¬w.Has (dir ++ [name] ++ [fileName])) : Nearest w (dir ++ [name]) file ↔ Nearest w dir file := by
  have hup {other : Location} (ho : other <+: dir ++ [name]) (he : w.Has (other ++ [fileName])) : other <+: dir := by
    rcases List.prefix_concat_iff.mp ho with rfl | ho
    case inl => exact absurd he h
    case inr => exact ho
  have hdown {other : Location} (ho : other <+: dir) : other <+: dir ++ [name] := ho.trans (List.prefix_append dir [name])
  constructor
  case mp =>
    rintro ⟨above, hd, rfl, he, hm⟩
    exact ⟨above, hup hd he, rfl, he, fun other ho => hm other (hdown ho)⟩
  case mpr =>
    rintro ⟨above, hd, rfl, he, hm⟩
    exact ⟨above, hdown hd, rfl, he, fun other ho he => hm other (hup ho he) he⟩

theorem absent_concat (h : ¬w.Has (dir ++ [name] ++ [fileName])) : Absent w (dir ++ [name]) ↔ Absent w dir := by
  simp only [Absent, List.prefix_concat_iff, or_imp, forall_and, forall_eq, h, not_false_eq_true, true_and]

theorem blocked_concat (h : Bare w (dir ++ [name])) : Blocked w (dir ++ [name]) o ↔ Blocked w dir o := by
  constructor
  case mp =>
    rintro ⟨above, b, hd, rfl, hb, hm⟩
    rcases List.prefix_concat_iff.mp hd with rfl | hd
    case inl => exact absurd hb (h.clear b)
    case inr => exact ⟨above, b, hd, rfl, hb, fun other ho => hm other (ho.trans (List.prefix_append dir [name]))⟩
  case mpr =>
    rintro ⟨above, b, hd, rfl, hb, hm⟩
    refine ⟨above, b, hd.trans (List.prefix_append dir [name]), rfl, hb, fun other ho hl => ?_⟩
    rcases List.prefix_concat_iff.mp ho with rfl | ho
    case inl => exact h
    case inr => exact hm other ho hl

theorem Verdict.concat (hb : Bare w (dir ++ [name])) (h : Verdict w dir r) : Verdict w (dir ++ [name]) r := by
  cases h
  case blocked h => exact .blocked ((blocked_concat hb).mpr h)
  case nearest hn h => exact .nearest (fun o ho => hn o ((blocked_concat hb).mp ho)) ((nearest_concat hb.missing).mpr h)
  case absent hn h => exact .absent (fun o ho => hn o ((blocked_concat hb).mp ho)) ((absent_concat hb.missing).mpr h)

theorem not_blocked_of_has (hc : w.Clear (dir ++ [fileName])) (h : w.Has (dir ++ [fileName])) : ¬Blocked w dir o := by
  rintro ⟨above, b, hd, -, hb, hm⟩
  rcases Nat.lt_or_ge above.length dir.length with hl | hl
  case inl => exact (hm dir (List.prefix_refl dir) hl).missing h
  case inr =>
    rw [hd.eq_of_length (Nat.le_antisymm hd.length_le hl)] at hb
    exact hc b hb

theorem not_blocked_nil (h : Bare w []) : ¬Blocked w [] o := by
  rintro ⟨above, b, hd, -, hb, -⟩
  rw [List.prefix_nil.mp hd] at hb
  exact h.clear b hb

-- The search goes up one directory at a time.
theorem Ascent.verdict (h : Ascent w dir seen r) : Verdict w dir r := by
  induction h
  case barred dir b hb =>
    exact .blocked ⟨dir, b, List.prefix_refl dir, rfl, hb, fun other ho hl => absurd ho.length_le (Nat.not_le.mpr hl)⟩
  case found dir hc he =>
    exact .nearest (fun _ => not_blocked_of_has hc he) ⟨dir, List.prefix_refl dir, rfl, he, fun other ho _ => ho⟩
  case ended dir hb ht =>
    rcases List.eq_nil_or_concat' dir with rfl | ⟨names, name, rfl⟩
    case inl =>
      refine .absent (fun _ => not_blocked_nil hb) fun above ha => ?_
      rw [List.prefix_nil.mp ha]
      exact hb.missing
    case inr => simp at ht
  case onward dir _ _ hb ht _ hi =>
    rcases List.eq_nil_or_concat' dir with rfl | ⟨names, name, rfl⟩
    case inl => exact absurd rfl ht
    case inr =>
      rw [List.dropLast_concat] at hi
      exact hi.concat hb

theorem verdict_nearest? (w : Workspace) (dir : Location) : Verdict w dir (nearest? w dir.reverse) := by
  obtain ⟨seen, r, ha⟩ := exists_ascent w dir
  rw [ha.nearest?_eq]
  exact ha.verdict

theorem nearest?_eq_error_iff : nearest? w dir.reverse = .error o ↔ Blocked w dir o := by
  have hv := verdict_nearest? w dir
  generalize nearest? w dir.reverse = r at hv
  cases hv
  case blocked h =>
    constructor
    case mp =>
      rintro ⟨⟩
      exact h
    case mpr => exact fun h' => congrArg Except.error (h.unique h')
  case nearest hn _ => simpa using hn o
  case absent hn _ => simpa using hn o

theorem nearest?_eq_some_iff (hn : ∀ o, ¬Blocked w dir o) :
    nearest? w dir.reverse = .ok (some file) ↔ Nearest w dir file := by
  have hv := verdict_nearest? w dir
  generalize nearest? w dir.reverse = r at hv
  cases hv
  case blocked h => exact absurd h (hn _)
  case nearest h =>
    constructor
    case mp =>
      rintro ⟨⟩
      exact h
    case mpr =>
      intro h'
      rw [h.unique h']
  case absent h => simpa using h.not_nearest

theorem nearest?_eq_none_iff (hn : ∀ o, ¬Blocked w dir o) : nearest? w dir.reverse = .ok none ↔ Absent w dir := by
  have hv := verdict_nearest? w dir
  generalize nearest? w dir.reverse = r at hv
  cases hv
  case blocked h => exact absurd h (hn _)
  case nearest h => simpa using fun ha : Absent w dir => ha.not_nearest h
  case absent h => exact ⟨fun _ => h, fun _ => rfl⟩

theorem obstructed_iff_blocked (hc : w.Clear start) : Obstructed w start o ↔ Blocked w (w.base start) o := by
  constructor
  case mp =>
    intro h
    cases h
    case start hb => exact absurd hb (hc _)
    case around dir b _ hd hb hm =>
      exact ⟨dir, b, Workspace.around_iff.mp hd, rfl, hb, fun other ho => hm other (Workspace.around_iff.mpr ho)⟩
  case mpr =>
    rintro ⟨dir, b, hd, rfl, hb, hm⟩
    exact .around hc (Workspace.around_iff.mpr hd) hb fun other ho => hm other (Workspace.around_iff.mp ho)

theorem clear_of_not_obstructed (h : ∀ o, ¬Obstructed w start o) : w.Clear start :=
  fun _ hb => h _ (.start hb)

theorem find?_of_barred (h : w.Barred start b) : find? w start = .error ⟨start, b⟩ := by
  rw [find?, origin, Workspace.isFile_of_barred h]
  rfl

theorem find?_of_clear (h : w.Clear start) : find? w start = nearest? w (w.base start).reverse := by
  by_cases hf : w.HasFile start
  case pos =>
    rw [find?, origin, Workspace.isFile_of_hasFile h hf, Workspace.base_of_hasFile hf]
    rfl
  case neg =>
    rw [find?, origin, Workspace.isFile_of_not_hasFile h hf, Workspace.base_of_not_hasFile hf]
    rfl

theorem find?_eq_error_iff : find? w start = .error o ↔ Obstructed w start o := by
  rcases w.clear_or_barred start with hc | ⟨b, hb⟩
  case inl => rw [find?_of_clear hc, nearest?_eq_error_iff, obstructed_iff_blocked hc]
  case inr =>
    rw [find?_of_barred hb]
    constructor
    case mp =>
      rintro ⟨⟩
      exact .start hb
    case mpr =>
      intro h
      cases h
      case start hb' => rw [hb.unique hb']
      case around hc _ _ _ => exact absurd hb (hc b)

theorem find?_eq_some_iff (h : ∀ o, ¬Obstructed w start o) :
    find? w start = .ok (some file) ↔ Nearest w (w.base start) file := by
  have hc := clear_of_not_obstructed h
  rw [find?_of_clear hc]
  exact nearest?_eq_some_iff fun o ho => h o ((obstructed_iff_blocked hc).mpr ho)

theorem find?_eq_none_iff (h : ∀ o, ¬Obstructed w start o) : find? w start = .ok none ↔ Absent w (w.base start) := by
  have hc := clear_of_not_obstructed h
  rw [find?_of_clear hc]
  exact nearest?_eq_none_iff fun o ho => h o ((obstructed_iff_blocked hc).mpr ho)

-- It does not matter whether the search begins at a location where there is nothing, or in the directory that would have it.
theorem base_eq_or (w : Workspace) (start : Location) :
    w.base start = w.directoryOf start ∨
      ∃ name, w.base start = w.directoryOf start ++ [name] ∧ ¬w.Has (w.directoryOf start ++ [name] ++ [fileName]) := by
  rw [Workspace.base, Workspace.directoryOf]
  cases he : w.root.at? start
  case some e => cases e <;> exact .inl rfl
  case none =>
    rcases List.eq_nil_or_concat' start with rfl | ⟨names, name, rfl⟩
    case inl => cases he
    case inr =>
      rw [List.dropLast_concat]
      refine .inr ⟨name, rfl, ?_⟩
      rw [Workspace.Has, Entry.at?_append, he]
      exact Bool.false_ne_true

theorem nearest_base_iff : Nearest w (w.base start) file ↔ Nearest w (w.directoryOf start) file := by
  rcases base_eq_or w start with h | ⟨name, h, hn⟩
  case inl => rw [h]
  case inr => rw [h, nearest_concat hn]

theorem absent_base_iff : Absent w (w.base start) ↔ Absent w (w.directoryOf start) := by
  rcases base_eq_or w start with h | ⟨name, h, hn⟩
  case inl => rw [h]
  case inr => rw [h, absent_concat hn]

theorem nearest_iff_around : Nearest w (w.base start) file ↔
    ∃ dir, file = dir ++ [fileName] ∧ w.Around start dir ∧ w.Has file ∧
      ∀ other, w.Around start other → w.Has (other ++ [fileName]) → other.length ≤ dir.length := by
  simp only [Workspace.around_iff]
  constructor
  case mp =>
    rintro ⟨dir, hd, rfl, he, hm⟩
    exact ⟨dir, rfl, hd, he, fun other ho h => (hm other ho h).length_le⟩
  case mpr =>
    rintro ⟨dir, rfl, hd, he, hm⟩
    exact ⟨dir, hd, rfl, he, fun other ho h => List.prefix_of_prefix_length_le ho hd (hm other ho h)⟩

theorem absent_iff_around : Absent w (w.base start) ↔ ∀ dir, w.Around start dir → ¬w.Has (dir ++ [fileName]) := by
  simp only [Workspace.around_iff]
  exact Iff.rfl

theorem Search.find?_eq (h : Search w start seen r) : find? w start = r := by
  cases h
  case barred hb => exact find?_of_barred hb
  case begun hc ha => rw [find?_of_clear hc, ha.nearest?_eq]

theorem Search.seen_prefix_inits (h : Search w start seen r) : seen <+: (w.base start).inits.reverse := by
  cases h
  case barred => exact List.nil_prefix
  case begun ha => exact ha.seen_prefix_inits

theorem exists_search (w : Workspace) (start : Location) : ∃ seen, Search w start seen (find? w start) := by
  rcases w.clear_or_barred start with hc | ⟨b, hb⟩
  case inl =>
    obtain ⟨seen, r, ha⟩ := exists_ascent w (w.base start)
    have hs := Search.begun hc ha
    exact ⟨seen, hs.find?_eq ▸ hs⟩
  case inr =>
    have hs := Search.barred hb
    exact ⟨[], hs.find?_eq ▸ hs⟩

-- What a file is in is no file, and the search begins there in both cases.
theorem find?_of_hasFile (hc : w.Clear start) (h : w.HasFile start) : find? w start = find? w start.dropLast := by
  rcases List.eq_nil_or_concat' start with rfl | ⟨names, name, rfl⟩
  case inl => rfl
  case inr =>
    rw [find?_of_clear hc, Workspace.base_of_hasFile h, List.dropLast_concat, find?_of_clear hc.of_append,
      Workspace.base_of_not_hasFile (Workspace.not_hasFile_of_has h.has)]

theorem file_of_load {p : Path} {s : Settings} (hp : w.locate p = .ok start) (h : load w p = .ok s) :
    find? w start = .ok s.file := by
  rw [load, hp] at h
  change loadAt w start = .ok s at h
  rw [loadAt] at h
  split at h
  case h_1 => cases h
  case h_2 hf =>
    cases h
    exact hf
  case h_3 file hf =>
    cases read_eq_iff.mp h
    case settings hd => rw [hf, (ofDocument_eq_ok.mp hd).left]

-- The search ends in one way only, and sees no more directories than there are on the way up. It fails if and only if something
-- that it has to look at cannot be looked at. Else what it finds is the file of settings of the deepest directory around the start
-- that has one, and it finds nothing if there is none. From a file it goes on as from the directory of the file. The settings for
-- a path tell what was found from the location of the path.
theorem search_finds_deepest (w : Workspace) (start : Location) :
    (∃ seen, Search w start seen (find? w start) ∧ seen <+: (w.base start).inits.reverse ∧ seen.length ≤ start.length + 1) ∧
    (∀ seen r, Search w start seen r → find? w start = r) ∧
    (∀ o, find? w start = .error o ↔ Obstructed w start o) ∧
    ((∀ o, ¬Obstructed w start o) →
      (∀ file, find? w start = .ok (some file) ↔
        ∃ dir, file = dir ++ [fileName] ∧ w.Around start dir ∧ w.Has file ∧
          ∀ other, w.Around start other → w.Has (other ++ [fileName]) → other.length ≤ dir.length) ∧
      (find? w start = .ok none ↔ ∀ dir, w.Around start dir → ¬w.Has (dir ++ [fileName]))) ∧
    (w.Clear start → w.HasFile start → find? w start = find? w start.dropLast) ∧
    ∀ p s, w.locate p = .ok start → load w p = .ok s → find? w start = .ok s.file := by
  obtain ⟨seen, hs⟩ := exists_search w start
  refine ⟨⟨seen, hs, hs.seen_prefix_inits, ?_⟩, fun _ _ h => h.find?_eq, fun _ => find?_eq_error_iff,
    fun h => ⟨fun file => ?_, ?_⟩, find?_of_hasFile, fun _ _ => file_of_load⟩
  case refine_1 =>
    calc seen.length
      _ ≤ (w.base start).inits.reverse.length := hs.seen_prefix_inits.length_le
      _ = (w.base start).length + 1 := by rw [List.length_reverse, List.length_inits]
      _ ≤ start.length + 1 := Nat.succ_le_succ (w.base_prefix start).length_le
  case refine_2 => rw [← nearest_iff_around, find?_eq_some_iff h]
  case refine_3 => rw [← absent_iff_around, find?_eq_none_iff h]

theorem not_obstructed_of_find? {found : Option Location} (h : find? w start = .ok found) : ∀ o, ¬Obstructed w start o := by
  intro o ho
  cases h.symm.trans (find?_eq_error_iff.mpr ho)

-- A source below two files of settings.
def nested : Workspace where
  entries := [
    (fileName, .file []),
    ("p", .directory [
      (fileName, .file (Utf8.encode "[dump]\ninitial_indent = 1".toList)),
      ("s", .directory [("x.td", .file [])])])]
  cwd := ["p"]
  homes := []

theorem search_finds_deepest_nested :
    (∀ o, ¬Obstructed nested ["p", "s", "x.td"] o) ∧ nested.HasFile ["p", "s", "x.td"] ∧
      find? nested ["p", "s", "x.td"] = find? nested ["p", "s"] ∧
      find? nested ["p", "s", "x.td"] = .ok (some ["p", fileName]) ∧
      (∃ dir, ["p", fileName] = dir ++ [fileName] ∧ nested.Around ["p", "s", "x.td"] dir ∧ nested.Has ["p", fileName] ∧
        ∀ other, nested.Around ["p", "s", "x.td"] other → nested.Has (other ++ [fileName]) → other.length ≤ dir.length) ∧
      nested.locate (.ofString "s/x.td") = .ok ["p", "s", "x.td"] ∧
      ∃ s, load nested (.ofString "s/x.td") = .ok s ∧ find? nested ["p", "s", "x.td"] = .ok s.file := by
  have hr : find? nested ["p", "s", "x.td"] = .ok (some ["p", fileName]) := by decide +kernel
  have hf : nested.HasFile ["p", "s", "x.td"] := ⟨[], true, rfl⟩
  have hp : nested.locate (.ofString "s/x.td") = .ok ["p", "s", "x.td"] := by decide +kernel
  have hs : load nested (.ofString "s/x.td") = .ok ⟨1, .warning, some ["p", fileName]⟩ := by decide +kernel
  have ho := not_obstructed_of_find? hr
  obtain ⟨-, -, -, hd, hi, hl⟩ := search_finds_deepest nested ["p", "s", "x.td"]
  exact ⟨ho, hf, hi (clear_of_not_obstructed ho) hf, hr, ((hd ho).left _).mp hr, hp, _, hs, hl _ _ hp hs⟩

-- Settings in a directory that must not be searched, and nothing else.
def locked : Workspace :=
  ⟨[("p", .directory [(fileName, .file [])] ⟨true, false⟩)], {}, [], []⟩

def overlong : Location :=
  [.ofList (List.replicate 300 'a')]

-- Where there are no settings the search does not always come back with nothing, and where there are some not always with them.
theorem search_locked :
    (∀ dir, locked.Around overlong dir → ¬locked.Has (dir ++ [fileName])) ∧
      find? locked overlong = .error ⟨overlong, .longName⟩ ∧
      locked.Around ["p"] ["p"] ∧ locked.Has ["p", fileName] ∧ find? locked ["p"] = .error ⟨["p", fileName], .denied⟩ := by
  refine ⟨fun dir hd => ?_, by decide +kernel, ⟨List.prefix_refl _, ?_⟩, rfl, by decide +kernel⟩
  case refine_1 =>
    obtain ⟨hp, -⟩ := hd
    change dir <+: [] ++ [_] at hp
    rcases List.prefix_concat_iff.mp hp with rfl | hp
    case inl =>
      rw [Workspace.Has]
      decide +kernel
    case inr =>
      rw [List.prefix_nil.mp hp, Workspace.Has]
      decide +kernel
  case refine_2 =>
    rintro ⟨bytes, readable, h⟩
    cases h

end Settings

end ParenTree
