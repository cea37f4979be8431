import ParenTree.Files.Workspace
import ParenTree.Proofs.Steps

-- Where a path leads, and what can be seen there. Walking along the parts of a path ends at the location that its parts give by
-- name, if it ends at all. A look at a location tells what is there, unless something on the way bars it.

namespace ParenTree

namespace Location

theorem size_intercalate_le (l l' : Location) :
    ("/".intercalate l).utf8ByteSize ≤ ("/".intercalate (l ++ l')).utf8ByteSize := by
  induction l
  case nil => exact Nat.zero_le _
  case cons name names hi =>
    cases names
    case nil =>
      cases l'
      case nil => exact Nat.le_refl _
      case cons name' names' =>
        simp only [List.cons_append, List.nil_append, String.intercalate_cons_cons, String.intercalate_singleton,
          String.utf8ByteSize_append]
        omega
    case cons =>
      simp only [List.cons_append, String.intercalate_cons_cons, String.utf8ByteSize_append] at hi ⊢
      omega

theorem size_text_le (l l' : Location) : (text l).utf8ByteSize ≤ (text (l ++ l')).utf8ByteSize := by
  rw [text, text, String.utf8ByteSize_append, String.utf8ByteSize_append]
  exact Nat.add_le_add_left (size_intercalate_le l l') _

end Location

namespace Path

-- A path that can be followed as it stands: its first part does not name a home, and none has a character that no name has.
def IsPlain (p : Path) : Prop :=
  (p.isAbsolute = false → ∀ part ∈ p.parts.head?, part.toList.head? ≠ some '~') ∧
    ∀ part ∈ p.parts, Workspace.hasNull part = false

end Path

namespace Entry

-- What is at a location below an entry, whether it can be looked at or not.
def at? (e : Entry) : Location → Option Entry
  | [] => some e
  | name :: names =>
    match e.entries.lookup name with
    | some inner => inner.at? names
    | none => none

theorem at?_append (e : Entry) (l l' : Location) : e.at? (l ++ l') = (e.at? l).bind (·.at? l') := by
  induction l generalizing e
  case nil => rfl
  case cons name names hi =>
    rw [List.cons_append, at?, at?]
    cases e.entries.lookup name
    case none => rfl
    case some inner => exact hi inner

-- The first thing that bars the way down: a directory that must not be searched, or a name that is too long for any entry.
inductive Bars : Entry → Location → Barrier → Prop
  | denied {es access name names} : access.search = false → Bars (directory es access) (name :: names) .denied
  | longName {es access name names} :
    access.search → nameLimit < name.utf8ByteSize → Bars (directory es access) (name :: names) .longName
  | deeper {es access name names inner b} :
    access.search → name.utf8ByteSize ≤ nameLimit → es.lookup name = some inner → Bars inner names b →
    Bars (directory es access) (name :: names) b

variable {e root here : Entry} {l : Location} {b : Barrier} {above : List Entry}

theorem look_of_bars (h : e.Bars l b) : e.look l = .error b := by
  induction h
  case denied hs => simp [look, hs]
  case longName hs hn => simp [look, hs, hn]
  case deeper hs hn hl _ hi => simp [look, hs, Nat.not_lt.mpr hn, hl, hi]

theorem look_of_not_bars (h : ∀ b, ¬e.Bars l b) : e.look l = .ok (e.at? l) := by
  fun_induction look e l
  case case1 => rfl
  case case2 => rfl
  case case3 hs => exact absurd (.denied (by simpa using hs)) (h _)
  case case4 hs hn => exact absurd (.longName (by simpa using hs) hn) (h _)
  case case5 es access name names hs hn inner hl hi =>
    rw [at?, entries, hl]
    exact hi fun b hb => h b (.deeper (by simpa using hs) (Nat.le_of_not_lt hn) hl hb)
  case case6 hl => rw [at?, entries, hl]

theorem Bars.append (h : e.Bars l b) (l' : Location) : e.Bars (l ++ l') b := by
  induction h
  case denied hs => exact .denied hs
  case longName hs hn => exact .longName hs hn
  case deeper hs hn hl _ hi => exact .deeper hs hn hl hi

-- An entry of a tree with the directories above it, the nearest first.
inductive Stands (root : Entry) : Location → List Entry → Entry → Prop
  | root : Stands root [] [] root
  | inside {l above here name inner} :
    Stands root l above here → here.entries.lookup name = some inner → Stands root (l ++ [name]) (here :: above) inner

theorem Stands.at?_eq (h : Stands root l above here) : root.at? l = some here := by
  induction h
  case root => rfl
  case inside hl hi =>
    rw [at?_append, hi, Option.bind_some, at?, hl]
    rfl

theorem Stands.enter {l' : Location} {r : List Entry × Entry} (hs : Stands root l above here)
    (h : enter above here l' = .ok r) : Stands root (l ++ l') r.1 r.2 := by
  induction l' generalizing l above here
  case nil =>
    cases h
    rwa [List.append_nil]
  case cons name names hi =>
    rw [Entry.enter] at h
    cases hl : here.entries.lookup name <;> rw [hl] at h
    case none => cases h
    case some inner =>
      rw [← List.singleton_append, ← List.append_assoc]
      exact hi (hs.inside hl) h

-- One part at a time: two dots undo the last part, and any other part goes one directory deeper.
theorem Stands.walk {parts : List String} (hs : Stands root l above here) (h : walk above here parts = .ok e) :
    root.at? (Path.follow l parts) = some e := by
  induction parts generalizing l above here
  case nil =>
    cases h
    exact hs.at?_eq
  case cons part parts hi =>
    rw [Path.follow, List.foldl_cons, ← Path.follow, Path.step]
    cases here
    case file => cases h
    case directory es access =>
      rw [Entry.walk.eq_def] at h
      dsimp only at h
      split at h
      case isTrue => cases h
      case isFalse =>
        split at h
        case isTrue hp =>
          rw [if_pos hp]
          cases hs
          case root => exact hi .root h
          case inside hs _ =>
            rw [List.dropLast_concat]
            exact hi hs h
        case isFalse hp =>
          rw [if_neg hp]
          split at h
          case isTrue => cases h
          case isFalse =>
            cases hl : es.lookup part <;> rw [hl] at h
            case none => cases h
            case some inner => exact hi (hs.inside hl) h

theorem content_eq_ok {bytes : List UInt8} (h : e.content = .ok bytes) : e = file bytes := by
  rw [content.eq_def] at h
  split at h <;> cases h
  rfl

end Entry

namespace Workspace

def Has (w : Workspace) (l : Location) : Prop :=
  (w.root.at? l).isSome

def HasFile (w : Workspace) (l : Location) : Prop :=
  ∃ bytes readable, w.root.at? l = some (.file bytes readable)

-- Why a location cannot be looked at: its path is too long as a whole, or something bars the way.
inductive Barred (w : Workspace) (l : Location) : Barrier → Prop
  | path : pathLimit < l.text.utf8ByteSize → w.Barred l .longName
  | entry {b} : l.text.utf8ByteSize ≤ pathLimit → w.root.Bars l b → w.Barred l b

def Clear (w : Workspace) (l : Location) : Prop :=
  ∀ b, ¬w.Barred l b

variable {w : Workspace} {p : Path} {l : Location} {name : String} {b b' : Barrier}

theorem clear_or_barred (w : Workspace) (l : Location) : w.Clear l ∨ ∃ b, w.Barred l b := by
  by_cases h : ∃ b, w.Barred l b
  case pos => exact .inr h
  case neg => exact .inl fun b hb => h ⟨b, hb⟩

theorem look_of_barred (h : w.Barred l b) : w.look l = .error ⟨l, b⟩ := by
  rw [look]
  cases h
  case path hp => rw [if_pos hp]
  case entry hp hb =>
    rw [if_neg (Nat.not_lt.mpr hp), Entry.look_of_bars hb]
    rfl

theorem look_of_clear (h : w.Clear l) : w.look l = .ok (w.root.at? l) := by
  have hp : ¬pathLimit < l.text.utf8ByteSize := fun hp => h _ (.path hp)
  rw [look, if_neg hp, Entry.look_of_not_bars fun b hb => h b (.entry (Nat.le_of_not_lt hp) hb)]
  rfl

theorem Barred.unique (h : w.Barred l b) (h' : w.Barred l b') : b = b' := by
  have ho := (look_of_barred h).symm.trans (look_of_barred h')
  cases ho
  rfl

-- What cannot be looked at has nothing in it that can.
theorem Clear.of_append {l' : Location} (h : w.Clear (l ++ l')) : w.Clear l := by
  intro b hb
  by_cases hp : pathLimit < (l ++ l').text.utf8ByteSize
  case pos => exact h _ (.path hp)
  case neg =>
    have hp := Nat.le_of_not_lt hp
    cases hb
    case path hl => exact absurd (Nat.le_trans (Location.size_text_le l l') hp) (Nat.not_le.mpr hl)
    case entry hb => exact h _ (.entry hp (hb.append l'))

theorem hasEntry_of_barred (h : w.Barred l b) : w.hasEntry l = .error ⟨l, b⟩ := by
  rw [hasEntry, look_of_barred h]
  rfl

theorem hasEntry_of_has (hc : w.Clear l) (h : w.Has l) : w.hasEntry l = .ok true := by
  rw [hasEntry, look_of_clear hc]
  exact congrArg Except.ok h

theorem hasEntry_of_not_has (hc : w.Clear l) (h : ¬w.Has l) : w.hasEntry l = .ok false := by
  rw [hasEntry, look_of_clear hc]
  exact congrArg Except.ok (Bool.of_not_eq_true h)

theorem isFile_of_barred (h : w.Barred l b) : w.isFile l = .error ⟨l, b⟩ := by
  rw [isFile, look_of_barred h]
  rfl

theorem isFile_of_hasFile (hc : w.Clear l) (h : w.HasFile l) : w.isFile l = .ok true := by
  obtain ⟨bytes, readable, he⟩ := h
  rw [isFile, look_of_clear hc, he]
  rfl

theorem isFile_of_not_hasFile (hc : w.Clear l) (h : ¬w.HasFile l) : w.isFile l = .ok false := by
  rw [isFile, look_of_clear hc]
  cases he : w.root.at? l
  case none => rfl
  case some e =>
    cases e
    case file bytes readable => exact absurd ⟨bytes, readable, he⟩ h
    case directory => rfl

-- The root is a directory, and only directories have something in them.
theorem not_hasFile_nil (w : Workspace) : ¬w.HasFile [] := by
  rintro ⟨bytes, readable, h⟩
  cases h

theorem not_hasFile_of_has (h : w.Has (l ++ [name])) : ¬w.HasFile l := by
  rintro ⟨bytes, readable, he⟩
  rw [Has, Entry.at?_append, he] at h
  cases h

theorem HasFile.has (h : w.HasFile l) : w.Has l := by
  obtain ⟨bytes, readable, he⟩ := h
  rw [Has, he]
  rfl

-- The location of a path, by its names alone.
def place (w : Workspace) (p : Path) : Location :=
  Path.follow (if p.isAbsolute then [] else w.cwd) p.parts

-- What is read is the file at the location of the path.
theorem at?_of_read {bytes : List UInt8} (h : w.read p = .ok bytes) : w.root.at? (w.place p) = some (.file bytes) := by
  rw [read] at h
  split at h
  case isTrue => cases h
  case isFalse =>
    obtain ⟨⟨above, here⟩, hs, h⟩ := bind_eq_ok.mp h
    obtain ⟨found, hw, h⟩ := bind_eq_ok.mp h
    rw [← Entry.content_eq_ok h, place]
    rw [outset] at hs
    split at hs
    case isTrue ha =>
      cases hs
      rw [if_pos ha]
      exact Entry.Stands.root.walk hw
    case isFalse ha =>
      rw [if_neg ha]
      exact (Entry.Stands.root.enter hs).walk hw

theorem home_of_not_tilde {parts : List String} (h : ∀ part ∈ parts.head?, part.toList.head? ≠ some '~') :
    w.home parts = .ok (w.cwd, parts) := by
  cases parts
  case nil => rfl
  case cons part rest =>
    have hp := h part rfl
    rw [home]
    split
    case h_1 user hu => simp [hu] at hp
    case h_2 => rfl

theorem locate_of_isPlain (h : p.IsPlain) : w.locate p = .ok (w.place p) := by
  obtain ⟨hh, hn⟩ := h
  have hn : p.parts.any hasNull = false := List.any_eq_false.mpr (by simpa using hn)
  simp only [locate, place, bind, Except.bind, pure, Except.pure]
  cases ha : p.isAbsolute
  case true => simp only [if_true, hn, Bool.false_eq_true, if_false]
  case false => simp only [Bool.false_eq_true, if_false, home_of_not_tilde (hh ha), hn]

end Workspace

end ParenTree
