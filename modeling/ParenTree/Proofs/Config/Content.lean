import Mathlib.Data.List.Forall2
import ParenTree.Config.Settings
import ParenTree.Proofs.Steps
import ParenTree.Proofs.Text.Utf8

-- Which settings the content of a file gives, and what becomes of a content that gives none: most have a fault, but bytes that
-- are no text and integers with too many digits are not seen as one.

namespace ParenTree

namespace Text

variable {bytes : List UInt8} {cs ds : List Char} {s : String}

theorem ofBytes_eq_ok : ofBytes bytes = .ok s ↔ ∃ cs, bytes = Utf8.encode cs ∧ s = .ofList (unifyNewlines cs) := by
  rw [ofBytes, bind_eq_ok]
  simp only [Utf8.decode_eq_ok_iff, pure, Except.pure, Except.ok.injEq, eq_comm (a := s)]

theorem ofBytes_encode (cs : List Char) : ofBytes (Utf8.encode cs) = .ok (.ofList (unifyNewlines cs)) :=
  ofBytes_eq_ok.mpr ⟨cs, rfl, rfl⟩

theorem ofBytes_error_iff : (∃ fault, ofBytes bytes = .error fault) ↔ ¬Utf8.IsText bytes := by
  constructor
  case mp =>
    rintro ⟨fault, h⟩ ⟨cs, rfl⟩
    cases (ofBytes_encode cs).symm.trans h
  case mpr =>
    intro hn
    cases h : ofBytes bytes
    case error fault => exact ⟨fault, rfl⟩
    case ok s =>
      obtain ⟨cs, he, -⟩ := ofBytes_eq_ok.mp h
      exact absurd ⟨cs, he⟩ hn

-- A small letter is the small form of itself and of its capital, and of nothing else.
theorem toLower_eq_iff {c d : Char} (h : d.isLower) : c.toLower = d ↔ c = d ∨ c = d.toUpper := by
  delta Char.toLower Char.toUpper
  delta Char.isLower at h
  have ha : 'a'.val.toNat = 97 := rfl
  have hz : 'z'.val.toNat = 122 := rfl
  have hA : 'A'.val.toNat = 65 := rfl
  have hZ : 'Z'.val.toNat = 90 := rfl
  simp only [Bool.and_eq_true, decide_eq_true_eq, UInt32.le_iff_toNat_le, ge_iff_le] at h ⊢
  rw [dif_pos h]
  split <;> simp only [Char.ext_iff, ← UInt32.toNat_inj, UInt32.toNat_add, UInt32.toNat_sub] <;> omega

theorem map_toLower_eq_iff (h : ds.all Char.isLower) :
    cs.map Char.toLower = ds ↔ List.Forall₂ (fun c d => c = d ∨ c = d.toUpper) cs ds := by
  induction cs generalizing ds
  case nil => cases ds <;> simp
  case cons c cs hi =>
    cases ds
    case nil => simp
    case cons d ds =>
      rw [List.all_cons, Bool.and_eq_true] at h
      obtain ⟨hd, hs⟩ := h
      rw [List.map_cons, List.cons.injEq, List.forall₂_cons, toLower_eq_iff hd, hi hs]

end Text

namespace LogLevel

variable {level : LogLevel} {s : String}

-- The name of a level, each letter of it small or a capital.
def Named (level : LogLevel) (s : String) : Prop :=
  List.Forall₂ (fun c d => c = d ∨ c = d.toUpper) s.toList level.name.toList

theorem named_iff : level.Named s ↔ s.toLower = level.name := by
  have hn : level.name.toList.all Char.isLower := by cases level <;> decide
  have hl : s.toLower = s.map Char.toLower := rfl
  rw [Named, ← Text.map_toLower_eq_iff hn, ← String.toList_inj, hl, String.toList_map]

theorem ofName?_eq_some_iff : ofName? s = some level ↔ level.Named s := by
  rw [named_iff, ofName?]
  constructor
  case mp =>
    intro h
    have hn := List.find?_some h
    exact (of_decide_eq_true hn).symm
  case mpr =>
    intro h
    rw [h]
    cases level <;> rfl

end LogLevel

namespace Settings

variable {w : Workspace} {document entries : Toml.Table} {name : String} {file : Location} {s : Settings}

-- What a table gives under a name: an entry means something, and without one a usual value counts.
def Gives {α : Type} (entries : Toml.Table) (name : String) (Means : Toml.Value → α → Prop) (usual a : α) : Prop :=
  (∃ value, entries.lookup name = some value ∧ Means value a) ∨ entries.lookup name = none ∧ a = usual

-- The settings that a document gives, in two tables of it.
def Describes (document : Toml.Table) (s : Settings) : Prop :=
  ∃ dump log,
    Gives document "dump" (· = .table ·) [] dump ∧
    Gives document "log" (· = .table ·) [] log ∧
    Gives dump "initial_indent" (· = .integer ·) default.initialIndent s.initialIndent ∧
    Gives log "level" (fun value level => ∃ name, value = .text name ∧ level.Named name) default.logLevel s.logLevel

theorem tableOf_eq_ok : tableOf document name = .ok entries ↔ Gives document name (· = .table ·) [] entries := by
  rw [tableOf, Gives]
  split
  case h_1 hl => simp [hl, eq_comm]
  case h_2 hl => simp [hl]
  case h_3 hn hl => simpa [hl] using hn entries

theorem indentOf_eq_ok {n : Nat} : indentOf entries = .ok n ↔ Gives entries "initial_indent" (· = .integer ·) 0 n := by
  rw [indentOf, Gives]
  split
  case h_1 hl => simp [hl, eq_comm]
  case h_2 hl =>
    simp only [hl, Except.ok.injEq, Option.some.injEq, exists_eq_left', Toml.Value.integer.injEq, reduceCtorEq, false_and,
      or_false]
    exact Int.ofNat_inj.symm
  case h_3 hl => simp [hl]
  case h_4 hn _ hl => simpa [hl] using hn n

theorem levelOf_eq_ok {level : LogLevel} : levelOf entries = .ok level ↔
    Gives entries "level" (fun value level => ∃ name, value = .text name ∧ level.Named name) .warning level := by
  rw [levelOf, Gives]
  simp only [← LogLevel.ofName?_eq_some_iff]
  split
  case h_1 hl => simp [hl, eq_comm]
  case h_2 name hl => cases hn : LogLevel.ofName? name <;> simp [hl, hn]
  case h_3 hn hl => simpa [hl] using fun name hv _ => hn name hv

theorem ofDocument_eq_ok : ofDocument file document = .ok s ↔ s.file = some file ∧ Describes document s := by
  simp only [ofDocument, bind_eq_ok, tableOf_eq_ok, indentOf_eq_ok, levelOf_eq_ok, pure, Except.pure, Except.ok.injEq]
  constructor
  case mp =>
    rintro ⟨dump, hd, indent, hi, log, hl, level, hv, rfl⟩
    exact ⟨rfl, dump, log, hd, hl, hi, hv⟩
  case mpr =>
    rintro ⟨hf, dump, log, hd, hl, hi, hv⟩
    exact ⟨dump, hd, s.initialIndent, hi, log, hl, s.logLevel, hv, by rw [← hf]⟩

-- What it comes to when a file of settings is read.
inductive Reads (w : Workspace) (file : Location) : Except Failure Settings → Prop
  | unreadable {fault} : w.read ⟨"/", file⟩ = .error fault → Reads w file (.error (.faulty file (.unreadable fault)))
  | undecodable {bytes fault} :
    w.read ⟨"/", file⟩ = .ok bytes → Text.ofBytes bytes = .error fault → Reads w file (.error (.undecodable fault))
  | longInteger {cs digits} :
    w.read ⟨"/", file⟩ = .ok (Utf8.encode cs) → Toml.parse (.ofList (Text.unifyNewlines cs)) = .error (.longInteger digits) →
    Reads w file (.error (.longInteger digits))
  | invalid {cs fault} :
    w.read ⟨"/", file⟩ = .ok (Utf8.encode cs) → Toml.parse (.ofList (Text.unifyNewlines cs)) = .error fault →
    (∀ digits, fault ≠ .longInteger digits) → Reads w file (.error (.faulty file (.invalid fault)))
  | misfit {cs document fault} :
    w.read ⟨"/", file⟩ = .ok (Utf8.encode cs) → Toml.parse (.ofList (Text.unifyNewlines cs)) = .ok document →
    ofDocument file document = .error fault → Reads w file (.error (.faulty file fault))
  | settings {cs document s} :
    w.read ⟨"/", file⟩ = .ok (Utf8.encode cs) → Toml.parse (.ofList (Text.unifyNewlines cs)) = .ok document →
    ofDocument file document = .ok s → Reads w file (.ok s)

theorem reads_read (w : Workspace) (file : Location) : Reads w file (read w file) := by
  rw [read]
  cases hr : w.read ⟨"/", file⟩
  case error fault => exact .unreadable hr
  case ok bytes =>
    cases ht : Text.ofBytes bytes
    case error fault =>
      simp only [ofBytes, ht]
      exact .undecodable hr ht
    case ok text =>
      obtain ⟨cs, rfl, rfl⟩ := Text.ofBytes_eq_ok.mp ht
      simp only [ofBytes, ht]
      split
      case h_1 hp => exact .longInteger hr hp
      case h_2 hn hp => exact .invalid hr hp fun digits h => hn digits h
      case h_3 document hp =>
        cases hd : ofDocument file document
        case error fault => exact .misfit hr hp hd
        case ok s => exact .settings hr hp hd

theorem read_eq_iff {r : Except Failure Settings} : read w file = r ↔ Reads w file r := by
  constructor
  case mp =>
    rintro rfl
    exact reads_read w file
  case mpr =>
    intro h
    cases h
    case unreadable hr => simp only [read, hr]
    case undecodable hr ht => simp only [read, hr, ofBytes, ht]
    case longInteger hr hp => simp only [read, hr, ofBytes, Text.ofBytes_encode, hp]
    case invalid hr hp hn => simp only [read, hr, ofBytes, Text.ofBytes_encode, hp]
    case misfit hr hp hd =>
      simp only [read, hr, ofBytes, Text.ofBytes_encode, hp, hd]
      rfl
    case settings hr hp hd =>
      simp only [read, hr, ofBytes, Text.ofBytes_encode, hp, hd]
      rfl

-- There are settings if and only if the file holds a document that describes some. Without settings there is a fault, unless
-- the bytes are no text or an integer is too long to be read.
theorem read_outcome (w : Workspace) (file : Location) :
    (∀ s, read w file = .ok s ↔
      s.file = some file ∧ ∃ cs document, w.read ⟨"/", file⟩ = .ok (Utf8.encode cs) ∧
        Toml.parse (.ofList (Text.unifyNewlines cs)) = .ok document ∧ Describes document s) ∧
    ((∃ fault, read w file = .error (.undecodable fault)) ↔
      ∃ bytes, w.read ⟨"/", file⟩ = .ok bytes ∧ ¬Utf8.IsText bytes) ∧
    (∀ digits, read w file = .error (.longInteger digits) ↔
      ∃ cs, w.read ⟨"/", file⟩ = .ok (Utf8.encode cs) ∧
        Toml.parse (.ofList (Text.unifyNewlines cs)) = .error (.longInteger digits)) ∧
    ∀ failure, read w file = .error failure →
      (∃ fault, failure = .faulty file fault) ∨ (∃ fault, failure = .undecodable fault) ∨
        ∃ digits, failure = .longInteger digits := by
  simp only [read_eq_iff, ← Text.ofBytes_error_iff]
  refine ⟨fun s => ⟨?_, ?_⟩, ⟨?_, ?_⟩, fun digits => ⟨?_, ?_⟩, ?_⟩
  case refine_1 =>
    intro h
    cases h
    case settings hr hp hd =>
      obtain ⟨hf, hd⟩ := ofDocument_eq_ok.mp hd
      exact ⟨hf, _, _, hr, hp, hd⟩
  case refine_2 =>
    rintro ⟨hf, cs, document, hr, hp, hd⟩
    exact .settings hr hp (ofDocument_eq_ok.mpr ⟨hf, hd⟩)
  case refine_3 =>
    rintro ⟨fault, h⟩
    cases h
    case undecodable hr ht => exact ⟨_, hr, fault, ht⟩
  case refine_4 =>
    rintro ⟨bytes, hr, fault, ht⟩
    exact ⟨fault, .undecodable hr ht⟩
  case refine_5 =>
    intro h
    cases h
    case longInteger hr hp => exact ⟨_, hr, hp⟩
  case refine_6 =>
    rintro ⟨cs, hr, hp⟩
    exact .longInteger hr hp
  case refine_7 =>
    intro failure h
    cases h
    case unreadable => exact .inl ⟨_, rfl⟩
    case undecodable => exact .inr (.inl ⟨_, rfl⟩)
    case longInteger => exact .inr (.inr ⟨_, rfl⟩)
    case invalid => exact .inl ⟨_, rfl⟩
    case misfit => exact .inl ⟨_, rfl⟩

-- A file of settings that ends in the middle of a character.
def cutOff : Workspace :=
  ⟨[(fileName, .file [0x23, 0xE9])], {}, [], []⟩

-- The file is found, and its bytes are no text. That is not told as a fault in the file.
theorem read_cutOff :
    find? cutOff [] = .ok (some [fileName]) ∧ read cutOff [fileName] = .error (.undecodable ⟨.endOfData, 0xE9, 1, 1⟩) ∧
      ¬∃ fault, read cutOff [fileName] = .error (.faulty [fileName] fault) := by
  have hr : read cutOff [fileName] = .error (.undecodable ⟨.endOfData, 0xE9, 1, 1⟩) := by decide +kernel
  refine ⟨by decide +kernel, hr, ?_⟩
  rintro ⟨fault, h⟩
  cases hr.symm.trans h

end Settings
end ParenTree
