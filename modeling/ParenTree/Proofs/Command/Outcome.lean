import ParenTree.Command.Run
import ParenTree.Proofs.Config.Content
import ParenTree.Proofs.Config.Search
import ParenTree.Proofs.Model.Pipeline

-- What a command comes to: a fault in the settings, a file that cannot be read, a dump or a diagnostic, and which of them is
-- told by the files and the command line.

namespace ParenTree

-- The tokens of a text do not run out, so a text without a program has a fault.
theorem Program.fault_of_ofSource {file source : String} {failure : Parser.Failure}
    (h : ofSource file source = .error failure) : ∃ fault, failure = .fault fault := by
  rw [ofSource] at h
  cases ht : Token.ofSource file source <;> rw [ht] at h
  case error fault =>
    cases h
    exact ⟨fault, rfl⟩
  case ok ts =>
    cases failure
    case fault fault => exact ⟨fault, rfl⟩
    case outOfTokens => exact absurd h (ofTokens_ne_outOfTokens (Grammar.terminated_of_ofSource ht))

namespace Settings

variable {w : Workspace} {dir start file : Location}

-- The settings for work in a directory: those of the nearest file, or the usual ones if there is no file.
inductive Applies (w : Workspace) (dir : Location) : Settings → Prop
  | default : Absent w dir → Applies w dir .default
  | file {file s} : Nearest w dir file → read w file = .ok s → Applies w dir s

theorem loadAt_of_nearest (ho : ∀ o, ¬Obstructed w start o) (h : Nearest w (w.directoryOf start) file) :
    loadAt w start = read w file := by
  rw [loadAt, (find?_eq_some_iff ho).mpr (nearest_base_iff.mpr h)]

theorem loadAt_of_applies {s : Settings} (ho : ∀ o, ¬Obstructed w start o) (h : Applies w (w.directoryOf start) s) :
    loadAt w start = .ok s := by
  cases h
  case default ha => rw [loadAt, (find?_eq_none_iff ho).mpr (absent_base_iff.mpr ha)]
  case file hn hr => rw [loadAt_of_nearest ho hn, hr]

-- A file of settings that holds a text has settings or a fault, as long as its integers can be read.
theorem read_cases (ht : ∀ bytes, w.read ⟨"/", file⟩ = .ok bytes → Utf8.IsText bytes)
    (hi : ∀ cs digits, w.read ⟨"/", file⟩ = .ok (Utf8.encode cs) →
      Toml.parse (.ofList (Text.unifyNewlines cs)) ≠ .error (.longInteger digits)) :
    (∃ s, read w file = .ok s) ∨ ∃ fault, read w file = .error (.faulty file fault) := by
  have h := reads_read w file
  generalize read w file = r at h
  cases h
  case unreadable => exact .inr ⟨_, rfl⟩
  case undecodable hr he => exact absurd (ht _ hr) (Text.ofBytes_error_iff.mp ⟨_, he⟩)
  case longInteger hr hp => exact absurd hp (hi _ _ hr)
  case invalid => exact .inr ⟨_, rfl⟩
  case misfit => exact .inr ⟨_, rfl⟩
  case settings => exact .inl ⟨_, rfl⟩

end Settings

namespace Command

namespace Invocation

-- Where the work is: at the file, or in the working directory.
def start (i : Invocation) (w : Workspace) : Location :=
  match i.verb with
  | .dump => w.place (.ofString i.operand)
  | .expr => w.cwd

-- The text that is dumped.
inductive Reads (i : Invocation) (w : Workspace) : String → Prop
  | operand : i.verb = .expr → i.Reads w i.operand
  | file {cs} : i.verb = .dump → w.read (.ofString i.operand) = .ok (Utf8.encode cs) →
    i.Reads w (.ofList (Text.unifyNewlines cs))

-- The depth that the text is dumped at: what the command line says, or else the settings.
def indentation (i : Invocation) (s : Settings) : Nat :=
  match i.indent with
  | .depth n => n
  | _ => s.initialIndent

-- How a command ends, with its status and what it prints. Settings come first, then the file, then the text.
inductive Ends (i : Invocation) (w : Workspace) : Nat → String → Prop
  | misconfigured {file fault} :
    Settings.Nearest w (w.directoryOf (i.start w)) file → Settings.read w file = .error (.faulty file fault) →
    i.Ends w 1 (file.text ++ ": " ++ fault.text file ++ "\n")
  | unreadable {s fault} :
    Settings.Applies w (w.directoryOf (i.start w)) s → i.verb = .dump → w.read (.ofString i.operand) = .error fault →
    i.Ends w 1 ("unable to read " ++ i.sourceName ++ ": " ++ fault.message i.sourceName ++ "\n")
  | dumped {s source p text} :
    Settings.Applies w (w.directoryOf (i.start w)) s → i.Reads w source → Program.ofSource i.sourceName source = .ok p →
    (p.dump (i.indentation s)).1 = .ok text → i.Ends w 0 (text ++ "\n")
  | diagnosed {s source fault} :
    Settings.Applies w (w.directoryOf (i.start w)) s → i.Reads w source →
    Program.ofSource i.sourceName source = .error (.fault fault) → i.Ends w 1 (fault.diagnostic.text ++ "\n")

-- The files that are read hold texts.
structure Encoded (i : Invocation) (w : Workspace) : Prop where
  source : ∀ bytes, i.verb = .dump → w.read (.ofString i.operand) = .ok bytes → Utf8.IsText bytes
  settings : ∀ file bytes, Settings.Nearest w (w.directoryOf (i.start w)) file → w.read ⟨"/", file⟩ = .ok bytes →
    Utf8.IsText bytes

-- What is not accounted for: the home of a user at the front of a path, something that the search for settings cannot look at,
-- two dashes for a number, integers of too many digits in the settings, and lines with more blanks than a text can have. Without
-- all of them a command is regular.
structure Regular (i : Invocation) (w : Workspace) : Prop where
  path : i.verb = .dump → (Path.ofString i.operand).IsPlain
  search : ∀ o, ¬Settings.Obstructed w (i.start w) o
  indent : i.indent ≠ .blank
  integers : ∀ file cs digits, Settings.Nearest w (w.directoryOf (i.start w)) file →
    w.read ⟨"/", file⟩ = .ok (Utf8.encode cs) → Toml.parse (.ofList (Text.unifyNewlines cs)) ≠ .error (.longInteger digits)
  depth : ∀ s source p, Settings.Applies w (w.directoryOf (i.start w)) s → i.Reads w source →
    Program.ofSource i.sourceName source = .ok p →
    p.body = [] ∨ (Layout.indentation (i.indentation s + 1)).length ≤ Layout.textLimit

section

variable {i : Invocation} {w : Workspace} {s : Settings} {source : String}

theorem settings_eq (h : i.Regular w) : i.settings w = Settings.loadAt w (i.start w) := by
  cases hv : i.verb <;> simp only [settings, start, hv]
  case dump => rw [Settings.load, Workspace.locate_of_isPlain (h.path hv)]

theorem depth_eq (h : i.Regular w) (s : Settings) : i.depth s = some (i.indentation s) := by
  have hi := h.indent
  rw [depth, indentation]
  cases hd : i.indent <;> rw [hd] at hi
  case blank => contradiction

theorem source_of_reads (h : i.Reads w source) : i.source w = .ok source := by
  cases h
  case operand hv => rw [Invocation.source, hv]
  case file hv hr =>
    rw [Invocation.source, hv]
    dsimp only
    rw [hr]
    dsimp only
    rw [Text.ofBytes_encode]
    rfl

theorem source_of_unreadable {fault : ReadFault} (hv : i.verb = .dump) (hr : w.read (.ofString i.operand) = .error fault) :
    i.source w = .error (.unreadable i.sourceName fault) := by
  rw [Invocation.source, hv]
  dsimp only
  rw [hr]

-- What a command prints is told by the result of its work, whatever it logs.
theorem run_of_settings (h : i.settings w = .ok s) : ((i.run w).status, (i.run w).out) = finish (i.report w s).result := by
  rw [run, h]

theorem result_eq :
    (i.report w s).result = (i.source w).bind fun source => (dumpSource i.sourceName source (i.depth s)).result := by
  rw [report]
  cases i.source w <;> rfl

-- Details are for the log only.
theorem run_quiet {i' : Invocation} (hv : i'.verb = i.verb) (ho : i'.operand = i.operand) (hi : i'.indent = i.indent)
    (w : Workspace) : ((i'.run w).status, (i'.run w).out) = ((i.run w).status, (i.run w).out) := by
  obtain ⟨verb, operand, indent, verbose⟩ := i
  obtain ⟨verb', operand', indent', verbose'⟩ := i'
  cases hv
  cases ho
  cases hi
  have hs : settings ⟨verb, operand, indent, verbose'⟩ w = settings ⟨verb, operand, indent, verbose⟩ w := rfl
  rw [run, run, hs]
  cases settings ⟨verb, operand, indent, verbose⟩ w <;> rfl

end

end Invocation

theorem layoutDepth_eq {p : Program} {depth : Nat}
    (h : p.body = [] ∨ (Layout.indentation (depth + 1)).length ≤ Layout.textLimit) :
    layoutDepth p (some depth) = .ok depth := by
  rw [layoutDepth]
  cases h
  case inl hb => rw [if_pos (by simp [hb])]
  case inr hd =>
    split
    case isTrue => rfl
    case isFalse => rw [Layout.overflow?_eq_none_iff.mpr hd]

theorem dumpSource_of_ok {file source text : String} {p : Program} {depth : Nat} (h : Program.ofSource file source = .ok p)
    (hd : p.body = [] ∨ (Layout.indentation (depth + 1)).length ≤ Layout.textLimit) (ht : (p.dump depth).1 = .ok text) :
    (dumpSource file source (some depth)).result = .ok text := by
  rw [dumpSource, h]
  dsimp only
  rw [layoutDepth_eq hd]
  dsimp only
  rw [ht]
  rfl

theorem dumpSource_of_error {file source : String} {failure : Parser.Failure} (depth : Option Nat)
    (h : Program.ofSource file source = .error failure) :
    (dumpSource file source depth).result = .error (.source failure) := by
  rw [dumpSource, h]

namespace Invocation

variable {i : Invocation} {w : Workspace}

theorem run_of_ends {status : Nat} {out : String} (hr : i.Regular w) (h : i.Ends w status out) :
    ((i.run w).status, (i.run w).out) = (status, out) := by
  have hs := settings_eq hr
  cases h
  case misconfigured hn hf =>
    rw [Settings.loadAt_of_nearest hr.search hn, hf] at hs
    rw [run, hs]
    rfl
  case unreadable ha hv hf =>
    rw [Settings.loadAt_of_applies hr.search ha] at hs
    rw [run_of_settings hs, result_eq, source_of_unreadable hv hf]
    rfl
  case dumped s source p text ha hd hp ht =>
    rw [Settings.loadAt_of_applies hr.search ha] at hs
    rw [run_of_settings hs, result_eq, source_of_reads hd, Except.bind, depth_eq hr,
      dumpSource_of_ok hp (hr.depth s source p ha hd hp) ht]
    rfl
  case diagnosed ha hd hp =>
    rw [Settings.loadAt_of_applies hr.search ha] at hs
    rw [run_of_settings hs, result_eq, source_of_reads hd, Except.bind, dumpSource_of_error _ hp]
    rfl

theorem applies_or_faulty (hr : i.Regular w) (he : i.Encoded w) :
    (∃ s, Settings.Applies w (w.directoryOf (i.start w)) s) ∨
      ∃ file fault, Settings.Nearest w (w.directoryOf (i.start w)) file ∧ Settings.read w file = .error (.faulty file fault) := by
  rcases hf : Settings.find? w (i.start w) with o | found
  case error => exact absurd (Settings.find?_eq_error_iff.mp hf) (hr.search o)
  case ok =>
    rcases found with - | file
    case none => exact .inl ⟨_, .default (Settings.absent_base_iff.mp ((Settings.find?_eq_none_iff hr.search).mp hf))⟩
    case some =>
      have hn := Settings.nearest_base_iff.mp ((Settings.find?_eq_some_iff hr.search).mp hf)
      rcases Settings.read_cases (fun bytes => he.settings file bytes hn) (fun cs digits => hr.integers file cs digits hn) with
        ⟨s, hs⟩ | ⟨fault, hs⟩
      case inl => exact .inl ⟨s, .file hn hs⟩
      case inr => exact .inr ⟨file, fault, hn, hs⟩

theorem reads_or_unreadable (he : i.Encoded w) :
    (∃ source, i.Reads w source) ∨ i.verb = .dump ∧ ∃ fault, w.read (.ofString i.operand) = .error fault := by
  cases hv : i.verb
  case expr => exact .inl ⟨_, .operand hv⟩
  case dump =>
    cases hb : w.read (.ofString i.operand)
    case error fault => exact .inr ⟨rfl, fault, rfl⟩
    case ok bytes =>
      obtain ⟨cs, rfl⟩ := he.source bytes hv hb
      exact .inl ⟨_, .file hv hb⟩

theorem exists_ends (hr : i.Regular w) (he : i.Encoded w) : ∃ status out, i.Ends w status out := by
  rcases applies_or_faulty hr he with ⟨s, ha⟩ | ⟨file, fault, hn, hf⟩
  case inr => exact ⟨_, _, .misconfigured hn hf⟩
  case inl =>
    rcases reads_or_unreadable he with ⟨source, hd⟩ | ⟨hv, fault, hf⟩
    case inr => exact ⟨_, _, .unreadable ha hv hf⟩
    case inl =>
      cases hp : Program.ofSource i.sourceName source
      case ok p => exact ⟨_, _, .dumped ha hd hp (Program.dump_of_ofSource hp _).left⟩
      case error failure =>
        obtain ⟨fault, rfl⟩ := Program.fault_of_ofSource hp
        exact ⟨_, _, .diagnosed ha hd hp⟩

end Invocation

variable {i : Invocation} {arguments : List String} {w : Workspace}

-- What a command prints, and its status. It ends in one of four ways, each when the files and the command line say so, never
-- in another. The settings are those above the file that is read. Neither being asked for details nor the level of the log
-- changes anything of it: the text and the depth tell it all.
theorem run_ends_iff (h : Request.ofArguments arguments = .ok (.run i)) :
    (i.Regular w → i.Encoded w → ∀ status out,
      i.Ends w status out ↔ (run w arguments).status = status ∧ (run w arguments).out = out) ∧
    (∀ bytes, i.verb = .dump → w.read (.ofString i.operand) = .ok bytes →
      w.root.at? (i.start w) = some (.file bytes) ∧ w.directoryOf (i.start w) = (i.start w).dropLast) ∧
    (∀ arguments' i', Request.ofArguments arguments' = .ok (.run i') →
      i'.verb = i.verb → i'.operand = i.operand → i'.indent = i.indent →
      (run w arguments').status = (run w arguments).status ∧ (run w arguments').out = (run w arguments).out) ∧
    ∀ w' s s', i.settings w = .ok s → i.settings w' = .ok s' → s'.initialIndent = s.initialIndent → i.source w' = i.source w →
      (run w' arguments).status = (run w arguments).status ∧ (run w' arguments).out = (run w arguments).out := by
  have hrun (w : Workspace) : run w arguments = i.run w := by rw [run, h]
  refine ⟨fun hr he status out => ?_, fun bytes hv hb => ?_, fun arguments' i' h' hv ho hi => ?_,
    fun w' s s' hs hs' hi hd => ?_⟩
  case refine_1 =>
    rw [hrun]
    constructor
    case mp => exact fun h => Prod.mk.inj (Invocation.run_of_ends hr h)
    case mpr =>
      rintro ⟨rfl, rfl⟩
      obtain ⟨status, out, h⟩ := Invocation.exists_ends hr he
      obtain ⟨hs, ho⟩ := Prod.mk.inj (Invocation.run_of_ends hr h)
      rwa [hs, ho]
  case refine_2 =>
    have hat : w.root.at? (i.start w) = some (.file bytes) := by
      rw [Invocation.start, hv]
      exact Workspace.at?_of_read hb
    exact ⟨hat, by rw [Workspace.directoryOf, hat]⟩
  case refine_3 =>
    rw [hrun, run, h']
    exact Prod.mk.inj (Invocation.run_quiet hv ho hi w)
  case refine_4 =>
    rw [hrun, hrun]
    refine Prod.mk.inj ?_
    rw [Invocation.run_of_settings hs, Invocation.run_of_settings hs', Invocation.result_eq, Invocation.result_eq, hd,
      Invocation.depth, Invocation.depth, hi]

-- A source in a directory below its settings.
def project : Workspace where
  entries := [("p", .directory [
    (Settings.fileName, .file (Utf8.encode "[dump]\ninitial_indent = 1\n[log]\nlevel = \"debug\"".toList)),
    ("s", .directory [("x.td", .file (Utf8.encode "\x7ba\x7d".toList))])])]
  cwd := ["p"]
  homes := []

def projectDump : Invocation :=
  ⟨.dump, "s/x.td", .unset, true⟩

theorem run_ends_iff_project :
    Request.ofArguments ["dump", "s/x.td", "-v"] = .ok (.run projectDump) ∧
      projectDump.Regular project ∧ projectDump.Encoded project ∧ (run project ["dump", "s/x.td", "-v"]).status = 0 ∧
      (run project ["dump", "s/x.td", "-v"]).out = "(program\n    (block\n      a))\n" := by
  have h : Request.ofArguments ["dump", "s/x.td", "-v"] = .ok (.run projectDump) := by decide +kernel
  have hf : Settings.find? project (projectDump.start project) = .ok (some ["p", Settings.fileName]) := by
    decide +kernel
  have hs : Settings.read project ["p", Settings.fileName] = .ok ⟨1, .debug, some ["p", Settings.fileName]⟩ := by decide +kernel
  have hb : project.read ⟨"/", ["p", Settings.fileName]⟩ =
      .ok (Utf8.encode "[dump]\ninitial_indent = 1\n[log]\nlevel = \"debug\"".toList) := by decide +kernel
  have hd : project.read (.ofString projectDump.operand) = .ok (Utf8.encode "\x7ba\x7d".toList) := by decide +kernel
  have ho := Settings.not_obstructed_of_find? hf
  have hn := Settings.nearest_base_iff.mp ((Settings.find?_eq_some_iff ho).mp hf)
  have hr : projectDump.Regular project := by
    refine ⟨fun _ => ⟨by decide +kernel, by decide +kernel⟩, ho, by decide, fun file cs digits hn' hb' => ?_,
      fun s source p ha _ _ => ?_⟩
    case refine_1 =>
      obtain rfl := hn.unique hn'
      rw [← Utf8.encode_inj (Except.ok.inj (hb.symm.trans hb'))]
      have hp : (Toml.parse (.ofList (Text.unifyNewlines
        "[dump]\ninitial_indent = 1\n[log]\nlevel = \"debug\"".toList))).toBool := by decide +kernel
      intro hl
      rw [hl] at hp
      cases hp
    case refine_2 =>
      have hl := Settings.loadAt_of_applies ho ha
      rw [Settings.loadAt_of_nearest ho hn, hs] at hl
      cases hl
      exact .inr (by decide +kernel)
  have he : projectDump.Encoded project := by
    refine ⟨fun bytes _ hb' => ?_, fun file bytes hn' hb' => ?_⟩
    case refine_1 => exact ⟨_, Except.ok.inj (hb'.symm.trans hd)⟩
    case refine_2 =>
      obtain rfl := hn.unique hn'
      exact ⟨_, Except.ok.inj (hb'.symm.trans hb)⟩
  obtain ⟨p, hp, ht⟩ := Program.exists_dump projectDump.sourceName (.ofList (Text.unifyNewlines "\x7ba\x7d".toList))
    "(program\n    (block\n      a))" 1 (by decide +kernel)
  exact ⟨h, hr, he, ((run_ends_iff h).left hr he 0 _).mp (.dumped (.file hn hs) (.file rfl hd) hp ht)⟩

-- The same source in a directory that is named with a tilde.
def tildeProject : Workspace where
  entries := [("p", .directory [("~", .directory [
    (Settings.fileName, .file (Utf8.encode "[dump]\ninitial_indent = 3".toList)),
    ("x.td", .file (Utf8.encode "\x7ba\x7d".toList))])])]
  cwd := ["p"]
  homes := [("", ["h"])]

def tildeDump : Invocation :=
  ⟨.dump, "~/x.td", .unset, false⟩

-- The source is read from that directory, but its settings are looked for in a home.
theorem run_tilde_not_ends :
    Request.ofArguments ["dump", "~/x.td"] = .ok (.run tildeDump) ∧ tildeDump.Encoded tildeProject ∧
      tildeDump.Ends tildeProject 0 "(program\n        (block\n          a))\n" ∧
      (run tildeProject ["dump", "~/x.td"]).out = "(program\n  (block\n    a))\n" := by
  have h : Request.ofArguments ["dump", "~/x.td"] = .ok (.run tildeDump) := by decide +kernel
  have hf : Settings.find? tildeProject (tildeDump.start tildeProject) = .ok (some ["p", "~", Settings.fileName]) := by
    decide +kernel
  have hs : Settings.read tildeProject ["p", "~", Settings.fileName] =
      .ok ⟨3, .warning, some ["p", "~", Settings.fileName]⟩ := by decide +kernel
  have hb : tildeProject.read ⟨"/", ["p", "~", Settings.fileName]⟩ =
      .ok (Utf8.encode "[dump]\ninitial_indent = 3".toList) := by decide +kernel
  have hd : tildeProject.read (.ofString tildeDump.operand) = .ok (Utf8.encode "\x7ba\x7d".toList) := by decide +kernel
  have ho := Settings.not_obstructed_of_find? hf
  have hn := Settings.nearest_base_iff.mp ((Settings.find?_eq_some_iff ho).mp hf)
  have hr : tildeDump.Reads tildeProject (.ofList (Text.unifyNewlines "\x7ba\x7d".toList)) := .file rfl hd
  refine ⟨h, ⟨fun bytes _ hb' => ?_, fun file bytes hn' hb' => ?_⟩, ?_, ?_⟩
  case refine_1 => exact ⟨_, Except.ok.inj (hb'.symm.trans hd)⟩
  case refine_2 =>
    obtain rfl := hn.unique hn'
    exact ⟨_, Except.ok.inj (hb'.symm.trans hb)⟩
  case refine_3 =>
    obtain ⟨p, hp, ht⟩ := Program.exists_dump tildeDump.sourceName (.ofList (Text.unifyNewlines "\x7ba\x7d".toList))
      "(program\n        (block\n          a))" 3 (by decide +kernel)
    exact .dumped (.file hn hs) hr hp ht
  case refine_4 =>
    have hl : tildeDump.settings tildeProject = .ok .default := by decide +kernel
    obtain ⟨p, hp, ht⟩ := Program.exists_dump tildeDump.sourceName (.ofList (Text.unifyNewlines "\x7ba\x7d".toList))
      "(program\n  (block\n    a))" 0 (by decide +kernel)
    have hout := Invocation.run_of_settings hl
    rw [Invocation.result_eq, Invocation.source_of_reads hr, Except.bind] at hout
    change _ = Invocation.finish (dumpSource _ _ (some 0)).result at hout
    rw [dumpSource_of_ok hp (.inr (by decide +kernel)) ht] at hout
    rw [run, h]
    exact (Prod.mk.inj hout).right

end Command

end ParenTree
