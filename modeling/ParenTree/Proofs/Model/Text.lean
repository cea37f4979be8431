import ParenTree.Proofs.Layout.Rendering
import ParenTree.Proofs.Model.Value
import ParenTree.Proofs.Syntax.WellFormed

-- The texts of syntax trees, part by part, and that they are what a dump writes.

namespace ParenTree

namespace Lexeme

open Layout (Bare bare_iff isDelimiter)

theorem not_delimiter_of_isNamePart {c : Char} (h : isNamePart c) : isDelimiter true c = false := by
  rw [isNamePart, Bool.or_eq_true, isNameStart_iff, isDigit_iff] at h
  have hb : Text.isBlank c = false := by
    simp only [Text.isBlank, Bool.or_eq_false_iff, Bool.and_eq_false_iff, decide_eq_false_iff_not, beq_eq_false_iff_ne]
    omega
  have hp {d : Char} (hd : d.toNat < 48) : c ≠ d := by
    rintro rfl
    omega
  simp [isDelimiter, hb, hp (d := '(') (by decide), hp (d := ')') (by decide), hp (d := '\'') (by decide)]

theorem not_delimiter_of_isDigit {c : Char} (h : isDigit c) : isDelimiter true c = false :=
  not_delimiter_of_isNamePart (by simp [isNamePart, h])

theorem bare_of_isName {w : String} (h : isName w.toList) : Bare true w := by
  unfold isName at h
  split at h
  case h_1 => cases h
  case h_2 c cs he =>
    obtain ⟨hc, hs⟩ := Bool.and_eq_true_iff.mp h
    rw [bare_iff, he]
    refine ⟨List.cons_ne_nil c cs, List.forall_mem_cons.mpr ⟨not_delimiter_of_isNamePart (by simp [isNamePart, hc]), ?_⟩⟩
    exact fun d hd => not_delimiter_of_isNamePart (List.all_eq_true.mp hs d hd)

theorem not_delimiter_of_isDigits {cs : List Char} (h : isDigits cs) : cs ≠ [] ∧ ∀ c ∈ cs, isDelimiter true c = false := by
  simp only [isDigits, Bool.and_eq_true, Bool.not_eq_true', List.isEmpty_eq_false_iff] at h
  exact ⟨h.left, fun c hc => not_delimiter_of_isDigit (List.all_eq_true.mp h.right c hc)⟩

end Lexeme

open Layout

theorem IsName.bare {w : String} (h : IsName w) : Bare true w :=
  Lexeme.bare_of_isName h.left

theorem bare_of_admits {kind : LiteralKind} {w : String} (h : kind.Admits w) (hk : kind ≠ .string) : Bare true w := by
  cases kind
  case int => exact bare_iff.mpr (Lexeme.not_delimiter_of_isDigits h)
  case float =>
    obtain ⟨whole, fraction, he, hw, hf⟩ := h
    obtain ⟨_, hw⟩ := Lexeme.not_delimiter_of_isDigits hw
    obtain ⟨_, hf⟩ := Lexeme.not_delimiter_of_isDigits hf
    rw [bare_iff, he]
    refine ⟨by simp, List.forall_mem_append.mpr ⟨hw, List.forall_mem_cons.mpr ⟨by decide, hf⟩⟩⟩
  case string => exact absurd rfl hk
  case «true» | «false» =>
    subst h
    decide

theorem Node.bare_of_unaryOperators : ∀ op ∈ Node.unaryOperators, Bare true op := by
  decide

theorem Node.bare_of_binaryOperators : ∀ op ∈ Node.binaryOperators, Bare true op := by
  decide

theorem Model.solid_quoteLiteral (value : String) : Solid (Model.quoteLiteral value) :=
  solid_of_getLast? (c := '\'') (by rw [Model.quoteLiteral, String.toList_ofList, List.getLast?_concat]) (by decide)

-- The end of a line and the blanks that the next one begins with.
def lineBreak (depth : Int) : String :=
  "\n" ++ .ofList (List.replicate (2 * depth.toNat) ' ')

-- A text in parentheses behind the word that leads it.
def inParens (head inside : String) : String :=
  "(" ++ head ++ inside ++ ")"

namespace Node

-- What keeps a node apart from the word in front of it: a space, but nothing if it is a string with a blank in it.
def gap : Node → String
  | literal _ .string value => if (Model.quoteLiteral value).toList.any Text.isBlank then "" else " "
  | _ => " "

mutual

-- The text of a node that begins at the given depth.
def dumpText (depth : Int) : Node → String
  | nop _ => "()"
  | literal _ .string value => Model.quoteLiteral value
  | literal _ _ value => value
  | ident _ name => name
  | unary _ op operand => inParens op (operand.gap ++ operand.dumpText depth)
  | binary _ left op right => inParens op (left.gap ++ left.dumpText depth ++ (right.gap ++ right.dumpText depth))
  | assign _ target value => inParens "=" (target.gap ++ target.dumpText depth ++ (value.gap ++ value.dumpText depth))
  | call _ callee args => inParens "call" (callee.gap ++ callee.dumpText depth ++ itemTexts depth args)
  | list _ items => inParens "[]" (itemTexts depth items)
  | block _ statements => inParens "block" (lineTexts (depth + 1) statements)
  | conditional _ condition thenBlock elseBranch =>
    inParens "if" (condition.gap ++ condition.dumpText depth ++
      (lineBreak (depth + 1) ++ inParens "then" (" " ++ thenBlock.dumpText (depth + 1)) ++
        if elseBranch.isNop then "" else lineBreak (depth + 1) ++ inParens "else" (" " ++ elseBranch.dumpText (depth + 1))))
  | letStmt _ name value => inParens "let" (" " ++ name ++ (value.gap ++ value.dumpText depth))
  | returnStmt _ value => inParens "return" (if value.isNop then "" else value.gap ++ value.dumpText depth)
  | function _ name params body =>
    inParens "fn" (" " ++ name ++ (" " ++ ("(" ++ " ".intercalate params ++ ")") ++
      (lineBreak (depth + 1) ++ body.dumpText (depth + 1))))

-- The texts of nodes behind a word, on the same line.
def itemTexts (depth : Int) : List Node → String
  | [] => ""
  | n :: ns => n.gap ++ n.dumpText depth ++ itemTexts depth ns

-- The texts of nodes on lines of their own.
def lineTexts (depth : Int) : List Node → String
  | [] => ""
  | n :: ns => lineBreak depth ++ n.dumpText depth ++ lineTexts depth ns

end

theorem gap_of_branch {n : Node} (h : n.isNop ∨ n.isBlock ∨ n.isConditional) : n.gap = " " := by
  cases n
  case literal => simp [isNop, isBlock, isConditional] at h
  all_goals rfl

end Node

def Program.dumpText (depth : Int) (p : Program) : String :=
  inParens "program" (Node.lineTexts (depth + 1) p.body)

namespace Layout

variable {value : Datum} {values : List Datum} {depth depth' : Int} {text text' before : String}

theorem RendersAll.cons (h : Renders value depth before text) (hs : RendersAll values depth depth' text') :
    RendersAll (value :: values) depth depth' (before ++ text ++ text') :=
  h.all.append hs

theorem Renders.bare {w : String} (h : Bare true w) : Renders (.literal w) depth " " w :=
  h.gap ▸ .literal h.solid

theorem Renders.led {w : String} (h : Bare true w) (hv : RendersAll values depth depth text) :
    Renders (.group (.literal w :: values)) depth " " (inParens w text) :=
  .group h.solid hv

-- The words behind the first one of a list of words.
theorem RendersAll.words (depth : Int) {ws : List String} (h : ∀ w ∈ ws, Bare true w) :
    ∃ text, RendersAll (ws.map .literal) depth depth text ∧ ∀ w, " ".intercalate (w :: ws) = w ++ text := by
  induction ws
  case nil => exact ⟨"", .nil, by simp⟩
  case cons u us hi =>
    obtain ⟨hu, hus⟩ := List.forall_mem_cons.mp h
    obtain ⟨text, hr, ht⟩ := hi hus
    exact ⟨" " ++ u ++ text, .cons (.bare hu) hr, fun w => by simp [ht, String.append_assoc]⟩

theorem Renders.words {ws : List String} (h : ∀ w ∈ ws, Bare true w) :
    Renders (.group (ws.map .literal)) depth " " ("(" ++ " ".intercalate ws ++ ")") := by
  cases ws
  case nil => exact .nothing
  case cons w ws =>
    obtain ⟨hw, hws⟩ := List.forall_mem_cons.mp h
    obtain ⟨text, hr, ht⟩ := RendersAll.words depth hws
    rw [ht, ← String.append_assoc]
    exact .led hw hr

end Layout

namespace Model

namespace Tree

def WellFormed : Tree → Prop
  | node n => n.WellFormed .statement
  | program p => p.WellFormed

def gap : Tree → String
  | node n => n.gap
  | program _ => " "

def dumpText (depth : Int) : Tree → String
  | node n => n.dumpText depth
  | program p => p.dumpText depth

theorem parts_subset (n : Node) : (node n).parts ⊆ n.children := by
  cases n
  case conditional elseBranch =>
    refine List.cons_subset_cons _ (List.cons_subset_cons _ ?_)
    cases elseBranch.isNop <;> simp
  case returnStmt value =>
    simp only [parts, Node.children]
    cases value.isNop <;> simp
  all_goals exact List.Subset.refl _

theorem wellFormed_parts {t : Tree} (h : t.WellFormed) : ∀ n ∈ t.parts, (node n).WellFormed := by
  cases t
  case program p => exact Node.allWellFormed_iff.mp h
  case node m => exact fun n hn => Node.wellFormed_children h n (parts_subset m hn)

end Tree

-- How the values of nodes are put together on one line, and on lines of their own.
theorem renders_items {ns : List Node} {depth : Int}
    (h : ∀ n ∈ ns, Renders (Tree.node n).value depth n.gap (n.dumpText depth)) :
    RendersAll (ns.map fun n => (Tree.node n).value) depth depth (Node.itemTexts depth ns) := by
  induction ns
  case nil => exact .nil
  case cons n ns hi =>
    obtain ⟨hn, hns⟩ := List.forall_mem_cons.mp h
    exact .cons hn (hi hns)

theorem renders_lines {ns : List Node} {depth : Int}
    (h : ∀ n ∈ ns, Renders (Tree.node n).value depth n.gap (n.dumpText depth)) :
    RendersAll (onLines (ns.map fun n => (Tree.node n).value)) depth depth (Node.lineTexts depth ns) := by
  induction ns
  case nil => exact .nil
  case cons n ns hi =>
    obtain ⟨hn, hns⟩ := List.forall_mem_cons.mp h
    exact hn.line.append (hi hns)

theorem renders_branch {n : Node} {depth : Int} {name : String} (hn : Bare true name) (hg : n.gap = " ")
    (h : Renders (Tree.node n).value depth n.gap (n.dumpText depth)) :
    RendersAll (branch name (Tree.node n).value) depth depth
      (lineBreak depth ++ inParens name (" " ++ n.dumpText depth)) :=
  (Renders.led hn (hg ▸ h.all)).line

theorem renders_value {t : Tree} (h : t.WellFormed) (depth : Int) : Renders t.value depth t.gap (t.dumpText depth) := by
  induction t using Tree.induct generalizing depth
  case step t hi =>
    have hp := fun n hn => hi n hn (Tree.wellFormed_parts h n hn)
    clear hi
    rw [Tree.value_eq]
    cases t
    case program p => exact .led (by decide) (.indented (renders_lines fun n hn => hp n hn (depth + 1)))
    case node n =>
      cases n
      case nop => exact .nothing
      case literal kind value =>
        have hv : kind ≠ .string → Bare true value := bare_of_admits h
        cases kind
        case string => exact .literal (solid_quoteLiteral value)
        all_goals exact .bare (hv (by decide))
      case ident => exact .bare h.bare
      case unary op operand =>
        obtain ⟨ho, _⟩ := List.forall_mem_cons.mp hp
        exact .led (Node.bare_of_unaryOperators op h.left) (ho depth).all
      case binary left op right =>
        obtain ⟨hl, hp⟩ := List.forall_mem_cons.mp hp
        obtain ⟨hr, _⟩ := List.forall_mem_cons.mp hp
        exact .led (Node.bare_of_binaryOperators op h.left) (.cons (hl depth) (hr depth).all)
      case assign target value =>
        obtain ⟨ht, hp⟩ := List.forall_mem_cons.mp hp
        obtain ⟨hv, _⟩ := List.forall_mem_cons.mp hp
        exact .led (by decide) (.cons (ht depth) (hv depth).all)
      case call callee args =>
        obtain ⟨hc, ha⟩ := List.forall_mem_cons.mp hp
        exact .led (by decide) (.cons (hc depth) (renders_items fun n hn => ha n hn depth))
      case list items => exact .led (by decide) (renders_items fun n hn => hp n hn depth)
      case block statements =>
        refine .led (by decide) ?_
        cases statements
        case nil => exact .nil
        case cons => exact .indented (renders_lines fun n hn => hp n hn (depth + 1))
      case conditional condition thenBlock elseBranch =>
        obtain ⟨hc, hp⟩ := List.forall_mem_cons.mp hp
        obtain ⟨ht, he⟩ := List.forall_mem_cons.mp hp
        obtain ⟨_, hb, hk, _⟩ := h
        have hg := Node.gap_of_branch (.inr (.inl hb.left))
        refine .led (by decide) (.cons (hc depth) (.indented (.append (renders_branch (by decide) hg (ht (depth + 1))) ?_)))
        cases hn : elseBranch.isNop
        case true => exact .nil
        case false =>
          simp only [hn] at he ⊢
          obtain ⟨he, _⟩ := List.forall_mem_cons.mp he
          exact renders_branch (by decide) (Node.gap_of_branch hk) (he (depth + 1))
      case letStmt name value =>
        obtain ⟨hv, _⟩ := List.forall_mem_cons.mp hp
        exact .led (by decide) (.cons (.bare h.right.left.bare) (hv depth).all)
      case returnStmt value =>
        refine .led (by decide) ?_
        cases hn : value.isNop
        case true =>
          simp only [Tree.parts, hn]
          exact .nil
        case false =>
          simp only [Tree.parts, hn] at hp ⊢
          obtain ⟨hv, _⟩ := List.forall_mem_cons.mp hp
          exact (hv depth).all
      case function params body =>
        obtain ⟨hb, _⟩ := List.forall_mem_cons.mp hp
        obtain ⟨_, hn, hps, _⟩ := h
        exact .led (by decide) (.cons (.bare hn.bare) (.cons (.words fun w hw => (hps w hw).bare)
          (.indented (hb (depth + 1)).line)))

end Model

open Model

-- The dump of a node that has a value is the layout of that value.
theorem Dumper.dump_of_value {c : DumperClass} {b : Cookbook c} {d : Dumper} {root v : Datum} {ws : List String} {depth : Int}
    (hs : Steady c d) (hr : b.Tree root) (hv : b.value root = .ok v) (hf : flatten v d.depth = .ok (ws, depth)) :
    (d.dump root).1 = .ok (join ws) ∧ (d.dump root).2.depth = depth := by
  have hn : Steady c (d.note (.dumping root.typeName d.depth)) := hs.congr rfl rfl
  obtain ⟨value, e, he, hw, hd⟩ := expand_of_value hn hr hv
  have hd : e.depth = d.depth := hd
  rw [flatten_eq, ← hw, Datum.words_reveal, ← flatten_eq] at hf
  simp [dump, he, format, hd, hf]

theorem Dumper.dump_tree {d : Dumper} {t : Tree} (hs : Steady .model d) (ht : t.WellFormed) :
    (d.dump t.toDatum).1 = .ok (t.dumpText d.depth) ∧ (d.dump t.toDatum).2.depth = d.depth := by
  obtain ⟨ws, hf, hj⟩ := (renders_value ht d.depth).flatten
  rw [← hj]
  exact dump_of_value (b := cookbook) hs ⟨t, rfl⟩ (value_toDatum t) hf

theorem Dumper.new_dump_tree {t : Tree} (ht : t.WellFormed) (depth : Int) :
    ((Dumper.new .model depth).dump t.toDatum).1 = .ok (t.dumpText depth) ∧
      ((Dumper.new .model depth).dump t.toDatum).2.depth = depth :=
  dump_tree (.of_new .model depth) ht

theorem Program.exists_dump (file source text : String) (depth : Int)
    (h : (Program.ofSource file source).toOption.map (Program.dumpText depth) = some text) :
    ∃ p, Program.ofSource file source = .ok p ∧ (p.dump depth).1 = .ok text := by
  cases hp : Program.ofSource file source
  case error =>
    rw [hp] at h
    cases h
  case ok p =>
    rw [hp] at h
    have hd := (Dumper.new_dump_tree (t := .program p) (wellFormed_of_ofSource hp) depth).left
    exact ⟨p, rfl, Option.some.inj h ▸ hd⟩

-- The dump of a program and of every node in it, at any depth.
theorem Program.dump_eq_dumpText {file source : String} {p : Program} (h : Program.ofSource file source = .ok p)
    (depth : Int) :
    ((p.dump depth).1 = .ok (p.dumpText depth) ∧ (p.dump depth).2.depth = depth) ∧
      ∀ n, p.Has n → ((Dumper.new .model depth).dump n.toDatum).1 = .ok (n.dumpText depth) ∧
        ((Dumper.new .model depth).dump n.toDatum).2.depth = depth := by
  have hw := wellFormed_of_ofSource h
  refine ⟨?_, fun n hn => ?_⟩
  case refine_1 =>
    rw [Program.dump]
    exact Dumper.new_dump_tree (t := .program p) hw depth
  case refine_2 => exact Dumper.new_dump_tree (t := .node n) (hw.has hn) depth

def functionOfStrings : String :=
  "fn f(a) \x7b if a \x7b g(\"it's\", \" \") \x7d; return \x7d"

-- A string with a blank in it stands close to what is before it, and lines at depths below zero begin at the margin.
theorem Program.dump_functionOfStrings :
    ∃ p n, Program.ofSource "" functionOfStrings = .ok p ∧ p.Has n ∧
      (p.dump (-2)).1 =
        .ok "(program\n(fn f (a)\n(block\n  (if a\n    (then (block\n      (call g 'it\\'s'' '))))\n  (return))))" ∧
      ((Dumper.new .model (-3)).dump n.toDatum).1 =
        .ok "(fn f (a)\n(block\n(if a\n(then (block\n  (call g 'it\\'s'' '))))\n(return)))" := by
  have ht : (Program.ofSource "" functionOfStrings).toOption.map
      (fun p => (p.dumpText (-2), p.body.map (Node.dumpText (-3)))) =
      some ("(program\n(fn f (a)\n(block\n  (if a\n    (then (block\n      (call g 'it\\'s'' '))))\n  (return))))",
        ["(fn f (a)\n(block\n(if a\n(then (block\n  (call g 'it\\'s'' '))))\n(return)))"]) := by
    decide +kernel
  cases hp : Program.ofSource "" functionOfStrings
  case error =>
    rw [hp] at ht
    cases ht
  case ok p =>
    rw [hp] at ht
    obtain ⟨hp', hb⟩ := Prod.mk.inj (Option.some.inj ht)
    obtain ⟨n, _, he, hn, _⟩ := List.map_eq_cons_iff.mp hb
    have hm : p.Has n := .statement (by simp [he])
    have hd := (Program.dump_eq_dumpText hp (-3)).right n hm
    exact ⟨p, n, rfl, hm, hp' ▸ (Program.dump_eq_dumpText hp (-2)).left.left, hn ▸ hd.left⟩

end ParenTree
