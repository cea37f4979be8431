import ParenTree.Proofs.Layout.Flattening
import ParenTree.Proofs.Layout.Rise

-- The depth that a layout begins at moves the lines behind its breaks, and it changes nothing else: neither which words there
-- are, nor what is put between them.

namespace ParenTree

namespace Layout

def spaces (n : Nat) : String :=
  .ofList (List.replicate n ' ')

-- What comes behind a break: the words up to the next break. The offset is how far in the line is, seen from the depth that
-- the layout begins at.
structure Line where
  offset : Int
  words : List String
deriving DecidableEq, Repr

namespace Line

-- The words of a line with the break in front of it.
def tokens (depth : Int) (line : Line) : List String :=
  ("\n" ++ spaces (2 * (max (depth + line.offset) 0).toNat)) :: line.words

-- The text behind the newline.
def text (depth : Int) (line : Line) : String :=
  spaces (2 * (max (depth + line.offset) 0).toNat) ++ join line.words

end Line

-- A layout whatever the depth that it begins at: the words before the first break, and a line for each break.
structure Outline where
  start : List String
  lines : List Line
deriving DecidableEq, Repr

namespace Outline

def empty : Outline :=
  ⟨[], []⟩

def addWord (word : String) (o : Outline) : Outline :=
  ⟨word :: o.start, o.lines⟩

-- A break in front makes a line of what was the start.
def addBreak (offset : Int) (o : Outline) : Outline :=
  ⟨[], ⟨offset, o.start⟩ :: o.lines⟩

def words (depth : Int) (o : Outline) : List String :=
  o.start ++ o.lines.flatMap (Line.tokens depth)

theorem words_addWord (depth : Int) (word : String) (o : Outline) :
    (o.addWord word).words depth = word :: o.words depth := by
  simp [words, addWord]

theorem words_cons (depth : Int) (start : List String) (line : Line) (lines : List Line) :
    words depth ⟨start, line :: lines⟩ =
      start ++ ("\n" ++ indentation (depth + line.offset)) :: words depth ⟨line.words, lines⟩ := by
  rw [Datum.indentation_eq]
  simp [words, Line.tokens, spaces]

theorem words_addBreak (depth offset : Int) (o : Outline) :
    (o.addBreak offset).words depth = ("\n" ++ indentation (depth + offset)) :: o.words depth :=
  words_cons depth [] ⟨offset, o.start⟩ o.lines

end Outline

end Layout

namespace Datum

open Layout (Outline)

def isMarker (m : Marker) : Datum → Bool
  | marker k => k = m
  | _ => false

-- How often a marker stands in a value. The content of a placeholder counts wherever the placeholder stands.
def occurrences (m : Marker) (d : Datum) : Nat :=
  d.leaves.countP (isMarker m)

mutual

-- The outline of a value in front of what comes behind it. The steps in and out before a line add up to its offset.
def outlineBefore (offset : Int) (behind : Outline) : Datum → Outline
  | literal s => behind.addWord s
  | group items => (outlineAllBefore offset (behind.addWord ")") items).addWord "("
  | marker .lineBreak => behind.addBreak offset
  | filled _ content => content.outlineBefore offset behind
  | _ => behind

def outlineAllBefore (offset : Int) (behind : Outline) : List Datum → Outline
  | [] => behind
  | d :: ds => d.outlineBefore offset (outlineAllBefore (offset + d.rise) behind ds)

end

def outline (d : Datum) : Outline :=
  d.outlineBefore 0 .empty

section

variable {d : Datum} {items : List Datum} {depth depth' : Int} {ws : List String}

theorem words_outlineAllBefore
    (h : ∀ d ∈ items, ∀ {depth depth' : Int} {ws}, d.words depth = .ok (ws, depth') → ∀ offset behind,
      (d.outlineBefore offset behind).words (depth - offset) = ws ++ behind.words (depth - offset))
    (hw : allWords depth items = .ok (ws, depth')) (offset : Int) (behind : Outline) :
    (outlineAllBefore offset behind items).words (depth - offset) = ws ++ behind.words (depth - offset) := by
  induction items generalizing ws depth offset
  case nil =>
    cases hw
    rfl
  case cons d ds hi =>
    obtain ⟨hd, hs⟩ := List.forall_mem_cons.mp h
    rw [allWords] at hw
    obtain ⟨⟨ws₁, depth₁⟩, hf, hw⟩ := bind_eq_ok.mp hw
    obtain ⟨⟨ws₂, depth₂⟩, ho, hw⟩ := bind_eq_ok.mp hw
    cases hw
    -- The depth and the offset rise by the same amount, so what is between them stays.
    have hb : depth - offset = depth₁ - (offset + d.rise) := by
      have := words_depth hf
      omega
    rw [outlineAllBefore, hd hf, hb, hi hs ho, List.append_assoc]

theorem words_outlineBefore (h : d.words depth = .ok (ws, depth')) (offset : Int) (behind : Outline) :
    (d.outlineBefore offset behind).words (depth - offset) = ws ++ behind.words (depth - offset) := by
  induction d using inductInside generalizing ws depth depth' offset behind
  case literal s =>
    cases h
    exact Outline.words_addWord ..
  case group items hi =>
    obtain ⟨⟨inside, _⟩, hs, hw⟩ := bind_eq_ok.mp h
    cases hw
    rw [outlineBefore, Outline.words_addWord, words_outlineAllBefore hi hs, Outline.words_addWord]
    simp
  case filled content hi => exact hi h offset behind
  case marker m =>
    cases m
    case lineBreak =>
      cases h
      rw [outlineBefore, Outline.words_addBreak, Int.sub_add_cancel]
      rfl
    all_goals
      cases h
      rfl
  all_goals cases h

theorem riseAll_eq_count (h : ∀ d ∈ items, (∀ leaf ∈ d.leaves, leaf.isPrintable) →
      d.rise = d.occurrences .indent - d.occurrences .dedent) (hp : ∀ leaf ∈ leavesAll items, leaf.isPrintable) :
    riseAll items = (leavesAll items).countP (isMarker .indent) - (leavesAll items).countP (isMarker .dedent) := by
  induction items
  case nil => rfl
  case cons d ds hi =>
    obtain ⟨hd, hs⟩ := List.forall_mem_cons.mp h
    obtain ⟨hpd, hps⟩ := List.forall_mem_append.mp hp
    rw [riseAll, leavesAll, hd hpd, hi hs hps, List.countP_append, List.countP_append, occurrences, occurrences]
    omega

-- A value rises by its steps in and falls by its steps out.
theorem rise_eq_occurrences (h : ∀ leaf ∈ d.leaves, leaf.isPrintable) :
    d.rise = d.occurrences .indent - d.occurrences .dedent := by
  induction d using inductInside
  case group items hi => exact riseAll_eq_count hi h
  case filled content hi => exact hi h
  case literal => rfl
  case marker m => cases m <;> rfl
  all_goals
    have hp := h _ (List.mem_singleton.mpr rfl)
    cases hp

theorem length_lines_outlineAllBefore (h : ∀ d ∈ items, ∀ offset behind,
      (d.outlineBefore offset behind).lines.length = d.occurrences .lineBreak + behind.lines.length)
    (offset : Int) (behind : Outline) :
    (outlineAllBefore offset behind items).lines.length =
      (leavesAll items).countP (isMarker .lineBreak) + behind.lines.length := by
  induction items generalizing offset
  case nil => exact (Nat.zero_add _).symm
  case cons d ds hi =>
    obtain ⟨hd, hs⟩ := List.forall_mem_cons.mp h
    rw [outlineAllBefore, leavesAll, hd, hi hs, List.countP_append, occurrences, Nat.add_assoc]

-- Every break begins a line.
theorem length_lines_outlineBefore (d : Datum) (offset : Int) (behind : Outline) :
    (d.outlineBefore offset behind).lines.length = d.occurrences .lineBreak + behind.lines.length := by
  induction d using inductInside generalizing offset behind
  case group items hi => exact length_lines_outlineAllBefore hi offset (behind.addWord ")")
  case filled content hi => exact hi offset behind
  case marker m =>
    cases m
    case lineBreak => exact Nat.add_comm ..
    all_goals exact (Nat.zero_add _).symm
  all_goals exact (Nat.zero_add _).symm

end

end Datum

namespace Layout

section

variable {value : Datum} {depth depth' : Int}

-- If a value can be laid out at all, its outline tells how at every depth.
theorem flatten_eq_outline {out : List String × Int} (h : flatten value depth = .ok out) (depth' : Int) :
    flatten value depth' = .ok (value.outline.words depth',
      depth' + value.occurrences .indent - value.occurrences .dedent) := by
  rw [flatten_eq] at h ⊢
  cases hw : value.words depth'
  case error => cases h.symm.trans (Datum.words_error hw depth)
  case ok out' =>
    obtain ⟨ws, depth₁⟩ := out'
    have ho := Datum.words_outlineBefore hw 0 .empty
    have hd := Datum.words_depth hw
    rw [Datum.rise_eq_occurrences (Datum.words_ok_iff.mp ⟨_, hw⟩)] at hd
    rw [Int.sub_zero] at ho
    rw [hd, Datum.outline, ho, Int.add_sub_assoc]
    simp [Outline.words, Outline.empty]

-- A break is blank at both ends, so texts meet there as they are.
theorem glue_append_lineBreak (tight : Bool) (ws : List String) (depth : Int) (rest : List String) :
    glue tight (ws ++ ("\n" ++ indentation depth) :: rest) = glue tight ws ++ ("\n" ++ indentation depth ++ glue true rest) := by
  induction ws generalizing tight
  case nil => rw [List.nil_append, glue_lineBreak, glue, String.empty_append]
  case cons word ws hi => simp only [List.cons_append, glue, hi, String.append_assoc]

theorem Outline.join_words (o : Outline) (depth : Int) :
    join (o.words depth) = join o.start ++ String.join (o.lines.map fun line => "\n" ++ line.text depth) := by
  obtain ⟨start, lines⟩ := o
  induction lines generalizing start
  case nil => simp [words]
  case cons line lines hi =>
    rw [words_cons, join_eq, glue_append_lineBreak, ← join_eq, ← join_eq, hi, Datum.indentation_eq, List.map_cons,
      String.join_cons, Line.text, spaces]
    simp only [String.append_assoc]

theorem spaces_add (m n : Nat) : spaces (m + n) = spaces m ++ spaces n := by
  rw [spaces, spaces, spaces, ← String.ofList_append, List.replicate_append_replicate]

-- Where the depth is not cut off at zero, a greater depth means more spaces in front.
theorem Line.text_shift {line : Line} (hd : depth ≤ depth') (hl : 0 ≤ depth + line.offset) :
    line.text depth' = spaces (2 * (depth' - depth).toNat) ++ line.text depth := by
  have hn : 2 * (max (depth' + line.offset) 0).toNat =
      2 * (depth' - depth).toNat + 2 * (max (depth + line.offset) 0).toNat := by
    omega
  rw [text, text, hn, spaces_add, String.append_assoc]

-- The depth that a layout begins at moves its lines, one for each break, and the depth that it ends at. As long as no line is
-- cut off at the margin, the text at a greater depth has that many more spaces behind the newline of each break, and is
-- otherwise the same.
theorem depth_moves_lines {out : List String × Int} (h : flatten value depth = .ok out) :
    value.outline.lines.length = value.occurrences .lineBreak ∧
    (∀ d, flatten value d = .ok (value.outline.words d, d + value.occurrences .indent - value.occurrences .dedent)) ∧
    (∀ d d', (value.outline.words d').length = (value.outline.words d).length) ∧
    ∀ d d', d ≤ d' → (∀ line ∈ value.outline.lines, 0 ≤ d + line.offset) →
      join (value.outline.words d) =
        join value.outline.start ++ String.join (value.outline.lines.map fun line => "\n" ++ line.text d) ∧
      join (value.outline.words d') =
        join value.outline.start ++ String.join (value.outline.lines.map fun line =>
          "\n" ++ spaces (2 * (d' - d).toNat) ++ line.text d) := by
  refine ⟨?lines, fun d => flatten_eq_outline h d, ?length, ?join⟩
  case lines => exact value.length_lines_outlineBefore 0 .empty
  case length => simp [Outline.words, Line.tokens]
  case join =>
    intro d d' hd hl
    refine ⟨value.outline.join_words d, ?_⟩
    rw [Outline.join_words]
    congr 2
    refine List.map_congr_left fun line hline => ?_
    rw [Line.text_shift hd (hl line hline), String.append_assoc]

end

-- A break in a word, a placeholder that stands twice, and more steps out than in.
def ragged : Datum :=
  .group [.literal "a\nb", .marker .indent, entry, entry, .marker .lineBreak]
where
  entry := .filled (.given 0) (.group [.marker .lineBreak, .marker .dedent, .literal "x"])

theorem depth_moves_lines_ragged :
    flatten ragged 0 = .ok (["(", "a\nb", "(", "\n  ", "x", ")", "(", "\n", "x", ")", "\n", ")"], -1) ∧
      ragged.outline = ⟨["(", "a\nb", "("], [⟨1, ["x", ")", "("]⟩, ⟨0, ["x", ")"]⟩, ⟨-1, [")"]⟩]⟩ ∧
      (∀ d, flatten ragged d = .ok (ragged.outline.words d, d + 1 - 2)) ∧
      join (ragged.outline.words 1) = "(a\nb (\n    x) (\n  x)\n)" ∧
      join (ragged.outline.words 3) = "(a\nb (\n        x) (\n      x)\n    )" := by
  have hf : flatten ragged 0 = .ok (["(", "a\nb", "(", "\n  ", "x", ")", "(", "\n", "x", ")", "\n", ")"], -1) := by
    rw [flatten_eq]
    rfl
  have ho : ragged.outline = ⟨["(", "a\nb", "("], [⟨1, ["x", ")", "("]⟩, ⟨0, ["x", ")"]⟩, ⟨-1, [")"]⟩]⟩ := by
    decide +kernel
  have hm : ∀ line ∈ ragged.outline.lines, 0 ≤ 1 + line.offset := by
    rw [ho]
    decide
  obtain ⟨_, hw, _, hj⟩ := depth_moves_lines hf
  obtain ⟨hj₁, hj₃⟩ := hj 1 3 (by decide) hm
  refine ⟨hf, ho, hw, ?_, ?_⟩
  case refine_1 =>
    rw [hj₁, ho]
    decide +kernel
  case refine_2 =>
    rw [hj₃, ho]
    decide +kernel

end Layout
end ParenTree
