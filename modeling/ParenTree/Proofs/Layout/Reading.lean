import ParenTree.Proofs.Layout.Rendering

-- A reader of nested lists of words, and that it reads a value back from its text.

namespace ParenTree

namespace Layout

-- Whether a character belongs to a bare word, to a quoted one, or follows a backslash in a quoted one.
inductive Mode
  | bare
  | quoted
  | escaped

-- Puts a word in front of others, if there is one. Its characters are given the latest first.
def close (word : List Char) (ws : List String) : List String :=
  if word.isEmpty then ws else .ofList word.reverse :: ws

-- The words of a text. Parentheses are words of their own, blanks only end words.
def scan (quotes : Bool) : Mode → (word : List Char) → (text : List Char) → List String
  | _, word, [] => close word []
  | .bare, word, c :: text =>
    if Text.isBlank c then close word (scan quotes .bare [] text)
    else if c = '(' || c = ')' then close word (.singleton c :: scan quotes .bare [] text)
    else if quotes && c = '\'' then close word (scan quotes .quoted [c] text)
    else scan quotes .bare (c :: word) text
  | .quoted, word, c :: text =>
    if c = '\\' then scan quotes .escaped (c :: word) text
    else if c = '\'' then close (c :: word) (scan quotes .bare [] text)
    else scan quotes .quoted (c :: word) text
  | .escaped, word, c :: text => scan quotes .quoted (c :: word) text

-- The data that words stand for, behind the items of the innermost list that is open and of those around it. Each list is
-- given the latest first.
def nest (items : List Datum) (outer : List (List Datum)) : List String → Option (List Datum)
  | [] => if outer.isEmpty then some items.reverse else none
  | w :: ws =>
    if w = "(" then nest [] (items :: outer) ws
    else if w = ")" then
      match outer with
      | [] => none
      | around :: outer => nest (.group items.reverse :: around) outer ws
    else nest (.literal w :: items) outer ws

theorem nest_openParen (items : List Datum) (outer : List (List Datum)) (ws : List String) :
    nest items outer ("(" :: ws) = nest [] (items :: outer) ws :=
  rfl

theorem nest_closeParen (items around : List Datum) (outer : List (List Datum)) (ws : List String) :
    nest items (around :: outer) (")" :: ws) = nest (.group items.reverse :: around) outer ws :=
  rfl

theorem nest_word {w : String} (h : Solid w) (items : List Datum) (outer : List (List Datum)) (ws : List String) :
    nest items outer (w :: ws) = nest (.literal w :: items) outer ws := by
  have ho : w ≠ "(" := by
    rintro rfl
    cases h.not_opens
  simp only [nest, if_neg ho, if_neg h.not_closer]

def read (quotes : Bool) (text : String) : Option (List Datum) :=
  nest [] [] (scan quotes .bare [] text.toList)

section

variable {quotes : Bool} {w : String} {text : List Char}

-- Nothing of the text belongs to a bare word in front of it.
def Ends (quotes : Bool) (text : List Char) : Prop :=
  ∀ c, text.head? = some c → isDelimiter quotes c

theorem ends_nil : Ends quotes [] := by
  rintro _ ⟨⟩

theorem ends_cons {c : Char} (h : isDelimiter quotes c) : Ends quotes (c :: text) := by
  rintro _ ⟨⟩
  exact h

theorem scan_of_ends (h : Ends quotes text) (word : List Char) :
    scan quotes .bare word text = close word (scan quotes .bare [] text) := by
  cases text
  case nil => rfl
  case cons c text =>
    have hc := h c rfl
    simp only [scan]
    split
    case isTrue => rfl
    case isFalse hb =>
      split
      case isTrue => rfl
      case isFalse hp =>
        split
        case isTrue => rfl
        case isFalse hq => simp_all [isDelimiter]

theorem scan_blanks {blanks : List Char} (h : ∀ c ∈ blanks, Text.isBlank c) (text : List Char) :
    scan quotes .bare [] (blanks ++ text) = scan quotes .bare [] text := by
  induction blanks
  case nil => rfl
  case cons c blanks hi =>
    obtain ⟨hc, hs⟩ := List.forall_mem_cons.mp h
    rw [List.cons_append, scan, if_pos hc, hi hs]
    rfl

theorem scan_bare {cs : List Char} (h : ∀ c ∈ cs, isDelimiter quotes c = false) (word text : List Char) :
    scan quotes .bare word (cs ++ text) = scan quotes .bare (cs.reverse ++ word) text := by
  induction cs generalizing word
  case nil => rfl
  case cons c cs hi =>
    obtain ⟨hc, hs⟩ := List.forall_mem_cons.mp h
    obtain ⟨hb, ho, hp⟩ := not_delimiter hc
    have hq : (quotes && c = '\'') = false := by simp_all [isDelimiter]
    rw [List.cons_append, scan, hb, hq]
    simp [ho, hp, hi hs]

-- A word that the reader finds wherever it stands by itself.
structure Readable (quotes : Bool) (w : String) : Prop where
  solid : Solid w
  not_empty : w ≠ ""
  ends : Ends quotes (gap w ++ w).toList
  scan_eq : ∀ rest, Ends quotes rest → scan quotes .bare [] (w.toList ++ rest) = w :: scan quotes .bare [] rest

theorem Bare.readable (h : Bare quotes w) : Readable quotes w where
  solid := h.solid
  not_empty := by
    rintro rfl
    exact (bare_iff.mp h).left rfl
  ends := by
    rw [h.gap, String.toList_append]
    exact ends_cons rfl
  scan_eq rest hr := by
    obtain ⟨hn, hb⟩ := bare_iff.mp h
    rw [scan_bare hb, List.append_nil, scan_of_ends hr, close]
    simp [hn]

end

-- Words that consist of blanks are not read.
def isBreak (w : String) : Bool :=
  w.toList.all Text.isBlank

-- The words that a value can have.
inductive Proper (quotes : Bool) : String → Prop
  | openParen : Proper quotes "("
  | closeParen : Proper quotes ")"
  | lineBreak (depth : Int) : Proper quotes ("\n" ++ indentation depth)
  | word {w : String} : Readable quotes w → Proper quotes w

section

variable {quotes : Bool} {w : String} {ws : List String}

theorem Ends.append {text rest : List Char} (h : Ends quotes text) (hn : text ≠ []) : Ends quotes (text ++ rest) := by
  cases text
  case nil => exact absurd rfl hn
  case cons c text => exact ends_cons (h c rfl)

theorem Readable.toList_ne_nil (h : Readable quotes w) : w.toList ≠ [] := by
  simpa using h.not_empty

theorem ends_glue (h : ∀ w ∈ ws, Proper quotes w) : Ends quotes (glue false ws).toList := by
  cases ws
  case nil => exact ends_nil
  case cons w ws =>
    cases h w List.mem_cons_self
    case openParen =>
      rw [glue_openParen, String.toList_append, String.toList_append]
      exact ends_cons rfl
    case closeParen =>
      rw [glue_closeParen, String.toList_append]
      exact ends_cons rfl
    case lineBreak =>
      rw [glue_lineBreak, String.toList_append, toList_lineBreak]
      exact ends_cons rfl
    case word hw =>
      rw [glue_solid hw.solid, String.toList_append]
      refine Ends.append hw.ends ?_
      simp [hw.not_empty]

theorem isBreak_lineBreak (depth : Int) : isBreak ("\n" ++ indentation depth) = true := by
  rw [isBreak, toList_lineBreak, List.all_cons, List.all_replicate]
  split <;> rfl

theorem Readable.not_isBreak (h : Readable quotes w) : isBreak w = false := by
  have ho := h.solid.not_opens
  rw [opens, List.getLast?_eq_some_getLast h.toList_ne_nil] at ho
  have hb := (Bool.or_eq_false_iff.mp ho).left
  rw [isBreak, List.all_eq_false]
  exact ⟨_, List.getLast_mem h.toList_ne_nil, by simp [hb]⟩

theorem scan_space (tight : Bool) (text : List Char) :
    scan quotes .bare [] ((if tight then "" else " ").toList ++ text) = scan quotes .bare [] text := by
  cases tight <;> rfl

theorem scan_gap (tight : Bool) (text : List Char) :
    scan quotes .bare [] ((if tight then "" else gap w).toList ++ text) = scan quotes .bare [] text := by
  rw [gap]
  cases tight <;> cases w.toList.any Text.isBlank <;> rfl

-- The reader finds the words of a text that is put together from them, but for the line breaks.
theorem scan_glue (h : ∀ w ∈ ws, Proper quotes w) (tight : Bool) :
    scan quotes .bare [] (glue tight ws).toList = ws.filter fun w => !isBreak w := by
  induction ws generalizing tight
  case nil => rfl
  case cons w ws hi =>
    obtain ⟨hw, hs⟩ := List.forall_mem_cons.mp h
    cases hw
    case openParen =>
      rw [glue_openParen, String.toList_append, String.toList_append, List.append_assoc, scan_space]
      exact congrArg ("(" :: ·) (hi hs true)
    case closeParen =>
      rw [glue_closeParen, String.toList_append]
      exact congrArg (")" :: ·) (hi hs false)
    case lineBreak depth =>
      have hb : ∀ c ∈ ("\n" ++ indentation depth).toList, Text.isBlank c := List.all_eq_true.mp (isBreak_lineBreak depth)
      rw [glue_lineBreak, String.toList_append, scan_blanks hb, hi hs, List.filter_cons_of_neg]
      simp [isBreak_lineBreak]
    case word hw =>
      rw [glue_solid hw.solid, String.toList_append, String.toList_append, List.append_assoc, scan_gap,
        hw.scan_eq _ (ends_glue hs), hi hs, List.filter_cons_of_pos]
      simp [hw.not_isBreak]

end

end Layout

namespace Datum

mutual

-- What is left of a datum without markers and placeholders.
def strip : Datum → List Datum
  | marker _ => []
  | group items => [group (stripAll items)]
  | filled _ content => content.strip
  | d => [d]

def stripAll : List Datum → List Datum
  | [] => []
  | d :: ds => d.strip ++ stripAll ds

end

mutual

-- Values without unfilled placeholders, all of whose literals satisfy `p`.
def Worded (p : String → Prop) : Datum → Prop
  | literal w => p w
  | group items => AllWorded p items
  | marker _ => True
  | filled _ content => content.Worded p
  | _ => False

def AllWorded (p : String → Prop) : List Datum → Prop
  | [] => True
  | d :: ds => d.Worded p ∧ AllWorded p ds

end

theorem allWorded_iff {p : String → Prop} (ds : List Datum) : AllWorded p ds ↔ ∀ d ∈ ds, d.Worded p := by
  induction ds
  case nil => simp [AllWorded]
  case cons d ds hi => simp [AllWorded, hi]

end Datum

namespace Layout

open Datum

-- Words that the reader takes for `data`, whatever lists are open and whatever follows.
structure Reads (quotes : Bool) (ws : List String) (data : List Datum) : Prop where
  proper : ∀ w ∈ ws, Proper quotes w
  nest_eq : ∀ items outer rest, nest items outer ((ws.filter fun w => !isBreak w) ++ rest) =
    nest (data.reverse ++ items) outer rest

section

variable {quotes : Bool} {ws ws' : List String} {data data' : List Datum}

theorem Reads.nil : Reads quotes [] [] where
  proper _ hw := absurd hw List.not_mem_nil
  nest_eq _ _ _ := rfl

theorem Reads.append (h : Reads quotes ws data) (h' : Reads quotes ws' data') : Reads quotes (ws ++ ws') (data ++ data') where
  proper := List.forall_mem_append.mpr ⟨h.proper, h'.proper⟩
  nest_eq items outer rest := by
    rw [List.filter_append, List.append_assoc, h.nest_eq, h'.nest_eq, List.reverse_append, List.append_assoc]

theorem Reads.lineBreak (depth : Int) : Reads quotes ["\n" ++ indentation depth] [] where
  proper := by simpa using .lineBreak depth
  nest_eq items outer rest := by
    rw [List.filter_cons_of_neg (by simp [isBreak_lineBreak])]
    rfl

theorem Reads.word {w : String} (h : Readable quotes w) : Reads quotes [w] [.literal w] where
  proper := by simpa using .word h
  nest_eq items outer rest := by
    rw [List.filter_cons_of_pos (by simp [h.not_isBreak])]
    exact nest_word h.solid items outer rest

theorem Reads.group (h : Reads quotes ws data) : Reads quotes ("(" :: ws ++ [")"]) [.group data] where
  proper := by
    have ho : Proper quotes "(" := .openParen
    have hc : Proper quotes ")" := .closeParen
    simpa [or_imp, forall_and, ho, hc] using h.proper
  nest_eq items outer rest := by
    have ho : isBreak "(" = false := rfl
    have hc : isBreak ")" = false := rfl
    have he : (("(" :: ws ++ [")"]).filter fun w => !isBreak w) = "(" :: (ws.filter fun w => !isBreak w) ++ [")"] := by
      simp [List.filter_append, ho, hc]
    rw [he, List.append_assoc, List.cons_append, nest_openParen, h.nest_eq, List.singleton_append, nest_closeParen]
    simp

theorem reads_allWords {items : List Datum}
    (h : ∀ d ∈ items, ∀ depth, ∃ ws depth', d.words depth = .ok (ws, depth') ∧ Reads quotes ws d.strip) (depth : Int) :
    ∃ ws depth', allWords depth items = .ok (ws, depth') ∧ Reads quotes ws (stripAll items) := by
  induction items generalizing depth
  case nil => exact ⟨[], depth, rfl, .nil⟩
  case cons d items hi =>
    obtain ⟨hd, hs⟩ := List.forall_mem_cons.mp h
    obtain ⟨ws, depth₁, hw, hr⟩ := hd depth
    obtain ⟨ws', depth₂, hw', hr'⟩ := hi hs depth₁
    exact ⟨ws ++ ws', depth₂, allWords_cons_ok hw hw', hr.append hr'⟩

-- The words of a value are read as what is left of it.
theorem reads_words {d : Datum} (h : d.Worded (Readable quotes)) (depth : Int) :
    ∃ ws depth', d.words depth = .ok (ws, depth') ∧ Reads quotes ws d.strip := by
  induction d using inductInside generalizing depth
  case literal w => exact ⟨[w], depth, rfl, .word h⟩
  case group items hi =>
    have hs := (allWorded_iff items).mp h
    obtain ⟨ws, depth', hw, hr⟩ := reads_allWords (fun d hd => hi d hd (hs d hd)) depth
    exact ⟨_, depth', words_group_ok hw, hr.group⟩
  case filled tag content hi => exact hi h depth
  case marker m =>
    cases m
    case lineBreak => exact ⟨_, depth, rfl, .lineBreak depth⟩
    case indent => exact ⟨[], depth + 1, rfl, .nil⟩
    case dedent => exact ⟨[], depth - 1, rfl, .nil⟩
  all_goals exact absurd h id

theorem read_join (h : Reads quotes ws data) : read quotes (join ws) = some data := by
  have hn := h.nest_eq [] [] []
  rw [List.append_nil, List.append_nil] at hn
  rw [read, join_eq, scan_glue h.proper, hn]
  simp [nest]

-- The text of a value is read as what is left of the value.
theorem read_flatten {value : Datum} (h : value.Worded (Readable quotes)) (depth : Int) :
    ∃ ws depth', flatten value depth = .ok (ws, depth') ∧ read quotes (join ws) = some value.strip := by
  obtain ⟨ws, depth', hw, hr⟩ := reads_words h depth
  exact ⟨ws, depth', by rw [flatten_eq, hw], read_join hr⟩

end

end Layout
end ParenTree
