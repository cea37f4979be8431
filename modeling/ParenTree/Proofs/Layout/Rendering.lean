import ParenTree.Proofs.Layout.Words

-- How the texts of values are put together. A value is written the same way wherever it stands; only what is in front of it
-- decides whether a gap comes first.

namespace ParenTree.Layout

open Datum

-- A word that stands by itself: the words around it are kept apart from it unless they are brackets or blanks.
structure Solid (w : String) : Prop where
  not_closer : w ≠ ")"
  not_opens : opens w = false

-- What comes between a word and another one in front of it.
def gap (w : String) : String :=
  if w.toList.any Text.isBlank then "" else " "

-- Characters that end a bare word; a quote does if words in quotes are read as one.
def isDelimiter (quotes : Bool) (c : Char) : Bool :=
  Text.isBlank c || c = '(' || c = ')' || quotes && c = '\''

def Bare (quotes : Bool) (w : String) : Prop :=
  (!w.toList.isEmpty && w.toList.all (!isDelimiter quotes ·)) = true

instance (quotes : Bool) : DecidablePred (Bare quotes) :=
  fun w => inferInstanceAs (Decidable ((!w.toList.isEmpty && w.toList.all (!isDelimiter quotes ·)) = true))

section

variable {quotes : Bool} {w : String}

theorem bare_iff : Bare quotes w ↔ w.toList ≠ [] ∧ ∀ c ∈ w.toList, isDelimiter quotes c = false := by
  simp [Bare]

theorem not_delimiter {c : Char} (h : isDelimiter quotes c = false) : Text.isBlank c = false ∧ c ≠ '(' ∧ c ≠ ')' := by
  simp only [isDelimiter, Bool.or_eq_false_iff, decide_eq_false_iff_not] at h
  exact ⟨h.left.left.left, h.left.left.right, h.left.right⟩

theorem solid_of_getLast? {c : Char} (h : w.toList.getLast? = some c) (hc : Text.isBlank c = false ∧ c ≠ '(' ∧ c ≠ ')') :
    Solid w where
  not_closer := by
    rintro rfl
    cases h
    exact hc.right.right rfl
  not_opens := by simp [opens, h, hc]

theorem Bare.solid (h : Bare quotes w) : Solid w := by
  obtain ⟨hn, hb⟩ := bare_iff.mp h
  exact solid_of_getLast? (List.getLast?_eq_some_getLast hn) (not_delimiter (hb _ (List.getLast_mem hn)))

theorem Bare.gap (h : Bare quotes w) : gap w = " " := by
  have hb : w.toList.any Text.isBlank = false := by
    rw [List.any_eq_false]
    intro c hc
    simp [(not_delimiter ((bare_iff.mp h).right c hc)).left]
  rw [Layout.gap, hb]
  rfl

end

-- `value` is written as `text` at the given depth, which it leaves as it was.
def Renders (value : Datum) (depth : Int) (gap text : String) : Prop :=
  ∃ ws, value.words depth = .ok (ws, depth) ∧
    ∀ tight rest, glue tight (ws ++ rest) = (if tight then "" else gap) ++ text ++ glue false rest

-- The same of values behind a word that is kept apart; they may change the depth.
def RendersAll (values : List Datum) (depth depth' : Int) (text : String) : Prop :=
  ∃ ws, allWords depth values = .ok (ws, depth') ∧ ∀ rest, glue false (ws ++ rest) = text ++ glue false rest

section

variable {value : Datum} {values others : List Datum} {depth depth₁ depth₂ : Int} {text text' before word : String}

theorem glue_solid (h : Solid word) (tight : Bool) (ws : List String) :
    glue tight (word :: ws) = (if tight then "" else gap word) ++ word ++ glue false ws := by
  simp only [glue, h.not_opens, gap]
  cases tight <;> cases word.toList.any Text.isBlank <;> simp [h.not_closer]

theorem Renders.literal (h : Solid word) : Renders (.literal word) depth (gap word) word :=
  ⟨[word], rfl, fun tight rest => glue_solid h tight rest⟩

theorem Renders.flatten (h : Renders value depth before text) :
    ∃ ws, flatten value depth = .ok (ws, depth) ∧ join ws = text := by
  obtain ⟨ws, hw, hg⟩ := h
  refine ⟨ws, by rw [flatten_eq, hw], ?_⟩
  have := hg true []
  rw [List.append_nil] at this
  simpa [join_eq, glue] using this

theorem RendersAll.nil : RendersAll [] depth depth "" :=
  ⟨[], rfl, by simp⟩

theorem RendersAll.append (h : RendersAll values depth depth₁ text) (h' : RendersAll others depth₁ depth₂ text') :
    RendersAll (values ++ others) depth depth₂ (text ++ text') := by
  obtain ⟨ws, hw, hg⟩ := h
  obtain ⟨ws', hw', hg'⟩ := h'
  refine ⟨ws ++ ws', allWords_append_ok hw hw', fun rest => ?_⟩
  rw [List.append_assoc, hg, hg', String.append_assoc]

theorem Renders.all (h : Renders value depth before text) : RendersAll [value] depth depth (before ++ text) := by
  obtain ⟨ws, hw, hg⟩ := h
  exact ⟨ws, allWords_one hw, fun rest => hg false rest⟩

theorem Renders.line (h : Renders value depth before text) :
    RendersAll [.marker .lineBreak, value] depth depth ("\n" ++ indentation depth ++ text) := by
  obtain ⟨ws, hw, hg⟩ := h
  have hl : (Datum.marker .lineBreak).words depth = .ok (["\n" ++ indentation depth], depth) := rfl
  refine ⟨_, allWords_cons_ok hl (allWords_one hw), fun rest => ?_⟩
  rw [List.singleton_append, List.cons_append, glue_lineBreak, hg, if_pos rfl, String.empty_append]
  simp only [String.append_assoc]

theorem RendersAll.indented (h : RendersAll values (depth + 1) (depth + 1) text) :
    RendersAll (.marker .indent :: values ++ [.marker .dedent]) depth depth text := by
  obtain ⟨ws, hw, hg⟩ := h
  have hi : (Datum.marker .indent).words depth = .ok ([], depth + 1) := rfl
  have hd : (Datum.marker .dedent).words (depth + 1) = .ok ([], depth) := by
    rw [words, Int.add_sub_cancel]
    rfl
  refine ⟨ws, ?_, hg⟩
  simpa using allWords_cons_ok hi (allWords_append_ok hw (allWords_one hd))

theorem Renders.group (h : Solid word) (hv : RendersAll values depth depth text) :
    Renders (.group (.literal word :: values)) depth " " ("(" ++ word ++ text ++ ")") := by
  obtain ⟨ws, hw, hg⟩ := hv
  have hh : (Datum.literal word).words depth = .ok ([word], depth) := rfl
  refine ⟨_, words_group_ok (allWords_cons_ok hh hw), fun tight rest => ?_⟩
  rw [show ("(" :: ([word] ++ ws) ++ [")"]) ++ rest = "(" :: word :: (ws ++ ")" :: rest) by simp,
    glue_openParen, glue_solid h, hg, glue_closeParen, if_pos rfl, String.empty_append]
  simp only [String.append_assoc]

theorem Renders.nothing : Renders (.group []) depth " " "()" := by
  have hn : allWords depth [] = .ok ([], depth) := rfl
  refine ⟨_, words_group_ok hn, fun tight rest => ?_⟩
  rw [show ("(" :: [] ++ [")"]) ++ rest = "(" :: ")" :: rest by simp, glue_openParen, glue_closeParen]
  simp only [String.append_assoc]
  rfl

end

end ParenTree.Layout
