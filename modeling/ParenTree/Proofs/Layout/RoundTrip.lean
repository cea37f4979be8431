import ParenTree.Proofs.Layout.Reading

-- What the text of a value can be read as. The notation is given by a grammar; the reader finds exactly what the grammar
-- allows, so a text stands for one list of data at most, and the text of a value stands for what is left of the value.

namespace ParenTree

namespace Layout

open Datum

-- A text and the data that it stands for. Blanks separate, parentheses delimit themselves, and a run of other characters
-- that goes as far as it can is a word.
inductive Written : List Char → List Datum → Prop
  | nil : Written [] []
  | blank {c : Char} {text : List Char} {data : List Datum} : Text.isBlank c → Written text data → Written (c :: text) data
  | word {w : String} {text : List Char} {data : List Datum} :
    Bare false w → Ends false text → Written text data → Written (w.toList ++ text) (.literal w :: data)
  | group {inside text : List Char} {items data : List Datum} :
    Written inside items → Written text data → Written ('(' :: inside ++ ')' :: text) (.group items :: data)

section

variable {quotes : Bool} {text rest : List Char} {items data result : List Datum} {outer : List (List Datum)}

theorem Ends.of_prefix (h : Ends quotes text) {beginning : List Char} (hp : beginning <+: text) : Ends quotes beginning := by
  obtain ⟨rest, rfl⟩ := hp
  cases beginning
  case nil => exact ends_nil
  case cons c beginning => exact ends_cons (h c rfl)

theorem Ends.before (h : Ends quotes text) (hr : Ends quotes rest) : Ends quotes (text ++ rest) := by
  cases text
  case nil => exact hr
  case cons c text => exact ends_cons (h c rfl)

theorem scan_openParen (text : List Char) : scan false .bare [] ('(' :: text) = "(" :: scan false .bare [] text :=
  rfl

theorem scan_closeParen (text : List Char) : scan false .bare [] (')' :: text) = ")" :: scan false .bare [] text :=
  rfl

-- Whatever lists are open in front of it, the reader takes a text for the data that it stands for.
theorem Written.nest_scan (h : Written text data) (hr : Ends false rest) (items : List Datum) (outer : List (List Datum)) :
    nest items outer (scan false .bare [] (text ++ rest)) = nest (data.reverse ++ items) outer (scan false .bare [] rest) := by
  induction h generalizing rest items outer
  case nil => rfl
  case blank c text data hc _ hi =>
    have hb : ∀ d ∈ [c], Text.isBlank d := by simpa using hc
    rw [← hi hr, ← scan_blanks hb (text ++ rest)]
    rfl
  case word w text data hw he _ hi =>
    rw [List.append_assoc, hw.readable.scan_eq _ (he.before hr), nest_word hw.solid, hi hr]
    simp
  case group inside text items' data _ _ hi ht =>
    rw [List.append_assoc, List.cons_append, List.cons_append, scan_openParen, nest_openParen, hi (ends_cons rfl),
      scan_closeParen, nest_closeParen, ht hr]
    simp

theorem Written.read_eq {text : String} (h : Written text.toList data) : read false text = some data := by
  have hn := h.nest_scan ends_nil [] []
  rw [List.append_nil, List.append_nil] at hn
  rw [read, hn]
  simp [scan, close, nest]

-- A text that finishes the lists that are open: the innermost one up to its closing parenthesis, then the ones around it.
def Finishes (items : List Datum) : List (List Datum) → List Char → List Datum → Prop
  | [], text, result => ∃ data, Written text data ∧ items.reverse ++ data = result
  | around :: outer, text, result => ∃ inside rest data, inside ++ ')' :: rest = text ∧ Written inside data ∧
      Finishes (.group (items.reverse ++ data) :: around) outer rest result

-- A piece of text that stands for some data wherever it comes first may be put in front.
theorem Finishes.prepend (piece : List Char) (new : List Datum) (h : Finishes (new.reverse ++ items) outer text result)
    (hp : ∀ {beginning data}, beginning <+: text → Written beginning data → Written (piece ++ beginning) (new ++ data)) :
    Finishes items outer (piece ++ text) result := by
  cases outer
  case nil =>
    obtain ⟨data, hw, rfl⟩ := h
    exact ⟨new ++ data, hp (List.prefix_refl text) hw, by simp⟩
  case cons around outer =>
    obtain ⟨inside, rest, data, rfl, hw, hf⟩ := h
    refine ⟨piece ++ inside, rest, new ++ data, by simp, hp (List.prefix_append _ _) hw, ?_⟩
    simpa using hf

-- The word at the beginning of a text: it goes up to the first delimiter.
theorem exists_word {c : Char} (hc : isDelimiter false c = false) (text : List Char) :
    ∃ w rest, c :: text = w.toList ++ rest ∧ Bare false w ∧ Ends false rest ∧ rest.length ≤ text.length := by
  let isInside (c : Char) : Bool := !isDelimiter false c
  refine ⟨.ofList (c :: text.takeWhile isInside), text.dropWhile isInside, ?_, ?_, ?_, ?_⟩
  case refine_1 => simp [List.takeWhile_append_dropWhile]
  case refine_2 =>
    refine bare_iff.mpr ⟨by simp, ?_⟩
    simp only [String.toList_ofList, List.forall_mem_cons]
    refine ⟨hc, fun d hd => ?_⟩
    simpa [isInside] using List.all_eq_true.mp List.all_takeWhile d hd
  case refine_3 =>
    intro d hd
    have hn := List.head?_dropWhile_not isInside text
    rw [hd] at hn
    simpa [isInside] using hn
  case refine_4 => exact (List.dropWhile_sublist isInside).length_le

theorem finishes_of_nest (h : nest items outer (scan false .bare [] text) = some result) :
    Finishes items outer text result := by
  induction hn : text.length using Nat.strongRecOn generalizing text items outer
  case ind n hi =>
    subst hn
    cases text
    case nil =>
      cases outer
      case nil =>
        cases h
        exact ⟨[], .nil, List.append_nil _⟩
      case cons => cases h
    case cons c text =>
      have shorter {rest : List Char} {items : List Datum} {outer : List (List Datum)} (hl : rest.length ≤ text.length)
          (h : nest items outer (scan false .bare [] rest) = some result) : Finishes items outer rest result :=
        hi _ (Nat.lt_succ_of_le hl) h rfl
      cases hd : isDelimiter false c
      case false =>
        obtain ⟨w, rest, he, hw, hr, hl⟩ := exists_word hd text
        rw [he, hw.readable.scan_eq rest hr, nest_word hw.solid] at h
        rw [he]
        exact .prepend w.toList [.literal w] (shorter hl h) fun hp hb => .word hw (hr.of_prefix hp) hb
      case true =>
        have hl := Nat.le_refl text.length
        simp only [isDelimiter, Bool.false_and, Bool.or_false, Bool.or_eq_true, decide_eq_true_eq] at hd
        rcases hd with (hb | rfl) | rfl
        case inl.inl =>
          rw [scan, if_pos hb] at h
          exact .prepend [c] [] (shorter hl h) fun _ hw => .blank hb hw
        case inl.inr =>
          rw [scan_openParen, nest_openParen] at h
          obtain ⟨inside, rest, data, rfl, hw, hf⟩ := shorter hl h
          have hg : Finishes items outer (('(' :: inside ++ [')']) ++ rest) result := by
            refine .prepend _ [.group data] hf fun _ hb => ?_
            simpa using Written.group hw hb
          simpa using hg
        case inr =>
          rw [scan_closeParen] at h
          cases outer
          case nil => cases h
          case cons around outer =>
            rw [nest_closeParen] at h
            exact ⟨[], text, [], rfl, .nil, by simpa using shorter hl h⟩

-- The reader reads what is written, and nothing else.
theorem read_eq_some_iff {text : String} : read false text = some data ↔ Written text.toList data := by
  refine ⟨fun h => ?_, Written.read_eq⟩
  have hf : Finishes [] [] text.toList data := finishes_of_nest h
  obtain ⟨_, hw, rfl⟩ := hf
  exact hw

end

end Layout

namespace Datum

open Layout

theorem Worded.imp {p q : String → Prop} (h : ∀ {w}, p w → q w) {d : Datum} (hd : d.Worded p) : d.Worded q := by
  induction d using inductInside
  case literal => exact h hd
  case group items hi =>
    simp only [Worded, allWorded_iff] at hd ⊢
    exact fun e he => hi e he (hd e he)
  case filled hi => exact hi hd
  case marker => trivial
  all_goals exact hd

-- The text of a value whose words are bare can be read in one way only: as the value without its markers, and with the
-- contents of its placeholders in their place.
theorem text_reads_back {value : Datum} (h : value.Worded (Bare false)) (depth : Int) :
    ∃ words depth', flatten value depth = .ok (words, depth') ∧
      ∀ data, Written (join words).toList data ↔ data = value.strip := by
  obtain ⟨words, depth', hf, hr⟩ := read_flatten (h.imp Bare.readable) depth
  refine ⟨words, depth', hf, fun data => ?_⟩
  rw [← read_eq_some_iff, hr, Option.some.injEq, eq_comm]

-- Breaks next to parentheses, an empty group, a placeholder between groups, and more steps out than in.
def scattered : Datum :=
  .group [.marker .lineBreak, .group [.marker .dedent], .group [.literal "a'", .marker .lineBreak],
    .filled (.given 0) (.group [.filled (.given 1) (.marker .lineBreak), .literal "b"]), .literal "c", .marker .lineBreak]

theorem scattered_reads_back :
    scattered.Worded (Bare false) ∧ ∃ words depth', flatten scattered (-1) = .ok (words, depth') ∧
      ∀ data, Written (join words).toList data ↔
        data = [.group [.group [], .group [.literal "a'"], .group [.literal "b"], .literal "c"]] := by
  have hw : scattered.Worded (Bare false) := by
    simp only [scattered, Worded, AllWorded]
    decide
  exact ⟨hw, text_reads_back hw (-1)⟩

end Datum
end ParenTree
