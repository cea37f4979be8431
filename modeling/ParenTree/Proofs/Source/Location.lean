import Mathlib.Data.List.DropRight
import ParenTree.Proofs.Source.Progress

-- The line and the column of a span are what counting from the front of the text gives.

namespace ParenTree

-- Where the last line of a text begins: right behind its last newline, or at the front if it has none.
def Text.lineStart (cs : List Char) : Nat :=
  (cs.rdropWhile (· ≠ '\n')).length

open Text

-- The line is told by the newlines in front of the span, the column by the characters behind the last of them.
def Span.Located (source : String) (s : Span) : Prop :=
  s.line = 1 + (slice source.toList 0 s.start).count '\n' ∧
    s.col = s.start - lineStart (slice source.toList 0 s.start) + 1

theorem Text.lineStart_le (cs : List Char) : lineStart cs ≤ cs.length :=
  (List.rdropWhile_prefix _ cs).length_le

theorem Text.lineStart_concat (cs : List Char) (c : Char) :
    lineStart (cs ++ [c]) = if c = '\n' then cs.length + 1 else lineStart cs := by
  rw [lineStart, List.rdropWhile_concat]
  by_cases hc : c = '\n' <;> simp [hc, lineStart]

theorem Position.afterAll_col (cs : List Char) : (afterAll {} cs).col = cs.length - lineStart cs + 1 := by
  induction cs using List.reverseRecOn
  case nil => rfl
  case append_singleton cs c hi =>
    have hl := lineStart_le cs
    have ha : afterAll {} (cs ++ [c]) = (afterAll {} cs).after c := afterAll_append _ cs [c]
    rw [ha, after, lineStart_concat, List.length_append, List.length_singleton]
    split
    case isTrue => simp
    case isFalse =>
      dsimp only
      omega

-- A span that begins behind a part of the text is located there.
theorem Span.located_between {file source : String} {before after : List Char} (q : Position)
    (h : source.toList = before ++ after) : (between file (.afterAll {} before) q).Located source := by
  have hs : slice source.toList 0 before.length = before := by
    rw [h]
    exact slice_append [] before after rfl rfl
  have hl := lineStart_le before
  simp only [Located, between, Position.afterAll_offset, Nat.zero_add, hs, Position.afterAll_line, Position.afterAll_col]
  omega

namespace Token

theorem located_of_ofSource {file source : String} {ts : List Token} (h : ofSource file source = .ok ts) :
    ∀ t ∈ ts, t.span.Located source := by
  intro t ht
  rcases scan_stands h t ht with ht | ⟨before, after, hc, hs⟩
  case inl => cases ht
  case inr =>
    rw [hs]
    exact Span.located_between _ hc

-- Tokens and lexical faults are where they say. A text that is cut off at a fault has the tokens that were found in front of
-- it, and then ends.
theorem ofSource_located (file source : String) :
    (∀ ts, ofSource file source = .ok ts → ∀ t ∈ ts, t.span.Located source) ∧
    ∀ fault, ofSource file source = .error fault → fault.diagnostic.span.Located source ∧
      ∃ s, Scans file (.opening source) s ∧ s.Stuck file fault ∧
        ofSource file (.ofList (slice source.toList 0 fault.diagnostic.span.start)) =
          .ok (s.found.reverse ++ [⟨.endOfInput, "", .between file s.place s.place⟩]) := by
  refine ⟨fun ts => located_of_ofSource, fun fault h => ?_⟩
  obtain ⟨s, hs, hk⟩ := scan_stuck h
  obtain ⟨text, hr, hp, hc⟩ := hs.scan_cut
  obtain ⟨c, rest, cause, hrest, hf, rfl⟩ := hk
  dsimp only at hr hp hc
  rw [hp] at hc ⊢
  refine ⟨Span.located_between _ hr, s, hs, ⟨c, rest, cause, hrest, hf, by rw [hp]⟩, ?_⟩
  have ht : slice source.toList 0 (Position.afterAll {} text).offset = text := by
    rw [hr, Position.afterAll_offset]
    exact slice_append [] text s.rest rfl (by simp)
  show ofSource file (.ofList (slice source.toList 0 (Position.afterAll {} text).offset)) = _
  rw [ht, ofSource, String.toList_ofList, hp]
  exact hc

-- Newlines in a string and in a comment count, though they are no tokens.
theorem ofSource_located_openString :
    ∃ fault ts, ofSource "" "\"x\ny\" /*\n*/ z \"" = .error fault ∧ fault.diagnostic.span = ⟨"", 3, 6, 14, 15⟩ ∧
      fault.diagnostic.span.Located "\"x\ny\" /*\n*/ z \"" ∧ ofSource "" "\"x\ny\" /*\n*/ z " = .ok ts ∧
      ts.map (·.lexeme) = ["\"x\ny\"", "z", ""] ∧ ∀ t ∈ ts, t.span.Located "\"x\ny\" /*\n*/ z " := by
  have hf : ofSource "" "\"x\ny\" /*\n*/ z \"" = .error (.lexical ⟨"", 3, 6, 14, 15⟩ .unterminatedString) := by
    decide +kernel
  have hl : (ofSource "" "\"x\ny\" /*\n*/ z ").toOption.map (·.map (·.lexeme)) = some ["\"x\ny\"", "z", ""] := by
    decide +kernel
  have hc : String.ofList (slice "\"x\ny\" /*\n*/ z \"".toList 0 14) = "\"x\ny\" /*\n*/ z " := by decide +kernel
  obtain ⟨hs, s, -, -, ht⟩ := (ofSource_located "" _).right _ hf
  change ofSource "" (.ofList (slice _ 0 14)) = _ at ht
  rw [hc] at ht
  rw [ht] at hl
  exact ⟨_, _, hf, rfl, hs, ht, Option.some.inj hl, (ofSource_located "" _).left _ ht⟩

end Token

end ParenTree
