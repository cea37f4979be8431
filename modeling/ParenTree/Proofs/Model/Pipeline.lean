import ParenTree.Proofs.Model.Text
import ParenTree.Proofs.Source.Scanning
import ParenTree.Proofs.Syntax.Placement

-- What becomes of a source text: its dump, or a diagnostic with a code of its own and a place in the text.

namespace ParenTree

namespace Diagnostic

theorem occursIn_append (pattern rest : List Char) : occursIn pattern (pattern ++ rest) := by
  cases pattern
  case nil => cases rest <;> rfl
  case cons c cs => simp [occursIn]

-- A wording that begins with the name of its fault tells it, whatever it quotes.
theorem inferCode_invalidCharacter (quoted : String) : inferCode .lexer ("invalid character " ++ quoted) = "TD1001" := by
  have hw : "invalid character ".toList.map foldCase = "invalid character".toList ++ [' '] := by decide
  simp only [inferCode, String.toList_append, List.map_append, hw, List.append_assoc, occursIn_append, if_true]

theorem inferCode_lexical (cause : LexicalFault) : inferCode .lexer cause.message ∈ ["TD1001", "TD1002", "TD1003"] := by
  cases cause
  case invalidCharacter c =>
    have hc : inferCode .lexer (LexicalFault.invalidCharacter c).message = "TD1001" := inferCode_invalidCharacter _
    simp [hc]
  case unterminatedString | unterminatedComment => decide

theorem inferCode_syntactic (cause : SyntacticFault) : inferCode .parser cause.message ∈ ["TD2001", "TD2002"] := by
  cases cause
  case expected what => cases what <;> decide
  case invalidTarget => decide

end Diagnostic

-- The range begins in a text of a length.
def Span.Within (length : Nat) (s : Span) : Prop :=
  0 ≤ s.start ∧ s.start ≤ length

theorem Token.within_of_ofSource {file source : String} {ts : List Token} (h : ofSource file source = .ok ts) :
    ∀ t ∈ ts, t.span.Within source.length := by
  intro t ht
  rcases scan_stands h t ht with ht | ⟨before, after, hc, hs⟩
  case inl => cases ht
  case inr =>
    have hl : source.length = before.length + (t.lexeme.toList ++ after).length := by
      rw [← String.length_toList, hc, List.length_append]
    rw [hs]
    simp only [Span.Within, Span.between, Position.afterAll_offset]
    omega

theorem Token.fault_of_ofSource {file source : String} {fault : SourceFault} (h : ofSource file source = .error fault) :
    ∃ span cause, fault = .lexical span cause ∧ span.Within source.length := by
  obtain ⟨before, c, rest, cause, hc, -, rfl⟩ := scan_error h
  have hl : source.length = before.length + (c :: rest).length := by
    rw [← String.length_toList, hc, List.length_append]
  refine ⟨_, cause, rfl, ?_⟩
  simp only [Span.Within, Span.between, Position.afterAll_offset]
  omega

-- The parser blames a place that some token has.
theorem Program.fault_of_ofTokens {ts : List Token} {fault : SourceFault} {length : Nat}
    (hts : ∀ t ∈ ts, t.span.Within length) (h : ofTokens ts = .error (.fault fault)) :
    ∃ span cause, fault = .syntactic span cause ∧ span.Within length := by
  have hR : Span.Congruent fun s _ => s.Within length := fun _ _ _ _ hs _ => hs
  have ha : List.Forall₂ (Token.Alike fun s _ => s.Within length) ts ts :=
    List.forall₂_same.mpr fun t ht => ⟨rfl, rfl, hts t ht⟩
  have hagree := ofTokens_agree hR ha
  rw [h] at hagree
  cases hagree
  case faults hs => exact ⟨_, _, rfl, hs⟩

theorem Program.dump_of_ofSource {file source : String} {p : Program} (h : ofSource file source = .ok p) (depth : Int) :
    (p.dump depth).1 = .ok (p.dumpText depth) ∧ (p.dump depth).2.depth = depth := by
  rw [Program.dump]
  exact Dumper.new_dump_tree (t := .program p) (wellFormed_of_ofSource h) depth

-- Every text is dumped, at any depth and back to that depth, or is diagnosed by the scanner or the parser. The scanner's
-- tokens never run out on the parser, and what the parser returns never fails in the dumper.
theorem Program.dumped_or_diagnosed (file source : String) (depth : Int) :
    (∃ p text, ofSource file source = .ok p ∧ (p.dump depth).1 = .ok text ∧ (p.dump depth).2.depth = depth) ∨
    ∃ fault, ofSource file source = .error (.fault fault) ∧
      0 ≤ fault.diagnostic.span.start ∧ fault.diagnostic.span.start ≤ source.length ∧
      (Token.ofSource file source = .error fault ∧ fault.diagnostic.code ∈ ["TD1001", "TD1002", "TD1003"] ∨
        ∃ ts, Token.ofSource file source = .ok ts ∧ ofTokens ts = .error (.fault fault) ∧
          fault.diagnostic.code ∈ ["TD2001", "TD2002"]) := by
  cases ht : Token.ofSource file source
  case error fault =>
    obtain ⟨span, cause, rfl, h₀, hn⟩ := Token.fault_of_ofSource ht
    exact .inr ⟨.lexical span cause, by rw [ofSource, ht], h₀, hn, .inl ⟨rfl, Diagnostic.inferCode_lexical cause⟩⟩
  case ok ts =>
    have hs : ofSource file source = ofTokens ts := by rw [ofSource, ht]
    cases hp : ofTokens ts
    case ok p =>
      obtain ⟨hd, hd'⟩ := dump_of_ofSource (hs.trans hp) depth
      exact .inl ⟨p, _, hs.trans hp, hd, hd'⟩
    case error failure =>
      cases failure
      case outOfTokens => exact absurd hp (ofTokens_ne_outOfTokens (Grammar.terminated_of_ofSource ht))
      case fault fault =>
        obtain ⟨span, cause, rfl, h₀, hn⟩ := fault_of_ofTokens (Token.within_of_ofSource ht) hp
        exact .inr ⟨_, hs.trans hp, h₀, hn, .inr ⟨ts, rfl, hp, Diagnostic.inferCode_syntactic cause⟩⟩

end ParenTree
