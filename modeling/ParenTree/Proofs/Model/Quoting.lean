import ParenTree.Proofs.Model.Reading

-- How strings are written in a dump: between single quotes, and so that the second quote can be told from those inside.

namespace ParenTree

namespace Model

-- A piece of the text of a string: a backslash with the character behind it, or any character but a backslash.
inductive Glyph
  | pair (c : Char)
  | plain (c : Char) (not_backslash : c ≠ '\\')

theorem quote_ne_backslash : '\'' ≠ '\\' := by
  decide

namespace Glyph

def chars : Glyph → List Char
  | pair c => ['\\', c]
  | plain c _ => [c]

-- A quote with a backslash as one without.
def bare : Glyph → Glyph
  | pair c => if c = '\'' then plain '\'' quote_ne_backslash else pair c
  | g => g

-- A quote without a backslash as one with it.
def escaped : Glyph → Glyph
  | pair c => pair c
  | plain c h => if c = '\'' then pair '\'' else plain c h

theorem bare_escaped (g : Glyph) : g.escaped.bare = g.bare := by
  cases g
  case pair => rfl
  case plain c _ => by_cases hc : c = '\'' <;> simp [escaped, bare, hc]

theorem escaped_escaped (g : Glyph) : g.escaped.escaped = g.escaped := by
  cases g
  case pair => rfl
  case plain c _ => by_cases hc : c = '\'' <;> simp [escaped, hc]

theorem escaped_ne_quote (g : Glyph) (h : '\'' ≠ '\\') : g.escaped ≠ plain '\'' h := by
  cases g
  case pair => simp [escaped]
  case plain c _ => by_cases hc : c = '\'' <;> simp [escaped, hc]

-- The first piece of a text is told by the text.
theorem chars_append_inj {g g' : Glyph} {cs cs' : List Char} (h : g.chars ++ cs = g'.chars ++ cs') : g = g' ∧ cs = cs' := by
  cases g <;> cases g'
  case pair.pair =>
    cases h
    exact ⟨rfl, rfl⟩
  case plain.plain =>
    cases h
    exact ⟨rfl, rfl⟩
  case pair.plain hb => exact absurd (List.cons.inj h).left.symm hb
  case plain.pair hb _ => exact absurd (List.cons.inj h).left hb

end Glyph

def spell (gs : List Glyph) : List Char :=
  gs.flatMap Glyph.chars

-- The pieces are the only ones that the text can be split into.
def Splits (cs : List Char) (gs : List Glyph) : Prop :=
  ∀ gs', spell gs' = cs ↔ gs' = gs

section

variable {gs gs' : List Glyph} {rest : List Char}

theorem spell_cons (g : Glyph) (gs : List Glyph) : spell (g :: gs) = g.chars ++ spell gs :=
  List.flatMap_cons

theorem spell_ne_nil (g : Glyph) (gs : List Glyph) : spell (g :: gs) ≠ [] := by
  cases g <;> simp [spell_cons, Glyph.chars]

theorem spell_inj (h : spell gs = spell gs') : gs = gs' := by
  induction gs generalizing gs'
  case nil =>
    cases gs'
    case nil => rfl
    case cons g' gs' => exact absurd h.symm (spell_ne_nil g' gs')
  case cons g gs hi =>
    cases gs'
    case nil => exact absurd h (spell_ne_nil g gs)
    case cons g' gs' =>
      rw [spell_cons, spell_cons] at h
      obtain ⟨rfl, hs⟩ := Glyph.chars_append_inj h
      rw [hi hs]

theorem splits_spell (gs : List Glyph) : Splits (spell gs) gs :=
  fun _ => ⟨spell_inj, congrArg spell⟩

-- Behind pieces without a bare quote, the first bare quote is the one that is put there.
theorem eq_of_closing (hq : ∀ g ∈ gs, ∀ h, g ≠ .plain '\'' h) (h : spell gs ++ ['\''] = spell gs' ++ '\'' :: rest) :
    gs' = gs ∧ rest = [] := by
  induction gs generalizing gs'
  case nil =>
    cases gs'
    case nil =>
      cases h
      exact ⟨rfl, rfl⟩
    case cons g' gs' =>
      have hl := congrArg List.length h
      have hn := List.length_pos_iff.mpr (spell_ne_nil g' gs')
      simp only [spell, List.flatMap_nil, List.nil_append, List.length_append, List.length_cons, List.length_nil] at hl hn
      omega
  case cons g gs hi =>
    obtain ⟨hg, hgs⟩ := List.forall_mem_cons.mp hq
    cases gs'
    case nil =>
      cases g
      case pair => cases h
      case plain c hc =>
        cases h
        exact absurd rfl (hg hc)
    case cons g' gs' =>
      rw [spell_cons, spell_cons, List.append_assoc, List.append_assoc] at h
      obtain ⟨rfl, hs⟩ := Glyph.chars_append_inj h
      obtain ⟨rfl, hr⟩ := hi hgs hs
      exact ⟨rfl, hr⟩

end

-- Escaping goes piece by piece.
theorem escapeQuotes_spell (gs : List Glyph) : escapeQuotes (spell gs) = spell (gs.map Glyph.escaped) := by
  induction gs
  case nil => rfl
  case cons g gs hi =>
    rw [spell_cons, List.map_cons, spell_cons, ← hi]
    cases g
    case pair c => exact escapeQuotes_backslash c _
    case plain c hb =>
      by_cases hc : c = '\''
      case pos =>
        subst hc
        rfl
      case neg =>
        simp only [Glyph.escaped, if_neg hc]
        exact escapeQuotes_cons hb hc

-- A text between double quotes can be split.
theorem exists_spell {cs : List Char} (h : Lexeme.isStringBody cs) : ∃ gs, spell gs = cs := by
  refine Lexeme.isStringBody_induct ?nil ?pair ?plain h
  case nil => exact ⟨[], rfl⟩
  case pair =>
    rintro c _ ⟨gs, rfl⟩
    exact ⟨.pair c :: gs, rfl⟩
  case plain =>
    rintro c _ hc - ⟨gs, rfl⟩
    exact ⟨.plain c hc :: gs, rfl⟩

end Model

open Model

-- A string of a source text is dumped between single quotes. Its text in the dump can be split in one way only, into pairs that
-- a backslash begins and other characters, of which none is a single quote; so the first quote that is not part of a pair
-- closes the string. But for the backslashes of quotes it is the text in the source, and quotes that have one get no other.
theorem Dumper.string_is_delimited {file source : String} {ts : List Token} {t : Token}
    (h : Token.ofSource file source = .ok ts) (ht : t ∈ ts) (hk : t.kind = .string) :
    ∃ value body valueGlyphs glyphs,
      t.lexeme.toList = '"' :: value ++ ['"'] ∧
      (∀ depth, ((Dumper.new .model depth).dump
        (Node.literal t.span .string (Parser.literalValue .string t.lexeme)).toDatum).1 = .ok (.ofList ('\'' :: body ++ ['\'']))) ∧
      Splits value valueGlyphs ∧ Splits body glyphs ∧
      (∀ c h, .plain c h ∈ glyphs → c ≠ '\'') ∧
      (∀ front rest, body ++ ['\''] = spell front ++ '\'' :: rest → rest = []) ∧
      glyphs.map Glyph.bare = valueGlyphs.map Glyph.bare ∧
      escapeQuotes value = body ∧ escapeQuotes body = body := by
  obtain ⟨w, eof, rfl, he, hw⟩ := Token.ofSource_spells h
  have hs : t.kind.Spells t.lexeme.toList := by
    rcases List.mem_append.mp ht with hm | hm
    case inl => exact (hw t hm).right
    case inr =>
      rw [List.mem_singleton.mp hm, he] at hk
      cases hk
  rw [hk] at hs
  obtain ⟨value, hv, hb⟩ := hs
  obtain ⟨gs, rfl⟩ := exists_spell hb
  have hl : Parser.literalValue .string t.lexeme = .ofList (spell gs) := by
    simp [Parser.literalValue, hv]
  have hq : ∀ g ∈ gs.map Glyph.escaped, ∀ h, g ≠ .plain '\'' h :=
    List.forall_mem_map.mpr fun g _ h => g.escaped_ne_quote h
  refine ⟨spell gs, spell (gs.map Glyph.escaped), gs, gs.map Glyph.escaped, hv, fun depth => ?_, splits_spell _, splits_spell _,
    ?_, fun front rest hf => (eq_of_closing hq hf).right, ?_, escapeQuotes_spell gs, ?_⟩
  case refine_1 =>
    have hf : (Model.Tree.node (.literal t.span .string (.ofList (spell gs)))).WellFormed := by
      simpa [Tree.WellFormed, Node.WellFormed, LiteralKind.Admits] using hb
    have hd := (new_dump_tree hf depth).left
    rwa [Tree.dumpText, Node.dumpText, quoteLiteral, String.toList_ofList, escapeQuotes_spell, Tree.toDatum, ← hl] at hd
  case refine_2 =>
    rintro c hc hm rfl
    exact hq _ hm hc rfl
  case refine_3 =>
    rw [List.map_map]
    exact List.map_congr_left fun g _ => g.bare_escaped
  case refine_4 =>
    rw [escapeQuotes_spell, List.map_map]
    exact congrArg spell (List.map_congr_left fun g _ => g.escaped_escaped)

-- A bare quote, a backslash in front of a newline, two backslashes in front of a quote, and a quote with its backslash.
def knottyString : String :=
  "\"'\\\n'\\\\'\\'\""

theorem Dumper.string_is_delimited_knotty :
    ∃ ts t, Token.ofSource "" knottyString = .ok ts ∧ t ∈ ts ∧ t.kind = .string ∧ t.lexeme = knottyString ∧
      (∀ depth, ((Dumper.new .model depth).dump
        (Node.literal t.span .string (Parser.literalValue .string t.lexeme)).toDatum).1 =
          .ok "'\\'\\\n\\'\\\\\\'\\''") ∧
      ∃ glyphs, Splits "\\'\\\n\\'\\\\\\'\\'".toList glyphs := by
  have hs : (Token.ofSource "" knottyString).toOption =
      some [⟨.string, knottyString, ⟨"", 1, 1, 0, 11⟩⟩, ⟨.endOfInput, "", ⟨"", 2, 8, 11, 11⟩⟩] := by
    decide +kernel
  cases ho : Token.ofSource "" knottyString <;> rw [ho] at hs
  case error => cases hs
  case ok =>
    cases hs
    obtain ⟨value, body, _, glyphs, hv, hd, _, hb, _, _, _, he, _⟩ := string_is_delimited ho List.mem_cons_self rfl
    have hv : value = "'\\\n'\\\\'\\'".toList := (List.append_cancel_right (List.cons.inj hv).right).symm
    have he : body = "\\'\\\n\\'\\\\\\'\\'".toList := by
      rw [← he, hv]
      decide +kernel
    subst he
    exact ⟨_, _, rfl, List.mem_cons_self, rfl, rfl, hd, glyphs, hb⟩

end ParenTree
