import ParenTree.Proofs.Source.Scanning
import ParenTree.Proofs.Syntax.Placement
import ParenTree.Proofs.Syntax.WellFormed

-- Layout keeps words apart and means nothing else: the words of a text with single spaces between them are the same words
-- again, and the same program or the same complaint.

namespace ParenTree

open Lexeme

namespace Token

-- A token apart from its place.
def word (t : Token) : Kind × String :=
  (t.kind, t.lexeme)

-- The words of tokens, in their order and with a space between any two.
def respaced (ts : List Token) : String :=
  " ".intercalate ((ts.filter (·.kind ≠ .endOfInput)).map (·.lexeme))

theorem Kind.ne_nil_of_spells {k : Kind} {cs : List Char} (h : k.Spells cs) (hk : k ≠ .endOfInput) :
    ∃ c cs', cs = c :: cs' := by
  cases cs
  case cons c cs => exact ⟨c, cs, rfl⟩
  case nil =>
    cases k
    case endOfInput => contradiction
    case ident => cases h.left
    case int => cases h
    case float =>
      obtain ⟨whole, fraction, he, -⟩ := h
      cases whole <;> cases he
    case string =>
      obtain ⟨body, he, -⟩ := h
      cases he
    all_goals exact absurd (congrArg String.toList (Option.some.inj h)) (by decide)

theorem not_isSpace_of_spells {k : Kind} {c : Char} {cs : List Char} (h : k.Spells (c :: cs)) : isSpace c = false := by
  have hf := first_of_spells h
  cases hs : isSpace c
  case false => rfl
  case true =>
    rw [first, if_pos hs] at hf
    cases hf

-- A token as the scanner finds it, if its lexeme stands in a text.
def IsWord (t : Token) : Prop :=
  t.kind ≠ .endOfInput ∧ t.kind.Spells t.lexeme.toList

section

variable {file : String} {p : Position} {found : List Token}

theorem scan_word {t : Token} {rest : List Char} (ht : t.IsWord) (hr : ∀ d ∈ rest.head?, isSeam (.token t.kind) d) :
    scan file p found (t.lexeme.toList ++ rest) =
      scan file (p.afterAll t.lexeme.toList)
        (⟨t.kind, t.lexeme, .between file p (p.afterAll t.lexeme.toList)⟩ :: found) rest := by
  obtain ⟨hk, hs⟩ := ht
  obtain ⟨c, cs, hc⟩ := Kind.ne_nil_of_spells hs hk
  have hl : t.lexeme = .ofList (c :: cs) := by rw [← hc, String.ofList_toList]
  rw [hc] at hs ⊢
  rw [scan_token_append (first_of_spells hs) hr, List.take_length, List.drop_length, List.nil_append, hl]

theorem scan_space {rest : List Char} (h : ∀ d ∈ rest.head?, isSpace d = false) :
    scan file p found (' ' :: rest) = scan file (p.after ' ') found rest := by
  have hf : first ' ' rest = .ok (.layout, 0) := by
    have hr := run_append (p := isSpace) [] h
    rw [List.nil_append] at hr
    rw [first, if_pos (by decide), hr]
    rfl
  rw [scan_layout hf]
  rfl

theorem isSpace_head?_intercalate {t : Token} (ht : t.IsWord) (w : List (List Char)) :
    ∀ d ∈ ([' '].intercalate (t.lexeme.toList :: w)).head?, isSpace d = false := by
  obtain ⟨c, cs, hc⟩ := Kind.ne_nil_of_spells ht.right ht.left
  have hs := hc ▸ ht.right
  intro d hd
  rw [hc] at hd
  have hd : d = c := by
    cases w
    case nil => simpa using hd.symm
    case cons => simpa using hd.symm
  rw [hd, not_isSpace_of_spells hs]

end

-- The scanner takes one word after the other, and the spaces between them.
theorem scan_respaced (file : String) (p : Position) (found : List Token) {w : List Token} (hw : ∀ t ∈ w, t.IsWord) :
    ∃ us, scan file p found ([' '].intercalate (w.map (·.lexeme.toList))) = .ok us ∧
      us.map word = found.reverse.map word ++ w.map word ++ [(.endOfInput, "")] := by
  induction w generalizing p found
  case nil => exact ⟨_, by rw [List.map_nil, List.intercalate_nil, scan], by simp [word]⟩
  case cons t w hi =>
    have ht := hw t (by simp)
    cases w
    case nil =>
      rw [List.map_cons, List.map_nil, List.intercalate_singleton, ← List.append_nil t.lexeme.toList,
        scan_word ht (by simp), scan]
      exact ⟨_, rfl, by simp [word]⟩
    case cons u w =>
      have hu : u.IsWord := hw u (by simp)
      rw [List.map_cons, List.map_cons, List.intercalate_cons_cons, List.append_assoc, scan_word ht (by simp [isSeam]),
        List.singleton_append, scan_space (isSpace_head?_intercalate hu _)]
      obtain ⟨us, hs, hus⟩ := hi _ _ fun t ht => hw t (List.mem_cons_of_mem _ ht)
      exact ⟨us, hs, by rw [hus]; simp [word]⟩

theorem ofSource_respaced {file source : String} {ts : List Token} (h : ofSource file source = .ok ts) :
    ∃ us, ofSource file (respaced ts) = .ok us ∧ us.map word = ts.map word := by
  obtain ⟨w, eof, rfl, hk, hw⟩ := ofSource_spells h
  have he : eof.word = (.endOfInput, "") := by
    obtain ⟨_, he, -⟩ := scan_newline h
    rw [List.singleton_inj.mp (List.append_inj' he rfl).right]
    rfl
  have hf : (w ++ [eof]).filter (·.kind ≠ .endOfInput) = w := by
    rw [List.filter_append, List.filter_eq_self.mpr fun t ht => by simpa using (hw t ht).left]
    simp [hk]
  rw [ofSource, respaced, String.toList_intercalate, hf, List.map_map]
  obtain ⟨us, hs, hus⟩ := scan_respaced file {} [] hw
  exact ⟨us, hs, by rw [hus]; simp [he]⟩

theorem alike_of_word_eq {ts us : List Token} (h : us.map word = ts.map word) :
    List.Forall₂ (Token.Alike fun _ _ => True) ts us := by
  have hw : List.Forall₂ Eq (ts.map word) (us.map word) := by rw [List.forall₂_eq_eq_eq, h]
  refine (List.forall₂_map_right_iff.mp (List.forall₂_map_left_iff.mp hw)).imp fun t u hu => ?_
  obtain ⟨hk, hl⟩ := Prod.mk.inj hu
  exact ⟨hk.symm, hl.symm, trivial⟩

end Token

namespace Program

theorem bare_of_alike {p q : Program} (h : Alike (fun _ _ => True) p q) : q.bare = p.bare := by
  have hb := h.right.map_eq (f := fun _ => .blank) (g := fun _ => .blank) (fun _ _ _ => rfl) fun _ value => value
  rw [bare, Program.map, Program.map, hb]

-- A text is read as its words are, wherever they stand.
theorem ofSource_of_words {file source : String} {ts us : List Token} {p : Program} (hs : Token.ofSource file source = .ok us)
    (hw : us.map Token.word = ts.map Token.word) (hp : Grammar.Spells ts p) :
    ∃ q, ofSource file source = .ok q ∧ q.bare = p.bare := by
  have hagree := ofTokens_agree (fun _ _ _ _ _ _ => trivial) (Token.alike_of_word_eq hw)
  rw [ofTokens_of_spells hp] at hagree
  rw [ofSource, hs]
  dsimp only
  generalize ofTokens us = result at hagree
  cases hagree
  case programs q hq => exact ⟨q, rfl, bare_of_alike hq⟩

-- A text and its words with single spaces between them scan alike, and parse alike but for the places.
theorem ofSource_eq_respaced {file source : String} {ts : List Token} (h : Token.ofSource file source = .ok ts) :
    (∃ us, Token.ofSource file (Token.respaced ts) = .ok us ∧ us.map Token.word = ts.map Token.word) ∧
    ((∃ p q, ofSource file source = .ok p ∧ ofSource file (Token.respaced ts) = .ok q ∧ q.bare = p.bare) ∨
      ∃ fault fault', ofSource file source = .error (.fault fault) ∧
        ofSource file (Token.respaced ts) = .error (.fault fault') ∧
        fault'.diagnostic.message = fault.diagnostic.message ∧ fault'.diagnostic.hint = fault.diagnostic.hint ∧
        fault'.diagnostic.code = fault.diagnostic.code) := by
  obtain ⟨us, hus, hw⟩ := Token.ofSource_respaced h
  refine ⟨⟨us, hus, hw⟩, ?_⟩
  have hagree := ofTokens_agree (fun _ _ _ _ _ _ => trivial) (Token.alike_of_word_eq hw)
  have hne := ofTokens_ne_outOfTokens (Grammar.terminated_of_ofSource h)
  rw [ofSource, ofSource, h, hus]
  dsimp only
  generalize ofTokens ts = result at hagree hne ⊢
  generalize ofTokens us = result' at hagree ⊢
  cases hagree
  case programs p q hp => exact .inl ⟨p, q, rfl, rfl, bare_of_alike hp⟩
  case faults => exact .inr ⟨_, _, rfl, rfl, rfl, rfl, rfl⟩
  case outOfTokens => contradiction

-- A comment between operators does not join them, and the one at the end of a line leaves the newline.
theorem ofSource_eq_respaced_comments :
    ∃ ts p q, Token.ofSource "" "f(a/**/ /1.5)//\n" = .ok ts ∧ Token.respaced ts = "f ( a / 1.5 ) \n" ∧
      ofSource "" "f(a/**/ /1.5)//\n" = .ok p ∧ ofSource "" "f ( a / 1.5 ) \n" = .ok q ∧ q.bare = p.bare := by
  have ht : (Token.ofSource "" "f(a/**/ /1.5)//\n").toOption.map Token.respaced = some "f ( a / 1.5 ) \n" := by
    decide +kernel
  have hp : (ofSource "" "f(a/**/ /1.5)//\n").toBool := by decide +kernel
  cases hts : Token.ofSource "" "f(a/**/ /1.5)//\n" <;> rw [hts] at ht
  case error => cases ht
  case ok ts =>
    have hr : Token.respaced ts = "f ( a / 1.5 ) \n" := Option.some.inj ht
    rcases (ofSource_eq_respaced hts).right with ⟨p, q, hp', hq, hb⟩ | ⟨fault, fault', hf, -⟩
    case inl =>
      rw [hr] at hq
      exact ⟨ts, p, q, rfl, hr, hp', hq, hb⟩
    case inr =>
      rw [hf] at hp
      cases hp

end Program

end ParenTree
