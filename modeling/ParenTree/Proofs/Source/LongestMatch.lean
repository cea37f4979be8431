import ParenTree.Proofs.Source.Progress

-- The scanner takes the longest word that a text begins with, whatever classes other words at its front are from, and if there
-- is none, tells exactly why.

namespace ParenTree

namespace Token.Kind

def operators : List (String × Kind) :=
  [("==", equal), ("!=", notEqual), ("<=", lessEqual), (">=", greaterEqual), ("&&", and), ("||", or), (":=", define),
   ("+", plus), ("-", minus), ("*", star), ("/", slash), ("%", percent), ("=", assign), ("<", less), (">", greater),
   ("!", bang), ("(", openParen), (")", closeParen), ("\x7b", openBrace), ("\x7d", closeBrace), ("[", openBracket),
   ("]", closeBracket), (",", comma), (";", semicolon)]

theorem spelling?_of_operator {w : String} {k : Kind} (h : (w, k) ∈ operators) : k.spelling? = some w := by
  have hs : ∀ entry ∈ operators, entry.2.spelling? = some entry.1 := by decide
  exact hs _ h

theorem ne_ident_of_keyword {w : String} {k : Kind} (h : keywords.lookup w = some k) : k ≠ ident := by
  rintro rfl
  cases spelling?_of_keyword h

end Token.Kind

namespace Lexeme

open Token.Kind (keywords operators)

-- The classes of words, and what a word of each class is. Nothing is said about the text around a word.
inductive InClass : List Char → Piece → Prop
  | blanks {w} : w ≠ [] → w.all isSpace → InClass w .layout
  | lineComment {body} : '\n' ∉ body → InClass ('/' :: '/' :: body) .layout
  | blockComment {body} : ¬['*', '/'] <:+: body → InClass ('/' :: '*' :: (body ++ ['*', '/'])) .layout
  | newline : InClass ['\n'] (.token .newline)
  | digits {w} : isDigits w → InClass w (.token .int)
  | fraction {whole fraction} :
    isDigits whole → isDigits fraction → InClass (whole ++ '.' :: fraction) (.token .float)
  | name {w} : isName w → keywords.lookup (.ofList w) = none → InClass w (.token .ident)
  | keyword {w k} : isName w → keywords.lookup (.ofList w) = some k → InClass w (.token k)
  | string {body} : isStringBody body → InClass ('"' :: body ++ ['"']) (.token .string)
  | operator {w k} : (.ofList w, k) ∈ operators → InClass w (.token k)

-- A text that begins with a comment which is not closed.
def OpensComment (cs : List Char) : Prop :=
  ∃ body, cs = '/' :: '*' :: body ∧ ¬['*', '/'] <:+: body

-- A text that begins with a string which is not closed.
def OpensString (cs : List Char) : Prop :=
  cs.head? = some '"' ∧ ∀ w, w <+: cs → ¬InClass w (.token .string)

section

variable {c : Char} {cs w : List Char} {piece : Piece} {k : Token.Kind} {length : Nat}

theorem inClass_of_isLayout {rest : List Char} (h : IsLayout w rest) : InClass w .layout := by
  cases h
  case blanks hn hs _ => exact .blanks hn hs
  case lineComment hb _ => exact .lineComment hb
  case blockComment hb => exact .blockComment hb

theorem inClass_of_spells (h : k.Spells w) (hw : w ≠ []) : InClass w (.token k) := by
  cases k
  case endOfInput =>
    cases w
    case nil => exact absurd rfl hw
    case cons => exact absurd rfl (Token.Kind.ne_endOfInput_of_spells h)
  case ident =>
    obtain ⟨hn, hi⟩ := h
    cases hk : keywords.lookup (.ofList w)
    case none => exact .name hn hk
    case some k =>
      rw [Token.Kind.ofWord, hk] at hi
      exact absurd hi (Token.Kind.ne_ident_of_keyword hk)
  case int => exact .digits h
  case float =>
    obtain ⟨whole, fraction, rfl, hw, hf⟩ := h
    exact .fraction hw hf
  case string =>
    obtain ⟨body, rfl, hb⟩ := h
    exact .string hb
  all_goals
    have he : w = _ := String.toList_ofList.symm.trans (congrArg String.toList (Option.some.inj h)).symm
    subst he
  case newline => exact .newline
  case kwFn | kwLet | kwReturn | kwIf | kwElse | kwTrue | kwFalse | kwNop => exact .keyword (by decide) (by decide)
  all_goals exact .operator (by decide)

theorem InClass.spells (h : InClass w (.token k)) : k.Spells w := by
  cases h
  case newline => rfl
  case digits hd => exact hd
  case fraction hw hf => exact ⟨_, _, rfl, hw, hf⟩
  case name hn hk =>
    refine ⟨hn, ?_⟩
    rw [Token.Kind.ofWord, hk]
    rfl
  case keyword hn hk => exact Token.Kind.spells_of_spelling? (Token.Kind.spelling?_of_keyword hk)
  case string hb => exact ⟨_, rfl, hb⟩
  case operator ho => exact Token.Kind.spells_of_spelling? (Token.Kind.spelling?_of_operator ho)

theorem commentEnd_of_not_infix {body : List Char} (h : ¬['*', '/'] <:+: body) (seen : Nat) :
    commentEnd seen (body ++ ['*', '/']) = some (seen + body.length + 2) := by
  induction body generalizing seen
  case nil => rfl
  case cons d body hi =>
    rw [List.infix_cons_iff, not_or] at h
    rw [List.cons_append, commentEnd]
    · rw [hi h.right, List.length_cons]
      congr 1
      omega
    · -- A mark that begins here and is not in the body would need the star that closes the comment to be a slash.
      rintro rest rfl hr
      cases body
      case nil => cases hr
      case cons e body =>
        cases hr
        exact h.left ⟨body, rfl⟩

theorem first_slash (cs : List Char) : first '/' cs = slash cs :=
  rfl

-- A word that stands alone is found as what its class says, and as a whole.
theorem InClass.first_eq (h : InClass (c :: cs) piece) : first c cs = .ok (piece, cs.length) := by
  cases piece
  case token k => exact first_of_spells h.spells
  case layout =>
    generalize hp : Piece.layout = piece at h
    generalize hw : c :: cs = w at h
    cases h
    case blanks hs =>
      subst hw
      simp only [List.all_cons, Bool.and_eq_true] at hs
      rw [first, if_pos hs.left, run_eq_length hs.right]
    case lineComment body hb =>
      cases hw
      have hr : body.all (· ≠ '\n') := List.all_eq_true.mpr fun d hd => decide_eq_true fun he => hb (he ▸ hd)
      rw [first_slash, slash, run_eq_length hr, Nat.add_comm, List.length_cons]
    case blockComment body hb =>
      cases hw
      rw [first_slash, slash, commentEnd_of_not_infix hb]
      simp only [List.length_cons, List.length_append, List.length_nil, Except.ok.injEq, Prod.mk.injEq, true_and]
      omega
    all_goals cases hp

theorem inClass_of_first (h : first c cs = .ok (piece, length)) : InClass (c :: cs.take length) piece := by
  cases piece
  case layout => exact inClass_of_isLayout (first_layout h)
  case token => exact inClass_of_spells (first_spells h) (List.cons_ne_nil _ _)

theorem InClass.ne_nil (h : InClass w piece) : w ≠ [] := by
  cases h
  case blanks hn _ => exact hn
  case digits hd =>
    rintro rfl
    cases hd
  case name hn _ | keyword hn _ =>
    rintro rfl
    cases hn
  case operator ho =>
    have hs : ∀ entry ∈ operators, entry.1 ≠ "" := by decide
    rintro rfl
    exact hs _ ho rfl
  all_goals simp

theorem InClass.unique {piece' : Piece} (h : InClass w piece) (h' : InClass w piece') : piece = piece' := by
  cases w
  case nil => exact absurd rfl h.ne_nil
  case cons c cs => exact (Prod.mk.inj (Except.ok.inj (h.first_eq.symm.trans h'.first_eq))).left

theorem InClass.of_prefix (h : InClass w piece) (hp : w <+: c :: cs) :
    ∃ v rest, w = c :: v ∧ cs = v ++ rest ∧ first c v = .ok (piece, v.length) := by
  rcases List.prefix_cons_iff.mp hp with rfl | ⟨v, rfl, rest, rfl⟩
  case inl => exact absurd rfl h.ne_nil
  case inr => exact ⟨v, rest, rfl, rfl, h.first_eq⟩

-- A longer word would hold all of the piece, and so would be cut where the text is.
theorem length_le_of_first {piece' : Piece} (h : first c cs = .ok (piece, length)) (hw : InClass w piece')
    (hp : w <+: c :: cs) : w.length ≤ length + 1 := by
  obtain ⟨v, rest, rfl, rfl, hv⟩ := hw.of_prefix hp
  by_cases hl : length ≤ v.length
  case neg =>
    rw [List.length_cons]
    omega
  case pos =>
    have he := (first_of_append h hl).symm.trans hv
    rw [(Prod.mk.inj (Except.ok.inj he)).right, List.length_cons]

theorem not_infix_of_commentEnd {seen : Nat} (h : commentEnd seen cs = none) : ¬['*', '/'] <:+: cs := by
  fun_induction commentEnd seen cs
  case case1 => simp
  case case2 => cases h
  case case3 seen c cs hp hi =>
    rw [List.infix_cons_iff]
    rintro (⟨rest, hc⟩ | hc)
    case inl =>
      cases hc
      exact hp _ rfl rfl
    case inr => exact hi h hc

theorem OpensComment.first_eq (h : OpensComment (c :: cs)) : first c cs = .error .unterminatedComment := by
  obtain ⟨body, he, hb⟩ := h
  cases he
  rw [first_slash, slash]
  cases hc : commentEnd 1 body
  case none => rfl
  case some =>
    obtain ⟨before, after, rfl, -⟩ := commentEnd_spells hc
    exact absurd ⟨before, after, by simp⟩ hb

theorem OpensString.first_eq (h : OpensString (c :: cs)) : first c cs = .error .unterminatedString := by
  obtain ⟨hc, hn⟩ := h
  cases hc
  cases hs : stringEnd 0 cs
  case none => simp [first, isSpace, isDigit, isNameStart, hs]
  case some length =>
    have hf : first '"' cs = .ok (.token .string, length) := by simp [first, isSpace, isDigit, isNameStart, hs]
    exact absurd (inClass_of_first hf) (hn _ ⟨cs.drop length, (cut '"' cs length).symm⟩)

theorem operator_error_of_append {rest : List Char} {cause : LexicalFault} (h : operator c (cs ++ rest) = .error cause) :
    operator c cs = .error cause := by
  cases cs
  case cons => exact h
  case nil =>
    simp only [operator, List.nil_append, List.head?_nil, Option.bind_none] at h ⊢
    split at h
    case h_1 => cases h
    case h_2 => cases h
    case h_3 hc =>
      rw [hc]
      exact h

theorem operator_error {cause : LexicalFault} (h : operator c cs = .error cause) : cause = .invalidCharacter c := by
  simp only [operator] at h
  split at h
  case h_3 => exact (Except.error.inj h).symm
  all_goals cases h

theorem slash_error {cause : LexicalFault} (h : slash cs = .error cause) :
    cause = .unterminatedComment ∧ OpensComment ('/' :: cs) := by
  revert h
  fun_cases slash cs <;> intro h
  case case1 => cases h
  case case2 => cases h
  case case3 body hc =>
    cases h
    exact ⟨rfl, body, rfl, not_infix_of_commentEnd hc⟩
  case case4 =>
    -- A slash is an operator at least.
    rw [← List.nil_append cs] at h
    cases operator_error_of_append h

-- Why no word begins here: what is missing, or that no character of a word stands here.
theorem first_error {cause : LexicalFault} (h : first c cs = .error cause) :
    (cause = .unterminatedComment ∧ OpensComment (c :: cs)) ∨ (cause = .unterminatedString ∧ OpensString (c :: cs)) ∨
      (cause = .invalidCharacter c ∧ ∀ w piece, w <+: c :: cs → ¬InClass w piece) := by
  revert h
  fun_cases first c cs <;> intro h
  case case2 hc =>
    subst hc
    exact .inl (slash_error h)
  case case7 hc hs =>
    cases h
    refine .inr (.inl ⟨rfl, by rw [hc]; rfl, fun w hp hw => ?_⟩)
    obtain ⟨body, rfl, hb⟩ := hw.spells
    obtain ⟨rest, he⟩ := hp
    rw [List.cons_append, List.cons_append, List.cons.injEq, List.append_assoc] at he
    rw [← he.right] at hs
    cases hs.symm.trans (stringEnd_of_isStringBody hb 0 rest)
  case case8 hs hc hl hd hn hq =>
    refine .inr (.inr ⟨operator_error h, fun w piece hp hw => ?_⟩)
    obtain ⟨v, rest, rfl, rfl, hv⟩ := hw.of_prefix hp
    rw [first, if_neg hs, if_neg hc, if_neg hl, if_neg hd, if_neg hn, if_neg hq, operator_error_of_append h] at hv
    cases hv
  all_goals cases h

end

end Lexeme

namespace Token

open Lexeme

-- The scanner behind a piece of the text: layout leaves no token.
def Progress.past (file : String) (s : Progress) (w : List Char) (piece : Piece) : Progress where
  place := s.place.afterAll w
  found :=
    match piece with
    | .layout => s.found
    | .token k => ⟨k, .ofList w, .between file s.place (s.place.afterAll w)⟩ :: s.found
  rest := s.rest.drop w.length

-- The text is refused for a range of it, with these words.
def Refuses (file source message : String) (start stop : Int) : Prop :=
  ∃ fault, ofSource file source = .error fault ∧ fault.diagnostic.message = message ∧
    fault.diagnostic.span.start = start ∧ fault.diagnostic.span.stop = stop

section

variable {file source : String} {s : Progress} {c : Char} {cs : List Char}

theorem turn_iff {piece : Piece} {length : Nat} (hr : s.rest = c :: cs) (h : first c cs = .ok (piece, length)) (t : Progress) :
    Turn file s t ↔ t = s.past file (c :: cs.take length) piece := by
  obtain ⟨p, found, rest⟩ := s
  cases hr
  have hd : (c :: cs).drop (c :: cs.take length).length = cs.drop length := by
    rw [List.length_cons, List.length_take_of_le (first_le h), List.drop_succ_cons]
  constructor
  case mp =>
    rintro (hf | hf) <;> cases h.symm.trans hf <;> simp only [Progress.past, hd]
  case mpr =>
    rintro rfl
    cases piece
    case layout =>
      simp only [Progress.past, hd]
      exact .layout h
    case token =>
      simp only [Progress.past, hd]
      exact .token h

theorem refuses_of_first (hs : Scans file (.opening source) s) (hr : s.rest = c :: cs) {cause : LexicalFault}
    (h : first c cs = .error cause) :
    Refuses file source cause.message s.place.offset (s.place.offset + cause.extent) := by
  refine ⟨.lexical (.between file s.place { s.place with offset := s.place.offset + cause.extent }) cause,
    hs.scan_eq.trans ?_, rfl, rfl, Int.natCast_add _ _⟩
  rw [hr, scan, h]

end

-- Wherever the scanner stands, a comment or a string that is not closed and a character that begins no word are refused there,
-- and else the next piece is the longest word of any class that the text begins with.
theorem ofSource_takes_longest {file source : String} {s : Progress} (hs : Scans file (.opening source) s)
    {c : Char} {cs : List Char} (hr : s.rest = c :: cs) :
    source.toList.drop s.place.offset = c :: cs ∧
    (OpensComment (c :: cs) →
      Refuses file source "unterminated block comment" s.place.offset (s.place.offset + 2)) ∧
    (¬OpensComment (c :: cs) → OpensString (c :: cs) →
      Refuses file source "unterminated string literal" s.place.offset (s.place.offset + 1)) ∧
    (¬OpensComment (c :: cs) → ¬OpensString (c :: cs) → (∀ w piece, w <+: c :: cs → ¬InClass w piece) →
      Refuses file source ("invalid character " ++ Text.quoted (.singleton c)) s.place.offset (s.place.offset + 1)) ∧
    (¬OpensComment (c :: cs) → ¬OpensString (c :: cs) → (∃ w piece, w <+: c :: cs ∧ InClass w piece) →
      ∃ w piece, w <+: c :: cs ∧ InClass w piece ∧ (∀ piece', InClass w piece' → piece' = piece) ∧
        (∀ w' piece', w' <+: c :: cs → InClass w' piece' → w'.length ≤ w.length) ∧
        ∀ t, Turn file s t ↔ t = s.past file w piece) := by
  obtain ⟨text, ht, hp, -⟩ := hs.cut
  have ho : s.place.offset = text.length := by
    rw [hp, Position.afterAll_offset]
    exact Nat.zero_add _
  have hd : source.toList.drop s.place.offset = c :: cs := by
    rw [show source.toList = text ++ s.rest from ht, ho, List.drop_left, hr]
  refine ⟨hd, fun hc => refuses_of_first hs hr hc.first_eq, fun _ hq => refuses_of_first hs hr hq.first_eq,
    fun hc hq hn => ?invalid, fun hc hq hw => ?longest⟩
  case invalid =>
    cases hf : first c cs
    case ok found => exact absurd (inClass_of_first hf) (hn _ _ ⟨_, (cut c cs found.2).symm⟩)
    case error cause =>
      rcases first_error hf with ⟨-, h⟩ | ⟨-, h⟩ | ⟨rfl, -⟩
      case inl => exact absurd h hc
      case inr.inl => exact absurd h hq
      case inr.inr => exact refuses_of_first hs hr hf
  case longest =>
    cases hf : first c cs
    case ok found =>
      refine ⟨c :: cs.take found.2, found.1, ⟨_, (cut c cs found.2).symm⟩, inClass_of_first hf,
        fun _ h => h.unique (inClass_of_first hf), fun w' piece' hp' hw' => ?_, turn_iff hr hf⟩
      rw [List.length_cons, List.length_take_of_le (first_le hf)]
      exact length_le_of_first hf hw' hp'
    case error cause =>
      obtain ⟨w, piece, hp', hw'⟩ := hw
      rcases first_error hf with ⟨-, h⟩ | ⟨-, h⟩ | ⟨-, h⟩
      case inl => exact absurd h hc
      case inr.inl => exact absurd h hq
      case inr.inr => exact absurd hw' (h w piece hp')

-- The scanner in `a<=/*/` behind the name: the operator of two characters is next, and the comment behind it is not closed by
-- the star that opens it.
theorem ofSource_takes_longest_operator :
    ∃ s t, Scans "" (.opening "a<=/*/") s ∧ s.rest = ['<', '=', '/', '*', '/'] ∧
      (∃ w piece, w <+: ['<', '=', '/', '*', '/'] ∧ InClass w piece ∧ 2 ≤ w.length ∧ Turn "" s (s.past "" w piece) ∧
        ∀ w' piece', w' <+: ['<', '=', '/', '*', '/'] → InClass w' piece' → w'.length ≤ w.length) ∧
      Scans "" (.opening "a<=/*/") t ∧ t.rest = ['/', '*', '/'] ∧
      Refuses "" "a<=/*/" "unterminated block comment" 3 5 := by
  have hn : first 'a' ['<', '=', '/', '*', '/'] = .ok (.token .ident, 0) := by decide
  have ho : first '<' ['=', '/', '*', '/'] = .ok (.token .lessEqual, 1) := by decide
  have hs : Scans "" (.opening "a<=/*/") ⟨⟨1, 2, 1⟩, [⟨.ident, "a", ⟨"", 1, 1, 0, 1⟩⟩], ['<', '=', '/', '*', '/']⟩ :=
    .single (.token hn)
  have ht := hs.tail (.token ho)
  obtain ⟨-, -, -, -, hw⟩ := ofSource_takes_longest hs rfl
  have hc : InClass ['<', '='] (.token .lessEqual) := .operator (by decide)
  have hp : ['<', '='] <+: ['<', '=', '/', '*', '/'] := by decide
  obtain ⟨w, piece, hw, hk, -, hm, ht'⟩ := hw (by rintro ⟨_, h, -⟩; cases h) (by rintro ⟨h, -⟩; cases h) ⟨_, _, hp, hc⟩
  obtain ⟨-, hr, -⟩ := ofSource_takes_longest ht rfl
  exact ⟨_, _, hs, rfl, ⟨w, piece, hw, hk, hm _ _ hp hc, (ht' _).mpr rfl, hm⟩, ht, rfl, hr ⟨['/'], rfl, by decide⟩⟩

end Token
end ParenTree
