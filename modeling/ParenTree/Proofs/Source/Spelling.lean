import ParenTree.Source.Lexer

-- How the tokens of each kind are spelled, and that the tokens of a source text are spelled so.

namespace ParenTree

namespace Lexeme

section

variable {c : Char}

theorem isDigit_iff : isDigit c ↔ 48 ≤ c.toNat ∧ c.toNat ≤ 57 := by
  simp only [isDigit, Bool.and_eq_true, decide_eq_true_eq, Char.le_def, UInt32.le_iff_toNat_le]
  rfl

theorem isNameStart_iff :
    isNameStart c ↔ 65 ≤ c.toNat ∧ c.toNat ≤ 90 ∨ c.toNat = 95 ∨ 97 ≤ c.toNat ∧ c.toNat ≤ 122 := by
  have hu : c = '_' ↔ c.toNat = 95 := ⟨by rintro rfl; rfl, fun h => Char.toNat_inj.mp h⟩
  simp only [isNameStart, Bool.or_eq_true, Bool.and_eq_true, decide_eq_true_eq, Char.le_def, UInt32.le_iff_toNat_le, hu]
  show (97 ≤ c.toNat ∧ c.toNat ≤ 122 ∨ 65 ≤ c.toNat ∧ c.toNat ≤ 90) ∨ c.toNat = 95 ↔ _
  omega

theorem not_isDigit_of_isNameStart (h : isNameStart c) : isDigit c = false := by
  rw [isNameStart_iff] at h
  rw [Bool.eq_false_iff, ne_eq, isDigit_iff]
  omega

end

def isName : List Char → Bool
  | [] => false
  | c :: cs => isNameStart c && cs.all isNamePart

def isDigits (cs : List Char) : Bool :=
  !cs.isEmpty && cs.all isDigit

-- Pairs of a backslash and any character, and characters other than a double quote and a backslash.
def isStringBody : List Char → Bool
  | [] => true
  | '\\' :: _ :: cs => isStringBody cs
  | c :: cs => c ≠ '\\' && c ≠ '"' && isStringBody cs

end Lexeme

namespace Token.Kind

open Lexeme

-- The spelling of a kind that has only one.
def spelling? : Kind → Option String
  | endOfInput => some ""
  | newline => some "\n"
  | kwFn => some "fn"
  | kwLet => some "let"
  | kwReturn => some "return"
  | kwIf => some "if"
  | kwElse => some "else"
  | kwTrue => some "true"
  | kwFalse => some "false"
  | kwNop => some "nop"
  | plus => some "+"
  | minus => some "-"
  | star => some "*"
  | slash => some "/"
  | percent => some "%"
  | assign => some "="
  | equal => some "=="
  | notEqual => some "!="
  | less => some "<"
  | lessEqual => some "<="
  | greater => some ">"
  | greaterEqual => some ">="
  | and => some "&&"
  | or => some "||"
  | bang => some "!"
  | define => some ":="
  | openParen => some "("
  | closeParen => some ")"
  | openBrace => some "\x7b"
  | closeBrace => some "\x7d"
  | openBracket => some "["
  | closeBracket => some "]"
  | comma => some ","
  | semicolon => some ";"
  | ident | int | float | string => none

def Spells (k : Kind) (cs : List Char) : Prop :=
  match k with
  | ident => isName cs ∧ ofWord (.ofList cs) = ident
  | int => isDigits cs
  | float => ∃ whole fraction, cs = whole ++ '.' :: fraction ∧ isDigits whole ∧ isDigits fraction
  | string => ∃ body, cs = '"' :: body ++ ['"'] ∧ isStringBody body
  | k => k.spelling? = some (.ofList cs)

theorem spells_of_ofPair {c d : Char} {k : Kind} (h : ofPair c d = some k) : k.Spells [c, d] := by
  unfold ofPair at h
  split at h <;> cases h <;> rfl

theorem spells_of_ofChar {c : Char} {k : Kind} (h : ofChar c = some k) : k.Spells [c] := by
  unfold ofChar at h
  split at h <;> cases h <;> rfl

theorem ne_endOfInput_of_spells {k : Kind} {c : Char} {cs : List Char} (h : k.Spells (c :: cs)) : k ≠ endOfInput := by
  rintro rfl
  have hc := congrArg String.toList (Option.some.inj h)
  simp at hc

theorem spelling?_of_keyword {w : String} {k : Kind} (h : keywords.lookup w = some k) : k.spelling? = some w := by
  obtain ⟨before, after, he, _⟩ := List.lookup_eq_some_iff.mp h
  have hm : (w, k) ∈ keywords := by simp [he]
  have hs : ∀ entry ∈ keywords, entry.2.spelling? = some entry.1 := by decide
  exact hs _ hm

theorem spells_of_spelling? {k : Kind} {cs : List Char} (h : k.spelling? = some (.ofList cs)) : k.Spells cs := by
  cases k
  case ident | int | float | string => cases h
  all_goals exact h

theorem spells_ofWord {cs : List Char} (h : isName cs) : (ofWord (.ofList cs)).Spells cs := by
  cases hk : keywords.lookup (.ofList cs)
  case none =>
    have hi : ofWord (.ofList cs) = ident := by rw [ofWord, hk]; rfl
    rw [hi]
    exact ⟨h, hi⟩
  case some k =>
    have hi : ofWord (.ofList cs) = k := by rw [ofWord, hk]; rfl
    rw [hi]
    exact spells_of_spelling? (spelling?_of_keyword hk)

end Token.Kind

namespace Lexeme

open Token.Kind

theorem take_run (p : Char → Bool) (cs : List Char) : cs.take (run p cs) = cs.takeWhile p :=
  (List.prefix_iff_eq_take.mp (List.takeWhile_prefix p)).symm

theorem isDigits_takeWhile {c : Char} (h : isDigit c) (cs : List Char) : isDigits (c :: cs.takeWhile isDigit) := by
  simp [isDigits, h]

theorem number_spells {c : Char} (h : isDigit c) {cs : List Char} {k : Token.Kind} {length : Nat}
    (hn : number cs = (.token k, length)) : k.Spells (c :: cs.take length) := by
  have whole : Token.Kind.int.Spells (c :: cs.take (run isDigit cs)) := by
    rw [take_run]
    exact isDigits_takeWhile h cs
  simp only [number] at hn
  split at hn
  case h_1 d ds hd =>
    split at hn
    case isFalse =>
      cases hn
      exact whole
    case isTrue hd' =>
      cases hn
      refine ⟨c :: cs.takeWhile isDigit, d :: ds.takeWhile isDigit, ?_, isDigits_takeWhile h cs, isDigits_takeWhile hd' ds⟩
      rw [Nat.add_assoc, List.take_add, hd, take_run, Nat.add_comm 2, List.take_succ_cons, List.take_succ_cons, take_run]
      rfl
  case h_2 =>
    cases hn
    exact whole

theorem word_spells {c : Char} (h : isNameStart c) {cs : List Char} {k : Token.Kind} {length : Nat}
    (hn : word c cs = (.token k, length)) : k.Spells (c :: cs.take length) := by
  simp only [word] at hn
  cases hn
  refine spells_ofWord ?_
  simp [isName, take_run, h]

theorem operator_spells {c : Char} {cs : List Char} {k : Token.Kind} {length : Nat}
    (hn : operator c cs = .ok (.token k, length)) : k.Spells (c :: cs.take length) := by
  simp only [operator] at hn
  split at hn
  case h_1 hp =>
    cases hn
    cases cs
    case nil => cases hp
    case cons d cs => exact spells_of_ofPair hp
  case h_2 hc =>
    cases hn
    exact spells_of_ofChar hc
  case h_3 => cases hn

theorem isStringBody_cons {c : Char} (h : c ≠ '\\') (cs : List Char) :
    isStringBody (c :: cs) = (c ≠ '"' && isStringBody cs) := by
  rw [isStringBody]
  · simp [h]
  · intro _ _ he
    exact absurd he h

-- What is between the quotes of a string: pairs that a backslash begins, and other characters.
@[elab_as_elim]
theorem isStringBody_induct {motive : List Char → Prop} {cs : List Char} (nil : motive [])
    (pair : ∀ c cs, motive cs → motive ('\\' :: c :: cs))
    (plain : ∀ c cs, c ≠ '\\' → c ≠ '"' → motive cs → motive (c :: cs)) (h : isStringBody cs) : motive cs := by
  fun_induction isStringBody cs
  case case1 => exact nil
  case case2 c cs hi => exact pair c cs (hi h)
  case case3 c cs _ hi =>
    simp only [Bool.and_eq_true, decide_eq_true_eq] at h
    exact plain c cs h.left.left h.left.right (hi h.right)

theorem stringEnd_spells {cs : List Char} {seen length : Nat} (h : stringEnd seen cs = some length) :
    ∃ body rest, cs = body ++ '"' :: rest ∧ isStringBody body ∧ length = seen + body.length + 1 := by
  fun_induction stringEnd seen cs
  case case1 => cases h
  case case2 =>
    cases h
    exact ⟨[], _, rfl, rfl, rfl⟩
  case case3 seen c cs hi =>
    obtain ⟨body, rest, hc, hb, hl⟩ := hi h
    exact ⟨'\\' :: c :: body, rest, by rw [hc]; rfl, hb, by simp only [List.length_cons]; omega⟩
  case case4 seen c cs hq hp hi =>
    obtain ⟨body, rest, hc, hb, hl⟩ := hi h
    refine ⟨c :: body, rest, by rw [hc]; rfl, ?_, by simp only [List.length_cons]; omega⟩
    have hs : c ≠ '\\' := by
      intro he
      cases cs
      case nil => cases body <;> cases hc
      case cons d cs => exact hp d cs he rfl
    simpa [isStringBody_cons hs, hb] using hq

theorem slash_spells {cs : List Char} {k : Token.Kind} {length : Nat} (h : slash cs = .ok (.token k, length)) :
    k.Spells ('/' :: cs.take length) := by
  simp only [slash] at h
  split at h
  case h_1 => cases h
  case h_2 => split at h <;> cases h
  case h_3 => exact operator_spells h

theorem first_spells {c : Char} {cs : List Char} {k : Token.Kind} {length : Nat}
    (h : first c cs = .ok (.token k, length)) : k.Spells (c :: cs.take length) := by
  revert h
  fun_cases first c cs <;> intro h
  case case1 => cases h
  case case2 hc =>
    rw [hc]
    exact slash_spells h
  case case3 hc =>
    cases h
    rw [hc]
    rfl
  case case4 hd => exact number_spells hd (Except.ok.inj h)
  case case5 hn => exact word_spells hn (Except.ok.inj h)
  case case6 hc _ hs =>
    cases h
    obtain ⟨body, rest, hb, hs, hl⟩ := stringEnd_spells hs
    refine ⟨body, ?_, hs⟩
    rw [hc, hb, hl, show body ++ '"' :: rest = (body ++ ['"']) ++ rest by simp, List.take_left' (by simp), List.cons_append]
  case case7 => cases h
  case case8 => exact operator_spells h

end Lexeme

namespace Token

-- All tokens but the last are words of the text.
theorem scan_spells {file : String} {p : Position} {found ts : List Token} {cs : List Char}
    (h : scan file p found cs = .ok ts) (hf : ∀ t ∈ found, t.kind ≠ .endOfInput ∧ t.kind.Spells t.lexeme.toList) :
    ∃ w eof, ts = w ++ [eof] ∧ eof.kind = .endOfInput ∧ ∀ t ∈ w, t.kind ≠ .endOfInput ∧ t.kind.Spells t.lexeme.toList := by
  fun_induction scan file p found cs
  case case1 =>
    cases h
    exact ⟨_, _, rfl, rfl, fun t ht => hf t (List.mem_reverse.mp ht)⟩
  case case2 => cases h
  case case3 hi => exact hi h hf
  case case4 hk hi =>
    refine hi h fun t ht => ?_
    cases ht
    case tail ht => exact hf t ht
    case head =>
      rw [String.toList_ofList]
      have hs := Lexeme.first_spells hk
      exact ⟨Kind.ne_endOfInput_of_spells hs, hs⟩

theorem ofSource_spells {file source : String} {ts : List Token} (h : ofSource file source = .ok ts) :
    ∃ w eof, ts = w ++ [eof] ∧ eof.kind = .endOfInput ∧ ∀ t ∈ w, t.kind ≠ .endOfInput ∧ t.kind.Spells t.lexeme.toList := by
  rw [ofSource] at h
  exact scan_spells h (List.forall_mem_nil _)

end Token

end ParenTree
