import Mathlib.Data.List.TakeWhile
import ParenTree.Proofs.Source.Spelling

-- What the scanner makes of texts that are put together, and where it finds the words of a text.

namespace ParenTree

theorem Position.afterAll_line (p : Position) (cs : List Char) : (p.afterAll cs).line = p.line + cs.count '\n' := by
  induction cs generalizing p
  case nil => rfl
  case cons c cs hi =>
    rw [afterAll_cons, hi, List.count_cons, after]
    split
    case isTrue hc => simp [hc, Nat.add_comm, Nat.add_left_comm]
    case isFalse hc => simp [hc]

namespace Lexeme

theorem run_le (p : Char → Bool) (cs : List Char) : run p cs ≤ cs.length :=
  List.takeWhile_prefix p |>.length_le

theorem run_append {p : Char → Bool} {rest : List Char} (cs : List Char) (h : ∀ d ∈ rest.head?, p d = false) :
    run p (cs ++ rest) = run p cs := by
  have hr : rest.takeWhile p = [] := by
    cases rest
    case nil => rfl
    case cons d rest => exact List.takeWhile_cons_of_neg (by simpa using h)
  induction cs
  case nil => simp [run, hr]
  case cons c cs hi =>
    simp only [run, List.cons_append, List.takeWhile_cons] at hi ⊢
    split
    case isTrue => simp [hi]
    case isFalse => rfl

theorem run_eq_length {p : Char → Bool} {cs : List Char} (h : cs.all p) : run p cs = cs.length := by
  rw [run, List.takeWhile_eq_self_iff.mpr fun c hc => List.all_eq_true.mp h c hc]

theorem stringEnd_append {cs : List Char} {seen length : Nat} (rest : List Char) (h : stringEnd seen cs = some length) :
    stringEnd seen (cs ++ rest) = some length := by
  fun_induction stringEnd seen cs
  case case1 => cases h
  case case2 => exact h
  case case3 hi => exact hi h
  case case4 seen c cs hq hp hi =>
    rw [List.cons_append, stringEnd]
    · exact hi h
    · exact hq
    · intro d ds hc hd
      cases cs
      case nil => simp [stringEnd] at h
      case cons => exact hp _ _ hc rfl

theorem commentEnd_append {cs : List Char} {seen length : Nat} (rest : List Char) (h : commentEnd seen cs = some length) :
    commentEnd seen (cs ++ rest) = some length := by
  fun_induction commentEnd seen cs
  case case1 => cases h
  case case2 => exact h
  case case3 seen c cs hp hi =>
    rw [List.cons_append, commentEnd]
    · exact hi h
    · intro ds hc hd
      cases cs
      case nil => simp [commentEnd] at h
      case cons e es =>
        cases hd
        exact hp _ hc rfl

-- Whether a piece of source that ends in front of a character would end there anyway: a newline ends every piece, a space
-- ends every word.
def isSeam : Piece → Char → Bool
  | .layout, d => d = '\n'
  | .token _, d => d = '\n' || d = ' '

section

variable {piece : Piece} {rest : List Char}

theorem not_class_of_isSeam {p : Char → Bool} {k : Token.Kind} (hn : p '\n' = false) (hs : p ' ' = false)
    (h : ∀ d ∈ rest.head?, isSeam (.token k) d) : ∀ d ∈ rest.head?, p d = false := by
  intro d hd
  have hd := h d hd
  simp only [isSeam, Bool.or_eq_true, decide_eq_true_eq] at hd
  rcases hd with rfl | rfl <;> assumption

theorem number_isToken (cs : List Char) : ∃ k length, number cs = (.token k, length) := by
  simp only [number]
  split
  case h_1 => split <;> exact ⟨_, _, rfl⟩
  case h_2 => exact ⟨_, _, rfl⟩

theorem number_append {cs : List Char} {k : Token.Kind} {length : Nat} (hn : number cs = (.token k, length))
    (h : ∀ d ∈ rest.head?, isSeam (.token k) d) : number (cs ++ rest) = (.token k, length) := by
  have hd := not_class_of_isSeam (p := isDigit) (by decide) (by decide) h
  have hp := not_class_of_isSeam (p := (· = '.')) (by decide) (by decide) h
  rw [← hn]
  simp only [number, run_append cs hd]
  rw [List.drop_append_of_le_length (run_le isDigit cs)]
  -- A point right in front of the end does not begin a fraction, since no digit follows.
  rcases cs.drop (run isDigit cs) with _ | ⟨e, _ | ⟨d, ds⟩⟩
  case nil =>
    cases rest
    case nil => rfl
    case cons d rest =>
      have hd : d ≠ '.' := by simpa using hp
      simp [hd]
  case cons.nil =>
    by_cases he : e = '.'
    case pos =>
      subst he
      cases rest
      case nil => rfl
      case cons d rest => simp [hd d rfl]
    case neg => simp [he]
  case cons.cons =>
    by_cases he : e = '.'
    case pos =>
      subst he
      simp [run_append ds hd]
    case neg => simp [he]

theorem word_append {c : Char} {cs : List Char} {k : Token.Kind} {length : Nat} (hn : word c cs = (.token k, length))
    (h : ∀ d ∈ rest.head?, isSeam (.token k) d) : word c (cs ++ rest) = (.token k, length) := by
  have hd := not_class_of_isSeam (p := isNamePart) (by decide) (by decide) h
  rw [← hn]
  simp only [word, run_append cs hd]
  rw [List.take_append_of_le_length (run_le isNamePart cs)]

theorem ofPair_of_isSeam {c d : Char} {k : Token.Kind} (h : isSeam (.token k) d) : Token.Kind.ofPair c d = none := by
  cases hk : Token.Kind.ofPair c d
  case none => rfl
  case some =>
    unfold Token.Kind.ofPair at hk
    split at hk
    case h_8 => cases hk
    all_goals cases h

theorem operator_append {c : Char} {cs : List Char} {length : Nat} (hn : operator c cs = .ok (piece, length))
    (h : ∀ d ∈ rest.head?, isSeam piece d) : operator c (cs ++ rest) = .ok (piece, length) := by
  rcases cs with _ | ⟨e, cs⟩
  case cons => exact hn
  case nil =>
    cases rest
    case nil => exact hn
    case cons d rest =>
      simp only [operator, List.head?_nil, Option.bind_none, List.nil_append, List.head?_cons, Option.bind_some] at hn ⊢
      cases hc : Token.Kind.ofChar c
      case none =>
        rw [hc] at hn
        cases hn
      case some k =>
        rw [hc] at hn
        cases hn
        rw [ofPair_of_isSeam (h d rfl)]

theorem cons_of_append {cs r : List Char} {e : Char} (he : isSeam piece e = false) (h : ∀ d ∈ rest.head?, isSeam piece d)
    (hr : cs ++ rest = e :: r) : ∃ r', cs = e :: r' := by
  cases cs
  case nil =>
    have hs := h e (by rw [← List.nil_append rest, hr]; rfl)
    rw [he] at hs
    cases hs
  case cons d cs =>
    cases hr
    exact ⟨cs, rfl⟩

theorem slash_append {cs : List Char} {length : Nat} (hn : slash cs = .ok (piece, length))
    (h : ∀ d ∈ rest.head?, isSeam piece d) : slash (cs ++ rest) = .ok (piece, length) := by
  revert hn
  fun_cases slash cs <;> intro hn
  case case1 r =>
    cases hn
    have hr : ∀ d ∈ rest.head?, decide (d ≠ '\n') = false := fun d hd => by simpa [isSeam] using h d hd
    rw [List.cons_append, slash, run_append r hr]
  case case2 r n he =>
    cases hn
    rw [List.cons_append, slash, commentEnd_append rest he]
  case case3 => cases hn
  case case4 h₁ h₂ =>
    have hs (e : Char) (he : e = '/' ∨ e = '*') : isSeam piece e = false := by
      rcases he with rfl | rfl <;> cases piece <;> rfl
    rw [slash.eq_3]
    case x_1 =>
      intro r hr
      obtain ⟨r', rfl⟩ := cons_of_append (hs '/' (.inl rfl)) h hr
      exact h₁ r' rfl
    case x_2 =>
      intro r hr
      obtain ⟨r', rfl⟩ := cons_of_append (hs '*' (.inr rfl)) h hr
      exact h₂ r' rfl
    exact operator_append hn h

-- What stands at a seam behind a piece of source leaves it as it is.
theorem first_append {c : Char} {cs : List Char} {length : Nat} (hn : first c cs = .ok (piece, length))
    (h : ∀ d ∈ rest.head?, isSeam piece d) : first c (cs ++ rest) = .ok (piece, length) := by
  revert hn
  fun_cases first c cs <;> intro hn
  case case1 hc =>
    cases hn
    have hr : ∀ d ∈ rest.head?, isSpace d = false := by
      intro d hd
      have hd := h d hd
      simp only [isSeam, decide_eq_true_eq] at hd
      subst hd
      decide
    rw [first, if_pos hc, run_append cs hr]
  case case2 hs hc =>
    rw [first, if_neg hs, if_pos hc]
    exact slash_append hn h
  case case3 hs hc hl =>
    rw [first, if_neg hs, if_neg hc, if_pos hl]
    exact hn
  case case4 hs hc hl hd =>
    rw [first, if_neg hs, if_neg hc, if_neg hl, if_pos hd]
    obtain ⟨k, n, hk⟩ := number_isToken cs
    rw [hk] at hn
    cases hn
    exact congrArg Except.ok (number_append hk h)
  case case5 hs hc hl hd hw =>
    rw [first, if_neg hs, if_neg hc, if_neg hl, if_neg hd, if_pos hw]
    cases hn
    exact congrArg Except.ok (word_append rfl h)
  case case6 hs hc hl hd hw hq length hlen =>
    rw [first, if_neg hs, if_neg hc, if_neg hl, if_neg hd, if_neg hw, if_pos hq, stringEnd_append rest hlen]
    exact hn
  case case7 => cases hn
  case case8 hs hc hl hd hw hq =>
    rw [first, if_neg hs, if_neg hc, if_neg hl, if_neg hd, if_neg hw, if_neg hq]
    exact operator_append hn h

end

section

variable {c : Char} {cs : List Char}

theorem not_layout_of_class {p : Char → Bool} (h : p c) (hp : [' ', '\t', '\r', '/', '\n'].any p = false) :
    isSpace c = false ∧ c ≠ '/' ∧ c ≠ '\n' := by
  have ne (d : Char) (hd : d ∈ [' ', '\t', '\r', '/', '\n']) : c ≠ d := by
    rintro rfl
    exact List.any_eq_false.mp hp c hd h
  refine ⟨?_, ne _ (by decide), ne _ (by decide)⟩
  simp [isSpace, ne ' ' (by decide), ne '\t' (by decide), ne '\r' (by decide)]

theorem first_of_isName (h : isName (c :: cs)) :
    first c cs = .ok (.token (.ofWord (.ofList (c :: cs))), cs.length) := by
  simp only [isName, Bool.and_eq_true] at h
  obtain ⟨hn, hp⟩ := h
  obtain ⟨hs, hc, hl⟩ := not_layout_of_class hn (by decide)
  simp [first, hs, hc, hl, not_isDigit_of_isNameStart hn, hn, word, run_eq_length hp]

theorem isDigits_cons : isDigits (c :: cs) ↔ isDigit c ∧ cs.all isDigit := by
  simp [isDigits]

theorem first_of_isDigit (h : isDigit c) : first c cs = .ok (number cs) := by
  obtain ⟨hs, hc, hl⟩ := not_layout_of_class h (by decide)
  simp [first, hs, hc, hl, h]

theorem number_of_isDigit (h : cs.all isDigit) : number cs = (.token .int, cs.length) := by
  simp [number, run_eq_length h]

theorem number_of_fraction {whole fraction : List Char} (hw : whole.all isDigit) (hf : isDigits fraction) :
    number (whole ++ '.' :: fraction) = (.token .float, (whole ++ '.' :: fraction).length) := by
  have hr : run isDigit (whole ++ '.' :: fraction) = whole.length := by
    rw [run_append whole (by simp [isDigit]), run_eq_length hw]
  cases fraction
  case nil => cases hf
  case cons d ds =>
    obtain ⟨hd, hds⟩ := isDigits_cons.mp hf
    simp only [number, hr, List.drop_left, hd, if_true, run_eq_length hds, List.length_append, List.length_cons,
      Prod.mk.injEq, true_and]
    omega

theorem stringEnd_of_isStringBody {body : List Char} (h : isStringBody body) (seen : Nat) (rest : List Char) :
    stringEnd seen (body ++ '"' :: rest) = some (seen + body.length + 1) := by
  revert seen
  refine isStringBody_induct ?nil ?pair ?plain h
  case nil => exact fun _ => rfl
  case pair =>
    intro c cs hi seen
    simp only [List.cons_append, stringEnd, hi, List.length_cons]
    congr 1
    omega
  case plain =>
    intro c cs hc hq hi seen
    rw [List.cons_append, stringEnd]
    · simp only [hi, List.length_cons]
      congr 1
      omega
    · exact hq
    · exact fun _ _ he _ => hc he

-- A word that stands alone is found as what it is.
theorem first_of_spells {k : Token.Kind} (h : k.Spells (c :: cs)) : first c cs = .ok (.token k, cs.length) := by
  cases k
  case endOfInput => exact absurd rfl (Token.Kind.ne_endOfInput_of_spells h)
  case ident =>
    obtain ⟨hn, hw⟩ := h
    rw [first_of_isName hn, hw]
  case int =>
    obtain ⟨hd, hds⟩ := isDigits_cons.mp h
    rw [first_of_isDigit hd, number_of_isDigit hds]
  case float =>
    obtain ⟨_ | ⟨d, whole⟩, fraction, he, hw, hf⟩ := h
    case nil => cases hw
    case cons =>
      rw [List.cons_append] at he
      cases he
      obtain ⟨hd, hds⟩ := isDigits_cons.mp hw
      rw [first_of_isDigit hd, number_of_fraction hds hf]
  case string =>
    obtain ⟨body, he, hb⟩ := h
    cases he
    have hs := stringEnd_of_isStringBody hb 0 []
    simp [first, isSpace, isDigit, isNameStart, hs]
  all_goals
    have he : c :: cs = _ := String.toList_ofList.symm.trans (congrArg String.toList (Option.some.inj h)).symm
    cases he
    rfl

end

theorem cut (c : Char) (cs : List Char) (length : Nat) : c :: cs = c :: cs.take length ++ cs.drop length := by
  rw [List.cons_append, List.take_append_drop]

theorem operator_le {c : Char} {cs : List Char} {piece : Piece} {length : Nat} (h : operator c cs = .ok (piece, length)) :
    length ≤ cs.length := by
  simp only [operator] at h
  split at h
  case h_1 hp =>
    cases h
    cases cs
    case nil => cases hp
    case cons => simp
  case h_2 =>
    cases h
    exact Nat.zero_le _
  case h_3 => cases h

theorem number_le (cs : List Char) : (number cs).2 ≤ cs.length := by
  have hr := run_le isDigit cs
  simp only [number]
  split
  case h_1 d ds hd =>
    split
    case isTrue =>
      have hl := congrArg List.length hd
      have hs := run_le isDigit ds
      simp only [List.length_drop, List.length_cons] at hl
      omega
    case isFalse => exact hr
  case h_2 => exact hr

theorem commentEnd_le {cs : List Char} {seen length : Nat} (h : commentEnd seen cs = some length) :
    length ≤ seen + cs.length := by
  fun_induction commentEnd seen cs
  case case1 => cases h
  case case2 =>
    cases h
    simp only [List.length_cons]
    omega
  case case3 hi =>
    have hl := hi h
    simp only [List.length_cons]
    omega

theorem slash_le {cs : List Char} {piece : Piece} {length : Nat} (h : slash cs = .ok (piece, length)) :
    length ≤ cs.length := by
  revert h
  fun_cases slash cs <;> intro h
  case case1 r =>
    cases h
    have hr := run_le (· ≠ '\n') r
    simp only [List.length_cons]
    omega
  case case2 r n he =>
    cases h
    have hr := commentEnd_le he
    simp only [List.length_cons]
    omega
  case case3 => cases h
  case case4 => exact operator_le h

-- A piece does not reach beyond the text.
theorem first_le {c : Char} {cs : List Char} {piece : Piece} {length : Nat} (h : first c cs = .ok (piece, length)) :
    length ≤ cs.length := by
  revert h
  fun_cases first c cs <;> intro h
  case case1 =>
    cases h
    exact run_le isSpace cs
  case case2 => exact slash_le h
  case case3 =>
    cases h
    exact Nat.zero_le _
  case case4 =>
    have hn := number_le cs
    rwa [Except.ok.inj h] at hn
  case case5 =>
    cases h
    exact run_le isNamePart cs
  case case6 hs =>
    cases h
    obtain ⟨body, rest, hb, -, hl⟩ := stringEnd_spells hs
    simp [hb, hl]
  case case7 => cases h
  case case8 => exact operator_le h

end Lexeme

namespace Token

section

variable {file : String} {p : Position} {found : List Token} {c : Char} {cs : List Char} {length : Nat}

theorem scan_layout (h : Lexeme.first c cs = .ok (.layout, length)) :
    scan file p found (c :: cs) = scan file (p.afterAll (c :: cs.take length)) found (cs.drop length) := by
  rw [scan, h]

theorem scan_token {k : Kind} (h : Lexeme.first c cs = .ok (.token k, length)) :
    scan file p found (c :: cs) =
      scan file (p.afterAll (c :: cs.take length))
        (⟨k, .ofList (c :: cs.take length), .between file p (p.afterAll (c :: cs.take length))⟩ :: found)
        (cs.drop length) := by
  rw [scan, h]

theorem scan_layout_append {rest : List Char} (h : Lexeme.first c cs = .ok (.layout, length))
    (hr : ∀ d ∈ rest.head?, Lexeme.isSeam .layout d) :
    scan file p found (c :: cs ++ rest) =
      scan file (p.afterAll (c :: cs.take length)) found (cs.drop length ++ rest) := by
  rw [List.cons_append, scan_layout (Lexeme.first_append h hr), List.take_append_of_le_length (Lexeme.first_le h),
    List.drop_append_of_le_length (Lexeme.first_le h)]

theorem scan_token_append {rest : List Char} {k : Kind} (h : Lexeme.first c cs = .ok (.token k, length))
    (hr : ∀ d ∈ rest.head?, Lexeme.isSeam (.token k) d) :
    scan file p found (c :: cs ++ rest) =
      scan file (p.afterAll (c :: cs.take length))
        (⟨k, .ofList (c :: cs.take length), .between file p (p.afterAll (c :: cs.take length))⟩ :: found)
        (cs.drop length ++ rest) := by
  rw [List.cons_append, scan_token (Lexeme.first_append h hr), List.take_append_of_le_length (Lexeme.first_le h),
    List.drop_append_of_le_length (Lexeme.first_le h)]

-- The tokens found before do not matter to what is found behind them.
theorem scan_append_found (before : List Token) :
    scan file p (found ++ before) cs = (scan file p found cs).map (before.reverse ++ ·) := by
  fun_induction scan file p found cs
  case case1 => simp [scan, Except.map]
  case case2 hf => simp [scan, hf, Except.map]
  case case3 hf hi => rw [scan_layout hf, hi]
  case case4 hf hi => rw [scan_token hf, ← hi, List.cons_append]

-- A newline behind a text that scans begins a new piece, whatever the last piece of the text is.
theorem scan_newline {ts : List Token} (h : scan file p found cs = .ok ts) :
    ∃ w, ts = w ++ [⟨.endOfInput, "", .between file (p.afterAll cs) (p.afterAll cs)⟩] ∧
      ∀ rest, scan file p found (cs ++ '\n' :: rest) = scan file (p.afterAll cs) w.reverse ('\n' :: rest) := by
  fun_induction scan file p found cs
  case case1 p found =>
    cases h
    exact ⟨found.reverse, rfl, fun rest => by simp⟩
  case case2 => cases h
  case case3 p found c cs length _ _ hf hi =>
    obtain ⟨w, hw, hr⟩ := hi h
    rw [Lexeme.cut c cs length, Position.afterAll_append]
    refine ⟨w, hw, fun rest => ?_⟩
    rw [← Lexeme.cut, scan_layout_append hf (by simp [Lexeme.isSeam])]
    exact hr rest
  case case4 p found c cs length _ _ _ hf hi =>
    obtain ⟨w, hw, hr⟩ := hi h
    rw [Lexeme.cut c cs length, Position.afterAll_append]
    refine ⟨w, hw, fun rest => ?_⟩
    rw [← Lexeme.cut, scan_token_append hf (by simp [Lexeme.isSeam])]
    exact hr rest

-- No word begins behind some of the pieces of a text at fault.
theorem scan_error {fault : SourceFault} (h : scan file p found cs = .error fault) :
    ∃ before c rest cause, cs = before ++ c :: rest ∧ Lexeme.first c rest = .error cause ∧
      fault = .lexical (.between file (p.afterAll before)
        { p.afterAll before with offset := (p.afterAll before).offset + cause.extent }) cause := by
  fun_induction scan file p found cs
  case case1 => cases h
  case case2 c cs cause hf =>
    cases h
    exact ⟨[], c, cs, cause, rfl, hf, rfl⟩
  case case3 c cs length _ _ _ hi | case4 c cs length _ _ _ _ hi =>
    obtain ⟨before, d, rest, cause, hc, hd, rfl⟩ := hi h
    refine ⟨c :: cs.take length ++ before, d, rest, cause, ?_, hd, by rw [Position.afterAll_append]⟩
    rw [List.append_assoc, ← hc, Lexeme.cut c cs length]

end

-- A token is a part of a text that begins at a place, and its span says which.
def Stands (file : String) (p : Position) (cs : List Char) (t : Token) : Prop :=
  ∃ before after, cs = before ++ (t.lexeme.toList ++ after) ∧
    t.span = .between file (p.afterAll before) (p.afterAll (before ++ t.lexeme.toList))

theorem Stands.behind {file : String} {p : Position} {text cs : List Char} {t : Token}
    (h : t.Stands file (p.afterAll text) cs) : t.Stands file p (text ++ cs) := by
  obtain ⟨before, after, hc, hs⟩ := h
  refine ⟨text ++ before, after, by rw [hc, List.append_assoc], ?_⟩
  rw [hs, List.append_assoc, ← Position.afterAll_append, ← Position.afterAll_append]

theorem scan_stands {file : String} {p : Position} {found ts : List Token} {cs : List Char}
    (h : scan file p found cs = .ok ts) : ∀ t ∈ ts, t ∈ found ∨ t.Stands file p cs := by
  fun_induction scan file p found cs
  case case1 p found =>
    cases h
    intro t ht
    rcases List.mem_append.mp ht with ht | ht
    case inl => exact .inl (List.mem_reverse.mp ht)
    case inr =>
      rw [List.mem_singleton.mp ht]
      exact .inr ⟨[], [], rfl, rfl⟩
  case case2 => cases h
  case case3 c cs length _ _ _ hi =>
    intro t ht
    rw [Lexeme.cut c cs length]
    exact (hi h t ht).imp_right Stands.behind
  case case4 c cs length k _ _ _ hi =>
    intro t ht
    rw [Lexeme.cut c cs length]
    rcases hi h t ht with ht | ht
    case inr => exact .inr ht.behind
    case inl =>
      cases ht
      case tail ht => exact .inl ht
      case head =>
        refine .inr ⟨[], cs.drop length, ?_, ?_⟩ <;> simp only [String.toList_ofList, List.nil_append] <;> rfl

end Token

end ParenTree
