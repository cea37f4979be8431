import Mathlib.Data.List.Induction
import Mathlib.Logic.Relation
import ParenTree.Proofs.Source.Coverage

-- The scanner at work: what it has found when it stands between two pieces of a text, and that a text which is cut off there
-- has the same pieces.

namespace ParenTree

namespace Lexeme

section

variable {cs rest : List Char} {length : Nat}

theorem run_of_append {p : Char → Bool} (h : run p (cs ++ rest) ≤ cs.length) : run p cs = run p (cs ++ rest) := by
  simp only [run, List.takeWhile_append] at h ⊢
  split at h
  case isTrue hl =>
    rw [if_pos hl]
    simp only [List.length_append] at h ⊢
    omega
  case isFalse hl => rw [if_neg hl]

theorem number_of_append {k : Token.Kind} (h : number (cs ++ rest) = (.token k, length)) (hl : length ≤ cs.length) :
    number cs = (.token k, length) := by
  have hw : run isDigit (cs ++ rest) ≤ length := by
    simp only [number] at h
    split at h
    case h_1 =>
      split at h <;> cases h
      case isTrue => omega
      case isFalse => exact Nat.le_refl _
    case h_2 =>
      cases h
      exact Nat.le_refl _
  have hr := run_of_append (Nat.le_trans hw hl)
  simp only [number, hr] at h ⊢
  generalize run isDigit (cs ++ rest) = whole at h hw ⊢
  rw [List.drop_append_of_le_length (Nat.le_trans hw hl)] at h
  have hlen : (cs.drop whole).length + whole = cs.length := by
    rw [List.length_drop]
    omega
  -- A fraction of the longer text would reach beyond the end of a text that stops at the point or in front of it.
  generalize cs.drop whole = tail at h hlen ⊢
  rcases tail with _ | ⟨e, _ | ⟨d, ds⟩⟩
  case nil =>
    simp only [List.nil_append, List.length_nil] at h hlen
    split at h
    case h_1 =>
      split at h <;> cases h
      case isTrue => omega
      case isFalse => rfl
    case h_2 =>
      cases h
      rfl
  case cons.nil =>
    simp only [List.cons_append, List.nil_append, List.length_singleton] at h hlen
    split at h
    case h_1 =>
      split at h <;> cases h
      case isTrue => omega
      case isFalse => simp
    case h_2 =>
      cases h
      simp
  case cons.cons =>
    by_cases he : e = '.'
    case neg => simpa [he] using h
    case pos =>
      subst he
      simp only [List.cons_append, List.length_cons] at h hlen ⊢
      split at h <;> cases h
      case isFalse hd => rw [if_neg hd]
      case isTrue hd =>
        have hs : run isDigit (ds ++ rest) ≤ ds.length := by omega
        rw [if_pos hd, run_of_append hs]

theorem word_of_append {c : Char} {k : Token.Kind} (h : word c (cs ++ rest) = (.token k, length))
    (hl : length ≤ cs.length) : word c cs = (.token k, length) := by
  simp only [word] at h ⊢
  cases h
  rw [run_of_append hl, List.take_append_of_le_length hl]

theorem operator_of_append {c : Char} {piece : Piece} (h : operator c (cs ++ rest) = .ok (piece, length))
    (hl : length ≤ cs.length) : operator c cs = .ok (piece, length) := by
  cases cs
  case cons => exact h
  case nil =>
    simp only [operator, List.nil_append, List.head?_nil, Option.bind_none] at h ⊢
    split at h
    case h_1 =>
      cases h
      cases hl
    case h_2 hc =>
      cases h
      rw [hc]
    case h_3 => cases h

theorem commentEnd_of_append {seen : Nat} (h : commentEnd seen (cs ++ rest) = some length) (hl : length ≤ seen + cs.length) :
    commentEnd seen cs = some length := by
  fun_induction commentEnd seen cs
  case case1 =>
    obtain ⟨body, _, _, _, rfl⟩ := commentEnd_spells h
    simp only [List.length_nil] at hl
    omega
  case case2 => exact h
  case case3 seen c cs hp hi =>
    rw [List.cons_append, commentEnd] at h
    · exact hi h (by simp only [List.length_cons] at hl; omega)
    · -- A mark that the cut takes apart would end behind the cut.
      rintro ds rfl hc
      cases cs
      case nil =>
        simp only [hc, commentEnd, Option.some.injEq, List.length_singleton] at h hl
        omega
      case cons d cs =>
        cases hc
        exact hp cs rfl rfl

theorem stringEnd_of_append {seen : Nat} (h : stringEnd seen (cs ++ rest) = some length) (hl : length ≤ seen + cs.length) :
    stringEnd seen cs = some length := by
  fun_induction stringEnd seen cs
  case case1 =>
    obtain ⟨body, _, _, _, rfl⟩ := stringEnd_spells h
    simp only [List.length_nil] at hl
    omega
  case case2 => exact h
  case case3 hi => exact hi h (by simp only [List.length_cons] at hl; omega)
  case case4 seen c cs hq hp hi =>
    rw [List.cons_append, stringEnd] at h
    · exact hi h (by simp only [List.length_cons] at hl; omega)
    · exact hq
    · -- A pair that the cut takes apart would end behind the cut.
      rintro d ds rfl hc
      cases cs
      case nil =>
        simp only [hc, stringEnd, List.length_singleton] at h hl
        obtain ⟨body, _, _, _, rfl⟩ := stringEnd_spells h
        omega
      case cons => exact hp _ _ rfl rfl

theorem slash_of_append {piece : Piece} (h : slash (cs ++ rest) = .ok (piece, length)) (hl : length ≤ cs.length) :
    slash cs = .ok (piece, length) := by
  revert h
  fun_cases slash cs <;> intro h
  case case1 r =>
    simp only [List.cons_append, slash, Except.ok.injEq, Prod.mk.injEq] at h
    obtain ⟨rfl, rfl⟩ := h
    have hr : run (· ≠ '\n') (r ++ rest) ≤ r.length := by
      simp only [List.length_cons] at hl
      omega
    rw [run_of_append hr]
  case case2 r n he =>
    rw [List.cons_append, slash, commentEnd_append rest he] at h
    exact h
  case case3 r he =>
    rw [List.cons_append, slash] at h
    split at h <;> cases h
    case h_1 hs =>
      rw [commentEnd_of_append hs (by simp only [List.length_cons] at hl; omega)] at he
      cases he
  case case4 h₁ h₂ =>
    cases cs
    case cons c cs =>
      rw [slash.eq_3] at h
      · exact operator_of_append h hl
      · rintro r hr
        cases hr
        exact h₁ _ rfl
      · rintro r hr
        cases hr
        exact h₂ _ rfl
    case nil =>
      -- A comment has more than the slash.
      revert h
      rw [List.nil_append]
      fun_cases slash rest <;> intro h
      case case1 =>
        cases h
        simp only [List.length_nil] at hl
        omega
      case case2 hs =>
        cases h
        obtain ⟨body, _, _, _, rfl⟩ := commentEnd_spells hs
        simp only [List.length_nil] at hl
        omega
      case case3 => cases h
      case case4 =>
        rw [← List.nil_append rest] at h
        exact operator_of_append h hl

-- A piece of a text is found in every part of the text that holds all of it.
theorem first_of_append {c : Char} {piece : Piece} (h : first c (cs ++ rest) = .ok (piece, length))
    (hl : length ≤ cs.length) : first c cs = .ok (piece, length) := by
  revert h
  fun_cases first c (cs ++ rest) <;> intro h
  case case1 hc =>
    cases h
    rw [first, if_pos hc, run_of_append hl]
  case case2 hs hc =>
    rw [first, if_neg hs, if_pos hc]
    exact slash_of_append h hl
  case case3 hs hc hn =>
    rw [first, if_neg hs, if_neg hc, if_pos hn]
    exact h
  case case4 hs hc hn hd =>
    rw [first, if_neg hs, if_neg hc, if_neg hn, if_pos hd]
    obtain ⟨k, n, hk⟩ := number_isToken (cs ++ rest)
    rw [hk] at h
    cases h
    exact congrArg Except.ok (number_of_append hk hl)
  case case5 hs hc hn hd hw =>
    rw [first, if_neg hs, if_neg hc, if_neg hn, if_neg hd, if_pos hw]
    cases h
    exact congrArg Except.ok (word_of_append rfl hl)
  case case6 hs hc hn hd hw hq n he =>
    cases h
    rw [first, if_neg hs, if_neg hc, if_neg hn, if_neg hd, if_neg hw, if_pos hq, stringEnd_of_append he (by omega)]
  case case7 => cases h
  case case8 hs hc hn hd hw hq =>
    rw [first, if_neg hs, if_neg hc, if_neg hn, if_neg hd, if_neg hw, if_neg hq]
    exact operator_of_append h hl

end

end Lexeme

namespace Token

open Lexeme

-- The scanner between two pieces of a text: where it stands, the tokens that it has found, the latest first, and the text
-- that is left.
structure Progress where
  place : Position
  found : List Token
  rest : List Char

def Progress.opening (source : String) : Progress :=
  ⟨{}, [], source.toList⟩

-- One piece further.
inductive Turn (file : String) : Progress → Progress → Prop
  | layout {p found c cs length} :
    first c cs = .ok (.layout, length) →
    Turn file ⟨p, found, c :: cs⟩ ⟨p.afterAll (c :: cs.take length), found, cs.drop length⟩
  | token {p found c cs k length} :
    first c cs = .ok (.token k, length) →
    Turn file ⟨p, found, c :: cs⟩
      ⟨p.afterAll (c :: cs.take length),
        ⟨k, .ofList (c :: cs.take length), .between file p (p.afterAll (c :: cs.take length))⟩ :: found, cs.drop length⟩

def Scans (file : String) : Progress → Progress → Prop :=
  Relation.ReflTransGen (Turn file)

-- No piece can be found where the scanner stands.
def Progress.Stuck (file : String) (s : Progress) (fault : SourceFault) : Prop :=
  ∃ c cs cause, s.rest = c :: cs ∧ first c cs = .error cause ∧
    fault = .lexical (.between file s.place { s.place with offset := s.place.offset + cause.extent }) cause

section

variable {file : String} {s t : Progress}

theorem Turn.scan_eq (h : Turn file s t) : scan file s.place s.found s.rest = scan file t.place t.found t.rest := by
  cases h
  case layout hf => exact scan_layout hf
  case token hf => exact scan_token hf

theorem Scans.scan_eq (h : Scans file s t) : scan file s.place s.found s.rest = scan file t.place t.found t.rest := by
  induction h
  case refl => rfl
  case tail ht hi => exact hi.trans ht.scan_eq

theorem first_take {c : Char} {cs tail rest : List Char} {piece : Piece} {length : Nat}
    (h : first c cs = .ok (piece, length)) (hr : cs.drop length = tail ++ rest) :
    first c (cs.take length ++ tail) = .ok (piece, length) ∧ (cs.take length ++ tail).take length = cs.take length ∧
      (cs.take length ++ tail).drop length = tail := by
  have hl : (cs.take length).length = length := List.length_take_of_le (first_le h)
  have hf : first c (cs.take length ++ tail ++ rest) = .ok (piece, length) := by
    rwa [List.append_assoc, ← hr, List.take_append_drop]
  exact ⟨first_of_append hf (by rw [List.length_append]; omega), List.take_left' hl, List.drop_left' hl⟩

-- A turn takes a text from the front, and does not look at what stands behind it and will not be looked at.
theorem Turn.cut (h : Turn file s t) :
    ∃ text, s.rest = text ++ t.rest ∧ t.place = s.place.afterAll text ∧ ∀ tail rest, t.rest = tail ++ rest →
      Turn file ⟨s.place, s.found, text ++ tail⟩ ⟨t.place, t.found, tail⟩ := by
  cases h
  case layout p found c cs length hf =>
    refine ⟨c :: cs.take length, Lexeme.cut c cs length, rfl, fun tail rest hr => ?_⟩
    obtain ⟨hf', ht, hd⟩ := first_take hf hr
    have h : Turn file ⟨p, found, _⟩ _ := .layout hf'
    rwa [ht, hd] at h
  case token p found c cs k length hf =>
    refine ⟨c :: cs.take length, Lexeme.cut c cs length, rfl, fun tail rest hr => ?_⟩
    obtain ⟨hf', ht, hd⟩ := first_take hf hr
    have h : Turn file ⟨p, found, _⟩ _ := .token hf'
    rwa [ht, hd] at h

theorem Scans.cut (h : Scans file s t) :
    ∃ text, s.rest = text ++ t.rest ∧ t.place = s.place.afterAll text ∧ ∀ tail rest, t.rest = tail ++ rest →
      Scans file ⟨s.place, s.found, text ++ tail⟩ ⟨t.place, t.found, tail⟩ := by
  induction h using Relation.ReflTransGen.head_induction_on
  case refl => exact ⟨[], rfl, rfl, fun tail rest _ => .refl⟩
  case head hs _ hi =>
    obtain ⟨text, hr, hp, ht⟩ := hs.cut
    obtain ⟨text', hr', hp', ht'⟩ := hi
    refine ⟨text ++ text', by rw [hr, hr', List.append_assoc], by rw [hp', hp, Position.afterAll_append], ?_⟩
    intro tail rest hrest
    rw [List.append_assoc]
    refine .head (ht (text' ++ tail) rest ?_) (ht' tail rest hrest)
    rw [hr', hrest, List.append_assoc]

-- Cut off where the scanner stands, the text has the tokens that it has found.
theorem Scans.scan_cut (h : Scans file s t) :
    ∃ text, s.rest = text ++ t.rest ∧ t.place = s.place.afterAll text ∧
      scan file s.place s.found text = .ok (t.found.reverse ++ [⟨.endOfInput, "", .between file t.place t.place⟩]) := by
  obtain ⟨text, hr, hp, ht⟩ := h.cut
  refine ⟨text, hr, hp, ?_⟩
  have hs := (ht [] t.rest rfl).scan_eq
  rw [List.append_nil] at hs
  rw [hs, scan]

end

section

variable {file : String} {p : Position} {found ts : List Token} {cs : List Char}

theorem scan_stuck {fault : SourceFault} (h : scan file p found cs = .error fault) :
    ∃ s, Scans file ⟨p, found, cs⟩ s ∧ s.Stuck file fault := by
  fun_induction scan file p found cs
  case case1 => cases h
  case case2 c cs cause hf =>
    cases h
    exact ⟨_, .refl, c, cs, cause, rfl, hf, rfl⟩
  case case3 hf hi =>
    obtain ⟨s, hs, hk⟩ := hi h
    exact ⟨s, .head (.layout hf) hs, hk⟩
  case case4 hf hi =>
    obtain ⟨s, hs, hk⟩ := hi h
    exact ⟨s, .head (.token hf) hs, hk⟩

-- Layout is passed until the next token, and then the token.
theorem scan_next {t : Token} {post : List Token} (h : scan file p found cs = .ok (found.reverse ++ t :: post))
    (hp : post ≠ []) :
    ∃ s s', Scans file ⟨p, found, cs⟩ s ∧ s.found = found ∧ s.place.offset = t.span.start ∧ Turn file s s' ∧
      s'.found = t :: found ∧ s'.place.offset = t.span.stop := by
  fun_induction scan file p found cs
  case case1 =>
    rw [Except.ok.injEq, List.append_cancel_left_eq, List.cons.injEq] at h
    exact absurd h.right.symm hp
  case case2 => cases h
  case case3 hf hi =>
    obtain ⟨s, s', hs, hr⟩ := hi h
    exact ⟨s, s', .head (.layout hf) hs, hr⟩
  case case4 hf _ =>
    obtain ⟨us, hu, -⟩ := scan_cuts h
    rw [List.reverse_cons, List.append_assoc, List.append_cancel_left_eq, List.singleton_append, List.cons.injEq] at hu
    obtain ⟨rfl, -⟩ := hu
    exact ⟨_, _, .refl, rfl, rfl, .token hf, rfl, rfl⟩

-- The scanner stands right behind each of the tokens once.
theorem scan_reaches {w post : List Token} (h : scan file p found cs = .ok (found.reverse ++ (w ++ post))) (hp : post ≠ []) :
    ∃ s, Scans file ⟨p, found, cs⟩ s ∧ s.found = w.reverse ++ found ∧ ∀ t ∈ w.getLast?, s.place.offset = t.span.stop := by
  induction w using List.reverseRecOn generalizing post
  case nil => exact ⟨_, .refl, rfl, by simp⟩
  case append_singleton w t hi =>
    rw [List.append_assoc] at h
    obtain ⟨s, hs, hf, -⟩ := hi h (by simp)
    have hscan := hs.scan_eq.symm.trans h
    rw [← List.append_assoc, ← List.reverse_reverse w, ← List.reverse_append, ← hf] at hscan
    obtain ⟨s₁, s₂, hs₁, hf₁, -, ht, hf₂, ho⟩ := scan_next hscan hp
    refine ⟨s₂, (hs.trans hs₁).tail ht, ?_, ?_⟩
    case refine_1 => rw [hf₂, hf, List.reverse_concat, List.cons_append]
    case refine_2 => simpa using ho

end

end Token

end ParenTree
