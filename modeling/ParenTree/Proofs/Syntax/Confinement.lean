import ParenTree.Proofs.Syntax.Recognition

-- The parser stays inside its tokens, whatever they are: it moves past no end of input and never looks behind the first one,
-- and without one it never comes to a program.

namespace ParenTree

namespace Parser

theorem exists_ends {ts : List Token} (h : ∃ t ∈ ts, t.kind = .endOfInput) :
    ∃ eof post, eof.kind = .endOfInput ∧ Ends eof post ts := by
  induction ts
  case nil =>
    obtain ⟨t, ht, -⟩ := h
    cases ht
  case cons t ts hi =>
    by_cases ht : t.kind = .endOfInput
    case pos => exact ⟨t, ts, ht, [], rfl, List.forall_mem_nil _⟩
    case neg =>
      have hts : ∃ u ∈ ts, u.kind = .endOfInput := by simpa [ht] using h
      obtain ⟨eof, post, heof, pre, rfl, hpre⟩ := hi hts
      exact ⟨eof, post, heof, t :: pre, rfl, List.forall_mem_cons.mpr ⟨ht, hpre⟩⟩

-- What stands behind the end of input can be exchanged: the same moves lead to the same end in front of the new tokens.
theorem Runs.exchange {α : Type} {r : Routine α} {pre post : List Token} {eof : Token} {out : Outcome α}
    (h : Runs r (pre ++ eof :: post) out) (he : Ends eof post out.rest) :
    ∃ w pre', pre = w ++ pre' ∧ out.rest = pre' ++ eof :: post ∧
      ∀ post', Runs r (pre ++ eof :: post') (out.onto (pre' ++ eof :: post')) := by
  obtain ⟨w, hw, hr⟩ := h.local
  obtain ⟨pre', hrest, -⟩ := he
  rw [hrest, ← List.append_assoc] at hw
  obtain rfl := List.append_cancel_right hw
  refine ⟨w, pre', rfl, hrest, fun post' => ?_⟩
  rw [List.append_assoc]
  refine hr _ ?_
  rw [hrest]
  exact head?_append_congr pre' rfl

end Parser

namespace Program

open ParenTree.Parser Grammar

-- A parser that is at an end of input when it returns is at the first one.
theorem rest_of_value {eof : Token} {pre post ts : List Token} {body : List Node}
    (hr : Runs (Procedure.statements .endOfInput).routine ts (.value body (pre ++ eof :: post)))
    (hpre : ∀ t ∈ pre, t.kind ≠ .endOfInput) : pre = [] := by
  obtain ⟨t, rest, ht, hk⟩ := Procedure.closer_of_read_statements (Procedure.read_of_runs hr)
  cases pre
  case nil => rfl
  case cons u pre =>
    cases ht
    exact absurd hk (hpre _ List.mem_cons_self)

theorem mem_endOfInput_of_ofTokens {ts : List Token} {p : Program} (h : ofTokens ts = .ok p) :
    ∃ t ∈ ts, t.kind = .endOfInput := by
  rw [ofTokens_eq] at h
  obtain ⟨⟨body, rest⟩, hr, -⟩ := bind_eq_ok.mp h
  obtain ⟨t, rest', rfl, ht⟩ := Procedure.closer_of_read_statements hr
  obtain ⟨w, rfl, -⟩ := Procedure.sound _ _ _ _ hr
  exact ⟨t, by simp, ht⟩

-- The parser stops at the first end of input or in front of it, with a program or with a complaint, and the tokens behind the
-- first end of input do not matter. Where it has stopped, it has moved past the tokens `w`.
theorem ofTokens_stays_inside (ts : List Token) :
    ((∃ t ∈ ts, t.kind = .endOfInput) →
      ∃ pre eof post out, ts = pre ++ eof :: post ∧ eof.kind = .endOfInput ∧ (∀ t ∈ pre, t.kind ≠ .endOfInput) ∧
        Runs (Procedure.statements .endOfInput).routine ts out ∧
        (∃ w pre', pre = w ++ pre' ∧ out.rest = pre' ++ eof :: post) ∧
        ((∃ p, ofTokens ts = .ok p ∧ out = .value p.body (eof :: post)) ∨
          ∃ span cause, ofTokens ts = .error (.fault (.syntactic span cause)) ∧ out = .raised span cause out.rest) ∧
        ∀ post', ofTokens (pre ++ eof :: post') = ofTokens ts) ∧
    ((∀ t ∈ ts, t.kind ≠ .endOfInput) → ∃ failure, ofTokens ts = .error failure) := by
  constructor
  case left =>
    intro h
    obtain ⟨eof, post, heof, he⟩ := exists_ends h
    obtain ⟨out, hr, ho⟩ := exists_runs_ends heof he
    obtain ⟨pre, rfl, hpre⟩ := he
    obtain ⟨w, pre', rfl, hrest, hx⟩ := hr.exchange ho
    have hpre' : ∀ t ∈ pre', t.kind ≠ .endOfInput := fun t ht => hpre t (List.mem_append_right w ht)
    refine ⟨w ++ pre', eof, post, out, rfl, heof, hpre, hr, ⟨w, pre', rfl, hrest⟩, ?_, fun post' => ?_⟩
    case refine_1 =>
      rw [ofTokens_of_runs hr]
      cases out
      case value body rest =>
        cases hrest
        obtain rfl := rest_of_value hr hpre'
        exact .inl ⟨⟨extent eof body, body⟩, rfl, rfl⟩
      case raised span cause rest => exact .inr ⟨span, cause, rfl, rfl⟩
      case ranOut => exact absurd ho Ends.not_nil
    case refine_2 =>
      rw [ofTokens_of_runs hr, ofTokens_of_runs (hx post')]
      cases out
      case value body rest =>
        cases hrest
        cases pre' <;> rfl
      case raised => rfl
      case ranOut => rfl
  case right =>
    intro h
    cases hp : ofTokens ts
    case error failure => exact ⟨failure, rfl⟩
    case ok p =>
      obtain ⟨t, ht, hk⟩ := mem_endOfInput_of_ofTokens hp
      exact absurd hk (h t ht)

-- A block that is closed only behind the end of input.
def lateBrace : List Token :=
  [⟨.openBrace, "\x7b", .blank⟩, ⟨.endOfInput, "", .blank⟩, ⟨.closeBrace, "\x7d", .blank⟩, ⟨.endOfInput, "", .blank⟩]

-- The brace behind the end of input closes nothing, and without an end of input a name is no program.
theorem ofTokens_lateBrace :
    (∃ span cause, ofTokens lateBrace = .error (.fault (.syntactic span cause))) ∧
    (∀ post, ofTokens (⟨.openBrace, "\x7b", .blank⟩ :: ⟨.endOfInput, "", .blank⟩ :: post) = ofTokens lateBrace) ∧
    ∃ failure, ofTokens [⟨.ident, "x", .blank⟩] = .error failure := by
  have hm : ∃ t ∈ lateBrace, t.kind = .endOfInput := ⟨⟨.endOfInput, "", .blank⟩, by decide, rfl⟩
  obtain ⟨pre, eof, post, out, ht, he, hp, -, -, ho, hx⟩ := (ofTokens_stays_inside lateBrace).left hm
  have hn := (ofTokens_stays_inside [⟨.ident, "x", .blank⟩]).right (by decide)
  rcases pre with _ | ⟨t, _ | ⟨u, pre⟩⟩
  case nil =>
    cases ht
    cases he
  case cons.cons =>
    simp only [lateBrace, List.cons_append, List.cons.injEq] at ht
    obtain ⟨-, rfl, -⟩ := ht
    exact absurd rfl (hp ⟨.endOfInput, "", .blank⟩ (by simp))
  case cons.nil =>
    cases ht
    refine ⟨?_, hx, hn⟩
    rcases ho with ⟨p, h, -⟩ | ⟨span, cause, h, -⟩
    case inl =>
      have hc : (ofTokens lateBrace).toOption.isNone := by decide +kernel
      rw [h] at hc
      cases hc
    case inr => exact ⟨span, cause, h⟩

end Program
end ParenTree
