import ParenTree.Proofs.Syntax.Completeness
import ParenTree.Proofs.Syntax.EndOfInput
import ParenTree.Proofs.Syntax.Spans

-- The parser accepts exactly the token lists that the grammar derives, and returns the tree of the derivation.

namespace ParenTree

namespace Parser.Procedure

theorem closer_of_read_statements {closer : Token.Kind} {ts rest : List Token} {ns : List Node}
    (h : read (statements closer) ts = .ok (ns, rest)) : ∃ t rest', rest = t :: rest' ∧ t.kind = closer := by
  induction hn : ts.length using Nat.strongRecOn generalizing ts ns
  case ind n hi =>
    subst hn
    have hlen : (ts.dropWhile (·.kind.isSeparator)).length ≤ ts.length := (List.dropWhile_sublist _).length_le
    rw [read_statements] at h
    generalize ts.dropWhile _ = us at h hlen
    cases us
    case nil => cases h
    case cons t us =>
      dsimp only at h
      split at h
      case isTrue ht =>
        cases h
        exact ⟨t, us, rfl, ht⟩
      case isFalse =>
        split at h
        case isTrue => cases h
        case isFalse =>
          obtain ⟨⟨first, behind⟩, h₁, k₁⟩ := bind_eq_ok.mp h
          have hl := length_lt_of_read h₁
          cases behind
          case nil => cases k₁
          case cons u behind =>
            dsimp only at k₁
            split at k₁
            case isTrue hu =>
              cases k₁
              exact ⟨u, behind, rfl, hu⟩
            case isFalse =>
              split at k₁
              case isFalse => cases k₁
              case isTrue =>
                obtain ⟨⟨others, rest₁⟩, h₂, k₂⟩ := bind_eq_ok.mp k₁
                cases k₂
                exact hi _ (by simp [slack] at *; omega) h₂ rfl

end Parser.Procedure

namespace Program

open ParenTree.Parser ParenTree.Parser.Procedure Grammar

theorem ofTokens_eq (ts : List Token) : ofTokens ts = (do
    let (body, rest) ← read (statements .endOfInput) ts
    match rest with
    | [] => .error .outOfTokens
    | eof :: _ => return ⟨extent eof body, body⟩) := by
  simp only [ofTokens, Procedure.read, plain]
  rcases Parser.statements .endOfInput ts with _ | ⟨_ | ⟨first, others⟩, _ | ⟨eof, rest⟩, _⟩ <;> rfl

theorem spells_of_ofTokens {ts : List Token} {p : Program} (ht : Terminated ts) (h : ofTokens ts = .ok p) :
    Spells ts p := by
  rw [ofTokens_eq] at h
  obtain ⟨⟨body, rest⟩, h₁, k₁⟩ := bind_eq_ok.mp h
  obtain ⟨eof, rest, rfl, heof⟩ := closer_of_read_statements h₁
  obtain ⟨w, hw, hd⟩ := sound _ _ _ _ h₁
  cases k₁
  obtain ⟨pre, last, rfl, _, hpre⟩ := ht
  -- The end of input where the parser has stopped is the last token, since there is no other.
  cases List.eq_nil_or_concat rest
  case inl hr =>
    subst hr
    exact hw ▸ .program hd heof
  case inr hr =>
    obtain ⟨init, u, rfl⟩ := hr
    have hw : pre ++ [last] = (w ++ eof :: init) ++ [u] := by simpa using hw
    have hmem : eof ∈ pre := by simp [(List.append_inj' hw rfl).left]
    exact absurd heof (hpre eof hmem)

theorem ofTokens_of_spells {ts : List Token} {p : Program} (h : Spells ts p) : ofTokens ts = .ok p := by
  obtain ⟨hd, heof⟩ := h
  have hr := hd.reads _ [] (by rw [heof]; decide)
  rw [heof] at hr
  rw [ofTokens_eq, hr]
  rfl

-- The outcome of a program's statements, with the end of input behind them.
theorem ofTokens_of_runs {ts : List Token} {out : Outcome (List Node)}
    (h : Runs (Procedure.statements .endOfInput).routine ts out) :
    ofTokens ts = match out with
      | .value ns (eof :: _) => .ok ⟨extent eof ns, ns⟩
      | .value _ [] | .ranOut => .error .outOfTokens
      | .raised span cause _ => .error (.fault (.syntactic span cause)) := by
  rw [ofTokens_eq, read_of_runs h]
  rcases out with ⟨ns, _ | ⟨eof, rest⟩⟩ | _ | _ <;> rfl

theorem exists_runs_ends {eof : Token} {post ts : List Token} (heof : eof.kind = .endOfInput) (h : Ends eof post ts) :
    ∃ out, Runs (Procedure.statements .endOfInput).routine ts out ∧ Ends eof post out.rest := by
  obtain ⟨out, hr, -⟩ := (Task.procedure (.statements .endOfInput)).exists_runs ts
  exact ⟨out, hr, hr.ends heof (statements_heeds _) h⟩

theorem ofTokens_ne_outOfTokens {ts : List Token} (ht : Terminated ts) : ofTokens ts ≠ .error .outOfTokens := by
  obtain ⟨pre, eof, rfl, heof, hpre⟩ := ht
  obtain ⟨out, hr, he⟩ := exists_runs_ends heof ⟨pre, rfl, hpre⟩
  rw [ofTokens_of_runs hr]
  intro h
  cases out
  case value =>
    obtain ⟨pre', rfl, _⟩ := he
    cases pre' <;> cases h
  case raised => cases h
  case ranOut => exact Ends.not_nil he

theorem ofTokens_iff_spells {ts : List Token} (ht : Terminated ts) :
    (∀ A : Program, ofTokens ts = .ok A ↔ Spells ts A) ∧
    (∀ A : Program, (∃ P, ofTokens ts = .ok P ∧ P.bare = A.bare) ↔ ∃ P, Spells ts P ∧ P.bare = A.bare) ∧
    (∀ A B : Program, Spells ts A → Spells ts B → A = B) ∧
    ((¬∃ A : Program, Spells ts A) → ∃ fault, ofTokens ts = .error (.fault fault)) := by
  have exact_iff (A : Program) : ofTokens ts = .ok A ↔ Spells ts A := ⟨spells_of_ofTokens ht, ofTokens_of_spells⟩
  refine ⟨exact_iff, fun A => by simp only [exact_iff], fun A B hA hB => ?unambiguous, fun hn => ?refused⟩
  case unambiguous =>
    have := (ofTokens_of_spells hA).symm.trans (ofTokens_of_spells hB)
    exact Except.ok.inj this
  case refused =>
    cases h : ofTokens ts
    case ok A => exact absurd ⟨A, spells_of_ofTokens ht h⟩ hn
    case error failure =>
      cases failure
      case fault fault => exact ⟨fault, rfl⟩
      case outOfTokens => exact absurd h (ofTokens_ne_outOfTokens ht)

-- The tokens of `(x) = 1` and the end of the line.
def groupedAssignment : List Token :=
  [⟨.openParen, "(", .blank⟩, ⟨.ident, "x", .blank⟩, ⟨.closeParen, ")", .blank⟩, ⟨.assign, "=", .blank⟩, ⟨.int, "1", .blank⟩,
   ⟨.newline, "\n", .blank⟩, ⟨.endOfInput, "", .blank⟩]

-- A name under parentheses can be assigned.
theorem spells_groupedAssignment :
    Terminated groupedAssignment ∧
      Spells groupedAssignment ⟨.blank, [.assign .blank (.ident .blank "x") (.literal .blank .int "1")]⟩ := by
  have ht : Terminated groupedAssignment := ⟨[_, _, _, _, _, _], _, rfl, rfl, by decide⟩
  exact ⟨ht, ((ofTokens_iff_spells ht).left _).mp (by cbv)⟩

end Program
end ParenTree
