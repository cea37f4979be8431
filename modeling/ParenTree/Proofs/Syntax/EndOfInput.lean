import ParenTree.Proofs.Syntax.Routine

-- The parser never moves past the end of input. A routine that is given tokens up to an end-of-input token, and perhaps more
-- behind it, stops at that token or in front of it, whether it returns a value or complains; it does not run out of tokens.

namespace ParenTree.Parser

variable {eof : Token} {post : List Token}

-- The tokens up to the first end-of-input token `eof`, behind which come `post`.
def Ends (eof : Token) (post ts : List Token) : Prop :=
  ∃ pre, ts = pre ++ eof :: post ∧ ∀ t ∈ pre, t.kind ≠ .endOfInput

namespace Ends

theorem not_nil : ¬Ends eof post [] := by
  rintro ⟨pre, h, -⟩
  cases pre <;> cases h

theorem tail {t : Token} {ts : List Token} (heof : eof.kind = .endOfInput) (ht : t.kind ≠ .endOfInput)
    (h : Ends eof post (t :: ts)) : Ends eof post ts := by
  obtain ⟨_ | ⟨u, pre⟩, hts, hpre⟩ := h
  case nil =>
    cases hts
    exact absurd heof ht
  case cons =>
    cases hts
    exact ⟨pre, rfl, fun u hu => hpre u (List.mem_cons_of_mem _ hu)⟩

theorem dropWhile {p : Token → Bool} {ts : List Token} (h : Ends eof post ts) (hp : ¬p eof) :
    Ends eof post (ts.dropWhile p) := by
  obtain ⟨pre, rfl, hpre⟩ := h
  induction pre
  case nil => exact ⟨[], by rw [List.nil_append, List.dropWhile_cons_of_neg hp], List.forall_mem_nil _⟩
  case cons t pre hi =>
    rw [List.cons_append, List.dropWhile_cons]
    split
    case isTrue => exact hi fun u hu => hpre u (List.mem_cons_of_mem _ hu)
    case isFalse => exact ⟨t :: pre, rfl, hpre⟩

end Ends

-- The tiers that a task gets are those from some tier on.
def Task.Proper : Task → Prop
  | procedure (.binary levels) => levels <:+ tiers
  | procedure (.binaryRest ops tighter _) => (ops :: tighter) <:+ tiers
  | _ => True

namespace Routine

-- The routine itself moves past no end of input, and runs proper tasks only.
def Heeds {α : Type} : Routine α → Prop
  | done _ | raise _ _ => True
  | peek next => ∀ t, Heeds (next t)
  | advance t next => t.kind ≠ .endOfInput ∧ Heeds next
  | pass p next => p .endOfInput = false ∧ Heeds next
  | run task next => task.Proper ∧ ∀ value, Heeds (next value)

theorem Heeds.need {α : Type} {kind : Token.Kind} {what : Expectation} {next : Token → Routine α}
    (hk : kind ≠ .endOfInput) (h : ∀ t, Heeds (next t)) : Heeds (need kind what next) := by
  intro t
  dsimp only
  split
  case isTrue ht => exact ⟨ht ▸ hk, h t⟩
  case isFalse => trivial

theorem Heeds.runDone {task : Task} (h : task.Proper) : Heeds (.run task .done) :=
  ⟨h, fun _ => trivial⟩

end Routine

open Routine

namespace Procedure

theorem not_endOfInput_of_mem {k : Token.Kind} {ops : List Token.Kind} {tighter : List (List Token.Kind)}
    (h : (ops :: tighter) <:+ tiers) (hk : k ∈ ops) : k ≠ .endOfInput := by
  rintro rfl
  have := h.mem (List.mem_cons_self ..)
  revert this hk
  simp only [tiers, List.mem_cons, List.not_mem_nil, or_false]
  rintro hk (rfl | rfl | rfl | rfl | rfl | rfl) <;> revert hk <;> decide

theorem statements_heeds (closer : Token.Kind) : (statements closer).routine.Heeds := by
  refine ⟨rfl, fun t => ?_⟩
  dsimp only
  split
  case isTrue => trivial
  case isFalse =>
    split
    case isTrue => trivial
    case isFalse =>
      refine ⟨trivial, fun first u => ?_⟩
      dsimp only
      split
      case isTrue => trivial
      case isFalse =>
        split
        case isTrue => exact ⟨trivial, fun _ => trivial⟩
        case isFalse => trivial

theorem statement_heeds : statement.routine.Heeds := by
  intro t
  dsimp only
  split
  case h_1 hk | h_2 hk | h_3 hk => exact ⟨by simp [hk], .runDone trivial⟩
  case h_4 => exact .runDone trivial

theorem letStatement_heeds (keyword : Token) : (letStatement keyword).routine.Heeds := by
  refine .need (by decide) fun name t => ?_
  dsimp only
  split
  case isTrue ht => exact ⟨fun he => by simp [he] at ht, trivial, fun _ => trivial⟩
  case isFalse => trivial

theorem returnStatement_heeds (keyword : Token) : (returnStatement keyword).routine.Heeds := by
  intro t
  dsimp only
  split
  case isTrue => trivial
  case isFalse => exact ⟨trivial, fun _ => trivial⟩

theorem function_heeds (keyword : Token) : (function keyword).routine.Heeds := by
  refine .need (by decide) fun name => .need (by decide) fun _ => ⟨trivial, fun names => ?_⟩
  exact .need (by decide) fun _ => ⟨trivial, fun _ => trivial⟩

theorem block_heeds : block.routine.Heeds := by
  refine .need (by decide) fun opener => ⟨trivial, fun body => ?_⟩
  exact .need (by decide) fun _ => trivial

theorem expr_heeds : expr.routine.Heeds := by
  refine ⟨List.suffix_refl _, fun left t => ?_⟩
  dsimp only
  split
  case isFalse => trivial
  case isTrue ht =>
    split
    case h_1 => exact ⟨by simp [ht], trivial, fun _ => trivial⟩
    case h_2 => trivial

theorem binary_heeds {levels : List (List Token.Kind)} (h : levels <:+ tiers) : (binary levels).routine.Heeds := by
  cases levels
  case nil => exact .runDone trivial
  case cons ops tighter => exact ⟨(List.suffix_cons _ _).trans h, fun left => .runDone h⟩

theorem binaryRest_heeds {ops : List Token.Kind} {tighter : List (List Token.Kind)} (left : Node)
    (h : (ops :: tighter) <:+ tiers) : (binaryRest ops tighter left).routine.Heeds := by
  intro t
  dsimp only
  split
  case isFalse => trivial
  case isTrue ht =>
    refine ⟨not_endOfInput_of_mem h (by simpa using ht), (List.suffix_cons _ _).trans h, fun right => ?_⟩
    exact .runDone h

theorem unary_heeds : unary.routine.Heeds := by
  intro t
  dsimp only
  split
  case isTrue ht => exact ⟨fun he => by simp [he] at ht, trivial, fun _ => trivial⟩
  case isFalse => exact .runDone trivial

theorem callRest_heeds (callee : Node) : (callRest callee).routine.Heeds := by
  intro t
  dsimp only
  split
  case isFalse => trivial
  case isTrue ht => exact ⟨by simp [ht], trivial, fun args => .need (by decide) fun closer => .runDone trivial⟩

theorem primary_heeds : primary.routine.Heeds := by
  intro t
  dsimp only
  split
  case h_1 kind hk =>
    refine ⟨fun he => ?_, trivial⟩
    rw [he] at hk
    cases hk
  case h_2 =>
    split
    case h_1 hk | h_2 hk => exact ⟨by simp [hk], trivial⟩
    case h_3 hk | h_4 hk => exact ⟨by simp [hk], trivial, fun _ => .need (by decide) fun _ => trivial⟩
    case h_5 => exact .runDone trivial
    case h_6 hk => exact ⟨by simp [hk], .runDone trivial⟩
    case h_7 => trivial

theorem conditional_heeds (keyword : Token) : (conditional keyword).routine.Heeds := by
  refine ⟨trivial, fun condition => ⟨trivial, fun thenBlock t => ?_⟩⟩
  dsimp only
  split
  case isTrue ht => exact ⟨by simp [ht], trivial, fun _ => trivial⟩
  case isFalse => trivial

theorem otherwise_heeds : otherwise.routine.Heeds := by
  intro t
  dsimp only
  split
  case isTrue ht => exact ⟨by simp [ht], .runDone trivial⟩
  case isFalse => exact .runDone trivial

theorem exprList_heeds (closer : Token.Kind) : (exprList closer).routine.Heeds := by
  refine ⟨rfl, fun t => ?_⟩
  dsimp only
  split
  case isTrue => trivial
  case isFalse =>
    refine ⟨trivial, fun item => ⟨rfl, fun u => ?_⟩⟩
    dsimp only
    split
    case isTrue hu => exact ⟨by simp [hu], trivial, fun _ => trivial⟩
    case isFalse => trivial

end Procedure

open Procedure

theorem params_heeds : Task.params.routine.Heeds := by
  intro t
  dsimp only
  split
  case isTrue => trivial
  case isFalse =>
    split
    case isFalse => trivial
    case isTrue ht =>
      refine ⟨by simp [ht], fun u => ?_⟩
      dsimp only
      split
      case isTrue hu => exact ⟨by simp [hu], trivial, fun _ => trivial⟩
      case isFalse => trivial

theorem Task.Proper.heeds {task : Task} (h : task.Proper) : task.routine.Heeds := by
  cases task
  case params => exact params_heeds
  case procedure p =>
    cases p
    case statements closer => exact statements_heeds closer
    case statement => exact statement_heeds
    case letStatement keyword => exact letStatement_heeds keyword
    case returnStatement keyword => exact returnStatement_heeds keyword
    case function keyword => exact function_heeds keyword
    case block => exact block_heeds
    case expr => exact expr_heeds
    case binary => exact binary_heeds h
    case binaryRest left => exact binaryRest_heeds left h
    case unary => exact unary_heeds
    case call => exact ⟨trivial, fun callee => .runDone trivial⟩
    case callRest callee => exact callRest_heeds callee
    case primary => exact primary_heeds
    case conditional keyword => exact conditional_heeds keyword
    case otherwise => exact otherwise_heeds
    case exprList closer => exact exprList_heeds closer

-- What one move keeps, a whole run keeps: the end of input is in front of the parser wherever it stops.
theorem Runs.ends {α : Type} {r : Routine α} {ts : List Token} {out : Outcome α} (heof : eof.kind = .endOfInput)
    (h : Runs r ts out) (hr : r.Heeds) (hts : Ends eof post ts) : Ends eof post out.rest := by
  induction h
  case done | raise => exact hts
  case peek hi => exact hi (hr _) hts
  case peekNothing => exact absurd hts Ends.not_nil
  case advance hi => exact hi hr.right (hts.tail heof hr.left)
  case pass hi => exact hi hr.right (hts.dropWhile (by simp [heof, hr.left]))
  case run hi₁ hi₂ => exact hi₂ (hr.right _) (hi₁ hr.left.heeds hts)
  case runRaised hi | runRanOut hi => exact hi hr.left.heeds hts

end ParenTree.Parser
