import ParenTree.Proofs.Source.Spelling
import ParenTree.Proofs.Syntax.Placement

-- The parser complains as early as it can. The tokens it has moved past until then begin some program, and with the token
-- that it complains about they begin none.

namespace ParenTree

-- Some token of a kind, with the spelling of the kind if it has only one.
def Token.sample (k : Kind) : Token :=
  ⟨k, k.spelling?.getD "x", .blank⟩

-- The token that a complaint is about: the one in the place of what is expected, or the sign behind what cannot be assigned.
def SourceFault.Blames (t : Token) : SourceFault → Prop
  | syntactic span (.expected _) => span = t.span
  | syntactic _ .invalidTarget => t.kind = .assign
  | lexical .. => False

namespace Grammar

abbrev NoEnd (w : List Token) : Prop :=
  ∀ t ∈ w, t.kind ≠ .endOfInput

theorem Derives.tier_of_unary {w : List Token} {n : Node} (h : Derives .unary w n) (levels : List (List Token.Kind)) :
    Derives (.tier levels) w n :=
  (Derives.untiered h).loosen List.nil_suffix

theorem Derives.tier {w : List Token} {n : Node} (h : Derives .primary w n) (levels : List (List Token.Kind)) :
    Derives (.tier levels) w n :=
  tier_of_unary (.operand (.callee h)) levels

theorem derives_nop : Derives .expr [.sample .kwNop] (.nop .blank) :=
  .tiers (.tier (.nop rfl) _)

theorem derives_braces : Derives .block [.sample .openBrace, .sample .closeBrace] (.block .blank []) :=
  .block rfl (.empty (List.forall_mem_nil _)) rfl

end Grammar

namespace Parser

open Grammar

def Task.Describes : (task : Task) → List Token → task.Value → Prop
  | procedure p, w, value => p.Describes w value
  | params, w, names => Params w names

-- The beginning of a word that the task can read to its end.
def Task.Viable (task : Task) (w : List Token) : Prop :=
  ∃ z value, NoEnd z ∧ task.Describes (w ++ z) value

theorem Task.viable_of_describes {task : Task} {w : List Token} {value : task.Value} (h : task.Describes w value) :
    task.Viable w :=
  ⟨[], value, by decide, by rwa [List.append_nil]⟩

-- A task is viable as far as a part of its word is, if what is left of the word can follow the part.
theorem Task.Viable.closed {task task' : Task} {f : List Token → List Token} {z : List Token} (hz : NoEnd z)
    (hf : ∀ w w', f (w ++ w') = f w ++ w')
    (h : ∀ w value, task.Describes w value → ∃ value', task'.Describes (f w ++ z) value') (w : List Token)
    (hw : task.Viable w) : task'.Viable (f w) := by
  obtain ⟨z', value, hz', hd⟩ := hw
  obtain ⟨value', hd'⟩ := h _ _ hd
  refine ⟨z' ++ z, value', ?_, ?_⟩
  case refine_1 => exact List.forall_mem_append.mpr ⟨hz', hz⟩
  case refine_2 => rwa [hf, List.append_assoc] at hd'

theorem Task.Viable.within {task task' : Task} {f : List Token → List Token} (hf : ∀ w w', f (w ++ w') = f w ++ w')
    (h : ∀ w value, task.Describes w value → ∃ value', task'.Describes (f w) value') (w : List Token)
    (hw : task.Viable w) : task'.Viable (f w) := by
  refine closed (z := []) (by decide) hf (fun w value hd => ?_) w hw
  rw [List.append_nil]
  exact h w value hd

theorem Task.describes_of_runs {task : Task} {ts rest : List Token} {value : task.Value}
    (h : Runs task.routine ts (.value value rest)) : ∃ w, ts = w ++ rest ∧ task.Describes w value := by
  have hr := h.result_eq
  cases task
  case procedure p => exact p.sound ts value rest hr
  case params => exact Procedure.readParams_sound hr

namespace Routine

variable {α : Type}

-- Whenever the routine complains, it is about the current token, and the tokens it has moved past have a property. The
-- tasks that it runs move past beginnings of their words before they complain, and past whole words else.
def FailsWithin : Routine α → (current : Option Token) → (Q : List Token → Prop) → Prop
  | done _, _, _ => True
  | raise span cause, current, Q => (∃ t, current = some t ∧ (SourceFault.syntactic span cause).Blames t) ∧ Q []
  | peek next, _, Q => ∀ t, FailsWithin (next t) (some t) Q
  | advance t next, _, Q => FailsWithin next none fun w => Q (t :: w)
  | pass p next, _, Q => ∀ w, (∀ t ∈ w, p t.kind) → FailsWithin next none fun w' => Q (w ++ w')
  | run task next, current, Q =>
    (∀ w, (∀ t u, current = some t → w.head? = some u → u = t) → task.Viable w → Q w) ∧
      ∀ value w, task.Describes w value → FailsWithin (next value) none fun w' => Q (w ++ w')

namespace FailsWithin

variable {current : Option Token} {Q : List Token → Prop}

theorem want {what : Expectation} {t : Token} (h : Q []) : FailsWithin (want what t : Routine α) (some t) Q :=
  ⟨⟨t, rfl, rfl⟩, h⟩

theorem need {kind : Token.Kind} {what : Expectation} {next : Token → Routine α} (h : Q [])
    (hn : ∀ t, t.kind = kind → FailsWithin (next t) none fun w => Q (t :: w)) :
    FailsWithin (need kind what next) current Q := by
  intro t
  dsimp only
  split
  case isTrue ht => exact hn t ht
  case isFalse => exact .want h

theorem run {task : Task} {next : task.Value → Routine α} (h : ∀ w, task.Viable w → Q w)
    (hn : ∀ value w, task.Describes w value → FailsWithin (next value) none fun w' => Q (w ++ w')) :
    FailsWithin (run task next) current Q :=
  ⟨fun w _ => h w, hn⟩

theorem runNeed {task : Task} {kind : Token.Kind} {what : Expectation} {next : task.Value → Token → Routine α}
    (h : ∀ w, task.Viable w → Q w)
    (hn : ∀ value w, task.Describes w value → ∀ t, t.kind = kind →
      FailsWithin (next value t) none fun w' => Q (w ++ t :: w')) :
    FailsWithin (.run task fun value => Routine.need kind what (next value)) current Q := by
  refine .run h fun value w hd => .need ?_ (hn value w hd)
  rw [List.append_nil]
  exact h w (task.viable_of_describes hd)

theorem last {task : Task} {f : task.Value → α} (h : ∀ w, task.Viable w → Q w) :
    FailsWithin (.run task fun value => done (f value)) current Q :=
  run h fun _ _ _ => trivial

end FailsWithin

end Routine

open Routine

-- What holds of the complaints of all routines holds of the complaints of all runs.
theorem Runs.fails {α : Type} {r : Routine α} {ts us : List Token} {span : Span} {cause : SyntacticFault}
    {current : Option Token} {Q : List Token → Prop} (hv : ∀ task : Task, task.routine.FailsWithin none task.Viable)
    (h : Runs r ts (.raised span cause us)) (hr : r.FailsWithin current Q)
    (hc : ∀ t, current = some t → ts.head? = some t) :
    ∃ w t us', ts = w ++ us ∧ us = t :: us' ∧ (SourceFault.syntactic span cause).Blames t ∧ Q w := by
  generalize ho : Outcome.raised span cause us = out at h
  induction h generalizing current Q
  case done | peekNothing | runRanOut => cases ho
  case raise =>
    cases ho
    obtain ⟨⟨t, rfl, ht⟩, hQ⟩ := hr
    obtain ⟨us', hus⟩ := List.head?_eq_some_iff.mp (hc t rfl)
    exact ⟨[], t, us', rfl, hus, ht, hQ⟩
  case peek t ts out _ hi => exact hi (hr t) (fun _ h => h) ho
  case advance t ts out _ hi =>
    obtain ⟨w, u, us', rfl, hus, hu, hQ⟩ := hi hr (fun _ h => by cases h) ho
    exact ⟨t :: w, u, us', rfl, hus, hu, hQ⟩
  case pass p _ ts out _ hi =>
    have hp : ∀ t ∈ ts.takeWhile (p ·.kind), p t.kind := List.all_eq_true.mp List.all_takeWhile
    obtain ⟨w, u, us', hw, hus, hu, hQ⟩ := hi (hr _ hp) (fun _ h => by cases h) ho
    refine ⟨ts.takeWhile (p ·.kind) ++ w, u, us', ?_, hus, hu, hQ⟩
    rw [List.append_assoc, ← hw, List.takeWhile_append_dropWhile]
  case run task _ ts value rest out h₁ _ _ hi =>
    obtain ⟨w, rfl, hd⟩ := task.describes_of_runs h₁
    obtain ⟨w', u, us', rfl, hus, hu, hQ⟩ := hi (hr.right value w hd) (fun _ h => by cases h) ho
    exact ⟨w ++ w', u, us', (List.append_assoc ..).symm, hus, hu, hQ⟩
  case runRaised task _ ts _ _ _ _ hi =>
    cases ho
    obtain ⟨w, u, us', rfl, hus, hu, hw⟩ := hi (hv task) (fun _ h => by cases h) rfl
    refine ⟨w, u, us', rfl, hus, hu, hr.left w (fun t v ht hv => ?_) hw⟩
    -- The task begins at the current token.
    have hh := hc t ht
    rw [List.head?_append, hv] at hh
    exact Option.some.inj hh

namespace Procedure

abbrev FailsViably (p : Procedure) : Prop :=
  p.routine.FailsWithin none (Task.procedure p).Viable

theorem statements_fails {closer : Token.Kind} : FailsViably (statements closer) := by
  intro seps hs t
  have hs : Separators seps := hs
  have hbody : ∀ w, (Task.procedure statement).Viable w → (Task.procedure (statements closer)).Viable (seps ++ w) := by
    refine .closed (z := []) (by decide) (by simp) fun w first hd => ⟨[first], ?_⟩
    exact .body hs (.one hd) (List.forall_mem_nil _)
  dsimp only
  split
  case isTrue => trivial
  case isFalse =>
    split
    case isTrue =>
      refine .want ?_
      rw [List.append_nil]
      exact Task.viable_of_describes (.empty hs)
    case isFalse =>
      refine .run hbody fun first w hd u => ?_
      have hfirst := hbody w (Task.viable_of_describes hd)
      dsimp only
      split
      case isTrue => trivial
      case isFalse =>
        split
        case isFalse =>
          refine .want ?_
          rwa [List.append_nil]
        case isTrue hu =>
          refine ⟨fun w' hw' hv => ?_, fun _ _ _ => trivial⟩
          -- The loop has not moved yet, or has begun at the separator behind the statement.
          cases w'
          case nil => rwa [List.append_nil]
          case cons v w' =>
            obtain ⟨z, others, hz, hd'⟩ := hv
            refine ⟨z, first :: others, hz, ?_⟩
            have hh : ∀ v' ∈ (v :: w' ++ z).head?, v'.kind.isSeparator := by
              rintro v' ⟨⟩
              rw [hw' u v rfl rfl]
              exact hu
            have hb := body_cons hs hd hh hd'
            simp only [List.append_assoc] at hb ⊢
            exact hb

theorem statement_fails : FailsViably statement := by
  intro t
  dsimp only
  split
  case h_1 ht | h_2 ht | h_3 ht => exact .last (.within (fun _ _ => rfl) fun w value hd => ⟨value, hd ht⟩)
  case h_4 => exact .last (.within (fun _ _ => rfl) fun w value hd => ⟨value, .exprStmt hd⟩)

theorem letStatement_fails {keyword : Token} : FailsViably (letStatement keyword) := by
  refine .need ?_ fun name hname sign => ?_
  case refine_1 =>
    exact ⟨[.sample .ident, .sample .define, .sample .kwNop], _, by decide, fun hk => .letStmt hk rfl (.inl rfl) derives_nop⟩
  case refine_2 =>
    dsimp only
    split
    case isTrue hs =>
      have hs : sign.kind = .define ∨ sign.kind = .assign := by simpa using hs
      exact .last (.within (fun _ _ => rfl) fun w value hd => ⟨_, fun hk => .letStmt hk hname hs hd⟩)
    case isFalse =>
      exact .want ⟨[.sample .define, .sample .kwNop], _, by decide, fun hk => .letStmt hk hname (.inl rfl) derives_nop⟩

theorem returnStatement_fails {keyword : Token} : FailsViably (returnStatement keyword) := by
  intro t
  dsimp only
  split
  case isTrue => trivial
  case isFalse => exact .last (.within (fun _ _ => rfl) fun w value hd => ⟨_, fun hk => .returnStmt hk hd⟩)

theorem function_fails {keyword : Token} : FailsViably (function keyword) := by
  refine .need ?_ fun name hname => .need ?_ fun opener ho => .runNeed ?_ fun names ps hps closer hc => ?_
  case refine_1 =>
    exact ⟨[.sample .ident, .sample .openParen, .sample .closeParen, .sample .openBrace, .sample .closeBrace], _, by decide,
      fun hk => .function hk rfl rfl .none rfl derives_braces⟩
  case refine_2 =>
    exact ⟨[.sample .openParen, .sample .closeParen, .sample .openBrace, .sample .closeBrace], _, by decide,
      fun hk => .function hk hname rfl .none rfl derives_braces⟩
  case refine_3 =>
    exact .closed (z := [.sample .closeParen, .sample .openBrace, .sample .closeBrace]) (by decide) (fun _ _ => rfl)
      fun ps names hps => ⟨_, fun hk => .function hk hname ho hps rfl derives_braces⟩
  case refine_4 =>
    exact .last (.within (by simp) fun w body hd => ⟨_, fun hk => .function hk hname ho hps hc hd⟩)

theorem block_fails : FailsViably block := by
  refine .need ?_ fun opener ho => .runNeed ?_ fun _ _ _ _ _ => trivial
  case refine_1 => exact ⟨[.sample .openBrace, .sample .closeBrace], _, by decide, derives_braces⟩
  case refine_2 =>
    exact .closed (z := [.sample .closeBrace]) (by decide) (fun _ _ => rfl) fun w ns hd => ⟨_, .block ho hd rfl⟩

theorem expr_fails : FailsViably expr := by
  have htiers : ∀ w, (Task.procedure (binary tiers)).Viable w → (Task.procedure expr).Viable w :=
    .within (fun _ _ => rfl) fun w n hd => ⟨n, .tiers hd⟩
  refine .run htiers fun left w hd t => ?_
  dsimp only
  split
  case isFalse => trivial
  case isTrue ht =>
    split
    case h_1 => exact .last (.within (by simp) fun w' value hd' => ⟨_, .assign hd.target_of_ident ht hd'⟩)
    case h_2 =>
      refine ⟨⟨t, rfl, ht⟩, ?_⟩
      dsimp only
      rw [List.append_nil]
      exact htiers w (Task.viable_of_describes hd)

theorem binary_fails {levels : List (List Token.Kind)} : FailsViably (binary levels) := by
  cases levels
  case nil => exact .last (.within (fun _ _ => rfl) fun w n hd => ⟨n, .untiered hd⟩)
  case cons ops tighter =>
    refine .run (.within (fun _ _ => rfl) fun w n hd => ⟨n, .tighter hd⟩) fun left w hd => ?_
    exact .last (.within (by simp) fun w' n hd' => ⟨n, hd' w (.tighter hd)⟩)

theorem binaryRest_fails {ops : List Token.Kind} {tighter : List (List Token.Kind)} {left : Node} :
    FailsViably (binaryRest ops tighter left) := by
  intro t
  dsimp only
  split
  case isFalse => trivial
  case isTrue ht =>
    have ht : t.kind ∈ ops := by simpa using ht
    refine .run (.within (fun _ _ => rfl) fun w right hd => ⟨_, fun w₀ h₀ => .binary h₀ ht hd⟩) fun right w hd => ?_
    refine .last (.within (by simp) fun w' n hd' => ⟨n, fun w₀ h₀ => ?_⟩)
    have hb := hd' (w₀ ++ t :: w) (.binary h₀ ht hd)
    rwa [List.append_assoc] at hb

theorem unary_fails : FailsViably unary := by
  intro t
  dsimp only
  split
  case isTrue ht =>
    have ht : t.kind = .bang ∨ t.kind = .minus := by simpa using ht
    exact .last (.within (fun _ _ => rfl) fun w n hd => ⟨_, .unary ht hd⟩)
  case isFalse => exact .last (.within (fun _ _ => rfl) fun w n hd => ⟨n, .operand hd⟩)

theorem call_fails : FailsViably call := by
  refine .run (.within (fun _ _ => rfl) fun w n hd => ⟨n, .callee hd⟩) fun callee w hd => ?_
  exact .last (.within (by simp) fun w' n hd' => ⟨n, hd' w (.callee hd)⟩)

theorem callRest_fails {callee : Node} : FailsViably (callRest callee) := by
  intro opener
  dsimp only
  split
  case isFalse => trivial
  case isTrue ho =>
    have called {w : List Token} {args : List Node} (hd : Derives .exprList w args) {closer : Token}
        (hc : closer.kind = .closeParen) {w₀ : List Token} (h₀ : Derives .call w₀ callee) :
        Derives .call (w₀ ++ (opener :: w ++ [closer])) (.call (callee.span.through closer.span) callee args) := by
      have hcall := Derives.call h₀ ho hd hc
      rwa [List.append_assoc] at hcall
    refine .runNeed ?_ fun args w hd closer hc => ?_
    case refine_1 =>
      exact .closed (z := [.sample .closeParen]) (by decide) (fun _ _ => rfl) fun w args hd =>
        ⟨_, fun w₀ h₀ => called hd rfl h₀⟩
    case refine_2 =>
      refine .last (.within (by simp) fun w' n hd' => ⟨n, fun w₀ h₀ => ?_⟩)
      have hn := hd' _ (called hd hc h₀)
      simp only [List.append_assoc, List.cons_append, List.nil_append] at hn ⊢
      exact hn

theorem primary_fails : FailsViably primary := by
  intro t
  dsimp only
  split
  case h_1 => trivial
  case h_2 =>
    split
    case h_1 | h_2 => trivial
    case h_3 ho =>
      refine .runNeed ?_ fun _ _ _ _ _ => trivial
      exact .closed (z := [.sample .closeParen]) (by decide) (fun _ _ => rfl) fun w n hd => ⟨n, .grouped ho hd rfl⟩
    case h_4 ho =>
      refine .runNeed ?_ fun _ _ _ _ _ => trivial
      exact .closed (z := [.sample .closeBracket]) (by decide) (fun _ _ => rfl) fun w ns hd => ⟨_, .list ho hd rfl⟩
    case h_5 => exact .last (.within (fun _ _ => rfl) fun w n hd => ⟨n, .blockExpr hd⟩)
    case h_6 hk => exact .last (.within (fun _ _ => rfl) fun w n hd => ⟨n, .ifExpr (hd hk)⟩)
    case h_7 => exact .want ⟨[.sample .kwNop], _, by decide, .nop rfl⟩

theorem conditional_fails {keyword : Token} : FailsViably (conditional keyword) := by
  refine .run ?_ fun condition w hd => .run ?_ fun thenBlock w' hd' other => ?_
  case refine_1 =>
    exact .closed (z := [.sample .openBrace, .sample .closeBrace]) (by decide) (fun _ _ => rfl)
      fun w condition hd => ⟨_, fun hk => .ifThen hk hd derives_braces⟩
  case refine_2 => exact .within (by simp) fun w' thenBlock hd' => ⟨_, fun hk => .ifThen hk hd hd'⟩
  case refine_3 =>
    dsimp only
    split
    case isFalse => trivial
    case isTrue ho =>
      refine .last (.within (by simp) fun w'' elseBranch hd'' =>
        ⟨Node.conditional (keyword.span.through elseBranch.span) condition thenBlock elseBranch, fun hk => ?_⟩)
      have hn := Derives.ifThenElse hk hd hd' ho hd''
      rwa [List.append_assoc] at hn

theorem otherwise_fails : FailsViably otherwise := by
  intro t
  dsimp only
  split
  case isTrue hk => exact .last (.within (fun _ _ => rfl) fun w n hd => ⟨n, .elseIf (hd hk)⟩)
  case isFalse => exact .last (.within (fun _ _ => rfl) fun w n hd => ⟨n, .elseBlock hd⟩)

theorem exprList_fails {closer : Token.Kind} : FailsViably (exprList closer) := by
  intro lines hl t
  have hl : Newlines lines := by simpa [Newlines] using hl
  dsimp only
  split
  case isTrue => trivial
  case isFalse =>
    refine .run ?_ fun item w hd lines' hl' u => ?_
    case refine_1 =>
      refine .closed (z := []) (by decide) (by simp) fun w item hd => ⟨[item], ?_⟩
      rw [List.append_assoc]
      exact .items hl (.item hd (List.forall_mem_nil _))
    case refine_2 =>
      have hl' : Newlines lines' := by simpa [Newlines] using hl'
      dsimp only
      split
      case isFalse => trivial
      case isTrue hu =>
        refine .last (.within (by simp) fun w' others hd' => ⟨item :: others, ?_⟩)
        have hn := exprList_cons hl hd hl' hu hd'
        simp only [List.append_assoc] at hn
        exact hn

end Procedure

theorem Task.params_fails : Task.params.routine.FailsWithin none Task.params.Viable := by
  intro t
  dsimp only
  split
  case isTrue => trivial
  case isFalse =>
    split
    case isFalse => exact .want (Task.viable_of_describes .none)
    case isTrue ht =>
      intro u
      dsimp only
      split
      case isFalse => trivial
      case isTrue hu =>
        refine .last (.within (fun _ _ => rfl) fun w names hd => ⟨t.lexeme :: names, ?_⟩)
        cases hd
        case none => exact .comma (.one ht) hu
        case some hw => exact .some (.more ht hu hw)
        case comma hc hw => exact .comma (.more ht hu hw) hc

open Procedure in
theorem Task.fails (task : Task) : task.routine.FailsWithin none task.Viable := by
  cases task
  case params => exact params_fails
  case procedure p =>
    cases p
    case statements => exact statements_fails
    case statement => exact statement_fails
    case letStatement => exact letStatement_fails
    case returnStatement => exact returnStatement_fails
    case function => exact function_fails
    case block => exact block_fails
    case expr => exact expr_fails
    case binary => exact binary_fails
    case binaryRest => exact binaryRest_fails
    case unary => exact unary_fails
    case call => exact call_fails
    case callRest => exact callRest_fails
    case primary => exact primary_fails
    case conditional => exact conditional_fails
    case otherwise => exact otherwise_fails
    case exprList => exact exprList_fails

end Parser

namespace Program

open Grammar ParenTree.Parser

-- The parser gives up with a fault while the token of this index is the current one. There is one such index at most, since
-- routines are deterministic.
def StopsAt (ts : List Token) (fault : SourceFault) (i : Nat) : Prop :=
  ∃ span cause, fault = .syntactic span cause ∧ i < ts.length ∧
    Runs (Procedure.statements .endOfInput).routine ts (.raised span cause (ts.drop i))

theorem exists_stopsAt {ts : List Token} {fault : SourceFault} (h : ofTokens ts = .error (.fault fault)) :
    ∃ i, StopsAt ts fault i := by
  obtain ⟨out, hr, -⟩ := Task.exists_runs (.procedure (.statements .endOfInput)) ts
  rw [ofTokens_of_runs hr] at h
  rcases out with ⟨ns, _ | ⟨eof, rest⟩⟩ | ⟨span, cause, rest⟩ | _ <;> cases h
  case raised =>
    obtain ⟨w, t, us, rfl, rfl, -⟩ := hr.fails Task.fails (Task.fails _) (fun _ h => by cases h)
    refine ⟨w.length, span, cause, rfl, by simp, ?_⟩
    rwa [List.drop_left]

namespace StopsAt

variable {ts : List Token} {fault : SourceFault} {i : Nat}

theorem fails (h : StopsAt ts fault i) :
    ∃ current, ts[i]? = some current ∧ fault.Blames current ∧
      (Task.procedure (.statements .endOfInput)).Viable (ts.take i) := by
  obtain ⟨span, cause, rfl, -, hr⟩ := h
  obtain ⟨w, current, rest, hw, hd, hb, hv⟩ :=
    hr.fails Task.fails Procedure.statements_fails (fun _ h => by cases h)
  have hw : w = ts.take i := (List.append_left_inj (ts.drop i)).mp (by rw [← hw, List.take_append_drop])
  exact ⟨current, by rw [← List.head?_drop, hd]; rfl, hb, hw ▸ hv⟩

-- The tokens in front begin a program.
theorem accepted (h : StopsAt ts fault i) (ht : Terminated ts) :
    ∃ us p, Terminated us ∧ us.take i = ts.take i ∧ ofTokens us = .ok p := by
  obtain ⟨_, -, -, z, ns, hz, hd⟩ := h.fails
  obtain ⟨_, _, -, hi, -⟩ := h
  obtain ⟨w, eof, rfl, -, hw⟩ := ht
  have hi : i ≤ w.length := by
    rw [List.length_append, List.length_singleton] at hi
    omega
  rw [List.take_append_of_le_length hi] at hd ⊢
  refine ⟨w.take i ++ z ++ [.sample .endOfInput], _, ⟨_, _, rfl, rfl, ?_⟩, ?_, ofTokens_of_spells (.program hd rfl)⟩
  case refine_1 => exact List.forall_mem_append.mpr ⟨fun t ht => hw t (List.mem_of_mem_take ht), hz⟩
  case refine_2 =>
    rw [List.append_assoc]
    exact List.take_left' (List.length_take_of_le hi)

-- The tokens up to the current one settle the outcome.
theorem rejected (h : StopsAt ts fault i) {us : List Token} (hu : us.take (i + 1) = ts.take (i + 1)) :
    ofTokens us = .error (.fault fault) := by
  obtain ⟨span, cause, rfl, -, hr⟩ := h
  obtain ⟨w, hw, hl⟩ := hr.local
  have hw : w = ts.take i := (List.append_left_inj (ts.drop i)).mp (hw.symm.trans (List.take_append_drop i ts).symm)
  have htake : us.take i = ts.take i := by
    have hi := congrArg (List.take i) hu
    rwa [List.take_take, List.take_take, Nat.min_eq_left (Nat.le_succ i)] at hi
  have hhead : (us.drop i).head? = (ts.drop i).head? := by
    have hi := congrArg (·[i]?) hu
    simpa using hi
  have hr' := hl (us.drop i) hhead
  rw [hw, ← htake, List.take_append_drop] at hr'
  exact ofTokens_of_runs hr'

end StopsAt

-- A complaint is the earliest possible. The tokens in front of the one that it is about begin some program, and with that
-- token they lead to the same complaint whatever follows.
theorem ofTokens_error_earliest {ts : List Token} {fault : SourceFault} (ht : Terminated ts)
    (h : ofTokens ts = .error (.fault fault)) :
    (∃ i, StopsAt ts fault i) ∧ ∀ i, StopsAt ts fault i →
      (∃ current, ts[i]? = some current ∧ fault.Blames current) ∧
      (∃ us p, Terminated us ∧ us.take i = ts.take i ∧ ofTokens us = .ok p) ∧
      ∀ us, Terminated us → us.take (i + 1) = ts.take (i + 1) → ofTokens us = .error (.fault fault) := by
  refine ⟨exists_stopsAt h, fun i hs => ⟨?_, hs.accepted ht, fun us _ hu => hs.rejected hu⟩⟩
  obtain ⟨current, hi, hb, -⟩ := hs.fails
  exact ⟨current, hi, hb⟩

def assignedSum : List Token :=
  [.sample .ident, .sample .plus, .sample .ident, .sample .assign, .sample .ident, .sample .endOfInput]

-- The sum is a program, and with the sign behind it the beginning of none.
theorem ofTokens_assignedSum :
    ∃ fault, Terminated assignedSum ∧ ofTokens assignedSum = .error (.fault fault) ∧ StopsAt assignedSum fault 3 ∧
      (∃ us p, Terminated us ∧ us.take 3 = assignedSum.take 3 ∧ ofTokens us = .ok p) ∧
      ∀ us, Terminated us → us.take 4 = assignedSum.take 4 → ofTokens us = .error (.fault fault) := by
  have ht : Terminated assignedSum := ⟨assignedSum.take 5, .sample .endOfInput, rfl, rfl, by decide⟩
  have hf : (match ofTokens assignedSum with | .error failure => some failure | .ok _ => none) =
      some (.fault (.syntactic .blank .invalidTarget)) := by decide +kernel
  cases h : ofTokens assignedSum <;> rw [h] at hf
  case ok => cases hf
  case error =>
    obtain rfl := Option.some.inj hf
    obtain ⟨⟨i, hs⟩, he⟩ := ofTokens_error_earliest ht h
    obtain ⟨⟨current, hc, hb⟩, ha, hr⟩ := he i hs
    have hlt : i < 6 := (List.getElem?_eq_some_iff.mp hc).1
    have hk : assignedSum[i]?.map (·.kind) = some .assign := by rw [hc]; exact congrArg some hb
    obtain rfl : i = 3 := (by decide : ∀ j < 6, assignedSum[j]?.map (·.kind) = some .assign → j = 3) i hlt hk
    exact ⟨_, ht, rfl, hs, ha, hr⟩

end Program

end ParenTree
