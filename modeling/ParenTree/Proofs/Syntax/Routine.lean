import ParenTree.Proofs.Syntax.Procedure

-- The procedures of the parser move by move. A routine looks at the current token, moves past it, calls other routines, and
-- returns a value or blames a place. What the parser's functions return does not say where they have stopped if they fail;
-- a run of a routine does.

namespace ParenTree.Parser

-- What a routine may call: a procedure, or the loop over the parameters of a function.
inductive Task
  | procedure (p : Procedure)
  | params

abbrev Task.Value : Task → Type
  | procedure p => p.Value
  | params => List String

-- `advance t` moves past the current token, which is `t`; `pass` moves past all tokens of certain kinds.
inductive Routine (α : Type)
  | done (value : α)
  | raise (span : Span) (cause : SyntacticFault)
  | peek (next : Token → Routine α)
  | advance (t : Token) (next : Routine α)
  | pass (p : Token.Kind → Bool) (next : Routine α)
  | run (task : Task) (next : task.Value → Routine α)

namespace Routine

variable {α : Type}

abbrev parse (p : Procedure) (next : p.Value → Routine α) : Routine α :=
  run (.procedure p) next

def want (what : Expectation) (t : Token) : Routine α :=
  raise t.span (.expected what)

def need (kind : Token.Kind) (what : Expectation) (next : Token → Routine α) : Routine α :=
  peek fun t => if t.kind = kind then advance t (next t) else want what t

end Routine

open Routine Procedure

def Procedure.routine : (p : Procedure) → Routine p.Value
  | statements closer =>
    pass Token.Kind.isSeparator <|
    peek fun t =>
    if t.kind = closer then done []
    else if t.kind = .endOfInput then want .blockEnd t
    else parse statement fun first =>
    peek fun u =>
    if u.kind = closer then done [first]
    else if u.kind.isSeparator then parse (statements closer) fun others => done (first :: others)
    else want .separator u
  | statement =>
    peek fun t =>
    match t.kind with
    | .kwLet => advance t <| parse (letStatement t) done
    | .kwReturn => advance t <| parse (returnStatement t) done
    | .kwFn => advance t <| parse (function t) done
    | _ => parse expr done
  | letStatement keyword =>
    need .ident .variableName fun name =>
    peek fun t =>
    if t.kind = .define || t.kind = .assign then
      advance t <| parse expr fun value =>
      done (.letStmt (keyword.span.through value.span) name.lexeme value)
    else want .defineSign t
  | returnStatement keyword =>
    peek fun t =>
    if t.kind.isSeparator || t.kind = .closeBrace || t.kind = .endOfInput then
      done (.returnStmt keyword.span (.nop keyword.span))
    else parse expr fun value => done (.returnStmt (keyword.span.through value.span) value)
  | function keyword =>
    need .ident .functionName fun name =>
    need .openParen .openParen fun _ =>
    run .params fun names =>
    need .closeParen .closeParen fun _ =>
    parse block fun body =>
    done (.function (keyword.span.through body.span) name.lexeme names body)
  | block =>
    need .openBrace .openBrace fun opener =>
    parse (statements .closeBrace) fun body =>
    need .closeBrace .closeBrace fun closer =>
    done (.block (opener.span.through closer.span) body)
  -- What cannot be assigned is blamed while the sign behind it is the current token.
  | expr =>
    parse (binary tiers) fun left =>
    peek fun t =>
    if t.kind = .assign then
      match left with
      | .ident .. =>
        advance t <| parse expr fun value => done (.assign (left.span.through value.span) left value)
      | _ => raise left.span .invalidTarget
    else done left
  | binary [] => parse unary done
  | binary (ops :: tighter) =>
    parse (binary tighter) fun left =>
    parse (binaryRest ops tighter left) done
  | binaryRest ops tighter left =>
    peek fun t =>
    if ops.contains t.kind then
      advance t <| parse (binary tighter) fun right =>
      parse (binaryRest ops tighter (.binary (left.span.through right.span) left t.lexeme right)) done
    else done left
  | unary =>
    peek fun t =>
    if t.kind = .bang || t.kind = .minus then
      advance t <| parse unary fun operand => done (.unary (t.span.through operand.span) t.lexeme operand)
    else parse call done
  | call =>
    parse primary fun callee => parse (callRest callee) done
  | callRest callee =>
    peek fun t =>
    if t.kind = .openParen then
      advance t <| parse (exprList .closeParen) fun args =>
      need .closeParen .closeParen fun closer =>
      parse (callRest (.call (callee.span.through closer.span) callee args)) done
    else done callee
  | primary =>
    peek fun t =>
    match LiteralKind.ofToken? t.kind with
    | some kind => advance t <| done (.literal t.span kind (literalValue kind t.lexeme))
    | none =>
      match t.kind with
      | .kwNop => advance t <| done (.nop t.span)
      | .ident => advance t <| done (.ident t.span t.lexeme)
      | .openParen =>
        advance t <| parse expr fun inner =>
        need .closeParen .closeParen fun _ =>
        done inner
      | .openBracket =>
        advance t <| parse (exprList .closeBracket) fun items =>
        need .closeBracket .closeBracket fun closer =>
        done (.list (t.span.through closer.span) items)
      | .openBrace => parse block done
      | .kwIf => advance t <| parse (conditional t) done
      | _ => want .expression t
  | conditional keyword =>
    parse expr fun condition =>
    parse block fun thenBlock =>
    peek fun t =>
    if t.kind = .kwElse then
      advance t <| parse otherwise fun elseBranch =>
      done (.conditional (keyword.span.through elseBranch.span) condition thenBlock elseBranch)
    else done (.conditional (keyword.span.through thenBlock.span) condition thenBlock (.nop thenBlock.span))
  | otherwise =>
    peek fun t =>
    if t.kind = .kwIf then advance t <| parse (conditional t) done else parse block done
  | exprList closer =>
    pass (· = .newline) <|
    peek fun t =>
    if t.kind = closer then done []
    else parse expr fun item =>
    pass (· = .newline) <|
    peek fun u =>
    if u.kind = .comma then
      advance u <| parse (exprList closer) fun others => done (item :: others)
    else done [item]

def Task.routine : (task : Task) → Routine task.Value
  | procedure p => p.routine
  | params =>
    peek fun t =>
    if t.kind = .closeParen then done []
    else if t.kind = .ident then
      advance t <| peek fun u =>
      if u.kind = .comma then advance u <| run .params fun names => done (t.lexeme :: names)
      else done [t.lexeme]
    else want .parameterName t

-- How a run ends, and with which tokens left. The first of them is the current token.
inductive Outcome (α : Type)
  | value (a : α) (rest : List Token)
  | raised (span : Span) (cause : SyntacticFault) (rest : List Token)
  | ranOut

inductive Runs : {α : Type} → Routine α → List Token → Outcome α → Prop
  | done {α : Type} {a : α} {ts} : Runs (.done a) ts (.value a ts)
  | raise {α : Type} {span cause ts} : Runs (.raise span cause : Routine α) ts (.raised span cause ts)
  | peek {α : Type} {next : Token → Routine α} {t ts out} : Runs (next t) (t :: ts) out → Runs (.peek next) (t :: ts) out
  | peekNothing {α : Type} {next : Token → Routine α} : Runs (.peek next) [] .ranOut
  | advance {α : Type} {next : Routine α} {t ts out} : Runs next ts out → Runs (.advance t next) (t :: ts) out
  | pass {α : Type} {p} {next : Routine α} {ts out} : Runs next (ts.dropWhile (p ·.kind)) out → Runs (.pass p next) ts out
  | run {α : Type} {task : Task} {next : task.Value → Routine α} {ts a rest out} :
    Runs task.routine ts (.value a rest) → Runs (next a) rest out → Runs (.run task next) ts out
  | runRaised {α : Type} {task : Task} {next : task.Value → Routine α} {ts span cause rest} :
    Runs task.routine ts (.raised span cause rest) → Runs (.run task next) ts (.raised span cause rest)
  | runRanOut {α : Type} {task : Task} {next : task.Value → Routine α} {ts} :
    Runs task.routine ts .ranOut → Runs (.run task next) ts .ranOut

theorem Runs.deterministic {α : Type} {r : Routine α} {ts : List Token} {out out' : Outcome α} (h : Runs r ts out)
    (h' : Runs r ts out') : out = out' := by
  induction h
  case done | raise | peekNothing =>
    cases h'
    rfl
  case peek hi | advance hi | pass hi =>
    cases h'
    exact hi ‹_›
  case run hi₁ hi₂ =>
    cases h'
    case run h₁ h₂ =>
      cases hi₁ h₁
      exact hi₂ h₂
    case runRaised h₁ | runRanOut h₁ => cases hi₁ h₁
  case runRaised hi =>
    cases h'
    case run h₁ _ | runRanOut h₁ => cases hi h₁
    case runRaised h₁ =>
      cases hi h₁
      rfl
  case runRanOut hi =>
    cases h'
    case run h₁ _ | runRaised h₁ => cases hi h₁
    case runRanOut => rfl

namespace Outcome

variable {α : Type}

def rest : Outcome α → List Token
  | value _ rest => rest
  | raised _ _ rest => rest
  | ranOut => []

-- The same ending in front of other tokens.
def onto (us : List Token) : Outcome α → Outcome α
  | value a _ => value a us
  | raised span cause _ => raised span cause us
  | ranOut => ranOut

-- What the parser's functions tell of an outcome.
def result : Outcome α → Except Failure (α × List Token)
  | value a rest => .ok (a, rest)
  | raised span cause _ => .error (.fault (.syntactic span cause))
  | ranOut => .error .outOfTokens

end Outcome

theorem head?_append_congr {us vs : List Token} (w : List Token) (h : us.head? = vs.head?) :
    (w ++ us).head? = (w ++ vs).head? := by
  cases w
  case nil => exact h
  case cons => rfl

theorem dropWhile_of_head? {p : Token → Bool} {us : List Token} (vs : List Token) (h : us.head? = (vs.dropWhile p).head?) :
    us.dropWhile p = us := by
  have hp := List.head?_dropWhile_not p vs
  cases us
  case nil => rfl
  case cons u us =>
    rw [← h] at hp
    exact List.dropWhile_cons_of_neg (by simpa using hp)

-- A run takes a word off the front of the tokens, and whatever follows the token where it has stopped is the same to it.
theorem Runs.local {α : Type} {r : Routine α} {ts : List Token} {out : Outcome α} (h : Runs r ts out) :
    ∃ w, ts = w ++ out.rest ∧ ∀ us, us.head? = out.rest.head? → Runs r (w ++ us) (out.onto us) := by
  induction h
  case done => exact ⟨[], rfl, fun _ _ => .done⟩
  case raise => exact ⟨[], rfl, fun _ _ => .raise⟩
  case peek t ts out _ hi =>
    obtain ⟨w, hw, hi⟩ := hi
    refine ⟨w, hw, fun us hus => ?_⟩
    have hr := hi us hus
    have hh : (w ++ us).head? = some t := by rw [head?_append_congr w hus, ← hw]; rfl
    obtain ⟨vs, hvs⟩ := List.head?_eq_some_iff.mp hh
    rw [hvs] at hr ⊢
    exact .peek hr
  case peekNothing =>
    refine ⟨[], rfl, fun us hus => ?_⟩
    rw [List.head?_eq_none_iff.mp hus]
    exact .peekNothing
  case advance t _ _ _ hi =>
    obtain ⟨w, rfl, hi⟩ := hi
    exact ⟨t :: w, rfl, fun us hus => .advance (hi us hus)⟩
  case pass p _ ts _ _ hi =>
    obtain ⟨w, hw, hi⟩ := hi
    refine ⟨ts.takeWhile (p ·.kind) ++ w, ?_, fun us hus => ?_⟩
    case refine_1 => rw [List.append_assoc, ← hw, List.takeWhile_append_dropWhile]
    case refine_2 =>
      have hd : (w ++ us).dropWhile (p ·.kind) = w ++ us := by
        refine dropWhile_of_head? ts ?_
        rw [hw]
        exact head?_append_congr w hus
      refine .pass ?_
      rw [List.append_assoc, List.dropWhile_append_of_pos fun t ht => List.all_eq_true.mp List.all_takeWhile t ht, hd]
      exact hi us hus
  case run hi₁ hi₂ =>
    obtain ⟨w₁, rfl, hi₁⟩ := hi₁
    obtain ⟨w₂, hw₂, hi₂⟩ := hi₂
    refine ⟨w₁ ++ w₂, by rw [List.append_assoc, ← hw₂]; rfl, fun us hus => ?_⟩
    rw [List.append_assoc]
    have hh : (w₂ ++ us).head? = (w₂ ++ _).head? := head?_append_congr w₂ hus
    exact .run (hi₁ (w₂ ++ us) (by rw [hh, ← hw₂]; rfl)) (hi₂ us hus)
  case runRaised hi =>
    obtain ⟨w, hw, hi⟩ := hi
    exact ⟨w, hw, fun us hus => .runRaised (hi us hus)⟩
  case runRanOut hi =>
    obtain ⟨w, hw, hi⟩ := hi
    exact ⟨w, hw, fun us hus => .runRanOut (hi us hus)⟩

def Task.read : (task : Task) → List Token → Except Failure (task.Value × List Token)
  | procedure p, ts => p.read ts
  | params, ts => readParams ts

-- A routine that has a run with the given result.
def Covers {α : Type} (r : Routine α) (ts : List Token) (result : Except Failure (α × List Token)) : Prop :=
  ∃ out, Runs r ts out ∧ out.result = result

namespace Covers

variable {α : Type} {t : Token} {ts : List Token} {result : Except Failure (α × List Token)}

theorem done {a : α} : Covers (.done a) ts (.ok (a, ts)) :=
  ⟨_, .done, rfl⟩

theorem want {what : Expectation} : Covers (.want what t : Routine α) ts (.error (wanted what t)) :=
  ⟨_, .raise, rfl⟩

theorem peekNothing {next : Token → Routine α} : Covers (.peek next) [] (.error .outOfTokens) :=
  ⟨_, .peekNothing, rfl⟩

theorem peek {next : Token → Routine α} (h : Covers (next t) (t :: ts) result) : Covers (.peek next) (t :: ts) result := by
  obtain ⟨out, hr, ho⟩ := h
  exact ⟨out, .peek hr, ho⟩

theorem advance {next : Routine α} (h : Covers next ts result) : Covers (.advance t next) (t :: ts) result := by
  obtain ⟨out, hr, ho⟩ := h
  exact ⟨out, .advance hr, ho⟩

theorem pass {p : Token.Kind → Bool} {next : Routine α} (h : Covers next (ts.dropWhile (p ·.kind)) result) :
    Covers (.pass p next) ts result := by
  obtain ⟨out, hr, ho⟩ := h
  exact ⟨out, .pass hr, ho⟩

theorem run {task : Task} {next : task.Value → Routine α} {result : Except Failure (task.Value × List Token)}
    {f : task.Value × List Token → Except Failure (α × List Token)} (h : Covers task.routine ts result)
    (hf : ∀ a rest, result = .ok (a, rest) → Covers (next a) rest (f (a, rest))) :
    Covers (.run task next) ts (result >>= f) := by
  obtain ⟨out, hr, rfl⟩ := h
  cases out
  case value a rest =>
    obtain ⟨out, hn, ho⟩ := hf a rest rfl
    exact ⟨out, .run hr hn, ho⟩
  case raised => exact ⟨_, .runRaised hr, rfl⟩
  case ranOut => exact ⟨_, .runRanOut hr, rfl⟩

theorem runDone {task : Task} {result : Except Failure (task.Value × List Token)} (h : Covers task.routine ts result) :
    Covers (.run task .done) ts result := by
  have hb : (result >>= fun x => .ok x) = result := by cases result <;> rfl
  rw [← hb]
  exact h.run fun _ _ _ => .done

theorem need {kind : Token.Kind} {what : Expectation} {next : Token → Routine α}
    {f : Token × List Token → Except Failure (α × List Token)}
    (hf : ∀ t rest, take kind what ts = .ok (t, rest) → Covers (next t) rest (f (t, rest))) :
    Covers (.need kind what next) ts (take kind what ts >>= f) := by
  cases ts
  case nil => exact .peekNothing
  case cons t ts =>
    refine .peek ?_
    simp only [take] at hf ⊢
    split
    case isTrue ht => exact .advance (hf t ts (by simp [ht]))
    case isFalse => exact .want

end Covers

namespace Procedure

def CoveredAt (p : Procedure) (ts : List Token) : Prop :=
  Covers (Task.procedure p).routine ts (p.read ts)

def CoveredBelow (n : Nat) : Prop :=
  ∀ p ts, cost p ts < n → CoveredAt p ts

theorem params_covered (ts : List Token) : Covers Task.params.routine ts (readParams ts) := by
  induction hn : ts.length using Nat.strongRecOn generalizing ts
  case ind n hi =>
    subst hn
    rw [readParams_eq]
    rcases ts with _ | ⟨t, ts⟩
    case nil => exact .peekNothing
    case cons =>
      refine .peek ?_
      dsimp only
      split
      case isTrue => exact .done
      case isFalse =>
        split
        case isFalse => exact .want
        case isTrue =>
          refine .advance ?_
          cases ts
          case nil => exact .peekNothing
          case cons u rest =>
            refine .peek ?_
            dsimp only
            split
            case isFalse => exact .done
            case isTrue =>
              have hr := hi rest.length (by simp only [List.length_cons]; omega) rest rfl
              exact .advance (hr.run fun _ _ _ => .done)

theorem statements_covered {closer : Token.Kind} {ts : List Token} (ih : CoveredBelow (cost (statements closer) ts)) :
    CoveredAt (statements closer) ts := by
  have hlen : (ts.dropWhile (·.kind.isSeparator)).length ≤ ts.length := (List.dropWhile_sublist _).length_le
  rw [CoveredAt, read_statements]
  refine .pass ?_
  generalize ts.dropWhile _ = us at hlen
  cases us
  case nil => exact .peekNothing
  case cons t us =>
    refine .peek ?_
    dsimp only
    split
    case isTrue => exact .done
    case isFalse =>
      split
      case isTrue => exact .want
      case isFalse =>
        refine (ih statement (t :: us) (by simp only [cost, rank] at *; omega)).run fun first behind h₁ => ?_
        have hl := length_lt_of_read h₁
        cases behind
        case nil => exact .peekNothing
        case cons u behind =>
          refine .peek ?_
          dsimp only
          split
          case isTrue => exact .done
          case isFalse =>
            split
            case isFalse => exact .want
            case isTrue =>
              have hr := ih (statements closer) (u :: behind) (by simp only [cost, rank, slack] at *; omega)
              exact hr.run fun _ _ _ => .done

theorem statement_covered {ts : List Token} (ih : CoveredBelow (cost statement ts)) : CoveredAt statement ts := by
  rw [CoveredAt, read_statement]
  cases ts
  case nil => exact .peekNothing
  case cons t us =>
    refine .peek ?_
    dsimp only
    cases t.kind
    case kwLet => exact .advance (ih (letStatement t) us (by simp [cost, rank])).runDone
    case kwReturn => exact .advance (ih (returnStatement t) us (by simp [cost, rank])).runDone
    case kwFn => exact .advance (ih (function t) us (by simp [cost, rank])).runDone
    all_goals exact (ih expr (t :: us) (by simp [cost, rank])).runDone

theorem letStatement_covered {keyword : Token} {ts : List Token} (ih : CoveredBelow (cost (letStatement keyword) ts)) :
    CoveredAt (letStatement keyword) ts := by
  rw [CoveredAt, read_letStatement]
  refine .need fun name rest h₁ => ?_
  have hl := length_lt_of_take h₁
  cases rest
  case nil => exact .peekNothing
  case cons t rest =>
    refine .peek ?_
    dsimp only
    split
    case isTrue =>
      have hr := ih expr rest (by simp only [cost, rank, List.length_cons] at *; omega)
      exact .advance (hr.run fun _ _ _ => .done)
    case isFalse => exact .want

theorem returnStatement_covered {keyword : Token} {ts : List Token}
    (ih : CoveredBelow (cost (returnStatement keyword) ts)) : CoveredAt (returnStatement keyword) ts := by
  rw [CoveredAt, read_returnStatement]
  cases ts
  case nil => exact .peekNothing
  case cons t us =>
    refine .peek ?_
    dsimp only
    split
    case isTrue => exact .done
    case isFalse => exact (ih expr (t :: us) (by simp [cost, rank])).run fun _ _ _ => .done

theorem function_covered {keyword : Token} {ts : List Token} (ih : CoveredBelow (cost (function keyword) ts)) :
    CoveredAt (function keyword) ts := by
  rw [CoveredAt, read_function]
  refine .need fun name rest₁ h₁ => .need fun opener rest₂ h₂ => ?_
  refine (params_covered rest₂).run fun names rest₃ h₃ => .need fun closer rest₄ h₄ => ?_
  have hl₁ := length_lt_of_take h₁
  have hl₂ := length_lt_of_take h₂
  have hl₃ := plain_ok h₃
  have hl₄ := length_lt_of_take h₄
  exact (ih block rest₄ (by simp only [cost, rank]; omega)).run fun _ _ _ => .done

theorem block_covered {ts : List Token} (ih : CoveredBelow (cost block ts)) : CoveredAt block ts := by
  rw [CoveredAt, read_block]
  refine .need fun opener rest₁ h₁ => ?_
  have hl := length_lt_of_take h₁
  refine (ih (statements _) rest₁ (by simp only [cost, rank]; omega)).run fun body rest₂ _ => ?_
  exact .need fun _ _ _ => .done

theorem expr_covered {ts : List Token} (ih : CoveredBelow (cost expr ts)) : CoveredAt expr ts := by
  rw [CoveredAt, read_expr]
  refine (ih (binary tiers) ts (by simp [cost, rank, tiers_length])).run fun left rest h₁ => ?_
  have hl := length_lt_of_read h₁
  cases rest
  case nil => exact .peekNothing
  case cons t rest =>
    refine .peek ?_
    dsimp only
    split
    case isFalse => exact .done
    case isTrue =>
      cases left
      case ident =>
        have hr := ih expr rest (by simp only [cost, rank, slack, List.length_cons] at *; omega)
        exact .advance (hr.run fun _ _ _ => .done)
      all_goals exact ⟨_, .raise, rfl⟩

theorem binary_covered {levels : List (List Token.Kind)} {ts : List Token} (ih : CoveredBelow (cost (binary levels) ts)) :
    CoveredAt (binary levels) ts := by
  cases levels
  case nil =>
    rw [CoveredAt, read_binary_nil]
    exact (ih unary ts (by simp [cost, rank])).runDone
  case cons ops tighter =>
    rw [CoveredAt, read_binary_cons]
    refine (ih (binary tighter) ts (by simp [cost, rank])).run fun left rest h₁ => ?_
    have hl := length_lt_of_read h₁
    exact (ih (binaryRest ops tighter left) rest (by simp [cost, rank, slack] at *; omega)).runDone

theorem binaryRest_covered {ops : List Token.Kind} {tighter : List (List Token.Kind)} {left : Node} {ts : List Token}
    (ih : CoveredBelow (cost (binaryRest ops tighter left) ts)) : CoveredAt (binaryRest ops tighter left) ts := by
  rw [CoveredAt, read_binaryRest]
  cases ts
  case nil => exact .peekNothing
  case cons t us =>
    refine .peek ?_
    dsimp only
    split
    case isFalse => exact .done
    case isTrue =>
      refine .advance ((ih (binary tighter) us (by simp [cost, rank])).run fun right rest h₁ => ?_)
      have hl := length_lt_of_read h₁
      exact (ih (binaryRest ops tighter _) rest (by simp [cost, rank, slack] at *; omega)).runDone

theorem unary_covered {ts : List Token} (ih : CoveredBelow (cost unary ts)) : CoveredAt unary ts := by
  rw [CoveredAt, read_unary]
  cases ts
  case nil => exact .peekNothing
  case cons t us =>
    refine .peek ?_
    dsimp only
    split
    case isTrue => exact .advance ((ih unary us (by simp [cost, rank])).run fun _ _ _ => .done)
    case isFalse => exact (ih call (t :: us) (by simp [cost, rank])).runDone

theorem call_covered {ts : List Token} (ih : CoveredBelow (cost call ts)) : CoveredAt call ts := by
  rw [CoveredAt, read_call]
  refine (ih primary ts (by simp [cost, rank])).run fun callee rest h₁ => ?_
  have hl := length_lt_of_read h₁
  exact (ih (callRest callee) rest (by simp [cost, rank, slack] at *; omega)).runDone

theorem callRest_covered {callee : Node} {ts : List Token} (ih : CoveredBelow (cost (callRest callee) ts)) :
    CoveredAt (callRest callee) ts := by
  rw [CoveredAt, read_callRest]
  cases ts
  case nil => exact .peekNothing
  case cons t us =>
    refine .peek ?_
    dsimp only
    split
    case isFalse => exact .done
    case isTrue =>
      have hr := ih (exprList .closeParen) us (by simp only [cost, rank, List.length_cons]; omega)
      refine .advance (hr.run fun args rest₁ h₁ => .need fun closer rest₂ h₂ => ?_)
      have hl₁ := length_lt_of_read h₁
      have hl₂ := length_lt_of_take h₂
      exact (ih (callRest _) rest₂ (by simp [cost, rank, slack] at *; omega)).runDone

theorem primary_covered {ts : List Token} (ih : CoveredBelow (cost primary ts)) : CoveredAt primary ts := by
  rw [CoveredAt, read_primary]
  cases ts
  case nil => exact .peekNothing
  case cons t us =>
    refine .peek ?_
    dsimp only
    cases t.kind
    case int | float | string | kwTrue | kwFalse | kwNop | ident => exact .advance .done
    case openParen =>
      have hr := ih expr us (by simp only [cost, rank, List.length_cons]; omega)
      exact .advance (hr.run fun _ _ _ => .need fun _ _ _ => .done)
    case openBracket =>
      have hr := ih (exprList .closeBracket) us (by simp only [cost, rank, List.length_cons]; omega)
      exact .advance (hr.run fun _ _ _ => .need fun _ _ _ => .done)
    case openBrace => exact (ih block (t :: us) (by simp [cost, rank])).runDone
    case kwIf => exact .advance (ih (conditional t) us (by simp only [cost, rank, List.length_cons]; omega)).runDone
    all_goals exact .want

theorem conditional_covered {keyword : Token} {ts : List Token} (ih : CoveredBelow (cost (conditional keyword) ts)) :
    CoveredAt (conditional keyword) ts := by
  rw [CoveredAt, read_conditional]
  refine (ih expr ts (by simp [cost, rank])).run fun condition rest₁ h₁ => ?_
  have hl₁ := length_lt_of_read h₁
  refine (ih block rest₁ (by simp [cost, rank, slack] at *; omega)).run fun thenBlock rest₂ h₂ => ?_
  have hl₂ := length_lt_of_read h₂
  cases rest₂
  case nil => exact .peekNothing
  case cons t rest₃ =>
    refine .peek ?_
    dsimp only
    split
    case isTrue =>
      have hr := ih otherwise rest₃ (by simp [cost, rank, slack] at *; omega)
      exact .advance (hr.run fun _ _ _ => .done)
    case isFalse => exact .done

theorem otherwise_covered {ts : List Token} (ih : CoveredBelow (cost otherwise ts)) : CoveredAt otherwise ts := by
  rw [CoveredAt, read_otherwise]
  cases ts
  case nil => exact .peekNothing
  case cons t us =>
    refine .peek ?_
    dsimp only
    split
    case isTrue => exact .advance (ih (conditional t) us (by simp only [cost, rank, List.length_cons]; omega)).runDone
    case isFalse => exact (ih block (t :: us) (by simp [cost, rank])).runDone

theorem exprList_covered {closer : Token.Kind} {ts : List Token} (ih : CoveredBelow (cost (exprList closer) ts)) :
    CoveredAt (exprList closer) ts := by
  have hlen : (ts.dropWhile (·.kind = .newline)).length ≤ ts.length := (List.dropWhile_sublist _).length_le
  rw [CoveredAt, read_exprList]
  refine .pass ?_
  generalize ts.dropWhile _ = us at hlen
  cases us
  case nil => exact .peekNothing
  case cons t us =>
    refine .peek ?_
    dsimp only
    split
    case isTrue => exact .done
    case isFalse =>
      refine (ih expr (t :: us) (by simp only [cost, rank] at *; omega)).run fun item behind h₁ => .pass ?_
      have hl := length_lt_of_read h₁
      have hlen' : (behind.dropWhile (·.kind = .newline)).length ≤ behind.length := (List.dropWhile_sublist _).length_le
      dsimp only
      generalize behind.dropWhile _ = vs at hlen'
      cases vs
      case nil => exact .peekNothing
      case cons u vs =>
        refine .peek ?_
        dsimp only
        split
        case isFalse => exact .done
        case isTrue =>
          have hr := ih (exprList closer) vs (by simp only [cost, rank, slack, List.length_cons] at *; omega)
          exact .advance (hr.run fun _ _ _ => .done)

theorem covered (p : Procedure) (ts : List Token) : CoveredAt p ts := by
  refine induct (fun p ts ih => ?_) p ts
  cases p
  case statements => exact statements_covered ih
  case statement => exact statement_covered ih
  case letStatement => exact letStatement_covered ih
  case returnStatement => exact returnStatement_covered ih
  case function => exact function_covered ih
  case block => exact block_covered ih
  case expr => exact expr_covered ih
  case binary => exact binary_covered ih
  case binaryRest => exact binaryRest_covered ih
  case unary => exact unary_covered ih
  case call => exact call_covered ih
  case callRest => exact callRest_covered ih
  case primary => exact primary_covered ih
  case conditional => exact conditional_covered ih
  case otherwise => exact otherwise_covered ih
  case exprList => exact exprList_covered ih

end Procedure

-- Runs of the routines and the parser's functions tell the same.
theorem Task.exists_runs (task : Task) (ts : List Token) : ∃ out, Runs task.routine ts out ∧ out.result = task.read ts := by
  cases task
  case procedure p => exact p.covered ts
  case params => exact params_covered ts

theorem Runs.result_eq {task : Task} {ts : List Token} {out : Outcome task.Value} (h : Runs task.routine ts out) :
    task.read ts = out.result := by
  obtain ⟨out', hr, ho⟩ := task.exists_runs ts
  rw [h.deterministic hr, ho]

theorem Procedure.read_of_runs {p : Procedure} {ts : List Token} {out : Outcome p.Value} (h : Runs p.routine ts out) :
    p.read ts = out.result :=
  (show Runs (Task.procedure p).routine ts out from h).result_eq

end ParenTree.Parser
