import ParenTree.Proofs.Steps
import ParenTree.Syntax.Parser

-- The functions of the parser as one family. A procedure is one of them with its parameters, and `read` is what it makes of
-- a token list, without the proof that the tokens left over are fewer. Each procedure has one equation below, which says
-- what it reads in terms of what other procedures read; later proofs use these equations only.

namespace ParenTree.Parser

-- What a result says, without the bound on the tokens that are left.
def plain {α : Type} {bound : Nat} (r : Result α bound) : Except Failure (α × List Token) :=
  r.map fun p => (p.value, p.rest)

theorem plain_bind {α β : Type} {a b : Nat} {r : Result α a} {f : Parsed α a → Result β b}
    {g : α × List Token → Except Failure (β × List Token)} (h : ∀ p, plain (f p) = g (p.value, p.rest)) :
    plain (r >>= f) = plain r >>= g := by
  cases r
  case error => rfl
  case ok p => exact h p

theorem plain_ok {α : Type} {bound : Nat} {r : Result α bound} {value : α} {rest : List Token}
    (h : plain r = .ok (value, rest)) : rest.length < bound := by
  cases r
  case error => cases h
  case ok p =>
    cases h
    exact p.shorter

inductive Procedure
  | statements (closer : Token.Kind)
  | statement
  | letStatement (keyword : Token)
  | returnStatement (keyword : Token)
  | function (keyword : Token)
  | block
  | expr
  | binary (levels : List (List Token.Kind))
  | binaryRest (ops : List Token.Kind) (tighter : List (List Token.Kind)) (left : Node)
  | unary
  | call
  | callRest (callee : Node)
  | primary
  | conditional (keyword : Token)
  | otherwise
  | exprList (closer : Token.Kind)

namespace Procedure

abbrev Value : Procedure → Type
  | statements _ | exprList _ => List Node
  | _ => Node

def read : (p : Procedure) → List Token → Except Failure (p.Value × List Token)
  | statements closer, ts => plain (Parser.statements closer ts)
  | statement, ts => plain (Parser.statement ts)
  | letStatement keyword, ts => plain (Parser.letStatement keyword ts)
  | returnStatement keyword, ts => plain (Parser.returnStatement keyword ts)
  | function keyword, ts => plain (Parser.function keyword ts)
  | block, ts => plain (Parser.block ts)
  | expr, ts => plain (Parser.expr ts)
  | binary levels, ts => plain (Parser.binary levels ts)
  | binaryRest ops tighter left, ts => plain (Parser.binaryRest ops tighter left ts)
  | unary, ts => plain (Parser.unary ts)
  | call, ts => plain (Parser.call ts)
  | callRest callee, ts => plain (Parser.callRest callee ts)
  | primary, ts => plain (Parser.primary ts)
  | conditional keyword, ts => plain (Parser.conditional keyword ts)
  | otherwise, ts => plain (Parser.otherwise ts)
  | exprList closer, ts => plain (Parser.exprList closer ts)

-- How many tokens a procedure may leave beyond those it got, less one. The loops, and what follows a keyword that has been
-- taken already, may take nothing.
def slack : Procedure → Nat
  | statement | block | expr | binary _ | unary | call | primary | otherwise => 0
  | _ => 1

theorem length_lt_of_read {p : Procedure} {ts rest : List Token} {value : p.Value} (h : p.read ts = .ok (value, rest)) :
    rest.length < ts.length + p.slack := by
  cases p <;> exact plain_ok h

-- Where a procedure stands among those that begin at the same token: it calls only lower ones there.
def rank : Procedure → Nat
  | block | callRest _ => 0
  | primary | otherwise => 1
  | call => 2
  | unary => 3
  | binary levels => 4 + levels.length
  | binaryRest _ tighter _ => 4 + tighter.length
  | expr => 11
  | statement | letStatement _ | returnStatement _ | function _ | conditional _ | exprList _ => 12
  | statements _ => 13

def cost (p : Procedure) (ts : List Token) : Nat :=
  16 * ts.length + p.rank

-- What holds of a procedure once it holds of all that it may call holds of every procedure.
theorem induct {motive : Procedure → List Token → Prop}
    (step : ∀ p ts, (∀ q us, q.cost us < p.cost ts → motive q us) → motive p ts) (p : Procedure) (ts : List Token) :
    motive p ts := by
  generalize hn : p.cost ts = n
  induction n using Nat.strongRecOn generalizing p ts
  case ind n hi =>
    subst hn
    exact step p ts fun q us h => hi _ h q us rfl

-- One token of a given kind.
def take (kind : Token.Kind) (what : Expectation) : List Token → Except Failure (Token × List Token)
  | [] => .error .outOfTokens
  | t :: ts => if t.kind = kind then .ok (t, ts) else .error (wanted what t)

theorem plain_expect (kind : Token.Kind) (what : Expectation) (ts : List Token) :
    plain (expect kind what ts) = take kind what ts := by
  cases ts
  case nil => rfl
  case cons t ts =>
    simp only [expect, take]
    split <;> rfl

theorem take_ok {kind : Token.Kind} {what : Expectation} {ts rest : List Token} {t : Token}
    (h : take kind what ts = .ok (t, rest)) : ts = t :: rest ∧ t.kind = kind := by
  cases ts
  case nil => cases h
  case cons u us =>
    simp only [take] at h
    split at h
    case isTrue hk =>
      cases h
      exact ⟨rfl, hk⟩
    case isFalse => cases h

theorem length_lt_of_take {kind : Token.Kind} {what : Expectation} {ts rest : List Token} {t : Token}
    (h : take kind what ts = .ok (t, rest)) : rest.length < ts.length := by
  simp [(take_ok h).left]

theorem skip_val (p : Token.Kind → Bool) (ts : List Token) : (skip p ts).val = ts.dropWhile (p ·.kind) :=
  rfl

-- Parameter names up to the closing parenthesis.
def readParams (ts : List Token) : Except Failure (List String × List Token) :=
  plain (params ts)

theorem readParams_eq (ts : List Token) : readParams ts = (
    match ts with
    | [] => .error .outOfTokens
    | t :: ts =>
      if t.kind = .closeParen then .ok ([], t :: ts)
      else if t.kind = .ident then
        match ts with
        | [] => .error .outOfTokens
        | u :: rest =>
          if u.kind = .comma then do
            let (names, rest) ← readParams rest
            return (t.lexeme :: names, rest)
          else .ok ([t.lexeme], u :: rest)
      else .error (wanted .parameterName t)) := by
  simp only [readParams]
  rw [params.eq_def]
  rcases ts with _ | ⟨t, _ | ⟨u, rest⟩⟩
  case nil => rfl
  all_goals
    dsimp only
    repeat' split
    all_goals first | rfl | exact plain_bind fun _ => rfl

theorem read_statements (closer : Token.Kind) (ts : List Token) : read (statements closer) ts = (
    match ts.dropWhile (·.kind.isSeparator) with
    | [] => .error .outOfTokens
    | t :: rest =>
      if t.kind = closer then .ok ([], t :: rest)
      else if t.kind = .endOfInput then .error (wanted .blockEnd t)
      else do
        let (first, behind) ← read statement (t :: rest)
        match behind with
        | [] => .error .outOfTokens
        | u :: behind =>
          if u.kind = closer then .ok ([first], u :: behind)
          else if u.kind.isSeparator then do
            let (others, rest) ← read (statements closer) (u :: behind)
            return (first :: others, rest)
          else .error (wanted .separator u)) := by
  simp only [read]
  rw [Parser.statements, ← skip_val]
  obtain ⟨rest, h⟩ := skip Token.Kind.isSeparator ts
  cases rest
  case nil => rfl
  case cons t rest =>
    dsimp only
    split
    case isTrue => rfl
    case isFalse =>
      split
      case isTrue => rfl
      case isFalse =>
        refine plain_bind ?_
        rintro ⟨first, behind, h⟩
        cases behind
        case nil => rfl
        case cons u behind =>
          dsimp only
          repeat' split
          all_goals first | rfl | exact plain_bind fun _ => rfl

theorem read_statement (ts : List Token) : read statement ts = (
    match ts with
    | [] => .error .outOfTokens
    | t :: rest =>
      match t.kind with
      | .kwLet => read (letStatement t) rest
      | .kwReturn => read (returnStatement t) rest
      | .kwFn => read (function t) rest
      | _ => read expr (t :: rest)) := by
  simp only [read]
  rw [Parser.statement.eq_def]
  cases ts
  case nil => rfl
  case cons t rest =>
    dsimp only
    cases t.kind <;> rfl

theorem read_letStatement (keyword : Token) (ts : List Token) : read (letStatement keyword) ts = (do
    let (name, rest) ← take .ident .variableName ts
    match rest with
    | [] => .error .outOfTokens
    | t :: rest =>
      if t.kind = .define || t.kind = .assign then do
        let (value, rest) ← read expr rest
        return (.letStmt (keyword.span.through value.span) name.lexeme value, rest)
      else .error (wanted .defineSign t)) := by
  simp only [read, ← plain_expect]
  rw [Parser.letStatement]
  refine plain_bind ?_
  rintro ⟨name, rest, h⟩
  cases rest
  case nil => rfl
  case cons t rest =>
    dsimp only
    split
    case isTrue => exact plain_bind fun _ => rfl
    case isFalse => rfl

theorem read_returnStatement (keyword : Token) (ts : List Token) : read (returnStatement keyword) ts = (
    match ts with
    | [] => .error .outOfTokens
    | t :: rest =>
      if t.kind.isSeparator || t.kind = .closeBrace || t.kind = .endOfInput then
        .ok (.returnStmt keyword.span (.nop keyword.span), t :: rest)
      else do
        let (value, rest) ← read expr (t :: rest)
        return (.returnStmt (keyword.span.through value.span) value, rest)) := by
  simp only [read]
  rw [Parser.returnStatement.eq_def]
  cases ts
  case nil => rfl
  case cons t rest =>
    dsimp only
    split
    case isTrue => rfl
    case isFalse => exact plain_bind fun _ => rfl

theorem read_function (keyword : Token) (ts : List Token) : read (function keyword) ts = (do
    let (name, rest) ← take .ident .functionName ts
    let (_, rest) ← take .openParen .openParen rest
    let (names, rest) ← readParams rest
    let (_, rest) ← take .closeParen .closeParen rest
    let (body, rest) ← read block rest
    return (.function (keyword.span.through body.span) name.lexeme names body, rest)) := by
  simp only [read, ← plain_expect, readParams]
  rw [Parser.function]
  refine plain_bind fun _ => plain_bind fun _ => plain_bind fun _ => ?_
  exact plain_bind fun _ => plain_bind fun _ => rfl

theorem read_block (ts : List Token) : read block ts = (do
    let (opener, rest) ← take .openBrace .openBrace ts
    let (body, rest) ← read (statements .closeBrace) rest
    let (closer, rest) ← take .closeBrace .closeBrace rest
    return (.block (opener.span.through closer.span) body, rest)) := by
  simp only [read, ← plain_expect]
  rw [Parser.block]
  exact plain_bind fun _ => plain_bind fun _ => plain_bind fun _ => rfl

theorem read_expr (ts : List Token) : read expr ts = (do
    let (left, rest) ← read (binary tiers) ts
    match rest with
    | [] => .error .outOfTokens
    | t :: rest =>
      if t.kind = .assign then
        match left with
        | .ident .. => do
          let (value, rest) ← read expr rest
          return (.assign (left.span.through value.span) left value, rest)
        | _ => .error (.fault (.syntactic left.span .invalidTarget))
      else .ok (left, t :: rest)) := by
  simp only [read]
  rw [Parser.expr]
  refine plain_bind ?_
  rintro ⟨left, rest, h⟩
  cases rest
  case nil => rfl
  case cons t rest =>
    dsimp only
    split
    case isTrue =>
      cases left
      case ident => exact plain_bind fun _ => rfl
      all_goals rfl
    case isFalse => rfl

theorem read_binary_nil (ts : List Token) : read (binary []) ts = read unary ts := by
  simp only [read]
  rw [Parser.binary]

theorem read_binary_cons (ops : List Token.Kind) (tighter : List (List Token.Kind)) (ts : List Token) :
    read (binary (ops :: tighter)) ts = (do
      let (left, rest) ← read (binary tighter) ts
      read (binaryRest ops tighter left) rest) := by
  simp only [read]
  rw [Parser.binary]
  refine plain_bind ?_
  rintro ⟨left, rest, h⟩
  dsimp only
  cases Parser.binaryRest ops tighter left rest <;> rfl

theorem read_binaryRest (ops : List Token.Kind) (tighter : List (List Token.Kind)) (left : Node) (ts : List Token) :
    read (binaryRest ops tighter left) ts = (
      match ts with
      | [] => .error .outOfTokens
      | t :: rest =>
        if ops.contains t.kind then do
          let (right, rest) ← read (binary tighter) rest
          read (binaryRest ops tighter (.binary (left.span.through right.span) left t.lexeme right)) rest
        else .ok (left, t :: rest)) := by
  simp only [read]
  rw [Parser.binaryRest.eq_def]
  cases ts
  case nil => rfl
  case cons t rest =>
    dsimp only
    split
    case isTrue =>
      refine plain_bind ?_
      rintro ⟨right, rest, h⟩
      dsimp only
      cases Parser.binaryRest ops tighter (.binary (left.span.through right.span) left t.lexeme right) rest <;> rfl
    case isFalse => rfl

theorem read_unary (ts : List Token) : read unary ts = (
    match ts with
    | [] => .error .outOfTokens
    | t :: rest =>
      if t.kind = .bang || t.kind = .minus then do
        let (operand, rest) ← read unary rest
        return (.unary (t.span.through operand.span) t.lexeme operand, rest)
      else read call (t :: rest)) := by
  simp only [read]
  rw [Parser.unary.eq_def]
  cases ts
  case nil => rfl
  case cons t rest =>
    dsimp only
    split
    case isTrue => exact plain_bind fun _ => rfl
    case isFalse => rfl

theorem read_call (ts : List Token) : read call ts = (do
    let (callee, rest) ← read primary ts
    read (callRest callee) rest) := by
  simp only [read]
  rw [Parser.call]
  refine plain_bind ?_
  rintro ⟨callee, rest, h⟩
  dsimp only
  cases Parser.callRest callee rest <;> rfl

theorem read_callRest (callee : Node) (ts : List Token) : read (callRest callee) ts = (
    match ts with
    | [] => .error .outOfTokens
    | t :: rest =>
      if t.kind = .openParen then do
        let (args, rest) ← read (exprList .closeParen) rest
        let (closer, rest) ← take .closeParen .closeParen rest
        read (callRest (.call (callee.span.through closer.span) callee args)) rest
      else .ok (callee, t :: rest)) := by
  simp only [read, ← plain_expect]
  rw [Parser.callRest.eq_def]
  cases ts
  case nil => rfl
  case cons t rest =>
    dsimp only
    split
    case isTrue =>
      refine plain_bind ?_
      rintro ⟨args, rest, _⟩
      refine plain_bind ?_
      rintro ⟨closer, rest, h⟩
      dsimp only
      cases Parser.callRest (.call (callee.span.through closer.span) callee args) rest <;> rfl
    case isFalse => rfl

theorem read_primary (ts : List Token) : read primary ts = (
    match ts with
    | [] => .error .outOfTokens
    | t :: rest =>
      match LiteralKind.ofToken? t.kind with
      | some kind => .ok (.literal t.span kind (literalValue kind t.lexeme), rest)
      | none =>
        match t.kind with
        | .kwNop => .ok (.nop t.span, rest)
        | .ident => .ok (.ident t.span t.lexeme, rest)
        | .openParen => do
          let (inner, rest) ← read expr rest
          let (_, rest) ← take .closeParen .closeParen rest
          return (inner, rest)
        | .openBracket => do
          let (items, rest) ← read (exprList .closeBracket) rest
          let (closer, rest) ← take .closeBracket .closeBracket rest
          return (.list (t.span.through closer.span) items, rest)
        | .openBrace => read block (t :: rest)
        | .kwIf => read (conditional t) rest
        | _ => .error (wanted .expression t)) := by
  simp only [read, ← plain_expect]
  rw [Parser.primary.eq_def]
  cases ts
  case nil => rfl
  case cons t rest =>
    dsimp only
    cases t.kind
    case openParen => exact plain_bind fun _ => plain_bind fun _ => rfl
    case openBracket => exact plain_bind fun _ => plain_bind fun _ => rfl
    all_goals rfl

theorem read_conditional (keyword : Token) (ts : List Token) : read (conditional keyword) ts = (do
    let (condition, rest) ← read expr ts
    let (thenBlock, rest) ← read block rest
    match rest with
    | [] => .error .outOfTokens
    | t :: rest =>
      if t.kind = .kwElse then do
        let (elseBranch, rest) ← read otherwise rest
        return (.conditional (keyword.span.through elseBranch.span) condition thenBlock elseBranch, rest)
      else .ok (.conditional (keyword.span.through thenBlock.span) condition thenBlock (.nop thenBlock.span), t :: rest)) := by
  simp only [read]
  rw [Parser.conditional]
  refine plain_bind fun _ => plain_bind ?_
  rintro ⟨thenBlock, rest, h⟩
  cases rest
  case nil => rfl
  case cons t rest =>
    dsimp only
    split
    case isTrue => exact plain_bind fun _ => rfl
    case isFalse => rfl

theorem read_otherwise (ts : List Token) : read otherwise ts = (
    match ts with
    | [] => .error .outOfTokens
    | t :: rest => if t.kind = .kwIf then read (conditional t) rest else read block (t :: rest)) := by
  simp only [read]
  rw [Parser.otherwise.eq_def]
  cases ts
  case nil => rfl
  case cons t rest =>
    dsimp only
    split <;> rfl

theorem read_exprList (closer : Token.Kind) (ts : List Token) : read (exprList closer) ts = (
    match ts.dropWhile (·.kind = .newline) with
    | [] => .error .outOfTokens
    | t :: rest =>
      if t.kind = closer then .ok ([], t :: rest)
      else do
        let (item, behind) ← read expr (t :: rest)
        match behind.dropWhile (·.kind = .newline) with
        | [] => .error .outOfTokens
        | u :: behind =>
          if u.kind = .comma then do
            let (others, rest) ← read (exprList closer) behind
            return (item :: others, rest)
          else .ok ([item], u :: behind)) := by
  simp only [read]
  rw [Parser.exprList, ← skip_val (· = .newline)]
  obtain ⟨rest, h⟩ := skip (· = .newline) ts
  cases rest
  case nil => rfl
  case cons t rest =>
    dsimp only
    split
    case isTrue => rfl
    case isFalse =>
      refine plain_bind ?_
      rintro ⟨item, behind, h⟩
      dsimp only
      rw [← skip_val (· = .newline)]
      obtain ⟨behind, h⟩ := skip (· = .newline) behind
      cases behind
      case nil => rfl
      case cons u behind =>
        dsimp only
        split
        case isTrue => exact plain_bind fun _ => rfl
        case isFalse => rfl

end Procedure
end ParenTree.Parser
