import ParenTree.Source.Lexer
import ParenTree.Syntax.Node

-- From tokens to syntax trees. Each function reads one construct of the grammar from the front of a token list and returns the
-- tokens behind it, which are fewer than those it got. That bound, together with the order in which constructs that begin
-- alike try each other, is why reading ends.

namespace ParenTree

namespace Parser

inductive Failure
  | fault (fault : SourceFault)
  | outOfTokens
deriving DecidableEq, Repr

structure Parsed (α : Type) (bound : Nat) where
  value : α
  rest : List Token
  shorter : rest.length < bound

abbrev Result (α : Type) (bound : Nat) := Except Failure (Parsed α bound)

def wanted (what : Expectation) (t : Token) : Failure :=
  .fault (.syntactic t.span (.expected what))

def expect (kind : Token.Kind) (what : Expectation) : (ts : List Token) → Result Token ts.length
  | [] => .error .outOfTokens
  | t :: ts => if t.kind = kind then .ok ⟨t, ts, by simp⟩ else .error (wanted what t)

def skip (p : Token.Kind → Bool) (ts : List Token) : { rest : List Token // rest.length ≤ ts.length } :=
  ⟨ts.dropWhile (p ·.kind), (List.dropWhile_sublist _).length_le⟩

-- Binary operators by tier, the loosest first. Every tier associates to the left.
def tiers : List (List Token.Kind) :=
  [[.or], [.and], [.equal, .notEqual], [.less, .lessEqual, .greater, .greaterEqual], [.plus, .minus],
   [.star, .slash, .percent]]

theorem tiers_length : tiers.length = 6 :=
  rfl

def literalValue (kind : LiteralKind) (lexeme : String) : String :=
  match kind with
  | .string => .ofList (lexeme.toList.drop 1).dropLast
  | _ => lexeme

def params : (ts : List Token) → Result (List String) (ts.length + 1)
  | [] => .error .outOfTokens
  | t :: ts =>
    if t.kind = .closeParen then .ok ⟨[], t :: ts, by simp⟩
    else if t.kind = .ident then
      match ts with
      | [] => .error .outOfTokens
      | u :: rest =>
        if u.kind = .comma then do
          let ⟨names, rest', _⟩ ← params rest
          return ⟨t.lexeme :: names, rest', by simp only [List.length_cons]; omega⟩
        else .ok ⟨[t.lexeme], u :: rest, by simp⟩
    else .error (wanted .parameterName t)

mutual

def statements (closer : Token.Kind) (ts : List Token) : Result (List Node) (ts.length + 1) :=
  match skip Token.Kind.isSeparator ts with
  | ⟨[], _⟩ => .error .outOfTokens
  | ⟨t :: rest, h⟩ =>
    if t.kind = closer then .ok ⟨[], t :: rest, by omega⟩
    else if t.kind = .endOfInput then .error (wanted .blockEnd t)
    else do
      let ⟨first, behind, h₁⟩ ← statement (t :: rest)
      match behind, h₁ with
      | [], _ => .error .outOfTokens
      | u :: behind, h₁ =>
        if u.kind = closer then .ok ⟨[first], u :: behind, by omega⟩
        else if u.kind.isSeparator then do
          let ⟨others, rest', h₂⟩ ← statements closer (u :: behind)
          return ⟨first :: others, rest', by omega⟩
        else .error (wanted .separator u)
termination_by 16 * ts.length + 13
decreasing_by all_goals omega

def statement (ts : List Token) : Result Node ts.length :=
  match ts with
  | [] => .error .outOfTokens
  | t :: rest =>
    match t.kind with
    | .kwLet => letStatement t rest
    | .kwReturn => returnStatement t rest
    | .kwFn => function t rest
    | _ => expr (t :: rest)
termination_by 16 * ts.length + 12
decreasing_by all_goals simp only [List.length_cons] at *; omega

def letStatement (keyword : Token) (ts : List Token) : Result Node (ts.length + 1) := do
  let ⟨name, rest, h₁⟩ ← expect .ident .variableName ts
  match rest, h₁ with
  | [], _ => .error .outOfTokens
  | t :: rest, h₁ =>
    if t.kind = .define || t.kind = .assign then do
      let ⟨value, rest, h₂⟩ ← expr rest
      return ⟨.letStmt (keyword.span.through value.span) name.lexeme value, rest, by simp at h₁; omega⟩
    else .error (wanted .defineSign t)
termination_by 16 * ts.length + 12
decreasing_by all_goals simp only [List.length_cons] at *; omega

def returnStatement (keyword : Token) (ts : List Token) : Result Node (ts.length + 1) :=
  match ts with
  | [] => .error .outOfTokens
  | t :: rest =>
    if t.kind.isSeparator || t.kind = .closeBrace || t.kind = .endOfInput then
      .ok ⟨.returnStmt keyword.span (.nop keyword.span), t :: rest, by omega⟩
    else do
      let ⟨value, rest, h⟩ ← expr (t :: rest)
      return ⟨.returnStmt (keyword.span.through value.span) value, rest, by omega⟩
termination_by 16 * ts.length + 12
decreasing_by all_goals omega

def function (keyword : Token) (ts : List Token) : Result Node (ts.length + 1) := do
  let ⟨name, rest, h₁⟩ ← expect .ident .functionName ts
  let ⟨_, rest, h₂⟩ ← expect .openParen .openParen rest
  let ⟨names, rest, h₃⟩ ← params rest
  let ⟨_, rest, h₄⟩ ← expect .closeParen .closeParen rest
  let ⟨body, rest, h₅⟩ ← block rest
  return ⟨.function (keyword.span.through body.span) name.lexeme names body, rest, by omega⟩
termination_by 16 * ts.length + 12
decreasing_by all_goals omega

def block (ts : List Token) : Result Node ts.length := do
  let ⟨opener, rest, h₁⟩ ← expect .openBrace .openBrace ts
  let ⟨body, rest, h₂⟩ ← statements .closeBrace rest
  let ⟨closer, rest, h₃⟩ ← expect .closeBrace .closeBrace rest
  return ⟨.block (opener.span.through closer.span) body, rest, by omega⟩
termination_by 16 * ts.length
decreasing_by all_goals omega

def expr (ts : List Token) : Result Node ts.length := do
  let ⟨left, rest, h₁⟩ ← binary tiers ts
  match rest, h₁ with
  | [], _ => .error .outOfTokens
  | t :: rest, h₁ =>
    if t.kind = .assign then
      match left with
      | .ident .. => do
        let ⟨value, rest, h₂⟩ ← expr rest
        return ⟨.assign (left.span.through value.span) left value, rest, by simp at h₁; omega⟩
      | _ => .error (.fault (.syntactic left.span .invalidTarget))
    else .ok ⟨left, t :: rest, h₁⟩
termination_by 16 * ts.length + 11
decreasing_by all_goals simp only [List.length_cons, tiers_length] at *; omega

def binary (levels : List (List Token.Kind)) (ts : List Token) : Result Node ts.length :=
  match levels with
  | [] => unary ts
  | ops :: tighter => do
    let ⟨left, rest, h₁⟩ ← binary tighter ts
    let ⟨node, rest, h₂⟩ ← binaryRest ops tighter left rest
    return ⟨node, rest, by omega⟩
termination_by 16 * ts.length + 4 + levels.length
decreasing_by
  · omega
  · simp only [List.length_cons] at *; omega
  · simp only [List.length_cons] at *; omega

def binaryRest (ops : List Token.Kind) (tighter : List (List Token.Kind)) (left : Node) (ts : List Token) :
    Result Node (ts.length + 1) :=
  match ts with
  | [] => .error .outOfTokens
  | t :: rest =>
    if ops.contains t.kind then do
      let ⟨right, rest, h₁⟩ ← binary tighter rest
      let ⟨node, rest, h₂⟩ ← binaryRest ops tighter (.binary (left.span.through right.span) left t.lexeme right) rest
      return ⟨node, rest, by simp only [List.length_cons]; omega⟩
    else .ok ⟨left, t :: rest, by omega⟩
termination_by 16 * ts.length + 4 + tighter.length
decreasing_by all_goals simp only [List.length_cons] at *; omega

def unary (ts : List Token) : Result Node ts.length :=
  match ts with
  | [] => .error .outOfTokens
  | t :: rest =>
    if t.kind = .bang || t.kind = .minus then do
      let ⟨operand, rest, h⟩ ← unary rest
      return ⟨.unary (t.span.through operand.span) t.lexeme operand, rest, by simp only [List.length_cons]; omega⟩
    else call (t :: rest)
termination_by 16 * ts.length + 3
decreasing_by all_goals simp only [List.length_cons] at *; omega

def call (ts : List Token) : Result Node ts.length := do
  let ⟨callee, rest, h₁⟩ ← primary ts
  let ⟨node, rest, h₂⟩ ← callRest callee rest
  return ⟨node, rest, by omega⟩
termination_by 16 * ts.length + 2
decreasing_by all_goals omega

def callRest (callee : Node) (ts : List Token) : Result Node (ts.length + 1) :=
  match ts with
  | [] => .error .outOfTokens
  | t :: rest =>
    if t.kind = .openParen then do
      let ⟨args, rest, h₁⟩ ← exprList .closeParen rest
      let ⟨closer, rest, h₂⟩ ← expect .closeParen .closeParen rest
      let ⟨node, rest, h₃⟩ ← callRest (.call (callee.span.through closer.span) callee args) rest
      return ⟨node, rest, by simp only [List.length_cons]; omega⟩
    else .ok ⟨callee, t :: rest, by omega⟩
termination_by 16 * ts.length
decreasing_by all_goals simp only [List.length_cons] at *; omega

def primary (ts : List Token) : Result Node ts.length :=
  match ts with
  | [] => .error .outOfTokens
  | t :: rest =>
    match LiteralKind.ofToken? t.kind with
    | some kind => .ok ⟨.literal t.span kind (literalValue kind t.lexeme), rest, by simp⟩
    | none =>
      match t.kind with
      | .kwNop => .ok ⟨.nop t.span, rest, by simp⟩
      | .ident => .ok ⟨.ident t.span t.lexeme, rest, by simp⟩
      | .openParen => do
        let ⟨inner, rest, h₁⟩ ← expr rest
        let ⟨_, rest, h₂⟩ ← expect .closeParen .closeParen rest
        return ⟨inner, rest, by simp only [List.length_cons]; omega⟩
      | .openBracket => do
        let ⟨items, rest, h₁⟩ ← exprList .closeBracket rest
        let ⟨closer, rest, h₂⟩ ← expect .closeBracket .closeBracket rest
        return ⟨.list (t.span.through closer.span) items, rest, by simp only [List.length_cons]; omega⟩
      | .openBrace => block (t :: rest)
      | .kwIf => conditional t rest
      | _ => .error (wanted .expression t)
termination_by 16 * ts.length + 1
decreasing_by all_goals simp only [List.length_cons] at *; omega

def conditional (keyword : Token) (ts : List Token) : Result Node (ts.length + 1) := do
  let ⟨condition, rest, h₁⟩ ← expr ts
  let ⟨thenBlock, rest, h₂⟩ ← block rest
  match rest, h₂ with
  | [], _ => .error .outOfTokens
  | t :: rest, h₂ =>
    if t.kind = .kwElse then do
      let ⟨elseBranch, rest, h₃⟩ ← otherwise rest
      return ⟨.conditional (keyword.span.through elseBranch.span) condition thenBlock elseBranch, rest, by
        simp only [List.length_cons] at h₂; omega⟩
    else
      .ok ⟨.conditional (keyword.span.through thenBlock.span) condition thenBlock (.nop thenBlock.span), t :: rest, by omega⟩
termination_by 16 * ts.length + 12
decreasing_by
  · omega
  · omega
  · simp only [List.length_cons] at *; omega

def otherwise (ts : List Token) : Result Node ts.length :=
  match ts with
  | [] => .error .outOfTokens
  | t :: rest => if t.kind = .kwIf then conditional t rest else block (t :: rest)
termination_by 16 * ts.length + 1
decreasing_by all_goals simp only [List.length_cons] at *; omega

-- Expressions with commas between them up to a token of kind `closer`, which stays. Newlines around them do not count, and a
-- comma may follow the last one.
def exprList (closer : Token.Kind) (ts : List Token) : Result (List Node) (ts.length + 1) :=
  match skip (· = .newline) ts with
  | ⟨[], _⟩ => .error .outOfTokens
  | ⟨t :: rest, h⟩ =>
    if t.kind = closer then .ok ⟨[], t :: rest, by omega⟩
    else do
      let ⟨item, behind, h₁⟩ ← expr (t :: rest)
      match skip (· = .newline) behind with
      | ⟨[], _⟩ => .error .outOfTokens
      | ⟨u :: behind', h₂⟩ =>
        if u.kind = .comma then do
          let ⟨others, rest', h₃⟩ ← exprList closer behind'
          return ⟨item :: others, rest', by simp only [List.length_cons] at h₂; omega⟩
        else .ok ⟨[item], u :: behind', by omega⟩
termination_by 16 * ts.length + 12
decreasing_by all_goals simp only [List.length_cons] at *; omega

end

end Parser

namespace Program

open ParenTree.Parser in
def ofTokens (ts : List Token) : Except Failure Program := do
  let ⟨body, rest, _⟩ ← statements .endOfInput ts
  match body, rest with
  | _, [] => .error .outOfTokens
  | [], eof :: _ => return ⟨eof.span, []⟩
  | first :: others, _ => return ⟨first.span.through ((first :: others).getLastD first).span, first :: others⟩

def ofSource (file source : String) : Except Parser.Failure Program :=
  match Token.ofSource file source with
  | .error fault => .error (.fault fault)
  | .ok ts => ofTokens ts

end Program
end ParenTree
