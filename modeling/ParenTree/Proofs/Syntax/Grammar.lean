import ParenTree.Syntax.Parser

-- The grammar of programs, as a relation between the tokens of a construct and its tree. It says nothing about how the
-- tokens are read: words are put together from the words of their parts, and what may be repeated or left out is a
-- production of its own.

namespace ParenTree

namespace Token.Kind

def opensPrimary (k : Kind) : Bool :=
  (LiteralKind.ofToken? k).isSome || k ∈ [kwNop, ident, openParen, openBracket, openBrace, kwIf]

def opensExpr (k : Kind) : Bool :=
  k.opensPrimary || k = bang || k = minus

def opensStatement (k : Kind) : Bool :=
  k.opensExpr || k ∈ [kwLet, kwReturn, kwFn]

theorem opensExpr_of_opensPrimary {k : Kind} (h : k.opensPrimary) : k.opensExpr := by
  simp [opensExpr, h]

theorem opensStatement_of_opensExpr {k : Kind} (h : k.opensExpr) : k.opensStatement := by
  simp [opensStatement, h]

theorem not_isSeparator_of_opensStatement {k : Kind} (h : k.opensStatement) : k.isSeparator = false := by
  cases k <;> first | rfl | cases h

end Token.Kind

namespace Grammar

open ParenTree.Parser (tiers literalValue)

-- What can be derived. A `body` is what stands between braces, or makes up a program; a `sequence` is a body without
-- separators around it. A `tier` is an expression whose operators outside of brackets are from the given tiers.
inductive Category
  | body
  | sequence
  | statement
  | block
  | expr
  | target
  | tier (levels : List (List Token.Kind))
  | unary
  | call
  | primary
  | conditional
  | branch
  | exprList
  | items

abbrev Category.Tree : Category → Type
  | body | sequence | exprList | items => List Node
  | _ => Node

def Separators (w : List Token) : Prop :=
  ∀ t ∈ w, t.kind.isSeparator = true

def Newlines (w : List Token) : Prop :=
  ∀ t ∈ w, t.kind = .newline

-- One or more names with commas between them.
inductive Names : List Token → List String → Prop
  | one {t} : t.kind = .ident → Names [t] [t.lexeme]
  | more {t comma w ns} : t.kind = .ident → comma.kind = .comma → Names w ns → Names (t :: comma :: w) (t.lexeme :: ns)

-- What may stand between the parentheses of a function.
inductive Params : List Token → List String → Prop
  | none : Params [] []
  | some {w ns} : Names w ns → Params w ns
  | comma {w ns comma} : Names w ns → comma.kind = .comma → Params (w ++ [comma]) ns

-- `Derives c w tree`: the word `w` is a `c`, and `tree` is its tree. A node spans from its first part to its last.
inductive Derives : (c : Category) → List Token → c.Tree → Prop
  -- body = sep* (sequence sep*)?
  | empty {seps} : Separators seps → Derives .body seps []
  | body {before w after ns} :
    Separators before → Derives .sequence w ns → Separators after → Derives .body (before ++ w ++ after) ns
  -- sequence = statement (sep+ statement)*
  | one {w n} : Derives .statement w n → Derives .sequence w [n]
  | more {w n seps w' ns} :
    Derives .statement w n → Separators seps → seps ≠ [] → Derives .sequence w' ns →
    Derives .sequence (w ++ seps ++ w') (n :: ns)
  -- statement = LET IDENT (COLONEQ | EQ) expr | RETURN expr? | FN IDENT ( params ) block | expr
  | letStmt {keyword name sign w value} :
    keyword.kind = .kwLet → name.kind = .ident → (sign.kind = .define ∨ sign.kind = .assign) → Derives .expr w value →
    Derives .statement (keyword :: name :: sign :: w)
      (.letStmt (keyword.span.through value.span) name.lexeme value)
  | bareReturn {keyword} :
    keyword.kind = .kwReturn → Derives .statement [keyword] (.returnStmt keyword.span (.nop keyword.span))
  | returnStmt {keyword w value} :
    keyword.kind = .kwReturn → Derives .expr w value →
    Derives .statement (keyword :: w) (.returnStmt (keyword.span.through value.span) value)
  | function {keyword name opener ps names closer w body} :
    keyword.kind = .kwFn → name.kind = .ident → opener.kind = .openParen → Params ps names → closer.kind = .closeParen →
    Derives .block w body →
    Derives .statement (keyword :: name :: opener :: ps ++ closer :: w)
      (.function (keyword.span.through body.span) name.lexeme names body)
  | exprStmt {w n} : Derives .expr w n → Derives .statement w n
  -- block = { body }
  | block {opener w ns closer} :
    opener.kind = .openBrace → Derives .body w ns → closer.kind = .closeBrace →
    Derives .block (opener :: w ++ [closer]) (.block (opener.span.through closer.span) ns)
  -- expr = target EQ expr | tier
  | assign {w target sign w' value} :
    Derives .target w target → sign.kind = .assign → Derives .expr w' value →
    Derives .expr (w ++ sign :: w') (.assign (target.span.through value.span) target value)
  | tiers {w n} : Derives (.tier tiers) w n → Derives .expr w n
  -- target = IDENT | ( target )
  | name {t} : t.kind = .ident → Derives .target [t] (.ident t.span t.lexeme)
  | groupedTarget {opener w n closer} :
    opener.kind = .openParen → Derives .target w n → closer.kind = .closeParen →
    Derives .target (opener :: w ++ [closer]) n
  -- tier = tighter (op tighter)*, read from the left
  | untiered {w n} : Derives .unary w n → Derives (.tier []) w n
  | tighter {ops levels w n} : Derives (.tier levels) w n → Derives (.tier (ops :: levels)) w n
  | binary {ops levels w left op w' right} :
    Derives (.tier (ops :: levels)) w left → op.kind ∈ ops → Derives (.tier levels) w' right →
    Derives (.tier (ops :: levels)) (w ++ op :: w') (.binary (left.span.through right.span) left op.lexeme right)
  -- unary = (BANG | MINUS) unary | call
  | unary {op w n} :
    (op.kind = .bang ∨ op.kind = .minus) → Derives .unary w n →
    Derives .unary (op :: w) (.unary (op.span.through n.span) op.lexeme n)
  | operand {w n} : Derives .call w n → Derives .unary w n
  -- call = primary ( ( exprList ) )*, read from the left
  | callee {w n} : Derives .primary w n → Derives .call w n
  | call {w callee opener w' args closer} :
    Derives .call w callee → opener.kind = .openParen → Derives .exprList w' args → closer.kind = .closeParen →
    Derives .call (w ++ opener :: w' ++ [closer]) (.call (callee.span.through closer.span) callee args)
  -- primary = literal | NOP | IDENT | ( expr ) | [ exprList ] | block | conditional
  | literal {t kind} :
    LiteralKind.ofToken? t.kind = some kind → Derives .primary [t] (.literal t.span kind (literalValue kind t.lexeme))
  | nop {t} : t.kind = .kwNop → Derives .primary [t] (.nop t.span)
  | ident {t} : t.kind = .ident → Derives .primary [t] (.ident t.span t.lexeme)
  | grouped {opener w n closer} :
    opener.kind = .openParen → Derives .expr w n → closer.kind = .closeParen →
    Derives .primary (opener :: w ++ [closer]) n
  | list {opener w ns closer} :
    opener.kind = .openBracket → Derives .exprList w ns → closer.kind = .closeBracket →
    Derives .primary (opener :: w ++ [closer]) (.list (opener.span.through closer.span) ns)
  | blockExpr {w n} : Derives .block w n → Derives .primary w n
  | ifExpr {w n} : Derives .conditional w n → Derives .primary w n
  -- conditional = IF expr block (ELSE branch)?
  | ifThen {keyword w condition w' thenBlock} :
    keyword.kind = .kwIf → Derives .expr w condition → Derives .block w' thenBlock →
    Derives .conditional (keyword :: w ++ w')
      (.conditional (keyword.span.through thenBlock.span) condition thenBlock (.nop thenBlock.span))
  | ifThenElse {keyword w condition w' thenBlock other w'' elseBranch} :
    keyword.kind = .kwIf → Derives .expr w condition → Derives .block w' thenBlock → other.kind = .kwElse →
    Derives .branch w'' elseBranch →
    Derives .conditional (keyword :: w ++ w' ++ other :: w'')
      (.conditional (keyword.span.through elseBranch.span) condition thenBlock elseBranch)
  -- branch = conditional | block
  | elseIf {w n} : Derives .conditional w n → Derives .branch w n
  | elseBlock {w n} : Derives .block w n → Derives .branch w n
  -- exprList = NEWLINE* (items (, NEWLINE*)?)?
  | noItems {lines} : Newlines lines → Derives .exprList lines []
  | items {lines w ns} : Newlines lines → Derives .items w ns → Derives .exprList (lines ++ w) ns
  | itemsComma {lines w ns comma lines'} :
    Newlines lines → Derives .items w ns → comma.kind = .comma → Newlines lines' →
    Derives .exprList (lines ++ w ++ comma :: lines') ns
  -- items = expr NEWLINE* (, NEWLINE* expr NEWLINE*)*
  | item {w n lines} : Derives .expr w n → Newlines lines → Derives .items (w ++ lines) [n]
  | moreItems {w n lines comma lines' w' ns} :
    Derives .expr w n → Newlines lines → comma.kind = .comma → Newlines lines' → Derives .items w' ns →
    Derives .items (w ++ lines ++ comma :: lines' ++ w') (n :: ns)

-- What a program spans: its statements, or the end of input if there are none.
def extent (eof : Token) : List Node → Span
  | [] => eof.span
  | n :: ns => n.span.through ((n :: ns).getLastD n).span

-- program = body EOF
inductive Spells : List Token → Program → Prop
  | program {w ns eof} : Derives .body w ns → eof.kind = .endOfInput → Spells (w ++ [eof]) ⟨extent eof ns, ns⟩

-- A token list as a source text gives it: the end of input is its last token and no other.
def Terminated (ts : List Token) : Prop :=
  ∃ w eof, ts = w ++ [eof] ∧ eof.kind = .endOfInput ∧ ∀ t ∈ w, t.kind ≠ .endOfInput

-- How the words of a category begin. Bodies and lists of expressions may be empty.
def Category.Opens : Category → List Token → Prop
  | body, _ | exprList, _ => True
  | sequence, w | statement, w => ∃ t w', w = t :: w' ∧ t.kind.opensStatement
  | expr, w | tier _, w | unary, w | items, w => ∃ t w', w = t :: w' ∧ t.kind.opensExpr
  | target, w | call, w | primary, w => ∃ t w', w = t :: w' ∧ t.kind.opensPrimary
  | block, w => ∃ t w', w = t :: w' ∧ t.kind = .openBrace
  | conditional, w => ∃ t w', w = t :: w' ∧ t.kind = .kwIf
  | branch, w => ∃ t w', w = t :: w' ∧ (t.kind = .openBrace ∨ t.kind = .kwIf)

open Token.Kind in
theorem Derives.opens {c : Category} {w : List Token} {tree : c.Tree} (h : Derives c w tree) : c.Opens w := by
  induction h <;> simp only [Category.Opens] at *
  -- The word begins with a token that the production names.
  case letStmt h _ _ _ _ | bareReturn h | returnStmt h _ _ | function h _ _ _ _ _ _ =>
    exact ⟨_, _, rfl, by simp [opensStatement, h]⟩
  case unary h _ _ =>
    refine ⟨_, _, rfl, ?_⟩
    cases h <;> simp [opensExpr, *]
  case literal h =>
    exact ⟨_, _, rfl, by simp [opensPrimary, h]⟩
  case name h | groupedTarget h _ _ _ | nop h | ident h | grouped h _ _ _ | list h _ _ _ =>
    exact ⟨_, _, rfl, by simp [opensPrimary, h]⟩
  case block h _ _ _ | ifThen h _ _ _ _ | ifThenElse h _ _ _ _ _ _ _ =>
    exact ⟨_, _, rfl, h⟩
  -- The word begins with the word of its first part.
  case one hi | more hi _ =>
    obtain ⟨t, w', rfl, ht⟩ := hi
    exact ⟨t, _, rfl, ht⟩
  case exprStmt hi =>
    obtain ⟨t, w', rfl, ht⟩ := hi
    exact ⟨t, _, rfl, opensStatement_of_opensExpr ht⟩
  case tiers hi | untiered hi | tighter hi | binary hi _ | call hi _ | callee hi | item hi | moreItems hi _ =>
    obtain ⟨t, w', rfl, ht⟩ := hi
    exact ⟨t, _, rfl, ht⟩
  case assign hi _ | operand hi =>
    obtain ⟨t, w', rfl, ht⟩ := hi
    exact ⟨t, _, rfl, opensExpr_of_opensPrimary ht⟩
  case blockExpr hi | ifExpr hi =>
    obtain ⟨t, w', rfl, ht⟩ := hi
    exact ⟨t, _, rfl, by simp [opensPrimary, ht]⟩
  case elseIf hi =>
    obtain ⟨t, w', rfl, ht⟩ := hi
    exact ⟨t, _, rfl, .inr ht⟩
  case elseBlock hi =>
    obtain ⟨t, w', rfl, ht⟩ := hi
    exact ⟨t, _, rfl, .inl ht⟩

-- An expression that is a name is one under parentheses at most, and so can be assigned.
def Category.NamesTarget : (c : Category) → List Token → c.Tree → Prop
  | expr, w, n | tier _, w, n | unary, w, n | call, w, n | primary, w, n => ∀ s x, n = .ident s x → Derives .target w n
  | _, _, _ => True

theorem Derives.namesTarget {c : Category} {w : List Token} {tree : c.Tree} (h : Derives c w tree) :
    c.NamesTarget w tree := by
  induction h <;> simp only [Category.NamesTarget] at *
  case tiers hi | untiered hi | tighter hi | operand hi | callee hi => exact hi
  case grouped ho _ hc hi => exact fun s x hn => .groupedTarget ho (hi s x hn) hc
  case ident hk => exact fun _ _ _ => .name hk
  case blockExpr h _ => cases h; rintro _ _ ⟨⟩
  case ifExpr h _ => cases h <;> rintro _ _ ⟨⟩
  all_goals rintro _ _ ⟨⟩

theorem Derives.target_of_ident {levels : List (List Token.Kind)} {w : List Token} {s : Span} {x : String}
    (h : Derives (.tier levels) w (.ident s x)) : Derives .target w (.ident s x) :=
  h.namesTarget s x rfl

-- What tiers derive, they derive with looser ones in front of them.
theorem Derives.loosen {levels levels' : List (List Token.Kind)} {w : List Token} {n : Node}
    (h : Derives (.tier levels) w n) (hl : levels <:+ levels') : Derives (.tier levels') w n := by
  obtain ⟨looser, rfl⟩ := hl
  induction looser
  case nil => exact h
  case cons ops looser hi => exact .tighter hi

end Grammar
end ParenTree
