import ParenTree.Proofs.Syntax.Soundness

-- What the grammar derives, the parser reads: a procedure takes a word of its category off the front of the tokens if the
-- token behind the word cannot continue it.

namespace ParenTree

namespace Token.Kind

-- Whether a token of this kind goes on with an operand of the given tiers.
def continues (levels : List (List Kind)) (k : Kind) : Bool :=
  k = openParen || k = kwElse || levels.any (·.contains k)

-- Whether an expression can stop in front of a token of this kind.
def endsExpr (k : Kind) : Bool :=
  k ≠ assign && !k.continues Parser.tiers

def closesBody (k : Kind) : Bool :=
  k = closeBrace || k = endOfInput

def closesList (k : Kind) : Bool :=
  k = closeParen || k = closeBracket

def endsStatement (k : Kind) : Bool :=
  k.isSeparator || k.closesBody

theorem not_isSeparator_of_closesBody {k : Kind} (h : k.closesBody) : ¬k.isSeparator := by
  cases k <;> first | decide | cases h

theorem ne_of_isSeparator {k l : Kind} (h : k.isSeparator) (hl : l.closesBody) : k ≠ l := by
  rintro rfl
  exact not_isSeparator_of_closesBody hl h

theorem endsExpr_of_closesList {k : Kind} (h : k.closesList) : k.endsExpr := by
  cases k <;> first | rfl | cases h

theorem endsExpr_of_endsStatement {k : Kind} (h : k.endsStatement) : k.endsExpr := by
  cases k <;> first | rfl | cases h

theorem not_endsStatement_of_opensExpr {k : Kind} (h : k.opensExpr) : k.endsStatement = false := by
  cases k <;> first | rfl | cases h

theorem not_endsStatement_of_opensStatement {k : Kind} (h : k.opensStatement) : k.endsStatement = false := by
  cases k <;> first | rfl | cases h

-- An operator of one tier is none of the tighter tiers, so it ends their operands.
theorem not_continues_of_mem {k : Kind} {ops : List Kind} {tighter : List (List Kind)}
    (h : (ops :: tighter) <:+ Parser.tiers) (hk : k ∈ ops) : k.continues tighter = false := by
  simp only [Parser.tiers, List.suffix_cons_iff, List.suffix_nil, List.cons.injEq, reduceCtorEq, or_false] at h
  rcases h with ⟨rfl, rfl⟩ | ⟨rfl, rfl⟩ | ⟨rfl, rfl⟩ | ⟨rfl, rfl⟩ | ⟨rfl, rfl⟩ | ⟨rfl, rfl⟩ <;>
    simp only [List.mem_cons, List.not_mem_nil, or_false] at hk <;>
    rcases hk with rfl | rfl | rfl | rfl <;> decide

end Token.Kind

namespace Parser.Procedure

open Grammar

theorem ok_bind {α β : Type} (a : α) (f : α → Except Failure β) : (Except.ok a >>= f) = f a :=
  rfl

theorem take_cons {kind : Token.Kind} {what : Expectation} {t : Token} {ts : List Token} (h : t.kind = kind) :
    take kind what (t :: ts) = .ok (t, ts) := by
  simp [take, h]

theorem dropWhile_separators {seps ts : List Token} (h : Separators seps) :
    (seps ++ ts).dropWhile (·.kind.isSeparator) = ts.dropWhile (·.kind.isSeparator) :=
  List.dropWhile_append_of_pos h

theorem dropWhile_newlines {lines ts : List Token} (h : Newlines lines) :
    (lines ++ ts).dropWhile (·.kind = .newline) = ts.dropWhile (·.kind = .newline) :=
  List.dropWhile_append_of_pos fun t ht => by simpa using h t ht

theorem readParams_names {w : List Token} {names : List String} (h : Names w names) (t : Token) (rest : List Token)
    (ht : t.kind = .closeParen) :
    readParams (w ++ t :: rest) = .ok (names, t :: rest) ∧
      ∀ comma, comma.kind = .comma → readParams (w ++ comma :: t :: rest) = .ok (names, t :: rest) := by
  induction h
  case one u hu =>
    constructor
    case left => simp [readParams_eq, hu, ht]
    case right =>
      intro comma hc
      rw [List.singleton_append, readParams_eq]
      simp only [hu, hc, readParams_eq (t :: rest), ht, reduceCtorEq, if_true, if_false]
      rfl
  case more u c w ns hu hc _ hi =>
    have step (ts : List Token) (hts : readParams ts = .ok (ns, t :: rest)) :
        readParams (u :: c :: ts) = .ok (u.lexeme :: ns, t :: rest) := by
      rw [readParams_eq]
      simp only [hu, hc, hts, reduceCtorEq, if_true, if_false]
      rfl
    exact ⟨step _ hi.left, fun comma hcomma => step _ (hi.right comma hcomma)⟩

theorem readParams_complete {w : List Token} {names : List String} (h : Params w names) {t : Token} (rest : List Token)
    (ht : t.kind = .closeParen) : readParams (w ++ t :: rest) = .ok (names, t :: rest) := by
  cases h
  case none => simp [readParams_eq, ht]
  case some h => exact (readParams_names h t rest ht).left
  case comma hc h => simpa using (readParams_names h t rest ht).right _ hc

-- An operand that is read at the tightest level is read at every level if nothing behind it goes on.
theorem read_binary_of_unary {ts rest : List Token} {t : Token} {n : Node} {levels : List (List Token.Kind)}
    (h : read unary ts = .ok (n, t :: rest)) (ht : t.kind.continues levels = false) :
    read (binary levels) ts = .ok (n, t :: rest) := by
  induction levels
  case nil => rw [read_binary_nil, h]
  case cons ops tighter hi =>
    simp only [Token.Kind.continues, List.any_cons, Bool.or_eq_false_iff] at hi ht
    rw [read_binary_cons, hi ⟨ht.1, ht.2.2⟩]
    simp only [ok_bind]
    rw [read_binaryRest]
    simp only [ht.2.1]
    rfl

theorem read_unary_of_primary {u t : Token} {us rest : List Token} {n : Node} (hu : u.kind.opensPrimary)
    (h : read primary (u :: us) = .ok (n, t :: rest)) (ht : t.kind ≠ .openParen) :
    read unary (u :: us) = .ok (n, t :: rest) := by
  have : (u.kind = .bang || u.kind = .minus) = false := by
    revert hu
    cases u.kind <;> decide
  rw [read_unary]
  simp only [this]
  rw [if_neg (by decide), read_call, h]
  simp only [ok_bind]
  rw [read_callRest]
  simp [ht]

theorem read_expr_of_binary {ts rest : List Token} {t : Token} {n : Node}
    (h : read (binary tiers) ts = .ok (n, t :: rest)) (ht : t.kind ≠ .assign) : read expr ts = .ok (n, t :: rest) := by
  rw [read_expr, h, ok_bind]
  simp [ht]

theorem read_statement_of_expr {t : Token} {ts : List Token} (ht : t.kind.opensExpr) :
    read statement (t :: ts) = read expr (t :: ts) := by
  rw [read_statement]
  dsimp only
  revert ht
  cases t.kind <;> intro h <;> first | rfl | cases h

end Parser.Procedure

namespace Grammar

open ParenTree.Parser ParenTree.Parser.Procedure

-- What the parser does with a word of a category and the tokens behind it. Left operands and callees are stated as what is
-- left to do, since the loop that follows them goes on with whatever stands behind.
def Category.Reads : (c : Category) → List Token → c.Tree → Prop
  | body, w, ns => ∀ t rest, t.kind.closesBody →
    read (statements t.kind) (w ++ t :: rest) = .ok (ns, t :: rest)
  | sequence, w, ns => ∀ seps t rest, Separators seps → t.kind.closesBody →
    read (statements t.kind) (w ++ (seps ++ t :: rest)) = .ok (ns, t :: rest)
  | statement, w, n => ∀ t rest, t.kind.endsStatement → read .statement (w ++ t :: rest) = .ok (n, t :: rest)
  | block, w, n => ∀ rest, read .block (w ++ rest) = .ok (n, rest)
  | expr, w, n => ∀ t rest, t.kind.endsExpr → read .expr (w ++ t :: rest) = .ok (n, t :: rest)
  | target, w, n => (∃ s x, n = .ident s x) ∧ ∀ rest, read .primary (w ++ rest) = .ok (n, rest)
  | tier [], w, n => ∀ t rest, t.kind.continues [] = false → read (.binary []) (w ++ t :: rest) = .ok (n, t :: rest)
  | tier (ops :: tighter), w, n => (ops :: tighter) <:+ tiers → ∀ t rest, t.kind.continues tighter = false →
    read (.binary (ops :: tighter)) (w ++ t :: rest) = read (.binaryRest ops tighter n) (t :: rest)
  | unary, w, n => ∀ t rest, t.kind.continues [] = false → read .unary (w ++ t :: rest) = .ok (n, t :: rest)
  | call, w, n => ∀ t rest, t.kind ≠ .kwElse → read .call (w ++ t :: rest) = read (.callRest n) (t :: rest)
  | primary, w, n => ∀ t rest, t.kind ≠ .kwElse → read .primary (w ++ t :: rest) = .ok (n, t :: rest)
  | conditional, w, n => ∃ keyword w', w = keyword :: w' ∧ keyword.kind = .kwIf ∧
    ∀ t rest, t.kind ≠ .kwElse → read (.conditional keyword) (w' ++ t :: rest) = .ok (n, t :: rest)
  | branch, w, n => ∀ t rest, t.kind ≠ .kwElse → read .otherwise (w ++ t :: rest) = .ok (n, t :: rest)
  | exprList, w, ns => ∀ t rest, t.kind.closesList →
    read (.exprList t.kind) (w ++ t :: rest) = .ok (ns, t :: rest)
  | items, w, ns => ∀ t rest, t.kind.closesList →
    read (.exprList t.kind) (w ++ t :: rest) = .ok (ns, t :: rest) ∧
    ∀ comma lines, comma.kind = .comma → Newlines lines →
      read (.exprList t.kind) (w ++ comma :: (lines ++ t :: rest)) = .ok (ns, t :: rest)

theorem reads_tier {levels : List (List Token.Kind)} {w : List Token} {n : Node}
    (h : (Category.tier levels).Reads w n) (hs : levels <:+ tiers) (t : Token) (rest : List Token)
    (ht : t.kind.continues levels = false) : read (.binary levels) (w ++ t :: rest) = .ok (n, t :: rest) := by
  cases levels
  case nil => exact h t rest ht
  case cons ops tighter =>
    simp only [Token.Kind.continues, List.any_cons, Bool.or_eq_false_iff] at ht
    rw [h hs t rest (by simp only [Token.Kind.continues, Bool.or_eq_false_iff]; exact ⟨ht.1, ht.2.2⟩), read_binaryRest]
    simp only [ht.2.1]
    rfl

theorem reads_empty {seps : List Token} (hs : Separators seps) : Category.body.Reads seps [] := by
  intro t rest ht
  have := Token.Kind.not_isSeparator_of_closesBody ht
  rw [read_statements, dropWhile_separators hs, List.dropWhile_cons_of_neg (by simpa using this)]
  simp

theorem reads_body {before w after : List Token} {ns : List Node} (hb : Separators before)
    (h : Category.sequence.Reads w ns) (ha : Separators after) : Category.body.Reads (before ++ w ++ after) ns := by
  intro t rest ht
  rw [List.append_assoc, List.append_assoc, read_statements, dropWhile_separators hb, ← read_statements]
  exact h after t rest ha ht

-- The loop over statements with its first statement read.
theorem read_statements_of_statement {closer u : Token} {w rest : List Token} {n : Node} (hd : Derives .statement w n)
    (h : Category.statement.Reads w n) (hc : closer.kind.closesBody) (hu : u.kind.endsStatement) :
    read (statements closer.kind) (w ++ u :: rest) =
      if u.kind = closer.kind then .ok ([n], u :: rest)
      else if u.kind.isSeparator then do
        let (others, rest) ← read (statements closer.kind) (u :: rest)
        return (n :: others, rest)
      else .error (wanted .separator u) := by
  have hr := h u rest hu
  obtain ⟨t, w', rfl, ht⟩ := hd.opens
  have hne := Token.Kind.not_endsStatement_of_opensStatement ht
  simp only [Token.Kind.endsStatement, Bool.or_eq_false_iff] at hne
  have htc : t.kind ≠ closer.kind := by
    intro heq
    rw [heq, hc] at hne
    cases hne.2
  have hte : t.kind ≠ .endOfInput := by
    intro heq
    rw [heq] at hne
    cases hne.2
  rw [List.cons_append] at hr ⊢
  rw [read_statements, List.dropWhile_cons_of_neg (by simp [hne.1])]
  simp only [htc, hte, if_false, hr, ok_bind]

theorem reads_one {w : List Token} {n : Node} (hd : Derives .statement w n) (h : Category.statement.Reads w n) :
    Category.sequence.Reads w [n] := by
  intro seps t rest hs ht
  cases seps
  case nil =>
    rw [List.nil_append, read_statements_of_statement hd h ht (by simp [Token.Kind.endsStatement, ht])]
    simp
  case cons s seps =>
    have hsep := hs s (by simp)
    have hst := Token.Kind.ne_of_isSeparator hsep ht
    rw [List.cons_append, read_statements_of_statement hd h ht (by simp [Token.Kind.endsStatement, hsep])]
    simp only [hst, if_false, hsep, if_true]
    rw [← List.cons_append, reads_empty hs t rest ht]
    rfl

theorem reads_more {w seps w' : List Token} {n : Node} {ns : List Node} (hd : Derives .statement w n)
    (h : Category.statement.Reads w n) (hs : Separators seps) (hne : seps ≠ []) (h' : Category.sequence.Reads w' ns) :
    Category.sequence.Reads (w ++ seps ++ w') (n :: ns) := by
  intro after t rest ha ht
  cases seps
  case nil => contradiction
  case cons s seps =>
    have hsep := hs s (by simp)
    have hst := Token.Kind.ne_of_isSeparator hsep ht
    have hr : read (statements t.kind) (s :: (seps ++ (w' ++ (after ++ t :: rest)))) = .ok (ns, t :: rest) := by
      rw [← List.cons_append, read_statements, dropWhile_separators hs, ← read_statements]
      exact h' after t rest ha ht
    simp only [List.append_assoc, List.cons_append]
    rw [read_statements_of_statement hd h ht (by simp [Token.Kind.endsStatement, hsep])]
    simp only [hst, if_false, hsep, if_true, hr]
    rfl

theorem reads_letStmt {keyword name sign : Token} {w : List Token} {value : Node} (hk : keyword.kind = .kwLet)
    (hn : name.kind = .ident) (hs : sign.kind = .define ∨ sign.kind = .assign) (h : Category.expr.Reads w value) :
    Category.statement.Reads (keyword :: name :: sign :: w)
      (.letStmt (keyword.span.through value.span) name.lexeme value) := by
  intro t rest ht
  have hr := h t rest (Token.Kind.endsExpr_of_endsStatement ht)
  simp only [List.cons_append]
  rw [read_statement]
  simp only [hk]
  rw [read_letStatement, take_cons hn]
  have : (decide (sign.kind = .define) || decide (sign.kind = .assign)) = true := by simpa using hs
  simp only [ok_bind, this, if_true, hr]
  rfl

theorem reads_bareReturn {keyword : Token} (hk : keyword.kind = .kwReturn) :
    Category.statement.Reads [keyword] (.returnStmt keyword.span (.nop keyword.span)) := by
  intro t rest ht
  have : (t.kind.isSeparator || decide (t.kind = .closeBrace) || decide (t.kind = .endOfInput)) = true := by
    simpa [Token.Kind.endsStatement, Token.Kind.closesBody, or_assoc] using ht
  rw [List.singleton_append, read_statement]
  simp only [hk]
  rw [read_returnStatement]
  simp only [this, if_true]

theorem reads_returnStmt {keyword : Token} {w : List Token} {value : Node} (hk : keyword.kind = .kwReturn)
    (hd : Derives .expr w value) (h : Category.expr.Reads w value) :
    Category.statement.Reads (keyword :: w) (.returnStmt (keyword.span.through value.span) value) := by
  intro t rest ht
  have hr := h t rest (Token.Kind.endsExpr_of_endsStatement ht)
  obtain ⟨u, w', rfl, hu⟩ := hd.opens
  have : (u.kind.isSeparator || decide (u.kind = .closeBrace) || decide (u.kind = .endOfInput)) = false := by
    have := Token.Kind.not_endsStatement_of_opensExpr hu
    simpa [Token.Kind.endsStatement, Token.Kind.closesBody, and_assoc] using this
  simp only [List.cons_append] at hr ⊢
  rw [read_statement]
  simp only [hk]
  rw [read_returnStatement]
  simp only [this, hr, ok_bind]
  rfl

theorem reads_function {keyword name opener closer : Token} {ps w : List Token} {names : List String} {body : Node}
    (hk : keyword.kind = .kwFn) (hn : name.kind = .ident) (ho : opener.kind = .openParen) (hps : Params ps names)
    (hc : closer.kind = .closeParen) (h : Category.block.Reads w body) :
    Category.statement.Reads (keyword :: name :: opener :: ps ++ closer :: w)
      (.function (keyword.span.through body.span) name.lexeme names body) := by
  intro t rest _
  simp only [List.cons_append, List.append_assoc]
  rw [read_statement]
  simp only [hk]
  rw [read_function, take_cons hn]
  simp only [ok_bind, take_cons ho, readParams_complete hps _ hc, take_cons hc, h (t :: rest)]
  rfl

theorem reads_exprStmt {w : List Token} {n : Node} (hd : Derives .expr w n) (h : Category.expr.Reads w n) :
    Category.statement.Reads w n := by
  intro t rest ht
  have hr := h t rest (Token.Kind.endsExpr_of_endsStatement ht)
  obtain ⟨u, w', rfl, hu⟩ := hd.opens
  rw [List.cons_append, read_statement_of_expr hu]
  exact hr

theorem reads_block {opener closer : Token} {w : List Token} {ns : List Node} (ho : opener.kind = .openBrace)
    (h : Category.body.Reads w ns) (hc : closer.kind = .closeBrace) :
    Category.block.Reads (opener :: w ++ [closer]) (.block (opener.span.through closer.span) ns) := by
  intro rest
  have hr := h closer rest (by simp [Token.Kind.closesBody, hc])
  rw [hc] at hr
  simp only [List.cons_append, List.append_assoc, List.nil_append]
  rw [read_block, take_cons ho]
  simp only [ok_bind, hr, take_cons hc]
  rfl

-- An assigned name under parentheses is first read as an operand of the loosest tier.
theorem reads_target_tiers {w : List Token} {n : Node} (hd : Derives .target w n) (h : Category.target.Reads w n)
    {t : Token} (rest : List Token) (ht : t.kind.continues tiers = false) :
    read (.binary tiers) (w ++ t :: rest) = .ok (n, t :: rest) := by
  have hr := h.2 (t :: rest)
  obtain ⟨u, w', rfl, hu⟩ := hd.opens
  refine read_binary_of_unary (read_unary_of_primary hu hr ?_) ht
  simp only [Token.Kind.continues, Bool.or_eq_false_iff, decide_eq_false_iff_not] at ht
  exact ht.1.1

theorem reads_assign {sign : Token} {w w' : List Token} {target value : Node} (hd : Derives .target w target)
    (h : Category.target.Reads w target) (hs : sign.kind = .assign) (h' : Category.expr.Reads w' value) :
    Category.expr.Reads (w ++ sign :: w') (.assign (target.span.through value.span) target value) := by
  intro t rest ht
  have hr := reads_target_tiers hd h (w' ++ t :: rest) (t := sign) (by rw [hs]; decide)
  obtain ⟨s, x, rfl⟩ := h.1
  simp only [List.append_assoc, List.cons_append]
  rw [read_expr, hr]
  simp only [ok_bind, hs, if_true, h' t rest ht]
  rfl

theorem reads_tiers {w : List Token} {n : Node} (h : (Category.tier tiers).Reads w n) : Category.expr.Reads w n := by
  intro t rest ht
  simp only [Token.Kind.endsExpr, Bool.and_eq_true, decide_eq_true_eq, Bool.not_eq_true'] at ht
  exact read_expr_of_binary (reads_tier h (List.suffix_refl _) t rest ht.2) ht.1

theorem reads_groupedTarget {opener closer : Token} {w : List Token} {n : Node} (ho : opener.kind = .openParen)
    (hd : Derives .target w n) (h : Category.target.Reads w n) (hc : closer.kind = .closeParen) :
    Category.target.Reads (opener :: w ++ [closer]) n := by
  refine ⟨h.1, fun rest => ?_⟩
  have hr := read_expr_of_binary (reads_target_tiers hd h rest (t := closer) (by rw [hc]; decide)) (by rw [hc]; decide)
  simp only [List.cons_append, List.append_assoc, List.nil_append]
  rw [read_primary]
  simp only [ho, LiteralKind.ofToken?, hr, ok_bind, take_cons hc]
  rfl

theorem reads_tighter {ops : List Token.Kind} {levels : List (List Token.Kind)} {w : List Token} {n : Node}
    (h : (Category.tier levels).Reads w n) : (Category.tier (ops :: levels)).Reads w n := by
  intro hs t rest ht
  have hr := reads_tier h ((List.suffix_cons _ _).trans hs) t rest ht
  rw [read_binary_cons, hr]
  simp only [ok_bind]

theorem reads_binary {ops : List Token.Kind} {levels : List (List Token.Kind)} {op : Token} {w w' : List Token}
    {left right : Node} (h : (Category.tier (ops :: levels)).Reads w left) (ho : op.kind ∈ ops)
    (h' : (Category.tier levels).Reads w' right) :
    (Category.tier (ops :: levels)).Reads (w ++ op :: w')
      (.binary (left.span.through right.span) left op.lexeme right) := by
  intro hs t rest ht
  have hr := reads_tier h' ((List.suffix_cons _ _).trans hs) t rest ht
  rw [List.append_assoc, List.cons_append, h hs op _ (Token.Kind.not_continues_of_mem hs ho), read_binaryRest]
  simp only [List.contains_iff_mem.mpr ho, if_true, hr, ok_bind]

theorem reads_unary {op : Token} {w : List Token} {n : Node} (ho : op.kind = .bang ∨ op.kind = .minus)
    (h : Category.unary.Reads w n) :
    Category.unary.Reads (op :: w) (.unary (op.span.through n.span) op.lexeme n) := by
  intro t rest ht
  have : (decide (op.kind = .bang) || decide (op.kind = .minus)) = true := by simpa using ho
  rw [List.cons_append, read_unary]
  simp only [this, if_true, h t rest ht, ok_bind]
  rfl

theorem reads_operand {w : List Token} {n : Node} (hd : Derives .call w n) (h : Category.call.Reads w n) :
    Category.unary.Reads w n := by
  intro t rest ht
  simp only [Token.Kind.continues, List.any_nil, Bool.or_false, Bool.or_eq_false_iff, decide_eq_false_iff_not] at ht
  have hr := h t rest ht.2
  obtain ⟨u, w', rfl, hu⟩ := hd.opens
  have : (decide (u.kind = .bang) || decide (u.kind = .minus)) = false := by
    revert hu
    cases u.kind <;> decide
  rw [List.cons_append] at hr ⊢
  rw [read_unary]
  simp only [this, hr]
  rw [if_neg (by decide), read_callRest]
  simp [ht.1]

theorem reads_callee {w : List Token} {n : Node} (h : Category.primary.Reads w n) : Category.call.Reads w n := by
  intro t rest ht
  rw [read_call, h t rest ht]
  simp only [ok_bind]

theorem reads_call {opener closer : Token} {w w' : List Token} {callee : Node} {args : List Node}
    (h : Category.call.Reads w callee) (ho : opener.kind = .openParen) (h' : Category.exprList.Reads w' args)
    (hc : closer.kind = .closeParen) :
    Category.call.Reads (w ++ opener :: w' ++ [closer]) (.call (callee.span.through closer.span) callee args) := by
  intro t rest _
  have hr := h' closer (t :: rest) (by simp [Token.Kind.closesList, hc])
  rw [hc] at hr
  simp only [List.append_assoc, List.cons_append, List.nil_append]
  rw [h opener _ (by rw [ho]; decide), read_callRest]
  simp only [ho, if_true, hr, ok_bind, take_cons hc]

theorem reads_literal {t : Token} {kind : LiteralKind} (hk : LiteralKind.ofToken? t.kind = some kind) :
    Category.primary.Reads [t] (.literal t.span kind (literalValue kind t.lexeme)) := by
  intro u rest _
  rw [List.singleton_append, read_primary]
  simp only [hk]

theorem reads_name {t : Token} (hk : t.kind = .ident) (rest : List Token) :
    read .primary (t :: rest) = .ok (.ident t.span t.lexeme, rest) := by
  rw [read_primary]
  simp only [hk, LiteralKind.ofToken?]

theorem reads_nop {t : Token} (hk : t.kind = .kwNop) : Category.primary.Reads [t] (.nop t.span) := by
  intro u rest _
  rw [List.singleton_append, read_primary]
  simp only [hk, LiteralKind.ofToken?]

theorem reads_grouped {opener closer : Token} {w : List Token} {n : Node} (ho : opener.kind = .openParen)
    (h : Category.expr.Reads w n) (hc : closer.kind = .closeParen) :
    Category.primary.Reads (opener :: w ++ [closer]) n := by
  intro t rest _
  have hr := h closer (t :: rest) (by rw [hc]; decide)
  simp only [List.cons_append, List.append_assoc, List.nil_append]
  rw [read_primary]
  simp only [ho, LiteralKind.ofToken?, hr, ok_bind, take_cons hc]
  rfl

theorem reads_list {opener closer : Token} {w : List Token} {ns : List Node} (ho : opener.kind = .openBracket)
    (h : Category.exprList.Reads w ns) (hc : closer.kind = .closeBracket) :
    Category.primary.Reads (opener :: w ++ [closer]) (.list (opener.span.through closer.span) ns) := by
  intro t rest _
  have hr := h closer (t :: rest) (by simp [Token.Kind.closesList, hc])
  rw [hc] at hr
  simp only [List.cons_append, List.append_assoc, List.nil_append]
  rw [read_primary]
  simp only [ho, LiteralKind.ofToken?, hr, ok_bind, take_cons hc]
  rfl

theorem reads_blockExpr {w : List Token} {n : Node} (hd : Derives .block w n) (h : Category.block.Reads w n) :
    Category.primary.Reads w n := by
  intro t rest _
  have hr := h (t :: rest)
  obtain ⟨u, w', rfl, hu⟩ := hd.opens
  rw [List.cons_append] at hr ⊢
  rw [read_primary]
  simp only [hu, LiteralKind.ofToken?, hr]

theorem reads_ifExpr {w : List Token} {n : Node} (h : Category.conditional.Reads w n) : Category.primary.Reads w n := by
  intro t rest ht
  obtain ⟨keyword, w', rfl, hk, hr⟩ := h
  rw [List.cons_append, read_primary]
  simp only [hk, LiteralKind.ofToken?, hr t rest ht]

-- The condition stops at the brace that opens the block behind it.
theorem read_condition {w w' : List Token} {condition thenBlock : Node} (h : Category.expr.Reads w condition)
    (hd : Derives .block w' thenBlock) (rest : List Token) :
    read .expr (w ++ (w' ++ rest)) = .ok (condition, w' ++ rest) := by
  obtain ⟨u, us, rfl, hu⟩ := hd.opens
  exact h u (us ++ rest) (by rw [hu]; decide)

theorem reads_ifThen {keyword : Token} {w w' : List Token} {condition thenBlock : Node} (hk : keyword.kind = .kwIf)
    (h : Category.expr.Reads w condition) (hd : Derives .block w' thenBlock) (h' : Category.block.Reads w' thenBlock) :
    Category.conditional.Reads (keyword :: w ++ w')
      (.conditional (keyword.span.through thenBlock.span) condition thenBlock (.nop thenBlock.span)) := by
  refine ⟨keyword, w ++ w', rfl, hk, fun t rest ht => ?_⟩
  rw [List.append_assoc, read_conditional, read_condition h hd]
  simp only [ok_bind, h' (t :: rest), ht, if_false]

theorem reads_ifThenElse {keyword other : Token} {w w' w'' : List Token} {condition thenBlock elseBranch : Node}
    (hk : keyword.kind = .kwIf) (h : Category.expr.Reads w condition) (hd : Derives .block w' thenBlock)
    (h' : Category.block.Reads w' thenBlock) (ho : other.kind = .kwElse) (h'' : Category.branch.Reads w'' elseBranch) :
    Category.conditional.Reads (keyword :: w ++ w' ++ other :: w'')
      (.conditional (keyword.span.through elseBranch.span) condition thenBlock elseBranch) := by
  refine ⟨keyword, w ++ w' ++ other :: w'', rfl, hk, fun t rest ht => ?_⟩
  rw [List.append_assoc, List.append_assoc, read_conditional, read_condition h hd]
  simp only [ok_bind, h' (other :: (w'' ++ t :: rest)), List.cons_append, ho, if_true, h'' t rest ht]
  rfl

theorem reads_elseIf {w : List Token} {n : Node} (h : Category.conditional.Reads w n) : Category.branch.Reads w n := by
  intro t rest ht
  obtain ⟨keyword, w', rfl, hk, hr⟩ := h
  rw [List.cons_append, read_otherwise]
  simp only [hk, if_true, hr t rest ht]

theorem reads_elseBlock {w : List Token} {n : Node} (hd : Derives .block w n) (h : Category.block.Reads w n) :
    Category.branch.Reads w n := by
  intro t rest _
  have hr := h (t :: rest)
  obtain ⟨u, w', rfl, hu⟩ := hd.opens
  rw [List.cons_append] at hr ⊢
  rw [read_otherwise]
  simp [hu, hr]

theorem reads_noItems {lines : List Token} (hl : Newlines lines) : Category.exprList.Reads lines [] := by
  intro t rest ht
  have : t.kind ≠ .newline := by
    intro h
    rw [h] at ht
    cases ht
  rw [read_exprList, dropWhile_newlines hl, List.dropWhile_cons_of_neg (by simpa using this)]
  simp

theorem read_exprList_newlines {lines ts : List Token} {closer : Token.Kind} (hl : Newlines lines) :
    read (.exprList closer) (lines ++ ts) = read (.exprList closer) ts := by
  rw [read_exprList, dropWhile_newlines hl, ← read_exprList]

-- The loop over expressions with its first expression read.
theorem read_exprList_of_expr {closer u : Token} {w lines rest : List Token} {n : Node} (hd : Derives .expr w n)
    (h : Category.expr.Reads w n) (hl : Newlines lines) (hc : closer.kind.closesList) (hu : u.kind.endsExpr)
    (hn : u.kind ≠ .newline) :
    read (.exprList closer.kind) (w ++ (lines ++ u :: rest)) =
      if u.kind = .comma then do
        let (others, rest) ← read (.exprList closer.kind) rest
        return (n :: others, rest)
      else .ok ([n], u :: rest) := by
  have hr : read .expr (w ++ (lines ++ u :: rest)) = .ok (n, lines ++ u :: rest) := by
    cases lines
    case nil => exact h u rest hu
    case cons l lines => exact h l (lines ++ u :: rest) (by rw [hl l (by simp)]; decide)
  obtain ⟨t, w', rfl, ht⟩ := hd.opens
  have htn : t.kind ≠ .newline := by
    intro heq
    rw [heq] at ht
    cases ht
  have htc : t.kind ≠ closer.kind := by
    intro heq
    rw [← heq] at hc
    revert hc ht
    cases t.kind <;> decide
  rw [List.cons_append] at hr ⊢
  rw [read_exprList, List.dropWhile_cons_of_neg (by simpa using htn)]
  simp only [htc, if_false, hr, ok_bind, dropWhile_newlines hl]
  rw [List.dropWhile_cons_of_neg (by simpa using hn)]

theorem reads_items {lines w : List Token} {ns : List Node} (hl : Newlines lines) (h : Category.items.Reads w ns) :
    Category.exprList.Reads (lines ++ w) ns := by
  intro t rest ht
  rw [List.append_assoc, read_exprList_newlines hl]
  exact (h t rest ht).left

theorem reads_itemsComma {comma : Token} {lines w lines' : List Token} {ns : List Node} (hl : Newlines lines)
    (h : Category.items.Reads w ns) (hc : comma.kind = .comma) (hl' : Newlines lines') :
    Category.exprList.Reads (lines ++ w ++ comma :: lines') ns := by
  intro t rest ht
  rw [List.append_assoc, List.append_assoc, read_exprList_newlines hl]
  exact (h t rest ht).right comma lines' hc hl'

theorem reads_item {w lines : List Token} {n : Node} (hd : Derives .expr w n) (h : Category.expr.Reads w n)
    (hl : Newlines lines) : Category.items.Reads (w ++ lines) [n] := by
  intro t rest ht
  constructor
  case left =>
    have hne : t.kind ≠ .newline ∧ t.kind ≠ .comma := by
      revert ht
      cases t.kind <;> decide
    rw [List.append_assoc, read_exprList_of_expr hd h hl ht (Token.Kind.endsExpr_of_closesList ht) hne.1]
    simp [hne.2]
  case right =>
    intro comma lines' hc hl'
    rw [List.append_assoc, read_exprList_of_expr hd h hl ht (by rw [hc]; decide) (by rw [hc]; decide)]
    simp only [hc, if_true, reads_noItems hl' t rest ht, ok_bind]
    rfl

theorem reads_moreItems {comma : Token} {w lines lines' w' : List Token} {n : Node} {ns : List Node}
    (hd : Derives .expr w n) (h : Category.expr.Reads w n) (hl : Newlines lines) (hc : comma.kind = .comma)
    (hl' : Newlines lines') (h' : Category.items.Reads w' ns) :
    Category.items.Reads (w ++ lines ++ comma :: lines' ++ w') (n :: ns) := by
  intro t rest ht
  have step (ts : List Token) (hts : read (.exprList t.kind) (w' ++ ts) = .ok (ns, t :: rest)) :
      read (.exprList t.kind) (w ++ lines ++ comma :: lines' ++ w' ++ ts) = .ok (n :: ns, t :: rest) := by
    simp only [List.append_assoc, List.cons_append]
    rw [read_exprList_of_expr hd h hl ht (by rw [hc]; decide) (by rw [hc]; decide), read_exprList_newlines hl', hts]
    simp only [hc, if_true, ok_bind]
    rfl
  exact ⟨step _ (h' t rest ht).left, fun comma' lines'' hc' hl'' => step _ ((h' t rest ht).right _ _ hc' hl'')⟩

theorem Derives.reads {c : Category} {w : List Token} {tree : c.Tree} (h : Derives c w tree) : c.Reads w tree := by
  induction h
  case empty hs => exact reads_empty hs
  case body hb _ ha hi => exact reads_body hb hi ha
  case one hd hi => exact reads_one hd hi
  case more hd hs hne _ hi hi' => exact reads_more hd hi hs hne hi'
  case letStmt hk hn hs _ hi => exact reads_letStmt hk hn hs hi
  case bareReturn hk => exact reads_bareReturn hk
  case returnStmt hk hd hi => exact reads_returnStmt hk hd hi
  case function hk hn ho hps hc _ hi => exact reads_function hk hn ho hps hc hi
  case exprStmt hd hi => exact reads_exprStmt hd hi
  case block ho _ hc hi => exact reads_block ho hi hc
  case assign hd hs _ hi hi' => exact reads_assign hd hi hs hi'
  case tiers hi => exact reads_tiers hi
  case name hk => exact ⟨⟨_, _, rfl⟩, reads_name hk⟩
  case groupedTarget ho hd hc hi => exact reads_groupedTarget ho hd hi hc
  case untiered hi => exact fun t rest ht => (read_binary_nil _).trans (hi t rest ht)
  case tighter hi => exact reads_tighter hi
  case binary ho _ hi hi' => exact reads_binary hi ho hi'
  case unary ho _ hi => exact reads_unary ho hi
  case operand hd hi => exact reads_operand hd hi
  case callee hi => exact reads_callee hi
  case call ho _ hc hi hi' => exact reads_call hi ho hi' hc
  case literal hk => exact reads_literal hk
  case nop hk => exact reads_nop hk
  case ident hk => exact fun t rest _ => reads_name hk (t :: rest)
  case grouped ho _ hc hi => exact reads_grouped ho hi hc
  case list ho _ hc hi => exact reads_list ho hi hc
  case blockExpr hd hi => exact reads_blockExpr hd hi
  case ifExpr hi => exact reads_ifExpr hi
  case ifThen hk _ hd hi hi' => exact reads_ifThen hk hi hd hi'
  case ifThenElse hk _ hd ho _ hi hi' hi'' => exact reads_ifThenElse hk hi hd hi' ho hi''
  case elseIf hi => exact reads_elseIf hi
  case elseBlock hd hi => exact reads_elseBlock hd hi
  case noItems hl => exact reads_noItems hl
  case items hl _ hi => exact reads_items hl hi
  case itemsComma hl _ hc hl' hi => exact reads_itemsComma hl hi hc hl'
  case item hd hl hi => exact reads_item hd hi hl
  case moreItems hd hl hc hl' _ hi hi' => exact reads_moreItems hd hi hl hc hl' hi'

end Grammar
end ParenTree
