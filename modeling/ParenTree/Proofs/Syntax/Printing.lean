import ParenTree.Proofs.Syntax.Respacing
import ParenTree.Proofs.Syntax.Viability

-- Every well-formed tree can be written down so that the text is read as that tree again.

namespace ParenTree

namespace Token

-- The token of an operator among the given kinds.
def ofOperator (kinds : List Kind) (op : String) : Token :=
  .sample ((kinds.find? (·.spelling? = some op)).getD .endOfInput)

def ofName (name : String) : Token :=
  ⟨.ident, name, .blank⟩

theorem sample_kind (k : Kind) : (sample k).kind = k :=
  rfl

theorem isWord_sample (k : Kind) (hs : k.spelling?.isSome := by rfl) (hk : k ≠ .endOfInput := by decide) :
    (sample k).IsWord := by
  obtain ⟨w, hw⟩ := Option.isSome_iff_exists.mp hs
  refine ⟨hk, Kind.spells_of_spelling? ?_⟩
  simp only [sample, hw, Option.getD_some, String.ofList_toList]

theorem isWord_ofName {name : String} (h : IsName name) : (ofName name).IsWord :=
  ⟨by simp [ofName], h⟩

end Token

namespace LiteralKind

-- The token of a literal.
def token (kind : LiteralKind) (value : String) : Token :=
  match kind with
  | int => ⟨.int, value, .blank⟩
  | float => ⟨.float, value, .blank⟩
  | string => ⟨.string, .ofList ('"' :: value.toList ++ ['"']), .blank⟩
  | «true» => .sample .kwTrue
  | «false» => .sample .kwFalse

variable {kind : LiteralKind} {value : String}

theorem isWord_token (h : kind.Admits value) : (kind.token value).IsWord := by
  cases kind
  case int | float => exact ⟨by simp [token], h⟩
  case string => exact ⟨by simp [token], value.toList, String.toList_ofList, h⟩
  case «true» | «false» => exact Token.isWord_sample _

theorem derives_token (h : kind.Admits value) :
    Grammar.Derives .primary [kind.token value] (.literal .blank kind value) := by
  have hd : Grammar.Derives .primary [kind.token value]
      (.literal (kind.token value).span kind (Parser.literalValue kind (kind.token value).lexeme)) :=
    .literal (by cases kind <;> rfl)
  cases kind
  case int | float => exact hd
  case string =>
    have hv : Parser.literalValue .string (token .string value).lexeme = value := by
      simp [Parser.literalValue, token]
    rw [hv] at hd
    exact hd
  case «true» | «false» =>
    cases h
    exact hd

end LiteralKind

namespace Node

def bare : Node → Node :=
  map (fun _ => .blank) fun _ value => value

def bareAll : List Node → List Node :=
  mapAll (fun _ => .blank) fun _ value => value

-- Parameters, each with a comma behind it.
def paramTokens : List String → List Token
  | [] => []
  | p :: ps => .ofName p :: .sample .comma :: paramTokens ps

def parenthesized (w : List Token) : List Token :=
  .sample .openParen :: w ++ [.sample .closeParen]

mutual

-- The tokens of a tree. Whatever has operators or arguments is put in parentheses, so that nothing around it can take it
-- apart.
def tokens : Node → List Token
  | nop _ => [.sample .kwNop]
  | literal _ kind value => [kind.token value]
  | ident _ name => [.ofName name]
  | unary _ op operand => parenthesized (.ofOperator [.bang, .minus] op :: operand.tokens)
  | binary _ left op right => parenthesized (left.tokens ++ .ofOperator Parser.tiers.flatten op :: right.tokens)
  | assign _ target value => parenthesized (target.tokens ++ .sample .assign :: value.tokens)
  | call _ callee args => parenthesized (callee.tokens ++ parenthesized (itemTokens args))
  | list _ items => .sample .openBracket :: itemTokens items ++ [.sample .closeBracket]
  | block _ statements => .sample .openBrace :: bodyTokens statements ++ [.sample .closeBrace]
  | conditional _ condition thenBlock elseBranch =>
    .sample .kwIf :: condition.tokens ++ thenBlock.tokens ++
      if elseBranch.isNop then [] else .sample .kwElse :: elseBranch.tokens
  | letStmt _ name value => .sample .kwLet :: .ofName name :: .sample .assign :: value.tokens
  | returnStmt _ value => .sample .kwReturn :: value.tokens
  | function _ name params body =>
    .sample .kwFn :: .ofName name :: parenthesized (paramTokens params) ++ body.tokens

-- Expressions, each with a comma behind it.
def itemTokens : List Node → List Token
  | [] => []
  | n :: ns => n.tokens ++ .sample .comma :: itemTokens ns

-- Statements, each with a semicolon behind it.
def bodyTokens : List Node → List Token
  | [] => []
  | n :: ns => n.tokens ++ .sample .semicolon :: bodyTokens ns

end

theorem induct {motive : Node → Prop} (step : ∀ n, (∀ m ∈ n.children, motive m) → motive n) (n : Node) : motive n := by
  induction hs : sizeOf n using Nat.strongRecOn generalizing n
  case ind size hi =>
    subst hs
    refine step n fun m hm => hi (sizeOf m) ?_ m rfl
    have inside {ns : List Node} (h : m ∈ ns) : sizeOf m < sizeOf ns := List.sizeOf_lt_of_mem h
    cases n <;> simp only [children, List.not_mem_nil, List.mem_cons, or_false] at hm
    case call =>
      rcases hm with rfl | hm
      · simp only [call.sizeOf_spec]; omega
      · have := inside hm
        simp only [call.sizeOf_spec]
        omega
    case list | block =>
      have := inside hm
      simp only [list.sizeOf_spec, block.sizeOf_spec]
      omega
    case binary | assign => rcases hm with rfl | rfl <;> simp only [binary.sizeOf_spec, assign.sizeOf_spec] <;> omega
    case conditional => rcases hm with rfl | rfl | rfl <;> simp only [conditional.sizeOf_spec] <;> omega
    all_goals
      subst hm
      simp only [unary.sizeOf_spec, letStmt.sizeOf_spec, returnStmt.sizeOf_spec, function.sizeOf_spec]
      omega

mutual

theorem map_map (f g : Span → Span) (n : Node) :
    (n.map f fun _ value => value).map g (fun _ value => value) = n.map (fun s => g (f s)) fun _ value => value := by
  cases n <;> simp [map, map_map, mapAll_mapAll]

theorem mapAll_mapAll (f g : Span → Span) (ns : List Node) :
    mapAll g (fun _ value => value) (mapAll f (fun _ value => value) ns) =
      mapAll (fun s => g (f s)) (fun _ value => value) ns := by
  cases ns <;> simp [mapAll, map_map, mapAll_mapAll]

end

theorem bare_span (n : Node) : n.bare.span = .blank := by
  cases n <;> rfl

end Node

namespace Grammar

open ParenTree.Parser (tiers)

variable {w w' : List Token} {n : Node} {ns : List Node}

theorem Derives.expr_of_unary (h : Derives .unary w n) : Derives .expr w n :=
  .tiers (h.tier_of_unary Parser.tiers)

theorem Derives.expr_of_primary (h : Derives .primary w n) : Derives .expr w n :=
  expr_of_unary (.operand (.callee h))

theorem Derives.parenthesized (h : Derives .expr w n) : Derives .primary (Node.parenthesized w) n :=
  .grouped rfl h rfl

-- An operator of any tier stands between operands that nothing can take apart.
theorem Derives.binary_of_mem {levels : List (List Token.Kind)} {ops : List Token.Kind} {op : Token} {left right : Node}
    (ho : ops ∈ levels) (hk : op.kind ∈ ops) (hl : Derives .primary w left) (hr : Derives .primary w' right) :
    Derives (.tier levels) (w ++ op :: w') (.binary (left.span.through right.span) left op.lexeme right) := by
  induction ho
  case head levels => exact .binary (hl.tier _) hk (hr.tier levels)
  case tail hi => exact .tighter hi

theorem Params.cons {ps : List String} (name : String) (h : Params w ps) :
    Params (.ofName name :: .sample .comma :: w) (name :: ps) := by
  have ht : (Token.ofName name).kind = .ident := rfl
  have hc : (Token.sample .comma).kind = .comma := rfl
  cases h
  case none => exact .comma (.one ht) hc
  case some h => exact .some (.more ht hc h)
  case comma hk h => exact .comma (.more ht hc h) hk

theorem Derives.separated {sep : Token} (hs : sep.kind.isSeparator) (h : Derives .body w ns) : Derives .body (sep :: w) ns := by
  cases h
  case empty hw => exact .empty (List.forall_mem_cons.mpr ⟨hs, hw⟩)
  case body hb ha h => exact .body (List.forall_mem_cons.mpr ⟨hs, hb⟩) h ha

end Grammar

namespace Node

open Grammar ParenTree.Parser.Procedure

theorem derives_params (ps : List String) : Params (paramTokens ps) ps := by
  induction ps
  case nil => exact .none
  case cons p ps hi => exact hi.cons p

-- What the tokens of a node are the word of.
structure Printed (n : Node) : Prop where
  statement : n.WellFormed .statement → Derives .statement n.tokens n.bare
  primary : n.WellFormed .part → Derives .primary n.tokens n.bare
  block : n.isBlock → n.WellFormed .part → Derives .block n.tokens n.bare
  conditional : n.isConditional → n.WellFormed .part → Derives .conditional n.tokens n.bare

section

variable {ns : List Node}

theorem derives_items (h : ∀ n ∈ ns, n.Printed) (hw : AllWellFormed .part ns) :
    Derives .exprList (itemTokens ns) (bareAll ns) := by
  induction ns
  case nil => exact .noItems (List.forall_mem_nil _)
  case cons n ns hi =>
    have hn := (h n List.mem_cons_self).primary hw.left
    have hs := hi (fun m hm => h m (List.mem_cons_of_mem n hm)) hw.right
    have hl : Newlines [] := List.forall_mem_nil _
    have hk : (Token.sample .comma).kind = .comma := rfl
    have hc := exprList_cons hl hn.expr_of_primary hl hk hs
    rw [List.nil_append, List.append_nil] at hc
    exact hc

theorem derives_body (h : ∀ n ∈ ns, n.Printed) (hw : AllWellFormed .statement ns) :
    Derives .body (bodyTokens ns) (bareAll ns) := by
  induction ns
  case nil => exact .empty (List.forall_mem_nil _)
  case cons n ns hi =>
    have hn := (h n List.mem_cons_self).statement hw.left
    have hs := hi (fun m hm => h m (List.mem_cons_of_mem n hm)) hw.right
    have hk : (Token.sample .semicolon).kind.isSeparator := rfl
    have hn' : Separators [] := List.forall_mem_nil _
    have hb := body_cons hn' hn (by simpa using hk) (hs.separated hk)
    rw [List.nil_append] at hb
    exact hb

end

theorem Printed.of_primary {n : Node} (hs : n.WellFormed .statement → n.WellFormed .part)
    (h : n.WellFormed .part → Derives .primary n.tokens n.bare) (hb : n.isBlock = false) (hc : n.isConditional = false) :
    Printed n where
  statement hn := .exprStmt (h (hs hn)).expr_of_primary
  primary := h
  block hn := by simp [hb] at hn
  conditional hn := by simp [hc] at hn

-- A statement that is no expression.
theorem Printed.of_statement {n : Node} (h : n.WellFormed .statement → Derives .statement n.tokens n.bare)
    (hn : ¬n.WellFormed .part) : Printed n where
  statement := h
  primary hp := absurd hp hn
  block _ hp := absurd hp hn
  conditional _ hp := absurd hp hn

theorem unary_operator : ∀ op ∈ unaryOperators,
    ((Token.ofOperator [.bang, .minus] op).kind = .bang ∨ (Token.ofOperator [.bang, .minus] op).kind = .minus) ∧
      (Token.ofOperator [.bang, .minus] op).lexeme = op := by
  decide

theorem binary_operator : ∀ op ∈ binaryOperators, ∃ ops ∈ Parser.tiers,
    (Token.ofOperator Parser.tiers.flatten op).kind ∈ ops ∧ (Token.ofOperator Parser.tiers.flatten op).lexeme = op := by
  decide

theorem printed_unary (s : Span) (op : String) {operand : Node} (h : operand.Printed) : (unary s op operand).Printed := by
  refine .of_primary (fun hn => hn) (fun hn => ?_) rfl rfl
  obtain ⟨hk, hl⟩ := unary_operator op hn.left
  have hd := Derives.unary hk (.operand (.callee (h.primary hn.right)))
  rw [hl, bare_span] at hd
  exact hd.expr_of_unary.parenthesized

theorem printed_binary (s : Span) (op : String) {left right : Node} (hl : left.Printed) (hr : right.Printed) :
    (binary s left op right).Printed := by
  refine .of_primary (fun hn => hn) (fun hn => ?_) rfl rfl
  obtain ⟨ops, ho, hk, he⟩ := binary_operator op hn.left
  have hd := Derives.binary_of_mem ho hk (hl.primary hn.right.left) (hr.primary hn.right.right)
  rw [he, bare_span, bare_span] at hd
  exact Derives.parenthesized (.tiers hd)

theorem printed_assign (s : Span) {target value : Node} (ht : target.Printed) (hv : value.Printed) :
    (assign s target value).Printed := by
  refine .of_primary (fun hn => hn) (fun hn => ?_) rfl rfl
  obtain ⟨hi, hw, hn⟩ := hn
  cases target <;> cases hi
  case ident =>
    have ht : Derives .target _ _ := ((ht.primary hw).tier []).target_of_ident
    have hd := Derives.assign ht (Token.sample_kind .assign) (hv.primary hn).expr_of_primary
    rw [bare_span] at hd
    exact hd.parenthesized

theorem printed_call (s : Span) {callee : Node} {args : List Node} (hc : callee.Printed) (ha : ∀ n ∈ args, n.Printed) :
    (call s callee args).Printed := by
  refine .of_primary (fun hn => hn) (fun hn => ?_) rfl rfl
  have hd := Derives.call (.callee (hc.primary hn.left)) (Token.sample_kind .openParen) (derives_items ha hn.right)
    (Token.sample_kind .closeParen)
  rw [bare_span, List.append_assoc] at hd
  exact (Derives.expr_of_unary (.operand hd)).parenthesized

theorem printed_list (s : Span) {items : List Node} (h : ∀ n ∈ items, n.Printed) : (list s items).Printed :=
  .of_primary id (fun hn => .list rfl (derives_items h hn) rfl) rfl rfl

theorem printed_block (s : Span) {statements : List Node} (h : ∀ n ∈ statements, n.Printed) :
    (block s statements).Printed := by
  have hb (hn : (block s statements).WellFormed .part) : Derives .block (block s statements).tokens (block s statements).bare :=
    .block rfl (derives_body h hn) rfl
  exact
    { statement := fun hn => .exprStmt (Derives.expr_of_primary (.blockExpr (hb hn)))
      primary := fun hn => .blockExpr (hb hn)
      block := fun _ hn => hb hn
      conditional := fun hn => nomatch hn }

theorem derives_conditional (s : Span) {condition thenBlock elseBranch : Node} (hc : condition.Printed)
    (ht : thenBlock.Printed) (he : elseBranch.Printed) (hn : (conditional s condition thenBlock elseBranch).WellFormed .part) :
    Derives .conditional (conditional s condition thenBlock elseBranch).tokens
      (conditional s condition thenBlock elseBranch).bare := by
  obtain ⟨hwc, hwt, hk, hwe⟩ := hn
  have hdc := (hc.primary hwc).expr_of_primary
  have hdt := ht.block hwt.left hwt.right
  cases hnop : elseBranch.isNop
  case true =>
    cases elseBranch <;> cases hnop
    have hd := Derives.ifThen (Token.sample_kind .kwIf) hdc hdt
    rw [bare_span, ← List.append_nil (_ ++ _)] at hd
    exact hd
  case false =>
    have hdb : Derives .branch elseBranch.tokens elseBranch.bare := by
      rcases hk with hk | hk | hk
      case inl => simp [hnop] at hk
      case inr.inl => exact .elseBlock (he.block hk hwe)
      case inr.inr => exact .elseIf (he.conditional hk hwe)
    have hd := Derives.ifThenElse (Token.sample_kind .kwIf) hdc hdt (Token.sample_kind .kwElse) hdb
    rw [bare_span] at hd
    simp only [tokens, hnop, Bool.false_eq_true, if_false]
    exact hd

theorem printed_conditional (s : Span) {condition thenBlock elseBranch : Node} (hc : condition.Printed)
    (ht : thenBlock.Printed) (he : elseBranch.Printed) : (conditional s condition thenBlock elseBranch).Printed where
  statement hn := .exprStmt (Derives.expr_of_primary (.ifExpr (derives_conditional s hc ht he hn)))
  primary hn := .ifExpr (derives_conditional s hc ht he hn)
  block hn := nomatch hn
  conditional _ hn := derives_conditional s hc ht he hn

theorem printed_letStmt (s : Span) (name : String) {value : Node} (h : value.Printed) : (letStmt s name value).Printed := by
  refine .of_statement (fun hn => ?_) (fun hn => nomatch hn.left)
  have hd := Derives.letStmt (Token.sample_kind .kwLet) (rfl : (Token.ofName name).kind = .ident)
    (.inr (Token.sample_kind .assign)) (h.primary hn.right.right).expr_of_primary
  rw [bare_span] at hd
  exact hd

theorem printed_returnStmt (s : Span) {value : Node} (h : value.Printed) : (returnStmt s value).Printed := by
  refine .of_statement (fun hn => ?_) (fun hn => nomatch hn.left)
  have hd := Derives.returnStmt (Token.sample_kind .kwReturn) (h.primary hn.right).expr_of_primary
  rw [bare_span] at hd
  exact hd

theorem printed_function (s : Span) (name : String) (params : List String) {body : Node} (h : body.Printed) :
    (function s name params body).Printed := by
  refine .of_statement (fun hn => ?_) (fun hn => nomatch hn.left)
  obtain ⟨-, -, -, hb, hn⟩ := hn
  have hd := Derives.function (Token.sample_kind .kwFn) (rfl : (Token.ofName name).kind = .ident)
    (Token.sample_kind .openParen) (derives_params params) (Token.sample_kind .closeParen) (h.block hb hn)
  rw [bare_span] at hd
  simp only [tokens, parenthesized, List.cons_append, List.append_assoc]
  exact hd

theorem printed (n : Node) : n.Printed := by
  induction n using induct
  case step n hi =>
    cases n <;> simp only [children, List.forall_mem_cons] at hi
    case nop => exact .of_primary id (fun _ => .nop rfl) rfl rfl
    case literal => exact .of_primary id (fun hn => LiteralKind.derives_token hn) rfl rfl
    case ident => exact .of_primary id (fun _ => .ident rfl) rfl rfl
    case unary => exact printed_unary _ _ hi.left
    case binary => exact printed_binary _ _ hi.left hi.right.left
    case assign => exact printed_assign _ hi.left hi.right.left
    case call => exact printed_call _ hi.left hi.right
    case list => exact printed_list _ hi
    case block => exact printed_block _ hi
    case conditional => exact printed_conditional _ hi.left hi.right.left hi.right.right.left
    case letStmt => exact printed_letStmt _ _ hi.left
    case returnStmt => exact printed_returnStmt _ hi.left
    case function => exact printed_function _ _ _ hi.left

section

variable {ns : List Node}

theorem isWord_params {ps : List String} (h : ∀ p ∈ ps, IsName p) : ∀ t ∈ paramTokens ps, t.IsWord := by
  induction ps
  case nil => exact List.forall_mem_nil _
  case cons p ps hi =>
    obtain ⟨hp, hps⟩ := List.forall_mem_cons.mp h
    exact List.forall_mem_cons.mpr ⟨Token.isWord_ofName hp, List.forall_mem_cons.mpr ⟨Token.isWord_sample .comma, hi hps⟩⟩

theorem isWord_items (h : ∀ n ∈ ns, ∀ t ∈ n.tokens, t.IsWord) : ∀ t ∈ itemTokens ns, t.IsWord := by
  induction ns
  case nil => exact List.forall_mem_nil _
  case cons n ns hi =>
    obtain ⟨hn, hns⟩ := List.forall_mem_cons.mp h
    exact List.forall_mem_append.mpr ⟨hn, List.forall_mem_cons.mpr ⟨Token.isWord_sample .comma, hi hns⟩⟩

theorem isWord_body (h : ∀ n ∈ ns, ∀ t ∈ n.tokens, t.IsWord) : ∀ t ∈ bodyTokens ns, t.IsWord := by
  induction ns
  case nil => exact List.forall_mem_nil _
  case cons n ns hi =>
    obtain ⟨hn, hns⟩ := List.forall_mem_cons.mp h
    exact List.forall_mem_append.mpr ⟨hn, List.forall_mem_cons.mpr ⟨Token.isWord_sample .semicolon, hi hns⟩⟩

end

theorem isWord_parenthesized {w : List Token} (h : ∀ t ∈ w, t.IsWord) : ∀ t ∈ parenthesized w, t.IsWord := by
  refine List.forall_mem_cons.mpr ⟨Token.isWord_sample .openParen, List.forall_mem_append.mpr ⟨h, ?_⟩⟩
  exact List.forall_mem_singleton.mpr (Token.isWord_sample .closeParen)

theorem isWord_unary {op : String} (h : op ∈ unaryOperators) : (Token.ofOperator [.bang, .minus] op).IsWord := by
  have hs : ∀ op ∈ unaryOperators, (Token.ofOperator [.bang, .minus] op).kind.spelling?.isSome ∧
      (Token.ofOperator [.bang, .minus] op).kind ≠ .endOfInput := by decide
  exact Token.isWord_sample _ (hs op h).left (hs op h).right

theorem isWord_binary {op : String} (h : op ∈ binaryOperators) : (Token.ofOperator Parser.tiers.flatten op).IsWord := by
  have hs : ∀ op ∈ binaryOperators, (Token.ofOperator Parser.tiers.flatten op).kind.spelling?.isSome ∧
      (Token.ofOperator Parser.tiers.flatten op).kind ≠ .endOfInput := by decide
  exact Token.isWord_sample _ (hs op h).left (hs op h).right

theorem isWord_tokens {n : Node} (h : n.WellFormed .statement) : ∀ t ∈ n.tokens, t.IsWord := by
  induction n using induct
  case step n hi =>
    replace hi (m) (hm : m ∈ n.children) := hi m hm (wellFormed_children h m hm)
    cases n <;> simp only [children, List.forall_mem_cons] at hi
    case nop => exact List.forall_mem_singleton.mpr (Token.isWord_sample .kwNop)
    case literal => exact List.forall_mem_singleton.mpr (LiteralKind.isWord_token h)
    case ident => exact List.forall_mem_singleton.mpr (Token.isWord_ofName h)
    case unary => exact isWord_parenthesized (List.forall_mem_cons.mpr ⟨isWord_unary h.left, hi.left⟩)
    case binary =>
      refine isWord_parenthesized (List.forall_mem_append.mpr ⟨hi.left, ?_⟩)
      exact List.forall_mem_cons.mpr ⟨isWord_binary h.left, hi.right.left⟩
    case assign =>
      refine isWord_parenthesized (List.forall_mem_append.mpr ⟨hi.left, ?_⟩)
      exact List.forall_mem_cons.mpr ⟨Token.isWord_sample .assign, hi.right.left⟩
    case call =>
      refine isWord_parenthesized (List.forall_mem_append.mpr ⟨hi.left, ?_⟩)
      exact isWord_parenthesized (isWord_items hi.right)
    case list =>
      refine List.forall_mem_cons.mpr ⟨Token.isWord_sample .openBracket, List.forall_mem_append.mpr ⟨isWord_items hi, ?_⟩⟩
      exact List.forall_mem_singleton.mpr (Token.isWord_sample .closeBracket)
    case block =>
      refine List.forall_mem_cons.mpr ⟨Token.isWord_sample .openBrace, List.forall_mem_append.mpr ⟨isWord_body hi, ?_⟩⟩
      exact List.forall_mem_singleton.mpr (Token.isWord_sample .closeBrace)
    case conditional =>
      obtain ⟨hc, ht, he, -⟩ := hi
      refine List.forall_mem_cons.mpr ⟨Token.isWord_sample .kwIf, ?_⟩
      refine List.forall_mem_append.mpr ⟨List.forall_mem_append.mpr ⟨hc, ht⟩, ?_⟩
      split
      case isTrue => exact List.forall_mem_nil _
      case isFalse => exact List.forall_mem_cons.mpr ⟨Token.isWord_sample .kwElse, he⟩
    case letStmt =>
      obtain ⟨-, hn, -⟩ := h
      refine List.forall_mem_cons.mpr ⟨Token.isWord_sample .kwLet, List.forall_mem_cons.mpr ⟨Token.isWord_ofName hn, ?_⟩⟩
      exact List.forall_mem_cons.mpr ⟨Token.isWord_sample .assign, hi.left⟩
    case returnStmt => exact List.forall_mem_cons.mpr ⟨Token.isWord_sample .kwReturn, hi.left⟩
    case function =>
      obtain ⟨-, hn, hp, -⟩ := h
      refine List.forall_mem_cons.mpr ⟨Token.isWord_sample .kwFn, List.forall_mem_cons.mpr ⟨Token.isWord_ofName hn, ?_⟩⟩
      exact List.forall_mem_append.mpr ⟨isWord_parenthesized (isWord_params hp), hi.left⟩

section

variable (onSpan : Span → Span) (onValue : LiteralKind → String → String) (n : Node)

theorem isIdent_map : (n.map onSpan onValue).isIdent = n.isIdent := by
  cases n <;> rfl

theorem isNop_map : (n.map onSpan onValue).isNop = n.isNop := by
  cases n <;> rfl

theorem isBlock_map : (n.map onSpan onValue).isBlock = n.isBlock := by
  cases n <;> rfl

theorem isConditional_map : (n.map onSpan onValue).isConditional = n.isConditional := by
  cases n <;> rfl

end

mutual

-- Whether a tree is well-formed does not depend on places.
theorem wellFormed_map (onSpan : Span → Span) (role : Role) (n : Node) :
    (n.map onSpan fun _ value => value).WellFormed role ↔ n.WellFormed role := by
  cases n <;> simp only [map, WellFormed, isIdent_map, isNop_map, isBlock_map, isConditional_map, wellFormed_map,
    allWellFormed_mapAll]

theorem allWellFormed_mapAll (onSpan : Span → Span) (role : Role) (ns : List Node) :
    AllWellFormed role (mapAll onSpan (fun _ value => value) ns) ↔ AllWellFormed role ns := by
  cases ns <;> simp only [mapAll, AllWellFormed, wellFormed_map, allWellFormed_mapAll]

end

end Node

namespace Program

open Grammar

theorem bare_bare (p : Program) : p.bare.bare = p.bare :=
  congrArg (Program.mk .blank) (Node.mapAll_mapAll _ _ p.body)

-- A text of a program: its tokens with spaces between them.
def text (p : Program) : String :=
  " ".intercalate ((Node.bodyTokens p.body).map (·.lexeme))

theorem extent_bareAll (ns : List Node) : extent (.sample .endOfInput) (Node.bareAll ns) = .blank := by
  cases ns
  case nil => rfl
  case cons n ns =>
    have hl (n : Node) : ((Node.bareAll ns).getLastD n.bare).span = .blank := by
      induction ns generalizing n
      case nil => exact n.bare_span
      case cons m ns hi => exact (congrArg Node.span List.getLastD_cons).trans (hi m)
    show n.bare.span.through ((n.bare :: Node.bareAll ns).getLastD n.bare).span = _
    rw [n.bare_span, List.getLastD_cons, hl]
    rfl

theorem spells_tokens {p : Program} (h : p.WellFormed) : Spells (Node.bodyTokens p.body ++ [.sample .endOfInput]) p.bare := by
  have hd := Node.derives_body (fun n _ => n.printed) h
  have hs := Spells.program hd (Token.sample_kind .endOfInput)
  rw [extent_bareAll] at hs
  exact hs

theorem ofSource_text (file : String) {p : Program} (h : p.WellFormed) :
    ∃ q, ofSource file p.text = .ok q ∧ q.bare = p.bare := by
  have hw : ∀ t ∈ Node.bodyTokens p.body, t.IsWord :=
    Node.isWord_body fun n hn => Node.isWord_tokens (Node.allWellFormed_iff.mp h n hn)
  obtain ⟨us, hs, hus⟩ := Token.scan_respaced file {} [] hw
  have hl : Token.ofSource file p.text = .ok us := by
    rw [Token.ofSource, text, String.toList_intercalate, List.map_map]
    exact hs
  have hu : us.map Token.word = (Node.bodyTokens p.body ++ [Token.sample .endOfInput]).map Token.word := by
    rw [hus, List.map_append]
    rfl
  obtain ⟨q, hq, hb⟩ := ofSource_of_words hl hu (spells_tokens h)
  exact ⟨q, hq, hb.trans p.bare_bare⟩

theorem wellFormed_iff_exists_source (file : String) (p : Program) :
    p.WellFormed ↔ ∃ source q, ofSource file source = .ok q ∧ q.bare = p.bare where
  mp h := ⟨p.text, ofSource_text file h⟩
  mpr h := by
    obtain ⟨source, q, hs, hq⟩ := h
    have hw := wellFormed_of_ofSource hs
    have hb : Node.bareAll q.body = Node.bareAll p.body := congrArg Program.body hq
    have hm := (Node.allWellFormed_mapAll (fun _ => .blank) .statement q.body).mpr hw
    rw [← Node.bareAll, hb] at hm
    exact (Node.allWellFormed_mapAll _ _ _).mp hm

end Program
end ParenTree
