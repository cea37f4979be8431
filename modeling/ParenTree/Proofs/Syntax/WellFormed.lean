import ParenTree.Proofs.Source.Spelling
import ParenTree.Proofs.Syntax.Recognition

-- The trees of source texts: which names, operators and literals they have, and what stands where in them.

namespace ParenTree

def IsName (name : String) : Prop :=
  Token.Kind.ident.Spells name.toList

def LiteralKind.Admits (kind : LiteralKind) (value : String) : Prop :=
  match kind with
  | int => Token.Kind.int.Spells value.toList
  | float => Token.Kind.float.Spells value.toList
  | string => Lexeme.isStringBody value.toList
  | «true» => value = "true"
  | «false» => value = "false"

namespace Node

def unaryOperators : List String :=
  ["!", "-"]

def binaryOperators : List String :=
  ["||", "&&", "==", "!=", "<", "<=", ">", ">=", "+", "-", "*", "/", "%"]

def isIdent : Node → Bool
  | ident .. => true
  | _ => false

def isBlock : Node → Bool
  | block .. => true
  | _ => false

def isConditional : Node → Bool
  | conditional .. => true
  | _ => false

-- Where a node stands: in a list of statements, or as a part of another node.
inductive Role
  | statement
  | part

mutual

def WellFormed (role : Role) : Node → Prop
  | nop _ => True
  | literal _ kind value => kind.Admits value
  | ident _ name => IsName name
  | unary _ op operand => op ∈ unaryOperators ∧ operand.WellFormed .part
  | binary _ left op right => op ∈ binaryOperators ∧ left.WellFormed .part ∧ right.WellFormed .part
  | assign _ target value => target.isIdent ∧ target.WellFormed .part ∧ value.WellFormed .part
  | call _ callee args => callee.WellFormed .part ∧ AllWellFormed .part args
  | list _ items => AllWellFormed .part items
  | block _ statements => AllWellFormed .statement statements
  | conditional _ condition thenBlock elseBranch =>
    condition.WellFormed .part ∧ (thenBlock.isBlock ∧ thenBlock.WellFormed .part) ∧
      (elseBranch.isNop ∨ elseBranch.isBlock ∨ elseBranch.isConditional) ∧ elseBranch.WellFormed .part
  | letStmt _ name value => role = .statement ∧ IsName name ∧ value.WellFormed .part
  | returnStmt _ value => role = .statement ∧ value.WellFormed .part
  | function _ name params body =>
    role = .statement ∧ IsName name ∧ (∀ p ∈ params, IsName p) ∧ body.isBlock ∧ body.WellFormed .part

def AllWellFormed (role : Role) : List Node → Prop
  | [] => True
  | n :: ns => n.WellFormed role ∧ AllWellFormed role ns

end

theorem allWellFormed_iff {role : Role} {ns : List Node} : AllWellFormed role ns ↔ ∀ n ∈ ns, n.WellFormed role := by
  induction ns
  case nil => simp [AllWellFormed]
  case cons n ns hi => simp [AllWellFormed, hi]

-- Whatever may be a part of another node may be a statement.
theorem WellFormed.asStatement {n : Node} (h : n.WellFormed .part) : n.WellFormed .statement := by
  cases n
  case letStmt | returnStmt | function => cases h.left
  all_goals exact h

-- The nodes right below a node.
def children : Node → List Node
  | nop _ | literal .. | ident .. => []
  | unary _ _ operand => [operand]
  | binary _ left _ right => [left, right]
  | assign _ target value => [target, value]
  | call _ callee args => callee :: args
  | list _ items => items
  | block _ statements => statements
  | conditional _ condition thenBlock elseBranch => [condition, thenBlock, elseBranch]
  | letStmt _ _ value => [value]
  | returnStmt _ value => [value]
  | function _ _ _ body => [body]

theorem wellFormed_children {n : Node} (h : n.WellFormed .statement) : ∀ m ∈ n.children, m.WellFormed .statement := by
  cases n
  case nop | literal | ident => exact List.forall_mem_nil _
  case unary => simpa [children] using h.right.asStatement
  case binary | assign => simpa [children] using ⟨h.right.left.asStatement, h.right.right.asStatement⟩
  case call =>
    have ha := allWellFormed_iff.mp h.right
    exact List.forall_mem_cons.mpr ⟨h.left.asStatement, fun n hn => (ha n hn).asStatement⟩
  case list => exact fun n hn => (allWellFormed_iff.mp h n hn).asStatement
  case block => exact allWellFormed_iff.mp h
  case conditional =>
    obtain ⟨hc, ht, _, he⟩ := h
    simpa [children] using ⟨hc.asStatement, ht.right.asStatement, he.asStatement⟩
  case letStmt => simpa [children] using h.right.right.asStatement
  case returnStmt => simpa [children] using h.right.asStatement
  case function => simpa [children] using h.right.right.right.right.asStatement

end Node

def Program.WellFormed (p : Program) : Prop :=
  Node.AllWellFormed .statement p.body

-- The nodes of a program, at any depth.
inductive Program.Has (p : Program) : Node → Prop
  | statement {n : Node} : n ∈ p.body → p.Has n
  | child {m n : Node} : p.Has m → n ∈ m.children → p.Has n

theorem Program.WellFormed.has {p : Program} {n : Node} (h : p.WellFormed) (hn : p.Has n) : n.WellFormed .statement := by
  induction hn
  case statement hn => exact Node.allWellFormed_iff.mp h _ hn
  case child hn hi => exact Node.wellFormed_children hi _ hn

namespace Token

theorem lexeme_eq {t : Token} {w : String} (h : t.kind.Spells t.lexeme.toList) (hk : t.kind.spelling? = some w) :
    t.lexeme = w := by
  have hs : t.kind.spelling? = some t.lexeme := by
    rw [← String.ofList_toList (s := t.lexeme)]
    cases hc : t.kind
    case ident | int | float | string =>
      rw [hc] at hk
      cases hk
    all_goals rwa [hc] at h
  exact Option.some.inj (hs.symm.trans hk)

theorem isName_of_ident {t : Token} (h : t.kind.Spells t.lexeme.toList) (hk : t.kind = .ident) : IsName t.lexeme := by
  rw [hk] at h
  exact h

end Token

namespace Grammar

open ParenTree.Parser (tiers)

def Spelled (w : List Token) : Prop :=
  ∀ t ∈ w, t.kind.Spells t.lexeme.toList

def Category.WellFormed : (c : Category) → c.Tree → Prop
  | body, ns | sequence, ns => Node.AllWellFormed .statement ns
  | exprList, ns | items, ns => Node.AllWellFormed .part ns
  | statement, n => n.WellFormed .statement
  | block, n => n.isBlock ∧ n.WellFormed .part
  | conditional, n => n.isConditional ∧ n.WellFormed .part
  | branch, n => (n.isBlock ∨ n.isConditional) ∧ n.WellFormed .part
  | target, n => n.isIdent ∧ n.WellFormed .part
  | tier levels, n => (∀ ops ∈ levels, ops ∈ tiers) → n.WellFormed .part
  | expr, n | unary, n | call, n | primary, n => n.WellFormed .part

theorem spelled_cons {t : Token} {w : List Token} : Spelled (t :: w) ↔ t.kind.Spells t.lexeme.toList ∧ Spelled w := by
  simp [Spelled]

theorem spelled_append {w w' : List Token} : Spelled (w ++ w') ↔ Spelled w ∧ Spelled w' := by
  simp [Spelled, or_imp, forall_and]

theorem Names.isName {w : List Token} {ns : List String} (h : Names w ns) (hw : Spelled w) : ∀ n ∈ ns, IsName n := by
  induction h
  case one ht =>
    obtain ⟨hs, _⟩ := spelled_cons.mp hw
    simpa using Token.isName_of_ident hs ht
  case more ht _ _ hi =>
    simp only [spelled_cons] at hw
    simpa using ⟨Token.isName_of_ident hw.left ht, hi hw.right.right⟩

theorem Params.isName {w : List Token} {ns : List String} (h : Params w ns) (hw : Spelled w) : ∀ n ∈ ns, IsName n := by
  cases h
  case none => exact List.forall_mem_nil _
  case some h => exact h.isName hw
  case comma h => exact h.isName (spelled_append.mp hw).left

theorem binary_of_tiers {op : Token} {ops : List Token.Kind} (ho : ops ∈ tiers) (hk : op.kind ∈ ops)
    (hs : op.kind.Spells op.lexeme.toList) : op.lexeme ∈ Node.binaryOperators := by
  have ht : ∀ ops ∈ tiers, ∀ k ∈ ops, ∃ w ∈ Node.binaryOperators, k.spelling? = some w := by decide
  obtain ⟨w, hw, he⟩ := ht ops ho op.kind hk
  exact Token.lexeme_eq hs he ▸ hw

theorem admits_of_literal {t : Token} {kind : LiteralKind} (hk : LiteralKind.ofToken? t.kind = some kind)
    (hs : t.kind.Spells t.lexeme.toList) : kind.Admits (ParenTree.Parser.literalValue kind t.lexeme) := by
  generalize t.kind = k at hk hs
  cases k <;> cases hk
  case int => exact hs
  case float => exact hs
  case string =>
    obtain ⟨body, he, hb⟩ := hs
    simp only [LiteralKind.Admits, ParenTree.Parser.literalValue, he, String.toList_ofList]
    simpa using hb
  case kwTrue | kwFalse =>
    have he := Option.some.inj hs
    rw [String.ofList_toList] at he
    exact he.symm

-- Induction on the derivation; the spellings of a word are those of the words it is put together from.
theorem Derives.wellFormed {c : Category} {w : List Token} {tree : c.Tree} (h : Derives c w tree) (hw : Spelled w) :
    c.WellFormed tree := by
  induction h <;> simp only [spelled_append, spelled_cons, Category.WellFormed] at *
  case empty => trivial
  case body hi => exact hi hw.left.right
  case one hi => exact ⟨hi hw, trivial⟩
  case more hi his => exact ⟨hi hw.left.left, his hw.right⟩
  case letStmt hn _ _ hi => exact ⟨rfl, Token.isName_of_ident hw.right.left hn, hi hw.right.right.right⟩
  case bareReturn => exact ⟨rfl, trivial⟩
  case returnStmt hi => exact ⟨rfl, hi hw.right⟩
  case function hn _ hp _ _ hi =>
    obtain ⟨⟨_, hs, _, hps⟩, _, hb⟩ := hw
    exact ⟨rfl, Token.isName_of_ident hs hn, hp.isName hps, hi hb⟩
  case exprStmt hi => exact (hi hw).asStatement
  case block hi => exact ⟨rfl, hi hw.left.right⟩
  case assign hi hiv => exact ⟨(hi hw.left).left, (hi hw.left).right, hiv hw.right.right⟩
  case tiers hi => exact hi hw fun _ h => h
  case name hk => exact ⟨rfl, Token.isName_of_ident hw.left hk⟩
  case groupedTarget hi => exact hi hw.left.right
  case untiered hi => exact fun _ => hi hw
  case tighter hi => exact fun hl => hi hw fun ops ho => hl ops (List.mem_cons_of_mem _ ho)
  case binary hk _ hi hir =>
    intro hl
    have ho := hl _ List.mem_cons_self
    exact ⟨binary_of_tiers ho hk hw.right.left, hi hw.left hl, hir hw.right.right fun ops ho => hl ops (List.mem_cons_of_mem _ ho)⟩
  case unary hk _ hi =>
    refine ⟨?_, hi hw.right⟩
    cases hk
    case inl hk => rw [Token.lexeme_eq (w := "!") hw.left (by rw [hk]; rfl)]; decide
    case inr hk => rw [Token.lexeme_eq (w := "-") hw.left (by rw [hk]; rfl)]; decide
  case operand hi => exact hi hw
  case callee hi => exact hi hw
  case call hi hia => exact ⟨hi hw.left.left, hia hw.left.right.right⟩
  case literal hk => exact admits_of_literal hk hw.left
  case nop => trivial
  case ident hk => exact Token.isName_of_ident hw.left hk
  case grouped hi => exact hi hw.left.right
  case list hi => exact hi hw.left.right
  case blockExpr hi => exact (hi hw).right
  case ifExpr hi => exact (hi hw).right
  case ifThen hi hit => exact ⟨rfl, hi hw.left.right, hit hw.right, .inl rfl, trivial⟩
  case ifThenElse hi hit hie =>
    obtain ⟨⟨⟨_, hc⟩, ht⟩, _, he⟩ := hw
    exact ⟨rfl, hi hc, hit ht, .inr (hie he).left, (hie he).right⟩
  case elseIf hi => exact ⟨.inr (hi hw).left, (hi hw).right⟩
  case elseBlock hi => exact ⟨.inl (hi hw).left, (hi hw).right⟩
  case noItems => trivial
  case items hi => exact hi hw.right
  case itemsComma hi => exact hi hw.left.right
  case item hi => exact ⟨hi hw.left, trivial⟩
  case moreItems hi his => exact ⟨hi hw.left.left.left, his hw.right⟩

theorem terminated_of_ofSource {file source : String} {ts : List Token} (h : Token.ofSource file source = .ok ts) :
    Terminated ts := by
  obtain ⟨w, eof, he, hk, hw⟩ := Token.ofSource_spells h
  exact ⟨w, eof, he, hk, fun t ht => (hw t ht).left⟩

end Grammar

open Grammar in
-- Every program that a source text spells is well formed.
theorem Program.wellFormed_of_ofSource {file source : String} {p : Program} (h : Program.ofSource file source = .ok p) :
    p.WellFormed := by
  rw [ofSource] at h
  cases ht : Token.ofSource file source
  case error =>
    rw [ht] at h
    cases h
  case ok ts =>
    rw [ht] at h
    obtain ⟨w, eof, he, hk, hw⟩ := Token.ofSource_spells ht
    have hs := spells_of_ofTokens ⟨w, eof, he, hk, fun t hm => (hw t hm).left⟩ h
    cases hs
    case program w' ns eof' hd hk' =>
      have hw' : w' = w := (List.append_inj' he rfl).left
      exact hd.wellFormed (hw' ▸ fun t hm => (hw t hm).right)

end ParenTree
