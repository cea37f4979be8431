import Mathlib.Data.List.Induction
import ParenTree.Proofs.Syntax.Completeness
import ParenTree.Proofs.Syntax.Spans

-- What operators between operands mean: the one tree of these operators, with the operands in their order, in which operators
-- of looser tiers stand above those of tighter ones, and of one tier the later above the earlier.

namespace ParenTree.Grammar

open ParenTree.Parser (tiers)
open ParenTree.Parser.Procedure (read)

-- What may stand next to a binary operator without parentheses.
structure Operand where
  word : List Token
  node : Node
  derives : Derives .unary word node

structure Operator where
  token : Token
  isBinary : tiers.any (·.contains token.kind) = true

-- The number of its tier; the tightest tier has the highest.
def Operator.tier (o : Operator) : Nat :=
  tiers.findIdx (·.contains o.token.kind)

-- Operands with operators between them.
@[ext]
structure Chain where
  first : Operand
  others : List (Operator × Operand)

def Chain.word (s : Chain) : List Token :=
  s.first.word ++ s.others.flatMap fun x => x.1.token :: x.2.word

-- A tree of operators. An operand is a leaf, even if its own node is one of an operator under parentheses.
inductive OpTree
  | operand (x : Operand)
  | apply (left : OpTree) (o : Operator) (right : OpTree)

namespace OpTree

def node : OpTree → Node
  | operand x => x.node
  | apply left o right => .binary (left.node.span.through right.node.span) left.node o.token.lexeme right.node

def first : OpTree → Operand
  | operand x => x
  | apply left _ _ => left.first

def others : OpTree → List (Operator × Operand)
  | operand _ => []
  | apply left o right => left.others ++ (o, right.first) :: right.others

def inorder (t : OpTree) : Chain :=
  ⟨t.first, t.others⟩

-- An operator at the root is from the given tier or a tighter one.
def Tight (k : Nat) : OpTree → Prop
  | operand _ => True
  | apply _ o _ => k ≤ o.tier

-- At every operator, the left side binds at least as tightly and the right side more tightly.
def Ordered : OpTree → Prop
  | operand _ => True
  | apply left o right => left.Ordered ∧ right.Ordered ∧ left.Tight o.tier ∧ right.Tight (o.tier + 1)

section

variable {t : OpTree} {k : Nat}

theorem Tight.mono {j : Nat} (h : t.Tight k) (hj : j ≤ k) : t.Tight j := by
  cases t
  case operand => trivial
  case apply => exact Nat.le_trans hj h

-- The order at each operator is one between each operator and all below it.
theorem Ordered.le_tier (h : t.Ordered) (hk : t.Tight k) : ∀ x ∈ t.others, k ≤ x.1.tier := by
  induction t generalizing k
  case operand => exact List.forall_mem_nil _
  case apply left o right hl hr =>
    obtain ⟨ordl, ordr, tl, tr⟩ := h
    have hk : k ≤ o.tier := hk
    rw [others, List.forall_mem_append, List.forall_mem_cons]
    exact ⟨hl ordl (tl.mono hk), hk, hr ordr (tr.mono (Nat.le_succ_of_le hk))⟩

end

-- An operator that all before it bind at least as tightly as, and all behind it more tightly, is the last one of the loosest
-- tier; so there is only one place for it.
theorem split_unique {as bs as' bs' : List (Operator × Operand)} {x x' : Operator × Operand}
    (h : as ++ x :: bs = as' ++ x' :: bs')
    (hb : ∀ y ∈ bs, x.1.tier + 1 ≤ y.1.tier) (ha' : ∀ y ∈ as', x'.1.tier ≤ y.1.tier)
    (ha : ∀ y ∈ as, x.1.tier ≤ y.1.tier) (hb' : ∀ y ∈ bs', x'.1.tier + 1 ≤ y.1.tier) :
    as = as' ∧ x = x' ∧ bs = bs' := by
  rcases List.append_eq_append_iff.mp h with ⟨_ | ⟨y, ys⟩, hs, he⟩ | ⟨_ | ⟨y, ys⟩, hs, he⟩
  case inl.nil | inr.nil =>
    cases he
    exact ⟨by simp [hs], rfl, rfl⟩
  case inl.cons =>
    cases he
    have h₁ := ha' x (by simp [hs])
    have h₂ := hb x' (by simp)
    omega
  case inr.cons =>
    cases he
    have h₁ := ha x' (by simp [hs])
    have h₂ := hb' x (by simp)
    omega

theorem Ordered.unique {s t : OpTree} (hs : s.Ordered) (ht : t.Ordered) (h : s.inorder = t.inorder) : s = t := by
  induction s generalizing t
  case operand x =>
    cases t
    case operand y => exact congrArg operand (congrArg Chain.first h)
    case apply => simp [inorder, others] at h
  case apply left o right hl hr =>
    cases t
    case operand => simp [inorder, others] at h
    case apply left' o' right' =>
      obtain ⟨ordl, ordr, tl, tr⟩ := hs
      obtain ⟨ordl', ordr', tl', tr'⟩ := ht
      obtain ⟨hf, ho⟩ := Chain.mk.inj h
      obtain ⟨hleft, hx, hright⟩ := split_unique ho (ordr.le_tier tr) (ordl'.le_tier tl') (ordl.le_tier tl) (ordr'.le_tier tr')
      obtain ⟨rfl, hm⟩ := Prod.mk.inj hx
      rw [hl ordl ordl' (Chain.ext hf hleft), hr ordr ordr' (Chain.ext hm hright)]

-- A tree with one more operator and operand behind it: the operator takes what binds at least as tightly as its left side.
def push : OpTree → Operator × Operand → OpTree
  | operand x, y => apply (operand x) y.1 (operand y.2)
  | apply left o right, y =>
    if y.1.tier ≤ o.tier then apply (apply left o right) y.1 (operand y.2) else apply left o (right.push y)

section

variable {t : OpTree} {y : Operator × Operand}

theorem inorder_push (t : OpTree) (y : Operator × Operand) : (t.push y).inorder = ⟨t.first, t.others ++ [y]⟩ := by
  induction t
  case operand => rfl
  case apply left o right _ hr =>
    rw [push]
    split
    case isTrue => rfl
    case isFalse =>
      obtain ⟨hf, ho⟩ := Chain.mk.inj hr
      simp [inorder, first, others, hf, ho]

theorem Tight.push {k : Nat} (h : t.Tight k) (hy : k ≤ y.1.tier) : (t.push y).Tight k := by
  cases t
  case operand => exact hy
  case apply =>
    rw [OpTree.push]
    split
    case isTrue => exact hy
    case isFalse => exact h

theorem Ordered.push (h : t.Ordered) : (t.push y).Ordered := by
  induction t
  case operand => exact ⟨trivial, trivial, trivial, trivial⟩
  case apply left o right _ hr =>
    rw [OpTree.push]
    split
    case isTrue hy => exact ⟨h, trivial, hy, trivial⟩
    case isFalse hy =>
      obtain ⟨ordl, ordr, tl, tr⟩ := h
      exact ⟨ordl, hr ordr, tl, tr.push (Nat.lt_of_not_le hy)⟩

theorem exists_ordered (s : Chain) : ∃ t : OpTree, t.inorder = s ∧ t.Ordered := by
  obtain ⟨x, ys⟩ := s
  induction ys using List.reverseRecOn
  case nil => exact ⟨operand x, rfl, trivial⟩
  case append_singleton ys y hi =>
    obtain ⟨t, ht, ho⟩ := hi
    obtain ⟨rfl, rfl⟩ := Chain.mk.inj ht
    exact ⟨t.push y, inorder_push t y, ho.push⟩

end

end OpTree

theorem Operator.drop_tier (o : Operator) :
    ∃ ops, tiers.drop o.tier = ops :: tiers.drop (o.tier + 1) ∧ o.token.kind ∈ ops := by
  have hl : o.tier < tiers.length := List.findIdx_lt_length.mpr (List.any_eq_true.mp o.isBinary)
  refine ⟨tiers[o.tier], List.drop_eq_getElem_cons hl, ?_⟩
  have hm : tiers[o.tier].contains o.token.kind = true := List.findIdx_getElem (w := hl)
  exact List.contains_iff_mem.mp hm

theorem OpTree.word_apply (left : OpTree) (o : Operator) (right : OpTree) :
    (apply left o right).inorder.word = left.inorder.word ++ o.token :: right.inorder.word := by
  simp [inorder, Chain.word, first, others]

-- An ordered tree is derived from the tier of its root on.
theorem OpTree.Ordered.derives {t : OpTree} (h : t.Ordered) {k : Nat} (hk : t.Tight k) :
    Derives (.tier (tiers.drop k)) t.inorder.word t.node := by
  induction t generalizing k
  case operand x =>
    have hw : (operand x).inorder.word = x.word := List.append_nil _
    rw [hw]
    exact (Derives.untiered x.derives).loosen List.nil_suffix
  case apply left o right hl hr =>
    obtain ⟨ordl, ordr, tl, tr⟩ := h
    obtain ⟨ops, hd, hm⟩ := o.drop_tier
    have hleft := hl ordl tl
    rw [hd] at hleft
    have hb := Derives.binary hleft hm (hr ordr tr)
    rw [← hd] at hb
    rw [word_apply]
    exact hb.loosen (List.drop_suffix_drop_left tiers hk)

-- Operators of looser tiers apply last, those of one tier from left to right, whatever the operands are: this is the tree that
-- is read, and no other tree has this order.
theorem read_chain (s : Chain) {t : Token} (ht : t.kind.endsExpr) (rest : List Token) :
    ∃ tree : OpTree, read .expr (s.word ++ t :: rest) = .ok (tree.node, t :: rest) ∧ tree.inorder = s ∧ tree.Ordered ∧
      ∀ tree' : OpTree, tree'.inorder = s → tree'.Ordered → tree' = tree := by
  obtain ⟨tree, rfl, ho⟩ := OpTree.exists_ordered s
  have hk : tree.Tight 0 := by
    cases tree
    case operand => trivial
    case apply => exact Nat.zero_le _
  have hd : Derives .expr tree.inorder.word tree.node := .tiers (ho.derives hk)
  exact ⟨tree, hd.reads t rest ht, rfl, ho, fun tree' hi ho' => ho'.unique ho hi⟩

def named (x : String) : Operand :=
  ⟨[⟨.ident, x, .blank⟩], .ident .blank x, .operand (.callee (.ident rfl))⟩

def minus : Operator :=
  ⟨⟨.minus, "-", .blank⟩, by decide⟩

def times : Operator :=
  ⟨⟨.star, "*", .blank⟩, by decide⟩

-- `a - b * c - d`
def differences : Chain :=
  ⟨named "a", [(minus, named "b"), (times, named "c"), (minus, named "d")]⟩

-- `(a - (b * c)) - d`
def differencesTree : OpTree :=
  .apply (.apply (.operand (named "a")) minus (.apply (.operand (named "b")) times (.operand (named "c")))) minus
    (.operand (named "d"))

-- Products come before differences, and differences from left to right.
theorem read_chain_differences :
    differences.word.map (·.lexeme) = ["a", "-", "b", "*", "c", "-", "d"] ∧
    read .expr (differences.word ++ [⟨.endOfInput, "", .blank⟩]) =
      .ok (.binary .blank
        (.binary .blank (.ident .blank "a") "-" (.binary .blank (.ident .blank "b") "*" (.ident .blank "c"))) "-"
        (.ident .blank "d"), [⟨.endOfInput, "", .blank⟩]) := by
  have ho : differencesTree.Ordered := by
    refine ⟨⟨trivial, ⟨trivial, trivial, trivial, trivial⟩, trivial, ?_⟩, trivial, ?_, trivial⟩
    case refine_1 => exact (by decide : minus.tier + 1 ≤ times.tier)
    case refine_2 => exact Nat.le_refl _
  have he : Token.Kind.endsExpr (⟨.endOfInput, "", .blank⟩ : Token).kind := by decide
  obtain ⟨tree, hr, -, -, hu⟩ := read_chain differences he []
  rw [← hu differencesTree rfl ho] at hr
  exact ⟨by decide, hr⟩

end ParenTree.Grammar
