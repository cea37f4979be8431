import ParenTree.Proofs.Source.Location
import ParenTree.Proofs.Syntax.WellFormed

-- The spans of a tree nest as the brackets of its source do: a node spans from a token to a token, around its children, and
-- its children stand one behind the other.

namespace ParenTree

namespace Span

-- The one ends before the other begins, or there.
def Precedes (s t : Span) : Prop :=
  s.stop ≤ t.start

def Encloses (s t : Span) : Prop :=
  s.start ≤ t.start ∧ t.stop ≤ s.stop

-- A range from a token of a word to the same token or a later one.
structure Framed (w : List Token) (s : Span) : Prop where
  tokens : ∃ t ∈ w, ∃ u ∈ w, s = t.span.through u.span
  filled : s.start < s.stop

section

variable {w w' : List Token} {s t : Span}

theorem Framed.mono (h : s.Framed w) (hw : w ⊆ w') : s.Framed w' := by
  obtain ⟨⟨t, ht, u, hu, hs⟩, hf⟩ := h
  exact ⟨⟨t, hw ht, u, hw hu, hs⟩, hf⟩

theorem Framed.precedes (hs : s.Framed w) (ht : t.Framed w') (h : ∀ t ∈ w, ∀ u ∈ w', t.span.Precedes u.span) :
    s.Precedes t := by
  obtain ⟨⟨_, _, u, hu, rfl⟩, _⟩ := hs
  obtain ⟨⟨t, ht, _, _, rfl⟩, _⟩ := ht
  exact h u hu t ht

end

-- What a span says is true of a text: the file, that the range is in the text, and where it begins.
structure Sound (file source : String) (s : Span) : Prop where
  file : s.file = file
  start : 0 ≤ s.start
  order : s.start ≤ s.stop
  stop : s.stop ≤ source.length
  located : s.Located source

-- A range that begins where a token does and ends where one does. The end of input does not count.
structure Bounded (ts : List Token) (s : Span) : Prop where
  start : ∃ t ∈ ts, t.kind ≠ .endOfInput ∧ t.span.start = s.start
  stop : ∃ t ∈ ts, t.kind ≠ .endOfInput ∧ t.span.stop = s.stop

-- From the first of some ranges to the last, all of them are enclosed.
theorem encloses_of_pairwise {first : Span} {rest : List Span} (hp : (first :: rest).Pairwise Precedes)
    (hf : ∀ s ∈ first :: rest, s.start < s.stop) :
    ∀ s ∈ first :: rest, (first.through (rest.getLastD first)).Encloses s := by
  induction rest generalizing first
  case nil => exact List.forall_mem_singleton.mpr ⟨Int.le_refl _, Int.le_refl _⟩
  case cons next rest hi =>
    obtain ⟨hfirst, hp⟩ := List.pairwise_cons.mp hp
    obtain ⟨hff, hf⟩ := List.forall_mem_cons.mp hf
    have hl := hi hp hf
    have hnext : first.stop ≤ next.start := hfirst next List.mem_cons_self
    rw [List.getLastD_cons]
    simp only [Encloses, through] at hl ⊢
    refine List.forall_mem_cons.mpr ⟨⟨Int.le_refl _, ?_⟩, fun s hs => ?_⟩
    case refine_1 =>
      have := hl next List.mem_cons_self
      have := hf next List.mem_cons_self
      omega
    case refine_2 =>
      have := hl s hs
      omega

end Span

namespace Node

-- The children that the source spells. The value of a bare return and the branch of a missing else are not among them: they
-- stand where the return and the block in front do.
def spelled : Node → List Node
  | returnStmt s value => if value.isNop ∧ value.span = s then [] else [value]
  | conditional _ condition thenBlock elseBranch =>
    if elseBranch.isNop then [condition, thenBlock] else [condition, thenBlock, elseBranch]
  | n => n.children

theorem spelled_sublist (n : Node) : n.spelled.Sublist n.children := by
  cases n <;> simp only [spelled, children]
  case returnStmt | conditional => split <;> simp
  all_goals exact List.Sublist.refl _

theorem forall_spelled {P : Node → Prop} {n : Node} (h : ∀ m ∈ n.children, P m) : ∀ m ∈ n.spelled, P m :=
  fun m hm => h m (n.spelled_sublist.subset hm)

-- What holds of a node and of all nodes below it.
inductive Throughout (P : Node → Prop) : Node → Prop
  | node {n : Node} : P n → (∀ m ∈ n.children, Throughout P m) → Throughout P n

-- A node that spans tokens of a word, and its children in their order.
structure Fits (w : List Token) (n : Node) : Prop where
  framed : n.span.Framed w
  encloses : ∀ m ∈ n.children, n.span.Encloses m.span
  ordered : n.spelled.Pairwise fun m k => m.span.Precedes k.span

section

variable {P : Node → Prop} {n : Node}

theorem Throughout.here (h : n.Throughout P) : P n := by
  cases h
  assumption

theorem Throughout.children (h : n.Throughout P) : ∀ m ∈ n.children, m.Throughout P := by
  cases h
  assumption

theorem Throughout.widen {w w' : List Token} (h : n.Throughout (Fits w)) (hw : w ⊆ w') : n.Throughout (Fits w') := by
  induction h
  case node hn _ hi => exact .node { hn with framed := hn.framed.mono hw } hi

theorem Throughout.has {p : Program} (h : ∀ n ∈ p.body, n.Throughout P) (hn : p.Has n) : n.Throughout P := by
  induction hn
  case statement hn => exact h _ hn
  case child hm hi => exact hi.children _ hm

end

end Node

namespace Grammar

-- Tokens as a text has them: none is empty, and they are one behind the other.
structure Ordered (w : List Token) : Prop where
  filled : ∀ t ∈ w, t.span.start < t.span.stop
  pairwise : w.Pairwise fun t u => t.span.Precedes u.span

theorem ordered_append {w w' : List Token} :
    Ordered (w ++ w') ↔ Ordered w ∧ Ordered w' ∧ ∀ t ∈ w, ∀ u ∈ w', t.span.Precedes u.span := by
  constructor
  case mp =>
    rintro ⟨hf, hp⟩
    obtain ⟨hp, hp', hpp⟩ := List.pairwise_append.mp hp
    obtain ⟨hf, hf'⟩ := List.forall_mem_append.mp hf
    exact ⟨⟨hf, hp⟩, ⟨hf', hp'⟩, hpp⟩
  case mpr =>
    rintro ⟨⟨hf, hp⟩, ⟨hf', hp'⟩, hpp⟩
    exact ⟨List.forall_mem_append.mpr ⟨hf, hf'⟩, List.pairwise_append.mpr ⟨hp, hp', hpp⟩⟩

theorem Ordered.sublist {w w' : List Token} (h : Ordered w') (hw : w.Sublist w') : Ordered w :=
  ⟨fun t ht => h.filled t (hw.subset ht), h.pairwise.sublist hw⟩

theorem Ordered.framed {t : Token} (h : Ordered [t]) : t.span.Framed [t] :=
  have ht : t ∈ [t] := List.mem_singleton_self t
  ⟨⟨t, ht, t, ht, rfl⟩, h.filled t ht⟩

-- Ranges that a word has one behind the other.
inductive Laid : List Token → List Span → Prop
  | nothing (w) : Laid w []
  | token (t) : Laid [t] [t.span]
  | range {w s} : s.Framed w → Laid w [s]
  | append {w w' parts parts'} : Laid w parts → Laid w' parts' → Laid (w ++ w') (parts ++ parts')

theorem Laid.ordered {w : List Token} {parts : List Span} (h : Laid w parts) (hw : Ordered w) :
    parts.Pairwise Span.Precedes ∧ ∀ s ∈ parts, s.Framed w := by
  induction h
  case nothing => exact ⟨.nil, List.forall_mem_nil _⟩
  case token t => exact ⟨List.pairwise_singleton _ _, List.forall_mem_singleton.mpr hw.framed⟩
  case range hs => exact ⟨List.pairwise_singleton _ _, List.forall_mem_singleton.mpr hs⟩
  case append hi hi' =>
    obtain ⟨hw, hw', hww⟩ := ordered_append.mp hw
    obtain ⟨hp, hf⟩ := hi hw
    obtain ⟨hp', hf'⟩ := hi' hw'
    refine ⟨List.pairwise_append.mpr ⟨hp, hp', fun s hs t ht => (hf s hs).precedes (hf' t ht) hww⟩, ?_⟩
    refine List.forall_mem_append.mpr ⟨fun s hs => (hf s hs).mono ?_, fun s hs => (hf' s hs).mono ?_⟩
    case refine_1 => exact List.subset_append_left _ _
    case refine_2 => exact List.subset_append_right _ _

-- The range from the first of its parts to the last.
theorem Laid.framed {w : List Token} {first : Span} {rest : List Span} (h : Laid w (first :: rest)) (hw : Ordered w) :
    (first.through (rest.getLastD first)).Framed w ∧
      ∀ s ∈ first :: rest, (first.through (rest.getLastD first)).Encloses s := by
  obtain ⟨hp, hf⟩ := h.ordered hw
  have he := Span.encloses_of_pairwise hp fun s hs => (hf s hs).filled
  refine ⟨⟨?_, ?_⟩, he⟩
  case refine_1 =>
    obtain ⟨t, ht, _, _, hfirst⟩ := (hf first List.mem_cons_self).tokens
    obtain ⟨_, _, u, hu, hlast⟩ := (hf (rest.getLastD first) List.getLastD_mem_cons).tokens
    refine ⟨t, ht, u, hu, ?_⟩
    rw [hlast, hfirst]
    rfl
  case refine_2 => exact Int.lt_of_lt_of_le (hf first List.mem_cons_self).filled (he first List.mem_cons_self).right

-- A node from the first of its parts to the last. The parts are its children and some of its tokens.
theorem fits_of_laid {w : List Token} {n : Node} {first : Span} {rest : List Span} (hw : Ordered w)
    (h : Laid w (first :: rest)) (hs : n.span = first.through (rest.getLastD first))
    (hc : ∀ m ∈ n.children, m.span ∈ first :: rest) (ho : (n.spelled.map Node.span).Sublist (first :: rest)) :
    n.Fits w := by
  obtain ⟨hf, he⟩ := h.framed hw
  rw [← hs] at hf he
  exact ⟨hf, fun m hm => he _ (hc m hm), List.pairwise_map.mp ((h.ordered hw).left.sublist ho)⟩

-- The trees of a category, their spans laid in the word.
def Category.Fits : (c : Category) → List Token → c.Tree → Prop
  | body, w, ns | sequence, w, ns | exprList, w, ns | items, w, ns =>
    Laid w (ns.map Node.span) ∧ ∀ n ∈ ns, n.Throughout (Node.Fits w)
  | statement, w, n | block, w, n | expr, w, n | target, w, n | tier _, w, n | unary, w, n | call, w, n | primary, w, n
  | conditional, w, n | branch, w, n => n.Throughout (Node.Fits w)

section

variable {w w' : List Token} {n : Node} {ns : List Node}

theorem throughout_of_laid {first : Span} {rest : List Span} (hw : Ordered w) (h : Laid w (first :: rest))
    (hs : n.span = first.through (rest.getLastD first)) (ho : (n.spelled.map Node.span).Sublist (first :: rest))
    (hc : ∀ m ∈ n.children, m.span ∈ first :: rest ∧ m.Throughout (Node.Fits w)) : n.Throughout (Node.Fits w) :=
  .node (fits_of_laid hw h hs (fun m hm => (hc m hm).left) ho) fun m hm => (hc m hm).right

theorem throughout_leaf (h : n.span.Framed w) (hc : n.children = []) (ho : n.spelled = []) :
    n.Throughout (Node.Fits w) :=
  .node ⟨h, by simp [hc], by simp [ho]⟩ (by simp [hc])

-- A tree of a part of a word is a tree of the word.
theorem throughout_part (hi : Ordered w → n.Throughout (Node.Fits w)) (hw : Ordered w') (hs : w.Sublist w') :
    n.span.Framed w ∧ n.Throughout (Node.Fits w') := by
  have h := hi (hw.sublist hs)
  exact ⟨h.here.framed, h.widen hs.subset⟩

theorem throughout_parts (hi : Ordered w → Laid w (ns.map Node.span) ∧ ∀ n ∈ ns, n.Throughout (Node.Fits w))
    (hw : Ordered w') (hs : w.Sublist w') :
    Laid w (ns.map Node.span) ∧ ∀ n ∈ ns, n.Throughout (Node.Fits w') := by
  obtain ⟨hl, h⟩ := hi (hw.sublist hs)
  exact ⟨hl, fun n hn => (h n hn).widen hs.subset⟩

-- A token, and a node that ends where its only child does.
theorem throughout_led {m : Node} {first : Token} (between : List Token) (hi : Ordered w → m.Throughout (Node.Fits w))
    (hw : Ordered (first :: (between ++ w))) (hs : n.span = first.span.through m.span) (hc : n.children = [m]) :
    n.Throughout (Node.Fits (first :: (between ++ w))) := by
  obtain ⟨hf, ht⟩ := throughout_part hi hw (by grind)
  have hl := Laid.append (.token first) (.append (.nothing between) (.range hf))
  refine throughout_of_laid hw hl hs ?_ (by simpa [hc] using ht)
  have ho := n.spelled_sublist.map Node.span
  rw [hc] at ho
  exact ho.trans (List.sublist_cons_self _ _)

-- Two nodes with a token between them.
theorem throughout_pair {left right : Node} {t : Token} (hi : Ordered w → left.Throughout (Node.Fits w))
    (hi' : Ordered w' → right.Throughout (Node.Fits w')) (hw : Ordered (w ++ t :: w'))
    (hs : n.span = left.span.through right.span) (hc : n.children = [left, right]) :
    n.Throughout (Node.Fits (w ++ t :: w')) := by
  obtain ⟨hf, ht⟩ := throughout_part hi hw (by grind)
  obtain ⟨hf', ht'⟩ := throughout_part hi' hw (by grind)
  have hl := Laid.append (.range hf) (.append (.nothing [t]) (.range hf'))
  refine throughout_of_laid hw hl hs ?_ (by simpa [hc] using ⟨ht, ht'⟩)
  have ho := n.spelled_sublist.map Node.span
  rwa [hc] at ho

-- A node from its first part to a bracket that closes behind a list of nodes.
theorem throughout_bracketed {first : Span} {closer : Token} (hw : Ordered (w ++ w' ++ [closer])) (hf : Laid w [first])
    (hl : Laid w' (ns.map Node.span)) (hs : n.span = first.through closer.span)
    (ho : (n.spelled.map Node.span).Sublist (first :: ns.map Node.span))
    (hc : ∀ m ∈ n.children, m.span ∈ first :: ns.map Node.span ∧ m.Throughout (Node.Fits (w ++ w' ++ [closer]))) :
    n.Throughout (Node.Fits (w ++ w' ++ [closer])) := by
  have hl : Laid (w ++ w' ++ [closer]) (first :: (ns.map Node.span ++ [closer.span])) := (hf.append hl).append (.token closer)
  refine throughout_of_laid hw hl ?_ (ho.trans ?_) fun m hm => ⟨?_, (hc m hm).right⟩
  case refine_1 => rw [hs, List.getLastD_concat]
  case refine_2 => exact List.sublist_append_left (first :: ns.map Node.span) [closer.span]
  case refine_3 => exact List.mem_append_left [closer.span] (hc m hm).left

-- Nodes between brackets.
theorem throughout_enclosed {opener closer : Token}
    (hi : Ordered w → Laid w (ns.map Node.span) ∧ ∀ n ∈ ns, n.Throughout (Node.Fits w)) (hw : Ordered (opener :: w ++ [closer]))
    (hs : n.span = opener.span.through closer.span) (hc : n.children = ns) :
    n.Throughout (Node.Fits (opener :: w ++ [closer])) := by
  obtain ⟨hl, ht⟩ := throughout_parts hi hw (by grind)
  have ho := n.spelled_sublist.map Node.span
  rw [hc] at ho
  refine throughout_bracketed hw (.token opener) hl hs (ho.trans (List.sublist_cons_self _ _)) fun m hm => ?_
  rw [hc] at hm
  exact ⟨List.mem_cons_of_mem _ (List.mem_map_of_mem hm), ht m hm⟩

end

-- Induction on the derivation. Each production lays the spans of its parts one behind the other.
theorem Derives.fits {c : Category} {w : List Token} {tree : c.Tree} (h : Derives c w tree) (hw : Ordered w) :
    c.Fits w tree := by
  induction h <;> simp only [Category.Fits] at *
  case empty => exact ⟨.nothing _, List.forall_mem_nil _⟩
  case body before _ after _ _ _ _ hi =>
    obtain ⟨hl, ht⟩ := throughout_parts hi hw (by grind)
    have hl := Laid.append (.append (.nothing before) hl) (.nothing after)
    rw [List.nil_append, List.append_nil] at hl
    exact ⟨hl, ht⟩
  case one hi => exact ⟨.range (hi hw).here.framed, List.forall_mem_singleton.mpr (hi hw)⟩
  case more seps _ _ _ _ _ _ hi his =>
    obtain ⟨hf, ht⟩ := throughout_part hi hw (by grind)
    obtain ⟨hl, hts⟩ := throughout_parts his hw (by grind)
    exact ⟨.append (.append (.range hf) (.nothing seps)) hl, List.forall_mem_cons.mpr ⟨ht, hts⟩⟩
  case letStmt keyword name sign w value _ _ _ _ hi => exact throughout_led [name, sign] hi hw rfl rfl
  case bareReturn keyword _ =>
    have ht : (Node.nop keyword.span).Throughout (Node.Fits [keyword]) := throughout_leaf hw.framed rfl rfl
    refine throughout_of_laid hw (.token keyword) rfl ?_ (List.forall_mem_singleton.mpr ⟨List.mem_singleton_self _, ht⟩)
    simp [Node.spelled, Node.isNop, Node.span]
  case returnStmt hi => exact throughout_led [] hi hw rfl rfl
  case function keyword name opener ps _ closer w body _ _ _ _ _ _ hi =>
    rw [List.append_cons] at hw ⊢
    exact throughout_led (name :: opener :: ps ++ [closer]) hi hw rfl rfl
  case exprStmt hi | tiers hi | untiered hi | tighter hi | operand hi | callee hi | blockExpr hi | ifExpr hi | elseIf hi
    | elseBlock hi => exact hi hw
  case block hi | list hi => exact throughout_enclosed hi hw rfl rfl
  case assign hi hi' | binary hi hi' => exact throughout_pair hi hi' hw rfl rfl
  case name | literal | nop | ident => exact throughout_leaf hw.framed rfl rfl
  case groupedTarget hi | grouped hi => exact (throughout_part hi hw (by grind)).right
  case unary hi => exact throughout_led [] hi hw rfl rfl
  case call w callee opener w' args closer _ _ _ _ hi his =>
    obtain ⟨hf, ht⟩ := throughout_part hi hw (by grind)
    obtain ⟨hl, hts⟩ := throughout_parts his hw (by grind)
    have hl : Laid (opener :: w') (args.map Node.span) := .append (.nothing [opener]) hl
    refine throughout_bracketed hw (.range hf) hl rfl (List.Sublist.refl _) ?_
    refine List.forall_mem_cons.mpr ⟨⟨List.mem_cons_self, ht⟩, fun m hm => ⟨?_, hts m hm⟩⟩
    exact List.mem_cons_of_mem _ (List.mem_map_of_mem hm)
  case ifThen keyword w condition w' thenBlock _ _ _ hic hit =>
    obtain ⟨hf, ht⟩ := throughout_part hic hw (by grind)
    obtain ⟨hf', ht'⟩ := throughout_part hit hw (by grind)
    have hl := Laid.append (.append (.token keyword) (.range hf)) (.range hf')
    have hn : (Node.nop thenBlock.span).Throughout (Node.Fits (keyword :: w ++ w')) :=
      throughout_leaf (hf'.mono (List.subset_append_right _ _)) rfl rfl
    refine throughout_of_laid hw hl rfl (by simp [Node.spelled, Node.isNop]) ?_
    refine List.forall_mem_cons.mpr ⟨⟨by simp, ht⟩, List.forall_mem_cons.mpr ⟨⟨by simp, ht'⟩, ?_⟩⟩
    exact List.forall_mem_singleton.mpr ⟨by simp [Node.span], hn⟩
  case ifThenElse keyword w condition w' thenBlock other w'' elseBranch _ _ _ _ _ hic hit hie =>
    obtain ⟨hf, ht⟩ := throughout_part hic hw (by grind)
    obtain ⟨hf', ht'⟩ := throughout_part hit hw (by grind)
    obtain ⟨hf'', ht''⟩ := throughout_part hie hw (by grind)
    have hl := Laid.append (.append (.append (.token keyword) (.range hf)) (.range hf'))
      (.append (.nothing [other]) (.range hf''))
    refine throughout_of_laid hw hl rfl ?_ ?_
    case refine_1 => exact ((Node.spelled_sublist _).map _).trans (List.sublist_cons_self _ _)
    case refine_2 =>
      refine List.forall_mem_cons.mpr ⟨⟨by simp, ht⟩, List.forall_mem_cons.mpr ⟨⟨by simp, ht'⟩, ?_⟩⟩
      exact List.forall_mem_singleton.mpr ⟨by simp, ht''⟩
  case noItems => exact ⟨.nothing _, List.forall_mem_nil _⟩
  case items lines w ns _ _ hi =>
    obtain ⟨hl, ht⟩ := throughout_parts hi hw (by grind)
    exact ⟨.append (.nothing lines) hl, ht⟩
  case itemsComma lines w ns comma lines' _ _ _ _ hi =>
    obtain ⟨hl, ht⟩ := throughout_parts hi hw (by grind)
    have hl := Laid.append (.append (.nothing lines) hl) (.nothing (comma :: lines'))
    rw [List.nil_append, List.append_nil] at hl
    exact ⟨hl, ht⟩
  case item w n lines _ _ hi =>
    obtain ⟨hf, ht⟩ := throughout_part hi hw (by grind)
    exact ⟨.append (.range hf) (.nothing lines), List.forall_mem_singleton.mpr ht⟩
  case moreItems w n lines comma lines' w' ns _ _ _ _ _ hi his =>
    obtain ⟨hf, ht⟩ := throughout_part hi hw (by grind)
    obtain ⟨hl, hts⟩ := throughout_parts his hw (by grind)
    have hl := Laid.append (.append (.append (.range hf) (.nothing lines)) (.nothing (comma :: lines'))) hl
    exact ⟨hl, List.forall_mem_cons.mpr ⟨ht, hts⟩⟩

end Grammar

section

open Grammar

variable {file source : String} {ts w : List Token} {s : Span}

theorem Token.sound_of_ofSource (h : ofSource file source = .ok ts) : ∀ t ∈ ts, t.span.Sound file source := by
  intro t ht
  have hl := located_of_ofSource h t ht
  rcases scan_stands h t ht with ht | ⟨before, after, hc, hs⟩
  case inl => cases ht
  case inr =>
    have hn : source.length = before.length + (t.lexeme.toList.length + after.length) := by
      rw [← String.length_toList, hc, List.length_append, List.length_append]
    rw [hs] at hl ⊢
    refine ⟨rfl, ?_, ?_, ?_, hl⟩ <;> simp only [Span.between, Position.afterAll_offset, List.length_append] <;> omega

-- All tokens but the end of input hold something.
theorem Token.ordered_of_ofSource (h : ofSource file source = .ok ts) :
    ∃ w eof, ts = w ++ [eof] ∧ Ordered w ∧ ∀ t ∈ w, t.kind ≠ .endOfInput := by
  obtain ⟨us, rfl, hc⟩ := scan_cuts h
  obtain ⟨w, rfl, hw⟩ := hc.ends
  have hp := (List.pairwise_append.mp hc.ordered.right).left
  refine ⟨w, _, rfl, ⟨fun t ht => ?_, hp⟩, fun t ht => (hw t ht).left⟩
  rcases scan_stands h t (List.mem_append_left _ ht) with ht' | ⟨before, after, -, hs⟩
  case inl => cases ht'
  case inr =>
    have hn : 0 < t.lexeme.toList.length := List.length_pos_iff.mpr (by simpa using (hw t ht).right)
    rw [hs]
    simp only [Span.between, Position.afterAll_offset, List.length_append]
    omega

theorem Span.Framed.sound (h : s.Framed w) (hw : ∀ t ∈ w, t.span.Sound file source) : s.Sound file source := by
  obtain ⟨⟨t, ht, u, hu, rfl⟩, hf⟩ := h
  exact ⟨(hw t ht).file, (hw t ht).start, Int.le_of_lt hf, (hw u hu).stop, (hw t ht).located⟩

theorem Span.Framed.bounded (h : s.Framed w) (hk : ∀ t ∈ w, t.kind ≠ .endOfInput) (hw : w ⊆ ts) : s.Bounded ts := by
  obtain ⟨⟨t, ht, u, hu, rfl⟩, _⟩ := h
  exact ⟨⟨t, hw ht, hk t ht, rfl⟩, u, hw hu, hk u hu, rfl⟩

end

namespace Program

open Grammar

variable {file source : String} {p : Program}

-- A program is derived from its tokens, which are in order.
theorem derives_of_ofSource (h : ofSource file source = .ok p) :
    ∃ w eof, Token.ofSource file source = .ok (w ++ [eof]) ∧ Ordered w ∧ (∀ t ∈ w, t.kind ≠ .endOfInput) ∧
      p.span = extent eof p.body ∧ Derives .body w p.body := by
  rw [ofSource] at h
  cases ht : Token.ofSource file source <;> rw [ht] at h
  case error => cases h
  case ok ts =>
    cases spells_of_ofTokens (terminated_of_ofSource ht) h
    case program w ns eof hd _ =>
      obtain ⟨w', eof', he, hw, hk⟩ := Token.ordered_of_ofSource ht
      obtain ⟨rfl, -⟩ := List.append_inj' he rfl
      exact ⟨w, eof, rfl, hw, hk, rfl, hd⟩

-- A program with statements spans from the first to the last of them.
theorem extent_framed {eof : Token} {w : List Token} {ns : List Node} (hw : Ordered w) (hl : Laid w (ns.map Node.span))
    (hn : ns ≠ []) : (extent eof ns).Framed w ∧ ∀ n ∈ ns, (extent eof ns).Encloses n.span := by
  cases ns
  case nil => contradiction
  case cons n ns =>
    obtain ⟨hf, he⟩ := hl.framed hw
    rw [List.getLastD_map] at hf he
    rw [extent, List.getLastD_cons]
    exact ⟨hf, fun m hm => he m.span (List.mem_map_of_mem hm)⟩

-- Every node spans a range of the text that begins and ends with a token; a program without statements spans nothing, at the
-- end. A node encloses its children, and those that the source spells are in order and apart from each other.
theorem spans_nest (h : ofSource file source = .ok p) :
    ∃ ts, Token.ofSource file source = .ok ts ∧
      (p.span.Sound file source ∧ (p.body ≠ [] → p.span.start < p.span.stop ∧ p.span.Bounded ts) ∧
        (∀ n ∈ p.body, p.span.Encloses n.span) ∧ p.body.Pairwise fun m n => m.span.Precedes n.span) ∧
      ∀ n, p.Has n → (n.span.Sound file source ∧ n.span.start < n.span.stop ∧ n.span.Bounded ts) ∧
        (∀ m ∈ n.children, n.span.Encloses m.span) ∧ n.spelled.Pairwise fun m k => m.span.Precedes k.span := by
  obtain ⟨w, eof, hts, hw, hk, hs, hd⟩ := derives_of_ofSource h
  obtain ⟨hl, ht⟩ := hd.fits hw
  obtain ⟨hsw, hse⟩ := List.forall_mem_append.mp (Token.sound_of_ofSource hts)
  have hsub : w ⊆ w ++ [eof] := List.subset_append_left _ _
  have stretch {s : Span} (hf : s.Framed w) : s.Sound file source ∧ s.start < s.stop ∧ s.Bounded (w ++ [eof]) :=
    ⟨hf.sound hsw, hf.filled, hf.bounded hk hsub⟩
  refine ⟨w ++ [eof], hts, ?_, fun n hn => ?_⟩
  case refine_1 =>
    have hp := List.pairwise_map.mp (hl.ordered hw).left
    by_cases hb : p.body = []
    case pos =>
      have he : p.span = eof.span := by rw [hs, hb, extent]
      rw [he]
      exact ⟨hse eof (List.mem_singleton_self eof), fun hn => absurd hb hn, by simp [hb], hp⟩
    case neg =>
      obtain ⟨hf, he⟩ := extent_framed hw hl hb
      rw [hs]
      exact ⟨(stretch hf).left, fun _ => (stretch hf).right, he, hp⟩
  case refine_2 =>
    have hn := (Node.Throughout.has ht hn).here
    exact ⟨stretch hn.framed, hn.encloses, hn.ordered⟩

-- The sum spans what is in its parentheses, but not the parentheses, on the line where the string in front ends.
theorem spans_nest_groupedSum :
    ∃ p n, ofSource "" "\"a\nb\"; (x) + (y)" = .ok p ∧ p.span = ⟨"", 1, 1, 0, 15⟩ ∧ p.Has n ∧
      n.span = ⟨"", 2, 6, 8, 15⟩ ∧ n.span.Sound "" "\"a\nb\"; (x) + (y)" ∧ ∀ m ∈ n.children, n.span.Encloses m.span := by
  have hp : (ofSource "" "\"a\nb\"; (x) + (y)").toOption.map (fun p => (p.span, p.body.map Node.span)) =
      some (⟨"", 1, 1, 0, 15⟩, [⟨"", 1, 1, 0, 5⟩, ⟨"", 2, 6, 8, 15⟩]) := by
    decide +kernel
  cases h : ofSource "" "\"a\nb\"; (x) + (y)" <;> rw [h] at hp
  case error => cases hp
  case ok p =>
    obtain ⟨hs, hb⟩ := Prod.mk.inj (Option.some.inj hp)
    have hm : ⟨"", 2, 6, 8, 15⟩ ∈ p.body.map Node.span := by
      rw [hb]
      decide
    obtain ⟨n, hn, hns⟩ := List.mem_map.mp hm
    obtain ⟨_, -, -, hnest⟩ := spans_nest h
    obtain ⟨⟨hsound, -⟩, henc, -⟩ := hnest n (.statement hn)
    exact ⟨p, n, rfl, hs, .statement hn, hns, hsound, henc⟩

end Program

end ParenTree
