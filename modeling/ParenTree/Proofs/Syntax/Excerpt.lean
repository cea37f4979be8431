import Mathlib.Data.List.Nodup
import Mathlib.Data.List.Perm.Subperm
import ParenTree.Proofs.Source.Progress
import ParenTree.Proofs.Syntax.Printing
import ParenTree.Proofs.Syntax.Ranges

-- A node is what its own part of the text spells: that part, alone, is read as the node again. Parentheses that only group
-- are not a part of any node, so this is about texts without them.

namespace ParenTree

namespace Token

open Text

section

variable {file file' : String} {p p' : Position} {found found' ts : List Token} {cs : List Char}

-- Where a text begins does not matter to the words in it.
theorem scan_words (h : scan file p found cs = .ok ts) (hf : found'.map word = found.map word) :
    ∃ us, scan file' p' found' cs = .ok us ∧ us.map word = ts.map word := by
  fun_induction scan file p found cs generalizing p' found'
  case case1 =>
    cases h
    refine ⟨_, scan.eq_1 .., ?_⟩
    simp [List.map_reverse, hf, word]
  case case2 => cases h
  case case3 hl hi =>
    rw [scan_layout hl]
    exact hi h hf
  case case4 ht hi =>
    rw [scan_token ht]
    refine hi h ?_
    rw [List.map_cons, List.map_cons, hf]
    rfl

end

-- A part of the text from the front of a token to the end of a token has those tokens and the ones between them.
theorem ofSource_slice {file source : String} {pre mid post : List Token} {first last : Token}
    (h : ofSource file source = .ok (pre ++ (mid ++ post))) (hp : post ≠ []) (hf : mid.head? = some first)
    (hl : mid.getLast? = some last) (file' : String) :
    ∃ us, ofSource file' (.ofList (slice source.toList first.span.start last.span.stop)) = .ok us ∧
      us.map word = mid.map word ++ [(.endOfInput, "")] := by
  obtain ⟨mid', rfl⟩ : ∃ mid', mid = first :: mid' := List.head?_eq_some_iff.mp hf
  have hscan : scan file {} [] source.toList = .ok ([].reverse ++ (pre ++ (first :: mid' ++ post))) := h
  -- The scanner passes the tokens in front, then the layout up to the first token, then the part.
  obtain ⟨s, hs, hfs, -⟩ := scan_reaches hscan (by simp)
  rw [List.append_nil] at hfs
  have hscan₁ := hs.scan_eq.symm.trans hscan
  rw [← List.reverse_reverse pre, ← hfs] at hscan₁
  obtain ⟨s₁, -, hs₁, hf₁, ho₁, -⟩ := scan_next hscan₁ (by simp [hp])
  have hscan₂ := hs₁.scan_eq.symm.trans hscan₁
  rw [← hf₁] at hscan₂
  obtain ⟨s₂, hs₂, hf₂, ho₂⟩ := scan_reaches hscan₂ hp
  obtain ⟨before, hb, hpb, -⟩ := Scans.cut (hs.trans hs₁)
  obtain ⟨text, ht, hpt, hcut⟩ := hs₂.scan_cut
  dsimp only at hb hpb ht hpt hcut
  have hslice : slice source.toList first.span.start last.span.stop = text := by
    have ho₂ := ho₂ last hl
    rw [hpt, hpb, Position.afterAll_offset, Position.afterAll_offset] at ho₂
    rw [hpb, Position.afterAll_offset] at ho₁
    rw [hb, ht]
    exact slice_append before text s₂.rest (by simpa using ho₁.symm) (by simpa using ho₂.symm)
  have hmid : ∃ eof : Token, eof.word = (.endOfInput, "") ∧ scan file s₁.place [] text = .ok (first :: mid' ++ [eof]) := by
    rw [← List.nil_append s₁.found, scan_append_found, hf₂, List.reverse_append, List.reverse_reverse, List.append_assoc] at hcut
    cases hm : scan file s₁.place [] text <;> rw [hm] at hcut
    case error => cases hcut
    case ok us => exact ⟨_, rfl, congrArg Except.ok (List.append_cancel_left (Except.ok.inj hcut))⟩
  obtain ⟨eof, he, hmid⟩ := hmid
  obtain ⟨us, hus, hw⟩ := scan_words hmid rfl
  refine ⟨us, ?_, ?_⟩
  case refine_1 => rw [ofSource, String.toList_ofList, hslice, hus]
  case refine_2 => rw [hw, List.map_append, List.map_singleton, he]

end Token

-- From the front of the first token of a word to the end of the last.
def Span.Covers (s : Span) (w : List Token) : Prop :=
  ∃ first last, w.head? = some first ∧ w.getLast? = some last ∧ s = first.span.through last.span

theorem Span.covers_token (t : Token) : t.span.Covers [t] :=
  ⟨t, t, rfl, rfl, rfl⟩

theorem Span.Covers.through {s s' : Span} {w w' : List Token} (h : s.Covers w) (between : List Token) (h' : s'.Covers w') :
    (s.through s').Covers (w ++ (between ++ w')) := by
  obtain ⟨first, _, hf, -, rfl⟩ := h
  obtain ⟨_, last, -, hl, rfl⟩ := h'
  exact ⟨first, last, by simp [hf], by simp [hl], rfl⟩

namespace Node

-- The place behind which a node has a parenthesis of its own: a call has one behind its callee, a function behind its keyword.
def opensBehind? : Node → Option Int
  | call _ callee _ => some callee.span.stop
  | function s _ _ _ => some s.start
  | _ => none

-- The parenthesis that opens the arguments of a call or the parameters of a function.
def opener? (ts : List Token) (n : Node) : Option Token :=
  n.opensBehind?.bind fun place => ts.find? fun t => t.kind = .openParen && place ≤ t.span.start

mutual

-- The calls and functions of a tree.
def openers : Node → List Node
  | nop _ | literal .. | ident .. => []
  | unary _ _ operand => operand.openers
  | binary _ left _ right => left.openers ++ right.openers
  | assign _ target value => target.openers ++ value.openers
  | call s callee args => call s callee args :: (callee.openers ++ openersAll args)
  | list _ items => openersAll items
  | block _ statements => openersAll statements
  | conditional _ condition thenBlock elseBranch => condition.openers ++ thenBlock.openers ++ elseBranch.openers
  | letStmt _ _ value => value.openers
  | returnStmt _ value => value.openers
  | function s name params body => function s name params body :: body.openers

def openersAll : List Node → List Node
  | [] => []
  | n :: ns => n.openers ++ openersAll ns

end

theorem openersAll_eq_flatMap (ns : List Node) : openersAll ns = ns.flatMap openers := by
  induction ns
  case nil => rfl
  case cons n ns hi => rw [openersAll, hi, List.flatMap_cons]

theorem openers_eq (n : Node) : n.openers = (if n.opensBehind?.isSome then [n] else []) ++ n.children.flatMap openers := by
  cases n <;> simp [openers, opensBehind?, children, openersAll_eq_flatMap]

theorem mem_openers_iff {m n : Node} :
    n ∈ m.openers ↔ (n = m ∧ m.opensBehind?.isSome) ∨ ∃ k ∈ m.children, n ∈ k.openers := by
  rw [openers_eq, List.mem_append, List.mem_flatMap]
  split <;> simp [*]

end Node

namespace Program

variable {p : Program} {n : Node}

theorem has_of_mem_openers {m : Node} (hm : p.Has m) (h : n ∈ m.openers) : p.Has n ∧ n.opensBehind?.isSome := by
  induction m using Node.induct
  case step m hi =>
    rcases Node.mem_openers_iff.mp h with ⟨rfl, ho⟩ | ⟨k, hk, h⟩
    case inl => exact ⟨hm, ho⟩
    case inr => exact hi k hk (.child hm hk) h

theorem openers_subset_of_has (h : p.Has n) : n.openers ⊆ Node.openersAll p.body := by
  rw [Node.openersAll_eq_flatMap]
  induction h
  case statement hn => exact fun k hk => List.mem_flatMap_of_mem hn hk
  case child hm hi => exact fun k hk => hi (Node.mem_openers_iff.mpr (.inr ⟨_, hm, hk⟩))

theorem mem_openersAll_iff : n ∈ Node.openersAll p.body ↔ p.Has n ∧ n.opensBehind?.isSome := by
  constructor
  case mp =>
    rw [Node.openersAll_eq_flatMap, List.mem_flatMap]
    rintro ⟨m, hm, h⟩
    exact has_of_mem_openers (.statement hm) h
  case mpr =>
    rintro ⟨hn, ho⟩
    exact openers_subset_of_has hn (Node.mem_openers_iff.mpr (.inl ⟨rfl, ho⟩))

end Program

namespace Grammar

open ParenTree.Parser (tiers)

-- The number of parentheses that open in a word.
def parens (w : List Token) : Nat :=
  w.countP (·.kind = .openParen)

theorem parens_cons (t : Token) (w : List Token) : parens (t :: w) = parens w + if t.kind = .openParen then 1 else 0 := by
  simp [parens, List.countP_cons]

theorem parens_append (w w' : List Token) : parens (w ++ w') = parens w + parens w' :=
  List.countP_append

def Category.openers : (c : Category) → c.Tree → List Node
  | body, ns | sequence, ns | exprList, ns | items, ns => Node.openersAll ns
  | statement, n | block, n | expr, n | target, n | tier _, n | unary, n | call, n | primary, n | conditional, n
  | branch, n => n.openers

theorem Derives.openers_le {c : Category} {w : List Token} {tree : c.Tree} (h : Derives c w tree) :
    (c.openers tree).length ≤ parens w := by
  induction h <;>
    simp only [Category.openers, Node.openers, Node.openersAll, parens_cons, parens_append, List.length_append,
      List.length_cons, List.length_nil] at *
  case function ho _ _ _ hi =>
    rw [if_pos ho]
    omega
  case call ho _ _ hi his =>
    rw [if_pos ho]
    omega
  all_goals omega

section

variable {w w' : List Token} {n : Node}

theorem Derives.expr_of_target (h : Derives .target w n) (hp : parens w ≤ n.openers.length) : Derives .expr w n := by
  cases h
  case name hk => exact expr_of_primary (.ident hk)
  case groupedTarget ho _ h =>
    -- The parenthesis is one too many.
    have hle : n.openers.length ≤ _ := h.openers_le
    rw [List.cons_append, parens_cons, parens_append, if_pos ho] at hp
    omega

theorem Derives.expr_of_tier {levels : List (List Token.Kind)} (h : Derives (.tier levels) w n) (hl : levels <:+ Parser.tiers) :
    Derives .expr w n :=
  .tiers (h.loosen hl)

theorem Derives.expr_of_branch (h : Derives .branch w n) : Derives .expr w n := by
  cases h
  case elseIf h => exact expr_of_primary (.ifExpr h)
  case elseBlock h => exact expr_of_primary (.blockExpr h)

-- A part of a word is a statement with this tree, and has no more parentheses than the tree has calls and functions.
def Quotes (w : List Token) (n : Node) : Prop :=
  ∃ part, part <:+: w ∧ Derives .statement part n ∧ parens part ≤ n.openers.length

theorem Quotes.mono (h : Quotes w n) (hw : w <:+: w') : Quotes w' n := by
  obtain ⟨part, hp, hd⟩ := h
  exact ⟨part, hp.trans hw, hd⟩

end

theorem extent_cons {ns : List Node} (eof : Token) (n : Node) (h : ns ≠ []) :
    extent eof (n :: ns) = n.span.through (extent eof ns) := by
  cases ns
  case nil => contradiction
  case cons m ns =>
    rw [extent, extent, List.getLastD_cons, List.getLastD_cons, List.getLastD_cons]
    rfl

-- A node covers its word, and the nodes below it are quoted there.
def Category.Cites : (c : Category) → List Token → c.Tree → Prop
  | sequence, w, ns => (∀ eof, (extent eof ns).Covers w) ∧ ∀ n ∈ ns, Quotes w n
  | body, w, ns | exprList, w, ns | items, w, ns => ∀ n ∈ ns, Quotes w n
  | tier levels, w, n => levels <:+ tiers → n.span.Covers w ∧ ∀ m ∈ n.spelled, Quotes w m
  | statement, w, n | block, w, n | expr, w, n | target, w, n | unary, w, n | call, w, n | primary, w, n
  | conditional, w, n | branch, w, n => n.span.Covers w ∧ ∀ m ∈ n.spelled, Quotes w m

section

variable {w w' : List Token} {m m' n : Node} {first last : Token}

-- A leading token, and one child that ends the word.
theorem cites_led (between : List Token) (hs : n.span = first.span.through m.span) (hn : n.children = [m])
    (hc : m.span.Covers w) (hd : Derives .statement w m) (hp : parens w ≤ m.openers.length) :
    n.span.Covers (first :: (between ++ w)) ∧ ∀ k ∈ n.spelled, Quotes (first :: (between ++ w)) k := by
  rw [hs]
  refine ⟨(Span.covers_token first).through between hc, Node.forall_spelled ?_⟩
  rw [hn]
  exact List.forall_mem_singleton.mpr ⟨w, ⟨first :: between, [], by simp⟩, hd, hp⟩

-- A child on each side of a token.
theorem cites_pair (between : Token) (hs : n.span = m.span.through m'.span) (hn : n.children = [m, m'])
    (hc : m.span.Covers w) (hd : Derives .expr w m) (hp : parens w ≤ m.openers.length)
    (hc' : m'.span.Covers w') (hd' : Derives .expr w' m') (hp' : parens w' ≤ m'.openers.length) :
    n.span.Covers (w ++ between :: w') ∧ ∀ k ∈ n.spelled, Quotes (w ++ between :: w') k := by
  rw [hs]
  refine ⟨hc.through [between] hc', Node.forall_spelled ?_⟩
  rw [hn]
  refine List.forall_mem_cons.mpr ⟨?_, List.forall_mem_singleton.mpr ?_⟩
  case refine_1 => exact ⟨w, ⟨[], between :: w', rfl⟩, .exprStmt hd, hp⟩
  case refine_2 => exact ⟨w', ⟨w ++ [between], [], by simp⟩, .exprStmt hd', hp'⟩

-- Any number of children between two delimiters.
theorem cites_enclosed (hs : n.span = first.span.through last.span) (h : ∀ k ∈ n.children, Quotes w k) :
    n.span.Covers (first :: (w ++ [last])) ∧ ∀ k ∈ n.spelled, Quotes (first :: (w ++ [last])) k := by
  rw [hs]
  refine ⟨(Span.covers_token first).through w (Span.covers_token last), Node.forall_spelled fun k hk => ?_⟩
  exact (h k hk).mono ⟨[first], [last], rfl⟩

end

-- Induction on the derivation. Parentheses that only group would be more than there are calls and functions.
theorem Derives.cites {c : Category} {w : List Token} {tree : c.Tree} (h : Derives c w tree)
    (hp : parens w ≤ (c.openers tree).length) : c.Cites w tree := by
  induction h <;>
    simp only [Category.Cites, Category.openers, Node.openers, Node.openersAll, parens_cons, parens_append,
      List.length_append, List.length_cons, List.length_nil] at *
  case empty => exact List.forall_mem_nil _
  case body before _ after _ _ _ _ hi => exact fun n hn => ((hi (by omega)).right n hn).mono ⟨before, after, rfl⟩
  case one hd hi => exact ⟨fun _ => (hi hp).left, List.forall_mem_singleton.mpr ⟨_, List.infix_refl _, hd, hp⟩⟩
  case more w n seps w' ns hd hs hne hds hi his =>
    have hle : n.openers.length ≤ parens w := hd.openers_le
    have hles : (Node.openersAll ns).length ≤ parens w' := hds.openers_le
    obtain ⟨hc, -⟩ := hi (by omega)
    obtain ⟨hcs, hq⟩ := his (by omega)
    refine ⟨fun eof => ?_, List.forall_mem_cons.mpr ⟨⟨w, ⟨[], seps ++ w', by simp⟩, hd, by omega⟩, fun m hm => ?_⟩⟩
    case refine_1 =>
      have hns : ns ≠ [] := by cases hds <;> exact List.cons_ne_nil _ _
      rw [extent_cons eof n hns, List.append_assoc]
      exact hc.through seps (hcs eof)
    case refine_2 => exact (hq m hm).mono ⟨w ++ seps, [], by simp⟩
  case letStmt keyword name sign w value _ _ _ hd hi =>
    have hp : parens w ≤ value.openers.length := by omega
    exact cites_led [name, sign] rfl rfl (hi hp).left (.exprStmt hd) hp
  case bareReturn keyword _ =>
    refine ⟨Span.covers_token keyword, ?_⟩
    simp [Node.spelled, Node.isNop, Node.span]
  case returnStmt keyword w value _ hd hi =>
    have hp : parens w ≤ value.openers.length := by omega
    exact cites_led [] rfl rfl (hi hp).left (.exprStmt hd) hp
  case function keyword name opener ps _ closer w body _ _ ho _ _ hd hi =>
    have hle : body.openers.length ≤ parens w := hd.openers_le
    rw [if_pos ho] at hp
    have hp : parens w ≤ body.openers.length := by omega
    have hd : Derives .statement w body := .exprStmt (expr_of_primary (.blockExpr hd))
    rw [List.append_cons]
    exact cites_led (name :: opener :: ps ++ [closer]) rfl rfl (hi hp).left hd hp
  case tiers hi => exact hi hp (List.suffix_refl _)
  case untiered hi => exact fun _ => hi hp
  case tighter hi => exact fun hl => hi hp ((List.suffix_cons _ _).trans hl)
  case exprStmt hi | operand hi | callee hi | blockExpr hi | ifExpr hi | elseIf hi | elseBlock hi => exact hi hp
  case groupedTarget n _ ho hd _ _ | grouped n _ ho hd _ _ =>
    have hle : n.openers.length ≤ _ := hd.openers_le
    rw [if_pos ho] at hp
    omega
  case name | literal | nop | ident => exact ⟨Span.covers_token _, List.forall_mem_nil _⟩
  case block hi | list hi => exact cites_enclosed rfl (hi (by omega))
  case assign w target sign w' value hd _ hdv hi hiv =>
    have hle : target.openers.length ≤ parens w := hd.openers_le
    have hlev : value.openers.length ≤ parens w' := hdv.openers_le
    have hpt : parens w ≤ target.openers.length := by omega
    have hpv : parens w' ≤ value.openers.length := by omega
    exact cites_pair sign rfl rfl (hi hpt).left (hd.expr_of_target hpt) hpt (hiv hpv).left hdv hpv
  case binary ops levels w left op w' right hd hk hdr hi hir =>
    intro hl
    have hle : left.openers.length ≤ parens w := hd.openers_le
    have hler : right.openers.length ≤ parens w' := hdr.openers_le
    have hpl : parens w ≤ left.openers.length := by omega
    have hpr : parens w' ≤ right.openers.length := by omega
    have hlr := (List.suffix_cons ops levels).trans hl
    exact cites_pair op rfl rfl (hi hpl hl).left (hd.expr_of_tier hl) hpl (hir hpr hlr).left (hdr.expr_of_tier hlr) hpr
  case unary op w n _ hd hi =>
    have hp : parens w ≤ n.openers.length := by omega
    exact cites_led [] rfl rfl (hi hp).left (.exprStmt hd.expr_of_unary) hp
  case call w callee opener w' args closer hd ho hds _ hi his =>
    have hle : callee.openers.length ≤ parens w := hd.openers_le
    have hles : (Node.openersAll args).length ≤ parens w' := hds.openers_le
    rw [if_pos ho] at hp
    obtain ⟨hc, -⟩ := hi (by omega)
    have hc := hc.through (opener :: w') (Span.covers_token closer)
    rw [← List.append_assoc] at hc
    refine ⟨hc, List.forall_mem_cons.mpr ⟨?_, fun m hm => (his (by omega) m hm).mono ⟨w ++ [opener], [closer], by simp⟩⟩⟩
    exact ⟨w, ⟨[], opener :: w' ++ [closer], by simp⟩, .exprStmt (expr_of_unary (.operand hd)), by omega⟩
  case ifThen keyword w condition w' thenBlock _ hd hdt hi hit =>
    have hle : condition.openers.length ≤ parens w := hd.openers_le
    have hlet : thenBlock.openers.length ≤ parens w' := hdt.openers_le
    obtain ⟨hc, -⟩ := hit (by omega)
    refine ⟨(Span.covers_token keyword).through w hc, List.forall_mem_cons.mpr ⟨?_, List.forall_mem_singleton.mpr ?_⟩⟩
    case refine_1 => exact ⟨w, ⟨[keyword], w', rfl⟩, .exprStmt hd, by omega⟩
    case refine_2 =>
      exact ⟨w', ⟨keyword :: w, [], by simp⟩, .exprStmt (expr_of_primary (.blockExpr hdt)), by omega⟩
  case ifThenElse keyword w condition w' thenBlock other w'' elseBranch _ hd hdt _ hde hi hit hie =>
    have hle : condition.openers.length ≤ parens w := hd.openers_le
    have hlet : thenBlock.openers.length ≤ parens w' := hdt.openers_le
    have hlee : elseBranch.openers.length ≤ parens w'' := hde.openers_le
    obtain ⟨hc, -⟩ := hie (by omega)
    have hc := (Span.covers_token keyword).through (w ++ w' ++ [other]) hc
    rw [List.append_assoc (w ++ w')] at hc
    refine ⟨hc, Node.forall_spelled (List.forall_mem_cons.mpr ⟨?_, List.forall_mem_cons.mpr ⟨?_, ?_⟩⟩)⟩
    case refine_1 => exact ⟨w, ⟨[keyword], w' ++ other :: w'', by simp⟩, .exprStmt hd, by omega⟩
    case refine_2 =>
      exact ⟨w', ⟨keyword :: w, other :: w'', by simp⟩, .exprStmt (expr_of_primary (.blockExpr hdt)), by omega⟩
    case refine_3 =>
      refine List.forall_mem_singleton.mpr ⟨w'', ⟨keyword :: w ++ w' ++ [other], [], by simp⟩, ?_, by omega⟩
      exact .exprStmt hde.expr_of_branch
  case noItems => exact List.forall_mem_nil _
  case items lines w ns _ _ hi => exact fun n hn => (hi (by omega) n hn).mono ⟨lines, [], by simp⟩
  case itemsComma lines w ns comma lines' _ _ _ _ hi =>
    exact fun n hn => (hi (by omega) n hn).mono ⟨lines, comma :: lines', rfl⟩
  case item w n lines hd _ hi =>
    exact List.forall_mem_singleton.mpr ⟨w, ⟨[], lines, rfl⟩, .exprStmt hd, by omega⟩
  case moreItems w n lines comma lines' w' ns hd _ _ _ hds hi his =>
    have hle : n.openers.length ≤ parens w := hd.openers_le
    have hles : (Node.openersAll ns).length ≤ parens w' := hds.openers_le
    refine List.forall_mem_cons.mpr ⟨⟨w, ⟨[], lines ++ comma :: lines' ++ w', by simp⟩, .exprStmt hd, by omega⟩, fun m hm => ?_⟩
    exact (his (by omega) m hm).mono ⟨w ++ lines ++ comma :: lines', [], by simp⟩

end Grammar

namespace Program

open Grammar Text

-- The nodes that the source spells, at any depth.
inductive Spelled (p : Program) : Node → Prop
  | statement {n : Node} : n ∈ p.body → p.Spelled n
  | child {m n : Node} : p.Spelled m → n ∈ m.spelled → p.Spelled n

-- No parenthesis only groups: each of them opens the arguments of a call or the parameters of a function.
def Ungrouped (p : Program) (ts : List Token) : Prop :=
  ∀ t ∈ ts, t.kind = .openParen → ∃ n, p.Has n ∧ n.opener? ts = some t

section

variable {p : Program} {n : Node} {ts w : List Token}

-- Different parentheses are those of different calls and functions.
theorem Ungrouped.parens_le (h : p.Ungrouped ts) (hw : w ⊆ ts) (ho : Ordered w) :
    parens w ≤ (Node.openersAll p.body).length := by
  have hd : (w.filter (·.kind = .openParen)).Nodup := by
    refine List.Nodup.filter _ (ho.pairwise.imp_of_mem fun ht _ hp he => ?_)
    have hf := ho.filled _ ht
    rw [Span.Precedes, ← he] at hp
    omega
  have hs : w.filter (·.kind = .openParen) ⊆ (Node.openersAll p.body).filterMap (Node.opener? ts) := by
    intro t ht
    obtain ⟨ht, hk⟩ := List.mem_filter.mp ht
    obtain ⟨n, hn, hnt⟩ := h t (hw ht) (of_decide_eq_true hk)
    have hb : n.opensBehind?.isSome := by
      cases hb : n.opensBehind? <;> simp [Node.opener?, hb] at hnt ⊢
    exact List.mem_filterMap.mpr ⟨n, mem_openersAll_iff.mpr ⟨hn, hb⟩, hnt⟩
  calc parens w
    _ = (w.filter (·.kind = .openParen)).length := List.countP_eq_length_filter
    _ ≤ ((Node.openersAll p.body).filterMap (Node.opener? ts)).length := (hd.subperm hs).length_le
    _ ≤ (Node.openersAll p.body).length := List.length_filterMap_le _ _

-- The run: every node that the source spells is quoted, since each node quotes the ones below it.
theorem Spelled.quotes (hn : p.Spelled n) (h : ∀ n ∈ p.body, Quotes w n) : Quotes w n := by
  induction hn
  case statement hn => exact h _ hn
  case child hm hi =>
    obtain ⟨part, hw, hd, hp⟩ := hi
    exact ((hd.cites hp).right _ hm).mono hw

end

section

variable {file source : String} {p : Program} {ts w part : List Token} {eof : Token} {s : Span}

-- The statements of a part of the tokens are read from the text that the part covers.
theorem ofSource_covered {ns : List Node} (h : Token.ofSource file source = .ok (w ++ [eof])) (hw : part <:+: w)
    (hs : s.Covers part) (hd : Derives .body part ns) (file' : String) :
    ∃ q, ofSource file' (.ofList (slice source.toList s.start s.stop)) = .ok q ∧ Node.bareAll q.body = Node.bareAll ns := by
  obtain ⟨pre, post, rfl⟩ := hw
  obtain ⟨first, last, hf, hl, rfl⟩ := hs
  rw [List.append_assoc, List.append_assoc] at h
  obtain ⟨us, hus, hwords⟩ := Token.ofSource_slice h (by simp) hf hl file'
  have hu : us.map Token.word = (part ++ [Token.sample .endOfInput]).map Token.word := by
    rw [hwords, List.map_append]
    rfl
  obtain ⟨q, hq, hb⟩ := ofSource_of_words hus hu (.program hd rfl)
  exact ⟨q, hq, congrArg Program.body hb⟩

-- The text of a node's span, alone, is read as that node, and the text of the span of the program as its statements.
theorem ofSource_excerpt (h : ofSource file source = .ok p) (ht : Token.ofSource file source = .ok ts) (hg : p.Ungrouped ts)
    (file' : String) :
    (∀ n, p.Spelled n →
      ∃ q, ofSource file' (.ofList (slice source.toList n.span.start n.span.stop)) = .ok q ∧ Node.bareAll q.body = [n.bare]) ∧
    (p.body ≠ [] →
      ∃ q, ofSource file' (.ofList (slice source.toList p.span.start p.span.stop)) = .ok q ∧
        Node.bareAll q.body = Node.bareAll p.body) := by
  obtain ⟨w, eof, hts, hw, -, hs, hd⟩ := derives_of_ofSource h
  obtain rfl := Except.ok.inj (ht.symm.trans hts)
  have hp := hg.parens_le (List.subset_append_left w [eof]) hw
  have alone {part : List Token} {ns : List Node} (hd : Derives .sequence part ns) : Derives .body part ns := by
    have hb := Derives.body (List.forall_mem_nil _) hd (List.forall_mem_nil _)
    rwa [List.nil_append, List.append_nil] at hb
  refine ⟨fun n hn => ?_, fun hne => ?_⟩
  case refine_1 =>
    obtain ⟨part, hi, hdn, hpn⟩ := hn.quotes (hd.cites hp)
    exact ofSource_covered hts hi (hdn.cites hpn).left (alone (.one hdn)) file'
  case refine_2 =>
    rw [hs]
    generalize p.body = ns at hd hp hne ⊢
    cases hd
    case empty => contradiction
    case body before part after _ _ hd =>
      have hp : parens part ≤ (Node.openersAll ns).length := by
        rw [parens_append, parens_append] at hp
        omega
      exact ofSource_covered hts ⟨before, after, rfl⟩ ((hd.cites hp).left eof) (alone hd) file'

end

-- The left operand of a chain stands alone without the operator that follows it.
theorem ofSource_excerpt_chain :
    ∃ p n q, ofSource "" "let x = -f(2) * 3 % 4" = .ok p ∧ p.Spelled n ∧
      slice "let x = -f(2) * 3 % 4".toList n.span.start n.span.stop = "-f(2) * 3".toList ∧
      ofSource "" "-f(2) * 3" = .ok q ∧ Node.bareAll q.body = [n.bare] := by
  have hs : (ofSource "" "let x = -f(2) * 3 % 4").toOption.map (fun p => ((p.body.flatMap Node.spelled).flatMap Node.spelled).map
      fun n => slice "let x = -f(2) * 3 % 4".toList n.span.start n.span.stop) = some ["-f(2) * 3".toList, ['4']] := by
    decide +kernel
  have hg : (ofSource "" "let x = -f(2) * 3 % 4").toOption.map (fun p => (Token.ofSource "" "let x = -f(2) * 3 % 4").toOption.map
      fun ts => decide (∀ t ∈ ts, t.kind = .openParen → ∃ n ∈ Node.openersAll p.body, n.opener? ts = some t)) =
        some (some true) := by
    decide +kernel
  cases hp : ofSource "" "let x = -f(2) * 3 % 4" <;> rw [hp] at hs hg
  case error => cases hs
  case ok p =>
    cases ht : Token.ofSource "" "let x = -f(2) * 3 % 4" <;> rw [ht] at hg
    case error => cases hg
    case ok ts =>
      have hu : p.Ungrouped ts := by
        intro t ht hk
        obtain ⟨n, hn, hnt⟩ := of_decide_eq_true (Option.some.inj (Option.some.inj hg)) t ht hk
        exact ⟨n, (mem_openersAll_iff.mp hn).left, hnt⟩
      have hm : "-f(2) * 3".toList ∈ ["-f(2) * 3".toList, ['4']] := List.mem_cons_self
      rw [← Option.some.inj hs] at hm
      obtain ⟨n, hn, hns⟩ := List.mem_map.mp hm
      obtain ⟨m, hm, hn⟩ := List.mem_flatMap.mp hn
      obtain ⟨k, hk, hm⟩ := List.mem_flatMap.mp hm
      have hsp : p.Spelled n := .child (.child (.statement hk) hm) hn
      obtain ⟨q, hq, hb⟩ := (ofSource_excerpt hp ht hu "").left n hsp
      rw [hns] at hq
      exact ⟨p, n, q, rfl, hsp, hns, hq, hb⟩

end Program

end ParenTree
