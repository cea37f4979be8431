import ParenTree.Proofs.Layout.Reading
import ParenTree.Proofs.Model.Text

-- A dump can be read back: what is left of the value of a tree without its markers determines the tree, but for spans and
-- for how quotes are written in strings.

namespace ParenTree

namespace Model

-- The text of a string with bare quotes only. A backslash still takes the character behind it along.
def bareQuotes : List Char → List Char
  | [] => []
  | '\\' :: '\'' :: cs => '\'' :: bareQuotes cs
  | '\\' :: c :: cs => '\\' :: c :: bareQuotes cs
  | c :: cs => c :: bareQuotes cs

section

variable {c : Char} {cs : List Char}

theorem bareQuotes_cons (h : c ≠ '\\') : bareQuotes (c :: cs) = c :: bareQuotes cs := by
  rw [bareQuotes] <;> simp [h]

theorem escapeQuotes_cons (h : c ≠ '\\') (hq : c ≠ '\'') : escapeQuotes (c :: cs) = c :: escapeQuotes cs := by
  rw [escapeQuotes] <;> simp [h, hq]

theorem escapeQuotes_quote (cs : List Char) : escapeQuotes ('\'' :: cs) = '\\' :: '\'' :: escapeQuotes cs := by
  rw [escapeQuotes]

-- The end of a line is no quote, so that it makes no difference whether it is looked at.
theorem escapeQuotes_backslash (c : Char) (cs : List Char) :
    escapeQuotes ('\\' :: c :: cs) = '\\' :: c :: escapeQuotes cs := by
  rw [escapeQuotes]
  split
  case isTrue hc => rw [escapeQuotes_cons (by simp [hc]) (by simp [hc])]
  case isFalse => rfl

-- A backslash that takes no character along is the last character.
theorem nil_of_lone_backslash (h : ∀ d ds, c = '\\' → cs = d :: ds → False) (hc : c = '\\') : cs = [] := by
  cases cs
  case nil => rfl
  case cons d ds => exact absurd rfl (h d ds hc)

end

theorem bareQuotes_escapeQuotes (cs : List Char) : bareQuotes (escapeQuotes cs) = bareQuotes cs := by
  fun_induction bareQuotes cs
  case case1 => rfl
  case case2 cs hi => simp [escapeQuotes_backslash, bareQuotes, hi]
  case case3 c cs hq hi => simp [escapeQuotes_backslash, bareQuotes, hi]
  case case4 c cs _ hb hi =>
    by_cases hc : c = '\\'
    case pos =>
      cases nil_of_lone_backslash hb hc
      subst hc
      rfl
    case neg =>
      by_cases hq : c = '\''
      case pos =>
        subst hq
        simp [escapeQuotes_quote, bareQuotes, hi]
      case neg => rw [escapeQuotes_cons hc hq, bareQuotes_cons hc, hi]

theorem escapeQuotes_bareQuotes (cs : List Char) : escapeQuotes (bareQuotes cs) = escapeQuotes cs := by
  fun_induction bareQuotes cs
  case case1 => rfl
  case case2 cs hi => rw [escapeQuotes_quote, escapeQuotes_backslash, hi]
  case case3 c cs _ hi => rw [escapeQuotes_backslash, escapeQuotes_backslash, hi]
  case case4 c cs _ hb hi =>
    by_cases hc : c = '\\'
    case pos =>
      cases nil_of_lone_backslash hb hc
      rfl
    case neg =>
      by_cases hq : c = '\''
      case pos =>
        subst hq
        rw [escapeQuotes_quote, escapeQuotes_quote, hi]
      case neg => rw [escapeQuotes_cons hc hq, escapeQuotes_cons hc hq, hi]

open Layout Lexeme

-- The quote that the reader stops at is the one behind the text of the string.
theorem scan_escapeQuotes {cs : List Char} (h : isStringBody cs) (word rest : List Char) :
    scan true .quoted word (escapeQuotes cs ++ '\'' :: rest) =
      .ofList (word.reverse ++ escapeQuotes cs ++ ['\'']) :: scan true .bare [] rest := by
  revert word
  refine isStringBody_induct ?nil ?pair ?plain h
  case nil =>
    intro word
    simp [escapeQuotes, scan, close]
  case pair =>
    intro c cs hi word
    simp [escapeQuotes_backslash, scan, hi]
  case plain =>
    intro c cs hc _ hi word
    by_cases hq : c = '\''
    case pos => simp [hq, escapeQuotes_quote, scan, hi]
    case neg => simp [escapeQuotes_cons hc hq, scan, hc, hq, hi]

theorem readable_quoteLiteral {value : String} (h : isStringBody value.toList) : Readable true (quoteLiteral value) where
  solid := solid_quoteLiteral value
  not_empty := by simp [quoteLiteral]
  ends := by
    rw [gap, quoteLiteral, String.toList_append, String.toList_ofList]
    split <;> exact ends_cons rfl
  scan_eq rest _ := by
    rw [quoteLiteral, String.toList_ofList, List.append_assoc]
    exact scan_escapeQuotes h ['\''] rest

namespace Tree

theorem readable_words {t : Tree} (h : t.WellFormed) : ∀ w ∈ t.words, Readable true w := by
  have hk {w : String} (hw : Bare true w) : ∀ v ∈ [w], Readable true v := by simpa using hw.readable
  cases t
  case program => exact hk (by decide)
  case node n =>
    cases n
    case nop => exact List.forall_mem_nil _
    case literal kind value =>
      have hv : kind ≠ .string → Bare true value := bare_of_admits h
      cases kind
      case string => simpa [words] using readable_quoteLiteral h
      all_goals exact hk (hv (by decide))
    case ident => exact hk h.bare
    case unary op _ => exact hk (Node.bare_of_unaryOperators op h.left)
    case binary op _ => exact hk (Node.bare_of_binaryOperators op h.left)
    case letStmt name _ =>
      have hl : Bare true "let" := by decide
      simpa [words] using ⟨hl.readable, h.right.left.bare.readable⟩
    case function name params _ =>
      obtain ⟨_, hn, hp, _⟩ := h
      have hf : Bare true "fn" := by decide
      exact List.forall_mem_cons.mpr ⟨hf.readable, List.forall_mem_cons.mpr ⟨hn.bare.readable, fun p hm => (hp p hm).bare.readable⟩⟩
    all_goals exact hk (by decide)

theorem worded_value {t : Tree} (h : t.WellFormed) : t.value.Worded (Readable true) := by
  induction t using induct
  case step t hi =>
    rw [value_eq]
    refine forall_frame (fun _ => trivial) (readable_words h) (fun items => (Datum.allWorded_iff items).mpr) trivial ?_ ?_
    case refine_1 =>
      intro name hn d hd
      have hb : ∀ name ∈ ["then", "else"], Bare true name := by decide
      exact ⟨(hb name hn).readable, hd, trivial⟩
    case refine_2 => exact List.forall_mem_map.mpr fun n hn => hi n hn (wellFormed_parts h n hn)

-- A frame without its markers.
def sketch (data : List Datum) : Tree → Datum
  | node (.block ..) => .group (.literal "block" :: data)
  | node (.conditional ..) =>
    match data with
    | condition :: thenBlock :: others =>
      .group (.literal "if" :: condition :: .group [.literal "then", thenBlock] ::
        others.map fun d => .group [.literal "else", d])
    | _ => .group (.literal "if" :: data)
  | node (.function _ name params _) =>
    .group (.literal "fn" :: .literal name :: .group (params.map .literal) :: data)
  | program _ => .group (.literal "program" :: data)
  | t => t.frame .group .literal data

theorem stripAll_append (ds es : List Datum) : Datum.stripAll (ds ++ es) = Datum.stripAll ds ++ Datum.stripAll es := by
  induction ds
  case nil => rfl
  case cons d ds hi => simp [Datum.stripAll, hi]

theorem stripAll_indented (ds : List Datum) : Datum.stripAll (indented ds) = Datum.stripAll ds := by
  simp [indented, Datum.stripAll, stripAll_append, Datum.strip]

section

variable {α : Type} {f g : α → Datum} {l : List α}

theorem stripAll_flatMap {lines : α → List Datum} (h : ∀ a ∈ l, Datum.stripAll (lines a) = [g a]) :
    Datum.stripAll (l.flatMap lines) = l.map g := by
  induction l
  case nil => rfl
  case cons a l hi =>
    obtain ⟨ha, hs⟩ := List.forall_mem_cons.mp h
    rw [List.flatMap_cons, stripAll_append, ha, hi hs]
    rfl

theorem stripAll_map (h : ∀ a ∈ l, (f a).strip = [g a]) : Datum.stripAll (l.map f) = l.map g := by
  rw [List.map_eq_flatMap]
  exact stripAll_flatMap fun a ha => by simp [Datum.stripAll, h a ha]

theorem stripAll_lines (h : ∀ a ∈ l, (f a).strip = [g a]) : Datum.stripAll (indented (onLines (l.map f))) = l.map g := by
  rw [stripAll_indented, onLines, List.flatMap_map]
  exact stripAll_flatMap fun a ha => by simp [Datum.stripAll, Datum.strip, h a ha]

theorem stripAll_branch {d e : Datum} (h : d.strip = [e]) (name : String) :
    Datum.stripAll (branch name d) = [.group [.literal name, e]] := by
  simp [branch, Datum.stripAll, Datum.strip, h]

theorem strip_frame (h : ∀ a ∈ l, (f a).strip = [g a]) (t : Tree) :
    (t.frame .group .literal (l.map f)).strip = [t.sketch (l.map g)] := by
  have hd := stripAll_map h
  have hl := stripAll_lines h
  cases t
  case program => simp [frame, sketch, Datum.strip, Datum.stripAll, hl]
  case node n =>
    cases n
    case literal kind value => cases kind <;> rfl
    case nop | ident => rfl
    case block =>
      cases l
      case nil => rfl
      case cons => simpa [frame, sketch, Datum.strip, Datum.stripAll] using hl
    case conditional =>
      rcases l with _ | ⟨a, _ | ⟨b, l⟩⟩
      case nil => rfl
      case cons.nil => simpa [frame, sketch, Datum.strip, Datum.stripAll] using hd
      case cons.cons =>
        obtain ⟨ha, h⟩ := List.forall_mem_cons.mp h
        obtain ⟨hb, h⟩ := List.forall_mem_cons.mp h
        have ho := stripAll_flatMap fun a ha => stripAll_branch (h a ha) "else"
        simp [frame, sketch, Datum.strip, Datum.stripAll, stripAll_indented, stripAll_append, ha, stripAll_branch hb,
          List.flatMap_map, ho]
    case function name params _ =>
      have hp : Datum.stripAll (params.map .literal) = params.map .literal := stripAll_map fun _ _ => rfl
      simp [frame, sketch, Datum.strip, Datum.stripAll, hp, hl]
    all_goals simp [frame, sketch, Datum.strip, Datum.stripAll, hd]

end

-- What the dump of a tree is read as.
def shape (t : Tree) : Datum :=
  t.sketch (t.parts.attach.map fun n => (node n.1).shape)
termination_by t.toDatum.weight
decreasing_by exact t.isPartOf_parts n.1 n.2

theorem shape_eq (t : Tree) : t.shape = t.sketch (t.parts.map fun n => (node n).shape) := by
  rw [shape, List.attach_map_val (f := fun n => (node n).shape)]

theorem strip_value (t : Tree) : t.value.strip = [t.shape] := by
  induction t using induct
  case step t hi => rw [value_eq, shape_eq, strip_frame hi]

end Tree

-- The kinds of trees, as they can be told apart in a dump.
inductive Form
  | nop
  | literal (kind : LiteralKind)
  | ident
  | unary
  | binary
  | assign
  | call
  | list
  | block
  | conditional
  | letStmt
  | returnStmt
  | function
  | program

namespace Form

def ofWord (w : String) : Form :=
  match w.toList with
  | [] => ident
  | c :: cs =>
    if c = '\'' then literal .string
    else if isDigit c then literal (if cs.contains '.' then .float else .int)
    else if w = "true" then literal .true
    else if w = "false" then literal .false
    else ident

-- The words that lead groups, apart from operators.
def heads : List (String × Form) :=
  [("=", assign), ("call", call), ("[]", list), ("block", block), ("if", conditional), ("let", letStmt),
   ("return", returnStmt), ("fn", function), ("program", program)]

def ofDatum : Datum → Form
  | .literal w => ofWord w
  | .group (.literal head :: items) => (heads.lookup head).getD (if items.length = 1 then unary else binary)
  | _ => nop

theorem lookup_unaryOperators : ∀ op ∈ Node.unaryOperators, heads.lookup op = none := by
  decide

theorem lookup_binaryOperators : ∀ op ∈ Node.binaryOperators, heads.lookup op = none := by
  decide

theorem ofWord_quoteLiteral (value : String) : ofWord (quoteLiteral value) = literal .string := by
  rw [ofWord, quoteLiteral, String.toList_ofList]
  rfl

theorem ofWord_name {w : String} (h : IsName w) : ofWord w = ident := by
  obtain ⟨hn, hk⟩ := h
  rw [String.ofList_toList] at hk
  have ht : w ≠ "true" := by
    rintro rfl
    cases hk
  have hf : w ≠ "false" := by
    rintro rfl
    cases hk
  unfold isName at hn
  split at hn
  case h_1 => cases hn
  case h_2 c cs he =>
    have hc := (Bool.and_eq_true_iff.mp hn).left
    have hq : c ≠ '\'' := by
      rintro rfl
      cases hc
    simp [ofWord, he, hq, not_isDigit_of_isNameStart hc, ht, hf]

theorem ofWord_number {w : String} {c : Char} {cs : List Char} (h : w.toList = c :: cs) (hc : isDigit c) :
    ofWord w = literal (if cs.contains '.' then .float else .int) := by
  have hq : c ≠ '\'' := by
    rintro rfl
    cases hc
  simp [ofWord, h, hq, hc]

theorem exists_digit {cs : List Char} (h : isDigits cs) : ∃ d ds, cs = d :: ds ∧ isDigit d ∧ ∀ e ∈ ds, isDigit e := by
  cases cs
  case nil => cases h
  case cons d ds => exact ⟨d, ds, rfl, by simpa [isDigits] using h⟩

theorem ofWord_admitted {kind : LiteralKind} {w : String} (h : kind.Admits w) (hk : kind ≠ .string) :
    ofWord w = literal kind := by
  cases kind
  case int =>
    obtain ⟨d, ds, he, hd, hs⟩ := exists_digit h
    have hp : ds.contains '.' = false := by
      rw [List.contains_eq_any_beq, List.any_eq_false]
      rintro e he hp
      cases beq_iff_eq.mp hp
      cases hs _ he
    rw [ofWord_number he hd, hp]
    rfl
  case float =>
    obtain ⟨whole, fraction, he, hw, _⟩ := h
    obtain ⟨d, ds, rfl, hd, _⟩ := exists_digit hw
    have hp : (ds ++ '.' :: fraction).contains '.' = true := by simp
    rw [List.cons_append] at he
    rw [ofWord_number he hd, hp]
    rfl
  case string => exact absurd rfl hk
  case «true» | «false» =>
    subst h
    rfl

end Form

namespace Tree

def form : Tree → Form
  | node (.nop _) => .nop
  | node (.literal _ kind _) => .literal kind
  | node (.ident ..) => .ident
  | node (.unary ..) => .unary
  | node (.binary ..) => .binary
  | node (.assign ..) => .assign
  | node (.call ..) => .call
  | node (.list ..) => .list
  | node (.block ..) => .block
  | node (.conditional ..) => .conditional
  | node (.letStmt ..) => .letStmt
  | node (.returnStmt ..) => .returnStmt
  | node (.function ..) => .function
  | program _ => .program

theorem ofDatum_shape {t : Tree} (h : t.WellFormed) : Form.ofDatum t.shape = t.form := by
  rw [shape_eq]
  cases t
  case program => rfl
  case node n =>
    cases n
    case literal kind value =>
      have hv : kind ≠ .string → Form.ofWord value = .literal kind := Form.ofWord_admitted h
      cases kind
      case string => exact Form.ofWord_quoteLiteral value
      all_goals exact hv (by decide)
    case ident => exact Form.ofWord_name h
    case unary op _ =>
      have ho := Form.lookup_unaryOperators op h.left
      simp [sketch, frame, parts, Form.ofDatum, ho, form]
    case binary op _ =>
      have ho := Form.lookup_binaryOperators op h.left
      simp [sketch, frame, parts, Form.ofDatum, ho, form]
    all_goals rfl

end Tree

-- The value of a literal up to how its quotes are written.
def bareValue : LiteralKind → String → String
  | .string, value => .ofList (bareQuotes value.toList)
  | _, value => value

theorem bareValue_eq {value value' : String} (h : quoteLiteral value = quoteLiteral value') :
    bareValue .string value = bareValue .string value' := by
  have he : escapeQuotes value.toList = escapeQuotes value'.toList := by
    have hl := congrArg String.toList h
    simpa [quoteLiteral] using hl
  rw [bareValue, bareValue, ← bareQuotes_escapeQuotes, he, bareQuotes_escapeQuotes]

-- A node up to spans and to how the quotes in its strings are written.
def canonical : Node → Node :=
  Node.map (fun _ => .blank) bareValue

-- A node that a handler leaves out if it is a `nop`.
theorem canonical_of_optional {n m : Node}
    (h : (if n.isNop then [] else [n]).map canonical = (if m.isNop then [] else [m]).map canonical) :
    canonical n = canonical m := by
  cases hn : n.isNop <;> cases hm : m.isNop <;> simp only [hn, hm] at h
  case true.true =>
    cases n <;> cases hn
    cases m <;> cases hm
    rfl
  case false.false => exact List.cons.inj h |>.left
  all_goals cases h

theorem map_eq_of_shape {α β : Type} {f : Node → α} {g : Node → β} {ns ms : List Node}
    (hi : ∀ n ∈ ns, ∀ m ∈ ms, f n = f m → g n = g m) (h : ns.map f = ms.map f) : ns.map g = ms.map g := by
  induction ns generalizing ms
  case nil =>
    cases List.map_eq_nil_iff.mp h.symm
    rfl
  case cons n ns hl =>
    cases ms
    case nil => cases h
    case cons m ms =>
      obtain ⟨hn, hs⟩ := List.cons.inj h
      have hf := hi n List.mem_cons_self m List.mem_cons_self hn
      have hr := hl (fun n hn m hm => hi n (List.mem_cons_of_mem _ hn) m (List.mem_cons_of_mem _ hm)) hs
      rw [List.map_cons, List.map_cons, hf, hr]

namespace Tree

def canonical : Tree → Tree
  | node n => node (Model.canonical n)
  | program p => program (p.map (fun _ => .blank) bareValue)

-- The canonical form of a tree with items, from those of the items.
theorem canonical_items {ns ms : List Node} (h : ns.map Model.canonical = ms.map Model.canonical) :
    Node.mapAll (fun _ => .blank) bareValue ns = Node.mapAll (fun _ => .blank) bareValue ms := by
  rw [Node.mapAll_eq_map, Node.mapAll_eq_map]
  exact h

-- Induction on the first tree. Trees of the same shape have the same form, and their parts have the same shapes.
theorem canonical_eq_of_shape {t u : Tree} (ht : t.WellFormed) (hu : u.WellFormed) (h : t.shape = u.shape) :
    t.canonical = u.canonical := by
  induction t using induct generalizing u
  case step t hi =>
    have hf : t.form = u.form := by rw [← ofDatum_shape ht, ← ofDatum_shape hu, h]
    have hp : ∀ n ∈ t.parts, ∀ m ∈ u.parts, (node n).shape = (node m).shape → Model.canonical n = Model.canonical m :=
      fun n hn m hm hs => node.inj (hi n hn (wellFormed_parts ht n hn) (wellFormed_parts hu m hm) hs)
    have hc := map_eq_of_shape hp
    rw [shape_eq, shape_eq] at h
    clear hi hp
    cases t <;> cases u
    case node.program n p => cases n <;> cases hf
    case program.node p n => cases n <;> cases hf
    case program.program p q =>
      obtain ⟨_, hd⟩ := List.cons.inj (Datum.group.inj h)
      exact congrArg (fun ns => program ⟨.blank, ns⟩) (canonical_items (hc hd))
    case node.node n m =>
      cases n <;> cases m <;> cases hf
      case nop.nop => rfl
      case literal.literal kind _ _ _ =>
        cases kind
        case string => exact congrArg (fun v => node (.literal .blank .string v)) (bareValue_eq (Datum.literal.inj h))
        all_goals exact congrArg (fun v => node (.literal .blank _ v)) (Datum.literal.inj h)
      case ident.ident => exact congrArg (fun v => node (.ident .blank v)) (Datum.literal.inj h)
      case unary.unary =>
        obtain ⟨ho, hd⟩ := List.cons.inj (Datum.group.inj h)
        obtain ⟨ha, _⟩ := List.cons.inj (hc hd)
        cases Datum.literal.inj ho
        exact congrArg (fun a => node (.unary .blank _ a)) ha
      case binary.binary =>
        obtain ⟨ho, hd⟩ := List.cons.inj (Datum.group.inj h)
        obtain ⟨hl, hr⟩ := List.cons.inj (hc hd)
        obtain ⟨hr, _⟩ := List.cons.inj hr
        cases Datum.literal.inj ho
        exact (congrArg (fun l => node (.binary .blank l _ _)) hl).trans (congrArg (fun r => node (.binary .blank _ _ r)) hr)
      case assign.assign =>
        obtain ⟨_, hd⟩ := List.cons.inj (Datum.group.inj h)
        obtain ⟨hl, hr⟩ := List.cons.inj (hc hd)
        obtain ⟨hr, _⟩ := List.cons.inj hr
        exact (congrArg (fun l => node (.assign .blank l _)) hl).trans (congrArg (fun r => node (.assign .blank _ r)) hr)
      case call.call =>
        obtain ⟨_, hd⟩ := List.cons.inj (Datum.group.inj h)
        obtain ⟨hl, hr⟩ := List.cons.inj (hc hd)
        exact (congrArg (fun l => node (.call .blank l _)) hl).trans
          (congrArg (fun r => node (.call .blank _ r)) (canonical_items hr))
      case list.list =>
        obtain ⟨_, hd⟩ := List.cons.inj (Datum.group.inj h)
        exact congrArg (fun ns => node (.list .blank ns)) (canonical_items (hc hd))
      case block.block =>
        obtain ⟨_, hd⟩ := List.cons.inj (Datum.group.inj h)
        exact congrArg (fun ns => node (.block .blank ns)) (canonical_items (hc hd))
      case conditional.conditional =>
        obtain ⟨_, hd⟩ := List.cons.inj (Datum.group.inj h)
        obtain ⟨hq, hd⟩ := List.cons.inj hd
        obtain ⟨ht, he⟩ := List.cons.inj hd
        have hg {name : String} {d e : Datum} (hg : Datum.group [.literal name, d] = .group [.literal name, e]) : d = e :=
          (List.cons.inj (List.cons.inj (Datum.group.inj hg)).right).left
        have hd := List.cons_eq_cons.mpr ⟨hq, List.cons_eq_cons.mpr ⟨hg ht, (List.map_inj_right fun _ _ => hg).mp he⟩⟩
        obtain ⟨hq, hd⟩ := List.cons.inj (hc hd)
        obtain ⟨ht, he⟩ := List.cons.inj hd
        exact (congrArg (fun q => node (.conditional .blank q _ _)) hq).trans
          ((congrArg (fun t => node (.conditional .blank _ t _)) ht).trans
            (congrArg (fun e => node (.conditional .blank _ _ e)) (canonical_of_optional he)))
      case letStmt.letStmt =>
        obtain ⟨_, hd⟩ := List.cons.inj (Datum.group.inj h)
        obtain ⟨hn, hd⟩ := List.cons.inj hd
        obtain ⟨hv, _⟩ := List.cons.inj (hc hd)
        cases Datum.literal.inj hn
        exact congrArg (fun v => node (.letStmt .blank _ v)) hv
      case returnStmt.returnStmt =>
        obtain ⟨_, hd⟩ := List.cons.inj (Datum.group.inj h)
        exact congrArg (fun v => node (.returnStmt .blank v)) (canonical_of_optional (hc hd))
      case function.function =>
        obtain ⟨_, hd⟩ := List.cons.inj (Datum.group.inj h)
        obtain ⟨hn, hd⟩ := List.cons.inj hd
        obtain ⟨hq, hd⟩ := List.cons.inj hd
        obtain ⟨hb, _⟩ := List.cons.inj (hc hd)
        cases Datum.literal.inj hn
        cases (List.map_inj_right fun _ _ => Datum.literal.inj).mp (Datum.group.inj hq)
        exact congrArg (fun b => node (.function .blank _ _ b)) hb

theorem parts_canonical (t : Tree) : t.canonical.parts = t.parts.map Model.canonical := by
  have hn (n : Node) : (n.map (fun _ => .blank) bareValue).isNop = n.isNop := by cases n <;> rfl
  cases t
  case program => exact Node.mapAll_eq_map ..
  case node n =>
    cases n
    case call callee _ => exact congrArg (Model.canonical callee :: ·) (Node.mapAll_eq_map ..)
    case list | block => exact Node.mapAll_eq_map ..
    case conditional elseBranch =>
      simp only [canonical, Model.canonical, Node.map, parts, hn]
      cases elseBranch.isNop <;> rfl
    case returnStmt value =>
      simp only [canonical, Model.canonical, Node.map, parts, hn]
      cases value.isNop <;> rfl
    all_goals rfl

theorem frame_canonical (t : Tree) (data : List Datum) :
    t.canonical.frame .group .literal data = t.frame .group .literal data := by
  cases t
  case program => rfl
  case node n =>
    cases n
    case literal kind value =>
      cases kind
      case string =>
        simp [canonical, Model.canonical, Node.map, bareValue, frame, quoteLiteral, escapeQuotes_bareQuotes]
      all_goals rfl
    all_goals rfl

theorem value_canonical (t : Tree) : t.canonical.value = t.value := by
  induction t using induct
  case step t hi =>
    rw [value_eq, value_eq, frame_canonical, parts_canonical, List.map_map]
    exact congrArg (t.frame .group .literal) (List.map_congr_left hi)

end Tree

end Model

open Model Layout

theorem Dumper.dump_value {t : Tree} (h : t.WellFormed) (depth : Int) :
    ∃ ws depth', flatten t.value depth = .ok (ws, depth') ∧ read true (join ws) = some [t.shape] ∧
      ((Dumper.new .model depth).dump t.toDatum).1 = .ok (join ws) := by
  obtain ⟨ws, depth', hf, hr⟩ := read_flatten (Tree.worded_value h) depth
  rw [t.strip_value] at hr
  exact ⟨ws, depth', hf, hr, (dump_of_value (b := cookbook) (.of_new .model depth) ⟨t, rfl⟩ (value_toDatum t) hf).left⟩

-- Two programs have the same dump at a depth only if they are the same but for spans and for how quotes are written in
-- strings, and then they have the same dump.
theorem Program.dump_eq_iff {file file' source source' : String} {p q : Program}
    (hp : Program.ofSource file source = .ok p) (hq : Program.ofSource file' source' = .ok q) (depth : Int) :
    (p.dump depth).1 = (q.dump depth).1 ↔ p.map (fun _ => .blank) bareValue = q.map (fun _ => .blank) bareValue := by
  have hpw : (Tree.program p).WellFormed := wellFormed_of_ofSource hp
  have hqw : (Tree.program q).WellFormed := wellFormed_of_ofSource hq
  obtain ⟨ws, _, hf, hr, hd⟩ := Dumper.dump_value hpw depth
  obtain ⟨ws', _, hf', hr', hd'⟩ := Dumper.dump_value hqw depth
  rw [Program.dump, Program.dump]
  constructor
  case mp =>
    intro h
    have hj : join ws = join ws' := Except.ok.inj (hd.symm.trans (h.trans hd'))
    rw [hj, hr'] at hr
    have hs := (List.cons.inj (Option.some.inj hr)).left
    exact Tree.program.inj (Tree.canonical_eq_of_shape hpw hqw hs.symm)
  case mpr =>
    intro h
    have hc : (Tree.program p).canonical = (Tree.program q).canonical := congrArg Tree.program h
    have hv : (Tree.program p).value = (Tree.program q).value := by
      rw [← Tree.value_canonical, hc, Tree.value_canonical]
    rw [hv, hf'] at hf
    cases hf
    exact hd.trans hd'.symm

-- A quote that is written bare in one program and behind a backslash in the other.
theorem Program.dump_quotes :
    ∃ p q, Program.ofSource "" "f(\"it's\")" = .ok p ∧ Program.ofSource "" "f (\"it\\'s\");" = .ok q ∧
      (p.dump 1).1 = (q.dump 1).1 ∧ p.map (fun _ => .blank) bareValue = q.map (fun _ => .blank) bareValue := by
  obtain ⟨p, hp, hd⟩ := exists_dump "" "f(\"it's\")" "(program\n    (call f 'it\\'s'))" 1 (by decide +kernel)
  obtain ⟨q, hq, hd'⟩ := exists_dump "" "f (\"it\\'s\");" "(program\n    (call f 'it\\'s'))" 1 (by decide +kernel)
  have he := hd.trans hd'.symm
  exact ⟨p, q, hp, hq, he, (dump_eq_iff hp hq 1).mp he⟩

end ParenTree
