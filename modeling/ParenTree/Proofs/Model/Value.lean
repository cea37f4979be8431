import ParenTree.Dumper.Model
import ParenTree.Proofs.Dumper.Expansion

-- The values of syntax trees: what each handler asks for, and what it makes of the values of the parts.

namespace ParenTree

namespace Script

variable {o : Datum} {α : Type}

-- Placeholders with tags that go up from `base`.
def placeholders (base count : Nat) : List Datum :=
  (List.range' base count).map fun tag => .unfilled (.asked tag)

theorem map_shift_placeholders (tag count : Nat) :
    (placeholders 0 count).map (Datum.shift tag) = placeholders tag count := by
  rw [placeholders, placeholders, List.map_map, List.range'_eq_map_range, List.range'_eq_map_range]
  simp [Function.comp_def, Datum.shift, Datum.replace]

theorem map_plug_placeholders (values : List Datum) : (placeholders 0 values.length).map (Datum.plug values) = values := by
  refine List.ext_getElem (by simp [placeholders]) fun i _ hi => ?_
  simp [placeholders, Datum.plug, Datum.replace, List.getElem?_eq_getElem hi]

theorem plan_loop (nop : Datum → Bool) (parts : List { d : Datum // d.IsPartOf o }) (sofar : List Datum)
    (next : List Datum → Action o α) (tag : Nat) :
    plan nop (List.mapM.loop Action.child parts sofar >>= next).run tag =
      (plan nop (next (sofar.reverse ++ placeholders tag parts.length)).run (tag + parts.length)).map fun out =>
        (parts ++ out.1, out.2) := by
  induction parts generalizing sofar tag
  case nil =>
    show plan nop (next sofar.reverse).run tag = _
    simp [placeholders]
  case cons part parts hi =>
    show (plan nop (List.mapM.loop Action.child parts (.unfilled (.asked tag) :: sofar) >>= next).run (tag + 1)).map _ = _
    rw [hi]
    simp [placeholders, List.range'_succ, Nat.add_assoc, Nat.add_comm 1, Function.comp_def]

theorem plan_pure (nop : Datum → Bool) (a : α) (tag : Nat) : plan nop (pure a : Action o α).run tag = some ([], .ok a) :=
  rfl

theorem plan_children (nop : Datum → Bool) (parts : List { d : Datum // d.IsPartOf o })
    (next : List Datum → Action o α) (tag : Nat) :
    plan nop (parts.mapM Action.child >>= next).run tag =
      (plan nop (next (placeholders tag parts.length)).run (tag + parts.length)).map fun out => (parts ++ out.1, out.2) :=
  plan_loop nop parts [] next tag

end Script

namespace Model

-- What can be dumped: a node or a whole program.
inductive Tree
  | node (n : Node)
  | program (p : Program)

def onLines (data : List Datum) : List Datum :=
  data.flatMap fun d => [.marker .lineBreak, d]

section

variable {o : Datum} {name : String} {items : List Datum} {h : Datum.IsPartOf (.list items) o} (nop : Datum → Bool)

theorem field_eq {part : { d : Datum // d.IsPartOf o }} (hf : o.field? name = some part) :
    (Action.field name : Action o _) = pure part := by
  rw [Action.field, hf]

theorem elements_eq (hf : o.field? name = some ⟨.list items, h⟩) :
    ∃ asked : List { d : Datum // d.IsPartOf o }, asked.map Subtype.val = items ∧
      (Action.elements name : Action o _) = pure asked := by
  refine ⟨items.attach.map fun e => ⟨e.1, ?_⟩, by simp, ?_⟩
  case refine_1 =>
    have := Datum.weight_le_weightAll e.2
    simp only [Datum.IsPartOf, Datum.weight] at h ⊢
    omega
  case refine_2 =>
    rw [Action.elements, field_eq hf]
    exact congrArg (pure : _ → Action o _) List.map_map

-- The plan of an action that asks for all the parts a field goes through and then is done.
theorem plan_elements (hf : o.field? name = some ⟨.list items, h⟩) :
    ∃ asked : List { d : Datum // d.IsPartOf o }, asked.map Subtype.val = items ∧
      ∀ (result : List Datum → Datum) tag, Script.plan nop (children name >>= fun data => pure (result data)).run tag =
        some (asked, .ok (result (Script.placeholders tag asked.length))) := by
  obtain ⟨asked, ha, he⟩ := elements_eq hf
  refine ⟨asked, ha, fun result tag => ?_⟩
  rw [children, he]
  refine (Script.plan_children nop asked _ tag).trans ?_
  rw [Script.plan_pure, Option.map_some, List.append_nil]

theorem plan_list (hf : o.field? "items" = some ⟨.list items, h⟩) :
    ∃ asked : List { d : Datum // d.IsPartOf o }, asked.map Subtype.val = items ∧
      ∀ tag, Script.plan nop (dumpListExpr o).run tag =
        some (asked, .ok (.list (.text "[]" :: Script.placeholders tag asked.length))) := by
  obtain ⟨asked, ha, hp⟩ := plan_elements nop hf
  exact ⟨asked, ha, hp _⟩

theorem plan_program (hf : o.field? "body" = some ⟨.list items, h⟩) :
    ∃ asked : List { d : Datum // d.IsPartOf o }, asked.map Subtype.val = items ∧
      ∀ tag, Script.plan nop (dumpProgram o).run tag =
        some (asked, .ok (.list (.text "program" :: indented (onLines (Script.placeholders tag asked.length))))) := by
  obtain ⟨asked, ha, hp⟩ := plan_elements nop hf
  refine ⟨asked, ha, fun tag => ?_⟩
  rw [dumpProgram, lines, bind_assoc]
  exact hp (fun data => .list (.text "program" :: indented (onLines data))) tag

theorem plan_call {callee : { d : Datum // d.IsPartOf o }} (hc : o.field? "callee" = some callee)
    (hf : o.field? "args" = some ⟨.list items, h⟩) :
    ∃ asked : List { d : Datum // d.IsPartOf o }, asked.map Subtype.val = items ∧
      ∀ tag, Script.plan nop (dumpCall o).run tag =
        some (callee :: asked, .ok (.list (.text "call" :: Script.placeholders tag (callee :: asked).length))) := by
  obtain ⟨asked, ha, hp⟩ := plan_elements nop hf
  refine ⟨asked, ha, fun tag => ?_⟩
  rw [dumpCall, child, field_eq hc]
  have hr := hp (fun data => Datum.list (.text "call" :: .unfilled (.asked tag) :: data)) (tag + 1)
  exact congrArg (Option.map fun out => (callee :: out.1, out.2)) hr

theorem plan_block (hf : o.field? "statements" = some ⟨.list items, h⟩) :
    ∃ asked : List { d : Datum // d.IsPartOf o }, asked.map Subtype.val = items ∧
      ∀ tag, Script.plan nop (dumpBlock o).run tag =
        some (asked, .ok (.list (.text "block" :: if (Script.placeholders tag asked.length).isEmpty then []
          else indented (onLines (Script.placeholders tag asked.length))))) := by
  obtain ⟨asked, ha, hp⟩ := plan_elements nop hf
  refine ⟨asked, ha, fun tag => ?_⟩
  rw [dumpBlock, plain, field_eq hf]
  cases items
  case nil =>
    cases List.map_eq_nil_iff.mp ha
    rfl
  case cons first others =>
    have hne : (Script.placeholders tag asked.length).isEmpty = false := by
      cases asked
      case nil => cases ha
      case cons => rfl
    have hr := hp (fun data => .list (.text "block" :: indented (onLines data))) tag
    rw [hne]
    refine Eq.trans ?_ hr
    show Script.plan nop (lines "statements" >>= fun ds => (pure (.list (.text "block" :: indented ds)) : Action o Datum)).run
      tag = _
    rw [lines, bind_assoc]
    rfl

theorem plan_function {functionName body : { d : Datum // d.IsPartOf o }} (hn : o.field? "name" = some functionName)
    (hf : o.field? "params" = some ⟨.list items, h⟩) (hb : o.field? "body" = some body) (tag : Nat) :
    Script.plan nop (dumpFunction o).run tag =
      some ([body], .ok (.list (.text "fn" :: functionName.1 :: .list items ::
        indented (onLines (Script.placeholders tag 1))))) := by
  obtain ⟨asked, ha, he⟩ := elements_eq hf
  rw [dumpFunction, plain, child, field_eq hn, field_eq hb, he, ← ha]
  rfl

theorem plan_child {α : Type} (part : { d : Datum // d.IsPartOf o }) (next : Datum → Action o α) (tag : Nat) :
    Script.plan nop (Action.child part >>= next).run tag =
      (Script.plan nop (next (.unfilled (.asked tag))).run (tag + 1)).map fun out => (part :: out.1, out.2) :=
  rfl

theorem plan_isNop {α : Type} (d : Datum) (next : Bool → Action o α) (tag : Nat) :
    Script.plan nop (Action.isNop d >>= next).run tag = Script.plan nop (next (nop d)).run tag :=
  rfl

theorem plan_return {value : { d : Datum // d.IsPartOf o }} (hf : o.field? "expr" = some value) (tag : Nat) :
    Script.plan nop (dumpReturn o).run tag =
      if nop value.1 then some ([], .ok (.list [.text "return"]))
      else some ([value], .ok (.list (.text "return" :: Script.placeholders tag 1))) := by
  rw [dumpReturn, field_eq hf]
  refine (plan_isNop nop value.1 _ tag).trans ?_
  cases nop value.1 <;> rfl

theorem plan_conditional {condition thenBlock elseBranch : { d : Datum // d.IsPartOf o }}
    (hc : o.field? "condition" = some condition) (ht : o.field? "then_block" = some thenBlock)
    (he : o.field? "else_branch" = some elseBranch) (tag : Nat) :
    Script.plan nop (dumpConditional o).run tag =
      if nop elseBranch.1 then
        some ([condition, thenBlock], .ok (.list (.text "if" :: .unfilled (.asked tag) ::
          indented (branch "then" (.unfilled (.asked (tag + 1)))))))
      else
        some ([condition, thenBlock, elseBranch], .ok (.list (.text "if" :: .unfilled (.asked tag) ::
          indented (branch "then" (.unfilled (.asked (tag + 1))) ++ branch "else" (.unfilled (.asked (tag + 2))))))) := by
  simp only [dumpConditional, child, field_eq hc, field_eq ht, field_eq he, pure_bind, plan_child, plan_isNop]
  cases nop elseBranch.1 <;> rfl

end

namespace Tree

def toDatum : Tree → Datum
  | node n => n.toDatum
  | program p => p.toDatum

def handler : Tree → Handler
  | node (.nop ..) => dumpNop
  | node (.literal ..) => dumpLiteral
  | node (.ident ..) => dumpIdentifier
  | node (.unary ..) => dumpUnary
  | node (.binary ..) => dumpBinary
  | node (.assign ..) => dumpAssign
  | node (.call ..) => dumpCall
  | node (.list ..) => dumpListExpr
  | node (.block ..) => dumpBlock
  | node (.conditional ..) => dumpConditional
  | node (.letStmt ..) => dumpLet
  | node (.returnStmt ..) => dumpReturn
  | node (.function ..) => dumpFunction
  | program _ => dumpProgram

-- The nodes that a handler asks for, in that order.
def parts : Tree → List Node
  | node (.nop _) | node (.literal ..) | node (.ident ..) => []
  | node (.unary _ _ operand) => [operand]
  | node (.binary _ left _ right) => [left, right]
  | node (.assign _ target value) => [target, value]
  | node (.call _ callee args) => callee :: args
  | node (.list _ items) => items
  | node (.block _ statements) => statements
  | node (.conditional _ condition thenBlock elseBranch) =>
    condition :: thenBlock :: if elseBranch.isNop then [] else [elseBranch]
  | node (.letStmt _ _ value) => [value]
  | node (.returnStmt _ value) => if value.isNop then [] else [value]
  | node (.function _ _ _ body) => [body]
  | program p => p.body

-- What a handler makes of `data` for its parts. Handlers return lists of texts; in a value these are groups of literals.
def frame (group : List Datum → Datum) (word : String → Datum) (data : List Datum) : Tree → Datum
  | node (.nop _) => .group []
  | node (.literal _ .string value) => word (quoteLiteral value)
  | node (.literal _ _ value) => word value
  | node (.ident _ name) => word name
  | node (.unary _ op _) | node (.binary _ _ op _) => group (word op :: data)
  | node (.assign ..) => group (word "=" :: data)
  | node (.call ..) => group (word "call" :: data)
  | node (.list ..) => group (word "[]" :: data)
  | node (.block ..) => group (word "block" :: if data.isEmpty then [] else indented (onLines data))
  | node (.conditional ..) =>
    match data with
    | condition :: thenBlock :: others =>
      group (word "if" :: condition :: indented (branch "then" thenBlock ++ others.flatMap (branch "else")))
    | _ => group (word "if" :: data)
  | node (.letStmt _ name _) => group (word "let" :: word name :: data)
  | node (.returnStmt ..) => group (word "return" :: data)
  | node (.function _ name params _) =>
    group (word "fn" :: word name :: group (params.map word) :: indented (onLines data))
  | program _ => group (word "program" :: indented (onLines data))

-- The words that are in a frame.
def words : Tree → List String
  | node (.nop _) => []
  | node (.literal _ .string value) => [quoteLiteral value]
  | node (.literal _ _ value) => [value]
  | node (.ident _ name) => [name]
  | node (.unary _ op _) | node (.binary _ _ op _) => [op]
  | node (.assign ..) => ["="]
  | node (.call ..) => ["call"]
  | node (.list ..) => ["[]"]
  | node (.block ..) => ["block"]
  | node (.conditional ..) => ["if"]
  | node (.letStmt _ name _) => ["let", name]
  | node (.returnStmt ..) => ["return"]
  | node (.function _ name params _) => "fn" :: name :: params
  | program _ => ["program"]

theorem isNop_toDatum (n : Node) : DumperClass.model.isNop n.toDatum = n.isNop := by
  cases n <;> rfl

theorem handlerName?_syntactic : ∀ name ∈ ["Nop", "LiteralExpr", "IdentifierExpr", "UnaryExpr", "BinaryExpr", "AssignExpr",
    "CallExpr", "ListExpr", "BlockExpr", "IfExpr", "LetStmt", "ReturnStmt", "FunctionDecl", "Program"],
    DumperClass.model.handlerName? (.syntactic name) = some ("dump_" ++ name) := by
  decide

theorem handlerName?_toDatum (t : Tree) :
    ∃ name, DumperClass.model.handlerName? t.toDatum.type = some name ∧
      DumperClass.model.handlers.lookup name = some t.handler := by
  cases t
  case program => exact ⟨_, handlerName?_syntactic "Program" (by decide), rfl⟩
  case node n => cases n <;> exact ⟨_, handlerName?_syntactic _ (by decide), rfl⟩

section

variable {t : Tree}

-- The plan of a handler: it asks for its parts and puts their placeholders into its frame.
def Planned (t : Tree) : Prop :=
  ∃ asked : List { d : Datum // d.IsPartOf t.toDatum }, asked.map Subtype.val = t.parts.map Node.toDatum ∧
    ∀ tag, Script.plan DumperClass.model.isNop (t.handler t.toDatum).run tag =
      some (asked, .ok (t.frame .list .text (Script.placeholders tag asked.length)))

theorem toData_eq_map (ns : List Node) : Node.toData ns = ns.map Node.toDatum := by
  induction ns
  case nil => rfl
  case cons n ns hi => simp [Node.toData, hi]

theorem planned (t : Tree) : t.Planned := by
  cases t
  case program p =>
    obtain ⟨asked, ha, hp⟩ := plan_program (o := p.toDatum) DumperClass.model.isNop rfl
    exact ⟨asked, ha.trans (toData_eq_map p.body), hp⟩
  case node n =>
    cases n
    case nop | ident => exact ⟨[], rfl, fun _ => rfl⟩
    case literal kind value => exact ⟨[], rfl, fun _ => by cases kind <;> rfl⟩
    case unary op operand => exact ⟨[⟨operand.toDatum, _⟩], rfl, fun _ => rfl⟩
    case binary left op right => exact ⟨[⟨left.toDatum, _⟩, ⟨right.toDatum, _⟩], rfl, fun _ => rfl⟩
    case assign target value => exact ⟨[⟨target.toDatum, _⟩, ⟨value.toDatum, _⟩], rfl, fun _ => rfl⟩
    case call s callee args =>
      obtain ⟨asked, ha, hp⟩ := plan_call (o := (Node.call s callee args).toDatum) DumperClass.model.isNop rfl rfl
      exact ⟨⟨callee.toDatum, _⟩ :: asked, congrArg (callee.toDatum :: ·) (ha.trans (toData_eq_map args)), hp⟩
    case list s items =>
      obtain ⟨asked, ha, hp⟩ := plan_list (o := (Node.list s items).toDatum) DumperClass.model.isNop rfl
      exact ⟨asked, ha.trans (toData_eq_map items), hp⟩
    case block s statements =>
      obtain ⟨asked, ha, hp⟩ := plan_block (o := (Node.block s statements).toDatum) DumperClass.model.isNop rfl
      exact ⟨asked, ha.trans (toData_eq_map statements), hp⟩
    case conditional s condition thenBlock elseBranch =>
      have hp := plan_conditional (o := (Node.conditional s condition thenBlock elseBranch).toDatum)
        DumperClass.model.isNop rfl rfl rfl
      cases hn : elseBranch.isNop
      case true =>
        exact ⟨[⟨condition.toDatum, _⟩, ⟨thenBlock.toDatum, _⟩], by simp [parts, hn],
          fun tag => (hp tag).trans (if_pos ((isNop_toDatum elseBranch).trans hn))⟩
      case false =>
        exact ⟨[⟨condition.toDatum, _⟩, ⟨thenBlock.toDatum, _⟩, ⟨elseBranch.toDatum, _⟩], by simp [parts, hn],
          fun tag => (hp tag).trans (if_neg (by simp [isNop_toDatum elseBranch, hn]))⟩
    case letStmt name value => exact ⟨[⟨value.toDatum, _⟩], rfl, fun _ => rfl⟩
    case returnStmt s value =>
      have hp := plan_return (o := (Node.returnStmt s value).toDatum) DumperClass.model.isNop rfl
      cases hn : value.isNop
      case true => exact ⟨[], by simp [parts, hn], fun tag => (hp tag).trans (if_pos ((isNop_toDatum value).trans hn))⟩
      case false =>
        exact ⟨[⟨value.toDatum, _⟩], by simp [parts, hn],
          fun tag => (hp tag).trans (if_neg (by simp [isNop_toDatum value, hn]))⟩
    case function s name params body =>
      have hp := plan_function (o := (Node.function s name params body).toDatum) DumperClass.model.isNop rfl rfl rfl
      exact ⟨[⟨body.toDatum, _⟩], rfl, hp⟩

end

section

variable {data : List Datum}

theorem map_indented {f : Datum → Datum} (hm : ∀ m, f (.marker m) = .marker m) (data : List Datum) :
    (indented data).map f = indented (data.map f) := by
  simp [indented, hm]

theorem map_onLines {f : Datum → Datum} (hm : ∀ m, f (.marker m) = .marker m) (data : List Datum) :
    (onLines data).map f = onLines (data.map f) := by
  simp [onLines, hm, List.map_flatMap, List.flatMap_map]

theorem map_frame {f : Datum → Datum} {group : List Datum → Datum} {word : String → Datum}
    (hg : ∀ items, f (group items) = group (items.map f)) (hw : ∀ w, f (word w) = word w)
    (hm : ∀ m, f (.marker m) = .marker m) (hn : f (.group []) = .group [])
    (hb : ∀ name d, f (.group [.literal name, d]) = .group [.literal name, f d]) (t : Tree) :
    f (t.frame group word data) = t.frame group word (data.map f) := by
  cases t
  case program => simp [frame, hg, hw, map_indented hm, map_onLines hm]
  case node n =>
    cases n
    case nop => exact hn
    case literal kind value => cases kind <;> exact hw _
    case ident => exact hw _
    case block => cases data <;> simp [frame, hg, hw, map_indented hm, map_onLines hm]
    case conditional =>
      rcases data with _ | ⟨condition, _ | ⟨thenBlock, others⟩⟩
      case cons.cons => simp [frame, hg, hw, map_indented hm, branch, hm, hb, List.map_flatMap, List.flatMap_map]
      all_goals simp [frame, hg, hw]
    case function params body =>
      simp [frame, hg, hw, map_indented hm, map_onLines hm, Function.comp_def]
    all_goals simp [frame, hg, hw]

-- What holds of markers and of the data holds of all that a frame puts behind its first words.
section

variable {P : Datum → Prop} (hm : ∀ m, P (.marker m))

include hm

theorem forall_indented (h : ∀ d ∈ data, P d) : ∀ d ∈ indented data, P d := by
  simpa [indented, or_imp, forall_and, hm] using h

theorem forall_onLines (h : ∀ d ∈ data, P d) : ∀ d ∈ onLines data, P d := by
  refine List.forall_mem_flatMap.mpr fun d hd => ?_
  simpa [hm] using h d hd

theorem forall_branches (hb : ∀ name ∈ ["then", "else"], ∀ d, P d → P (.group [.literal name, d]))
    {condition thenBlock : Datum} {others : List Datum} (h : ∀ d ∈ condition :: thenBlock :: others, P d) :
    ∀ d ∈ condition :: indented (branch "then" thenBlock ++ others.flatMap (branch "else")), P d := by
  have hp (name : String) (hn : name ∈ ["then", "else"]) {d : Datum} (hd : P d) : ∀ e ∈ branch name d, P e := by
    simpa [branch, hm] using hb name hn d hd
  simp only [List.forall_mem_cons] at h ⊢
  have ht := hp "then" (by simp) h.right.left
  have he := List.forall_mem_flatMap.mpr fun d hd => hp "else" (by simp) (h.right.right d hd)
  exact ⟨h.left, forall_indented hm (List.forall_mem_append.mpr ⟨ht, he⟩)⟩

-- What holds of the words of a tree and of its data, and passes on to lists, holds of its frame.
theorem forall_frame {group : List Datum → Datum} {word : String → Datum} {t : Tree} (hw : ∀ w ∈ t.words, P (word w))
    (hg : ∀ items, (∀ d ∈ items, P d) → P (group items)) (hn : P (.group []))
    (hb : ∀ name ∈ ["then", "else"], ∀ d, P d → P (.group [.literal name, d])) (h : ∀ d ∈ data, P d) :
    P (t.frame group word data) := by
  have hl := forall_indented hm (forall_onLines hm h)
  have ht {w : String} {items : List Datum} (hw : P (word w)) (hs : ∀ d ∈ items, P d) : ∀ d ∈ word w :: items, P d :=
    List.forall_mem_cons.mpr ⟨hw, hs⟩
  cases t
  case program => exact hg _ (ht (hw _ List.mem_cons_self) hl)
  case node n =>
    cases n
    case nop => exact hn
    case literal kind value => cases kind <;> exact hw _ List.mem_cons_self
    case ident => exact hw _ List.mem_cons_self
    case block =>
      refine hg _ (ht (hw _ List.mem_cons_self) ?_)
      cases data
      case nil => exact h
      case cons => exact hl
    case conditional =>
      have hi := hw _ List.mem_cons_self
      rcases data with _ | ⟨condition, _ | ⟨thenBlock, others⟩⟩
      case cons.cons => exact hg _ (ht hi (forall_branches hm hb h))
      all_goals exact hg _ (ht hi h)
    case letStmt => exact hg _ (ht (hw _ List.mem_cons_self) (ht (hw _ (by simp [words])) h))
    case function name params _ =>
      have hp : ∀ d ∈ params.map word, P d := List.forall_mem_map.mpr fun p hp => hw p (by simp [words, hp])
      exact hg _ (ht (hw _ List.mem_cons_self) (ht (hw _ (by simp [words])) (List.forall_mem_cons.mpr ⟨hg _ hp, hl⟩)))
    all_goals exact hg _ (ht (hw _ List.mem_cons_self) h)

end

theorem tagged_frame {p q : Tag → Prop} (t : Tree) (h : ∀ d ∈ data, d.Tagged p q) :
    (t.frame .list .text data).Tagged p q :=
  forall_frame (fun _ => trivial) (fun _ _ => trivial) (fun items => (Datum.taggedAll_iff items).mpr) trivial
    (fun _ _ _ hd => ⟨trivial, hd, trivial⟩) h

section

variable {context : Option String} {items values : List Datum}

theorem normalAll_self (h : ∀ d ∈ items, d.normal context = .ok d) : Datum.normalAll context items = .ok items := by
  induction items
  case nil => rfl
  case cons d items hi =>
    rw [Datum.normalAll, h d List.mem_cons_self, hi fun e he => h e (List.mem_cons_of_mem d he)]
    rfl

theorem normalAll_text (w : String) (h : Datum.normalAll context items = .ok values) :
    Datum.normalAll context (.text w :: items) = .ok (.literal w :: values) := by
  rw [Datum.normalAll, h]
  rfl

theorem normalAll_texts (ws : List String) : Datum.normalAll context (ws.map .text) = .ok (ws.map .literal) := by
  induction ws
  case nil => rfl
  case cons w ws hi => exact normalAll_text w hi

theorem normalAll_list {inner inside : List Datum} (hi : Datum.normalAll context inner = .ok inside)
    (h : Datum.normalAll context items = .ok values) :
    Datum.normalAll context (.list inner :: items) = .ok (.group inside :: values) := by
  rw [Datum.normalAll, Datum.normal, hi, h]
  rfl

theorem normalize_list (h : Datum.normalAll context items = .ok values) :
    (Datum.list items).normalize context = .ok (.group values) := by
  rw [Datum.normalize_eq_normal, Datum.normal, h]
  rfl

end

theorem normalize_frame {context : Option String} (t : Tree) (h : ∀ d ∈ data, d.normal context = .ok d) :
    (t.frame .list .text data).normalize context = .ok (t.frame .group .literal data) := by
  have hm (m : Marker) : (Datum.marker m).normal context = .ok (.marker m) := rfl
  have hd := normalAll_self h
  have hl := normalAll_self (forall_indented hm (forall_onLines hm h))
  cases t
  case program => exact normalize_list (normalAll_text _ hl)
  case node n =>
    cases n
    case literal kind value => cases kind <;> rfl
    case nop | ident => rfl
    case block =>
      cases data
      case nil => exact normalize_list (normalAll_text _ hd)
      case cons => exact normalize_list (normalAll_text _ hl)
    case conditional =>
      rcases data with _ | ⟨condition, _ | ⟨thenBlock, others⟩⟩
      case cons.cons => exact normalize_list (normalAll_text _ (normalAll_self (forall_branches hm (fun _ _ _ _ => rfl) h)))
      all_goals exact normalize_list (normalAll_text _ hd)
    case letStmt => exact normalize_list (normalAll_text _ (normalAll_text _ hd))
    case function =>
      exact normalize_list (normalAll_text _ (normalAll_text _ (normalAll_list (normalAll_texts _) hl)))
    all_goals exact normalize_list (normalAll_text _ hd)

end

theorem isPartOf_parts (t : Tree) : ∀ n ∈ t.parts, n.toDatum.IsPartOf t.toDatum := by
  obtain ⟨asked, ha, _⟩ := t.planned
  intro n hn
  have hm : n.toDatum ∈ asked.map Subtype.val := ha ▸ List.mem_map_of_mem hn
  obtain ⟨part, _, he⟩ := List.mem_map.mp hm
  exact he ▸ part.2

theorem induct {motive : Tree → Prop} (step : ∀ t, (∀ n ∈ t.parts, motive (node n)) → motive t) (t : Tree) : motive t := by
  induction hs : t.toDatum.weight using Nat.strongRecOn generalizing t
  case ind k hi =>
    subst hs
    exact step t fun n hn => hi _ (t.isPartOf_parts n hn) (node n) rfl

-- The value of a tree: the values of its parts, in its frame.
def value (t : Tree) : Datum :=
  t.frame .group .literal (t.parts.attach.map fun n => (node n.1).value)
termination_by t.toDatum.weight
decreasing_by exact t.isPartOf_parts n.1 n.2

theorem value_eq (t : Tree) : t.value = t.frame .group .literal (t.parts.map fun n => (node n).value) := by
  rw [value, List.attach_map_val (f := fun n => (node n).value)]

end Tree

def IsTree (d : Datum) : Prop :=
  ∃ t : Tree, t.toDatum = d

theorem shift_frame (t : Tree) (tag : Nat) (data : List Datum) :
    (t.frame .list .text data).shift tag = t.frame .list .text (data.map (Datum.shift tag)) := by
  refine t.map_frame ?_ (fun _ => rfl) (fun _ => rfl) rfl (fun _ _ => rfl)
  intro items
  simp only [Datum.shift, Datum.replace, Datum.replaceAll_eq_map]

theorem plug_frame (t : Tree) (values data : List Datum) :
    (t.frame .group .literal data).plug values = t.frame .group .literal (data.map (Datum.plug values)) :=
  t.map_frame (Datum.plug_group values) (fun _ => rfl) (fun _ => rfl) rfl (fun _ _ => rfl)

-- Every handler of the class follows a recipe: its frame, with placeholders for the parts that it asks for.
theorem exists_recipe {o : Datum} (h : IsTree o) :
    ∃ name handler, DumperClass.model.handlerName? o.type = some name ∧
      DumperClass.model.handlers.lookup name = some handler ∧ ∃ r : Recipe o, r.Fits .model IsTree handler := by
  obtain ⟨t, ht⟩ := h
  subst ht
  obtain ⟨name, hn, hh⟩ := t.handlerName?_toDatum
  obtain ⟨asked, ha, hp⟩ := t.planned
  refine ⟨name, t.handler, hn, hh, ⟨asked, .ok (t.frame .list .text (Script.placeholders 0 asked.length))⟩, ?_, ?_, ?_⟩
  case refine_1 =>
    intro part hm
    have hv : part.1 ∈ t.parts.map Node.toDatum := ha ▸ List.mem_map_of_mem hm
    obtain ⟨n, _, he⟩ := List.mem_map.mp hv
    exact ⟨.node n, he⟩
  case refine_2 =>
    rintro _ ⟨⟩
    refine t.tagged_frame ?_
    simp [Script.placeholders, Datum.Tagged]
  case refine_3 =>
    intro tag
    rw [hp, Except.map, shift_frame, Script.map_shift_placeholders]

def cookbook : Cookbook .model :=
  .ofFits .model IsTree exists_recipe

theorem draft_toDatum (t : Tree) :
    ∃ asked : List { d : Datum // d.IsPartOf t.toDatum }, asked.map Subtype.val = t.parts.map Node.toDatum ∧
      cookbook.draft t.toDatum = .ok ⟨asked, t.frame .group .literal (Script.placeholders 0 asked.length)⟩ := by
  obtain ⟨name, hn, hh⟩ := t.handlerName?_toDatum
  obtain ⟨asked, ha, hp⟩ := t.planned
  refine ⟨asked, ha, Cookbook.draft_of_plan ⟨t, rfl⟩ hn hh (hp 0) fun context => t.normalize_frame ?_⟩
  simp [Script.placeholders, Datum.normal, Datum.normalLeaf]

theorem value_toDatum (t : Tree) : cookbook.value t.toDatum = .ok t.value := by
  induction t using Tree.induct
  case step t hi =>
    obtain ⟨asked, ha, hd⟩ := draft_toDatum t
    have hm : (asked.mapM fun part => cookbook.value part.1) = .ok (t.parts.map fun n => (Tree.node n).value) := by
      have he := List.mapM_map (f := Subtype.val) (g := cookbook.value) (l := asked)
      rw [ha, List.mapM_map] at he
      exact he.symm.trans (mapM_ok hi)
    have hl : asked.length = (t.parts.map fun n => (Tree.node n).value).length := by
      simpa using congrArg List.length ha
    rw [Cookbook.value_of_draft hd, hm, t.value_eq]
    show Except.ok (Datum.plug _ _) = _
    rw [plug_frame, hl, Script.map_plug_placeholders]

end Model

end ParenTree
