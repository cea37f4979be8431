import ParenTree.Dumper.Template
import ParenTree.Proofs.Dumper.Uniform

-- Handlers that are written as templates do not look at the numbers of their placeholders, and leave the depth alone unless
-- a part of the template says otherwise.

namespace ParenTree

namespace Datum

-- What is true of all texts, and of whatever a datum is made of if it is true of the datum.
structure Hereditary (p : Datum → Bool) : Prop where
  text : ∀ s, p (text s)
  list : ∀ {items}, p (list items) → ∀ d ∈ items, p d
  tuple : ∀ {items}, p (tuple items) → ∀ d ∈ items, p d
  node : ∀ {type fields}, p (node type fields) → ∀ field ∈ fields, p field.2

namespace Hereditary

variable {p : Datum → Bool} {o : Datum} (h : Hereditary p) (ho : p o)

include h ho

theorem field? {name : String} {d : { d : Datum // d.IsPartOf o }} (hd : o.field? name = some d) : p d.1 := by
  cases o
  case node type fields =>
    simp only [Datum.field?] at hd
    split at hd
    case h_1 hl =>
      cases hd
      exact h.node ho _ (mem_of_lookup hl)
    case h_2 => cases hd
  all_goals cases hd

theorem elements? {es : List { e : Datum // e.weight ≤ o.weight }} (he : o.elements? = some es) : ∀ e ∈ es, p e.1 := by
  cases o
  case list items =>
    cases he
    simp only [List.mem_map, List.mem_attach, true_and]
    rintro _ ⟨e, rfl⟩
    exact h.list ho e.1 e.2
  case tuple items =>
    cases he
    simp only [List.mem_map, List.mem_attach, true_and]
    rintro _ ⟨e, rfl⟩
    exact h.tuple ho e.1 e.2
  case text s =>
    cases he
    simp only [List.mem_map]
    rintro _ ⟨_, _, rfl⟩
    exact h.text _
  case dict =>
    cases he
    exact List.forall_mem_nil _
  all_goals cases he

theorem items? {items : List { d : Datum // d.IsPartOf o }} (hi : o.items? = some items) : ∀ d ∈ items, p d.1 := by
  cases o
  case list =>
    cases hi
    simp only [List.mem_map, List.mem_attach, true_and]
    rintro _ ⟨d, rfl⟩
    exact h.list ho d.1 d.2
  all_goals cases hi

end Hereditary

theorem fieldsForeign_iff {fields : List (String × Datum)} :
    fieldsForeign fields = true ↔ ∀ field ∈ fields, field.2.isForeign := by
  induction fields
  case nil => simp [fieldsForeign]
  case cons field fields hi =>
    obtain ⟨name, d⟩ := field
    rw [fieldsForeign, fieldForeign, Bool.and_eq_true, hi, List.forall_mem_cons]

theorem hereditary_isForeign : Hereditary isForeign where
  text _ := rfl
  list := allForeign_iff.mp
  tuple := allForeign_iff.mp
  node := fieldsForeign_iff.mp

end Datum

namespace Script

variable {o : Datum} {α β : Type} {k : Nat}

theorem Alike.bind {move : α → α} {move' : β → β} {s s' : Script o α} {f f' : α → Script o β} (hs : Alike k move s s')
    (hf : ∀ a, Alike k move' (f a) (f' (move a))) : Alike k move' (s.bind f) (s'.bind f') := by
  induction hs
  case done a => exact hf a
  case request hp _ hi => exact .request hp hi
  case dump hp _ hi => exact .dump hp hi
  case format hi => exact .format hi
  case isNop hi => exact .isNop hi
  case depth hi => exact .depth hi
  case setDepth hi => exact .setDepth hi

theorem Quiet.bind {s : Script o α} {f : α → Script o β} (hs : s.Quiet) (hf : ∀ a, (f a).Quiet) : (s.bind f).Quiet := by
  induction s
  case done a => exact hf a
  case request hi => exact fun tag => hi tag (hs tag)
  case isNop hi => exact fun b => hi b (hs b)
  case depth hi => exact fun n => hi n (hs n)
  case dump => cases hs
  case format => cases hs
  case setDepth => cases hs

end Script

namespace Action

variable {o : Datum} {α β : Type} {k : Nat}

-- Two courses of an action that end alike or fail alike.
def Alike (k : Nat) (move : α → α) (x x' : Action o α) : Prop :=
  Script.Alike k (Except.map move) x.run x'.run

def Quiet (x : Action o α) : Prop :=
  Script.Quiet x.run

namespace Alike

variable {move : α → α} {move' : β → β} {x x' y y' : Action o α} {f f' : α → Action o β}

theorem pure {a a' : α} (h : a' = move a) : Alike k move (pure a : Action o α) (Pure.pure a') :=
  h ▸ .done _

theorem throw (fault : Fault) : Alike k move (throw fault : Action o α) (MonadExcept.throw fault) :=
  .done _

theorem bind (hx : Alike k move x x') (hf : ∀ a, Alike k move' (f a) (f' (move a))) :
    Alike k move' (x >>= f) (x' >>= f') := by
  refine Script.Alike.bind hx ?_
  intro result
  cases result
  case error => exact .done _
  case ok a => exact hf a

theorem orElse (hx : Alike k move x x') (hy : Alike k move y y') : Alike k move (x.orElse y) (x'.orElse y') := by
  refine Script.Alike.bind hx ?_
  intro result
  cases result
  case ok a => exact .done _
  case error fault =>
    cases fault
    case dump => exact hy
    all_goals exact .done _

theorem lift (r : Except DumpFault α) : Alike k move (lift r : Action o α) (Action.lift (r.map move)) := by
  cases r <;> exact .done _

theorem child {part : { d : Datum // d.IsPartOf o }} (hp : part.1.isForeign) :
    Alike k (Datum.renumber k) (child part) (Action.child part) :=
  .request hp fun _ => .done _

theorem mapM_child {parts : List { d : Datum // d.IsPartOf o }} (hp : ∀ part ∈ parts, part.1.isForeign) :
    Alike k (List.map (Datum.renumber k)) (parts.mapM Action.child) (parts.mapM Action.child) := by
  have hl (sofar : List Datum) : Alike k (List.map (Datum.renumber k)) (List.mapM.loop Action.child parts sofar)
      (List.mapM.loop Action.child parts (sofar.map (Datum.renumber k))) := by
    induction parts generalizing sofar
    case nil =>
      rw [List.mapM.loop, List.mapM.loop]
      exact pure List.map_reverse.symm
    case cons part parts hi =>
      obtain ⟨hp, hs⟩ := List.forall_mem_cons.mp hp
      exact bind (child hp) fun d => hi hs (d :: sofar)
  exact hl []

theorem dump {part : { d : Datum // d.IsPartOf o }} (hp : part.1.isForeign) :
    Alike k id (Action.dump part) (Action.dump part) :=
  Script.Alike.dump hp fun text => by cases text <;> exact .done _

theorem format (value : Datum) : Alike k id (Action.format value : Action o String) (Action.format (value.renumber k)) :=
  Script.Alike.format fun text => by cases text <;> exact .done _

theorem isNop {d : Datum} (hd : d.isForeign) : Alike k id (Action.isNop d : Action o Bool) (Action.isNop d) := by
  have hs : Alike k id (Action.isNop d : Action o Bool) (Action.isNop (d.renumber k)) := Script.Alike.isNop fun _ => .done _
  rwa [Datum.renumber_of_isForeign k hd] at hs

theorem depth : Alike k id (Action.depth : Action o Int) Action.depth :=
  Script.Alike.depth fun _ => .done _

theorem setDepth (n : Int) : Alike k id (Action.setDepth n : Action o Unit) (Action.setDepth n) :=
  Script.Alike.setDepth (.done _)

-- A field of a node from outside comes from outside, and so does all that it goes through.
theorem field (ho : o.isForeign) {name : String} {f f' : { d : Datum // d.IsPartOf o } → Action o β}
    (hf : ∀ d, d.1.isForeign → Alike k move' (f d) (f' d)) :
    Alike k move' (Action.field name >>= f) (Action.field name >>= f') := by
  rw [Action.field]
  split
  case h_1 d hd => exact hf d (Datum.hereditary_isForeign.field? ho hd)
  case h_2 => exact .done _

theorem elements (ho : o.isForeign) {name : String} {f f' : List { d : Datum // d.IsPartOf o } → Action o β}
    (hf : ∀ es, (∀ e ∈ es, e.1.isForeign) → Alike k move' (f es) (f' es)) :
    Alike k move' (Action.elements name >>= f) (Action.elements name >>= f') := by
  rw [Action.elements, Action.field]
  split
  case h_2 => exact .done _
  case h_1 d hd =>
    rw [pure_bind]
    split
    case h_2 => exact .done _
    case h_1 es he =>
      refine hf (es.map fun e => ⟨e.1, Nat.lt_of_le_of_lt e.2 d.2⟩) ?_
      have hs := Datum.hereditary_isForeign.elements? (Datum.hereditary_isForeign.field? ho hd) he
      simp only [List.mem_map]
      rintro _ ⟨e, hm, rfl⟩
      exact hs e hm

end Alike

namespace Quiet

variable {x y : Action o α}

theorem bind {f : α → Action o β} (hx : Quiet x) (hf : ∀ a, Quiet (f a)) : Quiet (x >>= f) := by
  refine Script.Quiet.bind hx ?_
  intro result
  cases result
  case error => trivial
  case ok a => exact hf a

theorem orElse (hx : Quiet x) (hy : Quiet y) : Quiet (x.orElse y) := by
  refine Script.Quiet.bind hx ?_
  intro result
  cases result
  case ok => trivial
  case error fault =>
    cases fault
    case dump => exact hy
    all_goals trivial

theorem lift (r : Except DumpFault α) : Quiet (Action.lift r : Action o α) := by
  cases r <;> trivial

theorem mapM_child (parts : List { d : Datum // d.IsPartOf o }) : Quiet (parts.mapM Action.child) := by
  have hl (sofar : List Datum) : Quiet (List.mapM.loop Action.child parts sofar) := by
    induction parts generalizing sofar
    case nil => trivial
    case cons part parts hi => exact fun tag => hi (.unfilled (.asked tag) :: sofar)
  exact hl []

theorem field (name : String) : Quiet (Action.field name : Action o { d : Datum // d.IsPartOf o }) := by
  rw [Action.field]
  split <;> trivial

theorem elements (name : String) : Quiet (Action.elements name : Action o (List { d : Datum // d.IsPartOf o })) := by
  refine bind (field name) fun d => ?_
  split <;> trivial

end Quiet

end Action

namespace Template

mutual

-- All templates inside a template, itself included, satisfy `p`.
def every (p : Template → Bool) : Template → Bool
  | list items => p (list items) && everyItem p items
  | tuple items => p (tuple items) && everyItem p items
  | group items => p (group items) && everyItem p items
  | grouped items => p (grouped items) && everyItem p items
  | placeholder tag content => p (placeholder tag content) && content.every p
  | nest times wrapping inner => p (nest times wrapping inner) && inner.every p
  | format inner => p (format inner) && inner.every p
  | sequence steps => p (sequence steps) && everyItem p steps
  | ifNop name yes no => p (ifNop name yes no) && yes.every p && no.every p
  | attempt first rescue => p (attempt first rescue) && first.every p && rescue.every p
  | t => p t

def everyItem (p : Template → Bool) : List Template → Bool
  | [] => true
  | t :: ts => t.every p && everyItem p ts

end

-- What a template holds, apart from the templates inside it, comes from outside.
def holdsForeign : Template → Bool
  | value d => d.isForeign
  | placeholder (.asked _) _ | nest _ (.placeholder (.asked _)) _ => false
  | _ => true

def isForeign : Template → Bool :=
  every holdsForeign

def keepsQuiet : Template → Bool
  | dump _ | format _ | setDepth _ => false
  | _ => true

def isQuiet : Template → Bool :=
  every keepsQuiet

variable {o : Datum} {k : Nat}

theorem renumber_hold (n : Nat) (d : Datum) :
    (Datum.hold (.given n) d).renumber k = .hold (.given n) (d.renumber k) := by
  cases d <;> rfl

theorem renumber_wrap {wrapping : Wrapping} (hw : ∀ n, wrapping ≠ .placeholder (.asked n)) (times : Nat) (d : Datum) :
    (wrap wrapping times d).renumber k = wrap wrapping times (d.renumber k) := by
  have ha (d : Datum) : (wrapping.apply d).renumber k = wrapping.apply (d.renumber k) := by
    cases wrapping
    case placeholder tag =>
      cases tag
      case asked n => exact absurd rfl (hw n)
      case given n => exact renumber_hold n d
    all_goals rfl
  induction times generalizing d
  case zero => rfl
  case succ times hi => rw [wrap, wrap, hi, ha]

theorem alike_childOf (ho : o.isForeign) (name : String) :
    Action.Alike k (Datum.renumber k) (childOf o name) (childOf o name) :=
  .field ho fun _ hd => .child hd

theorem alike_eval (ho : o.isForeign) (t : Template) (ht : t.isForeign) :
    Action.Alike k (Datum.renumber k) (t.eval o) (t.eval o) := by
  revert ht
  -- Lists of templates have a motive of their own: they may be items, or steps of which the last one counts.
  refine @Template.rec (fun t => t.every holdsForeign → Action.Alike k (Datum.renumber k) (t.eval o) (t.eval o))
    (fun ts => everyItem holdsForeign ts →
      Action.Alike k (List.map (Datum.renumber k)) (evalItems o ts) (evalItems o ts) ∧
      ∀ last, Action.Alike k (Datum.renumber k) (evalLast o last ts) (evalLast o (last.renumber k) ts))
    ?value ?list ?tuple ?group ?grouped ?placeholder ?nest ?child ?twice ?each ?dump ?field ?self ?typeName ?indent
    ?setDepth ?format ?sequence ?ifNop ?raise ?attempt ?unknown ?nil ?cons t
  case value => exact fun d hd => .pure (Datum.renumber_of_isForeign k hd).symm
  case list => exact fun items hi h => .bind (hi h).left fun ds => .pure (Datum.renumber_list k ds).symm
  case tuple => exact fun items hi h => .bind (hi h).left fun ds => .pure (Datum.renumber_tuple k ds).symm
  case group => exact fun items hi h => .bind (hi h).left fun ds => .pure (Datum.renumber_group k ds).symm
  case grouped =>
    intro items hi h
    refine .bind (hi h).left fun ds => ?_
    rw [Datum.grouped, Datum.grouped, ← Datum.renumber_tuple, Datum.normalize_renumber]
    exact .lift _
  case placeholder =>
    intro tag content hi h
    cases tag
    case asked => cases h
    case given n => exact .bind (hi h) fun d => .pure (renumber_hold n d).symm
  case nest =>
    intro times wrapping inner hi h
    obtain ⟨hw, hn⟩ := Bool.and_eq_true_iff.mp h
    refine .bind (hi hn) fun d => .pure (renumber_wrap ?_ times d).symm
    rintro n rfl
    cases hw
  case child => exact fun name _ => alike_childOf ho name
  case twice => exact fun name _ => .bind (alike_childOf ho name) fun d => .pure (Datum.renumber_list k [d, d]).symm
  case each => exact fun _ _ => .throw _
  case dump => exact fun name _ => .field ho fun d hd => .bind (.dump hd) fun _ => .pure rfl
  case field => exact fun name _ => .field ho fun d hd => .pure (Datum.renumber_of_isForeign k hd).symm
  case self => exact fun _ => .pure (Datum.renumber_of_isForeign k ho).symm
  case typeName => exact fun _ => .pure rfl
  case indent => exact fun _ => .bind .depth fun _ => .pure rfl
  case setDepth => exact fun n _ => .bind (.setDepth n) fun _ => .pure rfl
  case format =>
    intro inner hi h
    refine .bind (hi h) fun d => ?_
    rw [Datum.normalize_renumber]
    exact .bind (.lift _) fun d => .bind (.format d) fun _ => .pure rfl
  case sequence => exact fun steps hi h => (hi h).right .null
  case ifNop =>
    intro name yes no hy hn h
    obtain ⟨⟨_, h₁⟩, h₂⟩ : (_ ∧ _) ∧ _ := by simpa only [every, Bool.and_eq_true] using h
    refine .field ho fun d hd => .bind (.isNop hd) fun b => ?_
    cases b
    case true => exact hy h₁
    case false => exact hn h₂
  case raise => exact fun _ _ => .throw _
  case attempt =>
    intro first rescue hf hr h
    obtain ⟨⟨_, h₁⟩, h₂⟩ : (_ ∧ _) ∧ _ := by simpa only [every, Bool.and_eq_true] using h
    exact .orElse (hf h₁) (hr h₂)
  case unknown => exact fun _ _ => .throw _
  case nil => exact fun _ => ⟨.pure rfl, fun last => .pure rfl⟩
  case cons =>
    intro t ts ht hts h
    obtain ⟨h₁, h₂⟩ := Bool.and_eq_true_iff.mp h
    refine ⟨?_, fun last => .bind (ht h₁) fun d => (hts h₂).right d⟩
    cases t
    case each name =>
      exact .elements ho fun es he => .bind (.mapM_child he) fun ds => .bind (hts h₂).left fun _ => .pure List.map_append.symm
    all_goals exact .bind (ht h₁) fun d => .bind (hts h₂).left fun ds => .pure rfl

theorem uniform_handler {t : Template} (ht : t.isForeign) : t.handler.Uniform :=
  fun _ ho _ => alike_eval ho t ht

theorem quiet_childOf (name : String) : Action.Quiet (childOf o name) :=
  .bind (.field name) fun _ _ => trivial

theorem quiet_eval (t : Template) (ht : t.isQuiet) : Action.Quiet (t.eval o) := by
  revert ht
  refine @Template.rec (fun t => t.every keepsQuiet → Action.Quiet (t.eval o))
    (fun ts => everyItem keepsQuiet ts → Action.Quiet (evalItems o ts) ∧ ∀ last, Action.Quiet (evalLast o last ts))
    ?value ?list ?tuple ?group ?grouped ?placeholder ?nest ?child ?twice ?each ?dump ?field ?self ?typeName ?indent
    ?setDepth ?format ?sequence ?ifNop ?raise ?attempt ?unknown ?nil ?cons t
  case value => exact fun _ _ => trivial
  case list | tuple | group => exact fun _ hi h => .bind (hi h).left fun _ => trivial
  case grouped => exact fun _ hi h => .bind (hi h).left fun _ => .lift _
  case placeholder => exact fun _ _ hi h => .bind (hi h) fun _ => trivial
  case nest => exact fun _ _ _ hi h => .bind (hi h) fun _ => trivial
  case child => exact fun name _ => quiet_childOf name
  case twice => exact fun name _ => .bind (quiet_childOf name) fun _ => trivial
  case dump => exact fun _ h => by cases h
  case field => exact fun name _ => .bind (.field name) fun _ => trivial
  case indent => exact fun _ => fun _ => trivial
  case setDepth => exact fun _ h => by cases h
  case format => exact fun _ _ h => by cases h
  case sequence => exact fun _ hi h => (hi h).right .null
  case ifNop =>
    intro name yes no hy hn h
    obtain ⟨⟨_, h₁⟩, h₂⟩ : (_ ∧ _) ∧ _ := by simpa only [every, Bool.and_eq_true] using h
    refine .bind (.field name) fun d => .bind (fun _ => trivial) fun b => ?_
    cases b
    case true => exact hy h₁
    case false => exact hn h₂
  case attempt =>
    intro first rescue hf hr h
    obtain ⟨⟨_, h₁⟩, h₂⟩ : (_ ∧ _) ∧ _ := by simpa only [every, Bool.and_eq_true] using h
    exact .orElse (hf h₁) (hr h₂)
  case each | raise | unknown => exact fun _ _ => trivial
  case self | typeName => exact fun _ => trivial
  case nil => exact fun _ => ⟨trivial, fun _ => trivial⟩
  case cons =>
    intro t ts ht hts h
    obtain ⟨h₁, h₂⟩ := Bool.and_eq_true_iff.mp h
    refine ⟨?_, fun last => .bind (ht h₁) fun d => (hts h₂).right d⟩
    cases t
    case each name =>
      exact .bind (.elements name) fun es => .bind (.mapM_child es) fun _ => .bind (hts h₂).left fun _ => trivial
    all_goals exact .bind (ht h₁) fun _ => .bind (hts h₂).left fun _ => trivial

theorem quiet_handler {t : Template} (ht : t.isQuiet) : t.handler.Quiet :=
  fun _ => quiet_eval t ht

end Template

end ParenTree
