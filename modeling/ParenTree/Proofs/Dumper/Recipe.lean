import ParenTree.Proofs.Dumper.Course
import ParenTree.Proofs.Dumper.Placeholder
import ParenTree.Proofs.Steps

-- Handlers that are functions of their node, the recursive value of a node under them, and the order of their calls.

namespace ParenTree

-- What a handler does for a node: the parts that it asks for, one after the other, and what it returns. Its placeholders
-- are numbered from zero in that order.
structure Recipe (o : Datum) where
  parts : List { d : Datum // d.IsPartOf o }
  result : Except Fault Datum

namespace Script

variable {o : Datum} {α : Type}

theorem bind_assoc {β γ : Type} (s : Script o α) (f : α → Script o β) (g : β → Script o γ) :
    (s.bind f).bind g = s.bind fun a => (f a).bind g := by
  induction s
  case done => rfl
  case setDepth hi => rw [bind, bind, bind, hi]
  all_goals simp only [bind, *]

theorem bind_done (s : Script o α) : s.bind done = s := by
  induction s
  case done => rfl
  all_goals simp only [bind, *]

instance : LawfulMonad (Script o) :=
  LawfulMonad.mk' (Script o) bind_done (fun _ _ => rfl) bind_assoc

-- The parts that a script asks for and its result, if it does nothing but ask. The first placeholder gets the given tag.
def plan (nop : Datum → Bool) : Script o α → Nat → Option (List { d : Datum // d.IsPartOf o } × α)
  | done a, _ => some ([], a)
  | request part isPart next, tag =>
    ((next tag).plan nop (tag + 1)).map fun (parts, a) => (⟨part, isPart⟩ :: parts, a)
  | isNop d next, tag => (next (nop d)).plan nop tag
  | _, _ => none

end Script

-- Recipes that the handlers of a class follow on certain trees: a handler has placeholders only for what it has asked for
-- itself, and does the same whatever their tags are.
structure Cookbook (c : DumperClass) where
  Tree : Datum → Prop
  recipe : (o : Datum) → Recipe o
  tree_of_part : ∀ {o}, Tree o → ∀ part ∈ (recipe o).parts, Tree part.1
  refers : ∀ {o d}, Tree o → (recipe o).result = .ok d → d.Refers (recipe o).parts.length
  follows : ∀ {o name handler}, Tree o → c.handlerName? o.type = some name → c.handlers.lookup name = some handler →
    ∀ tag, Script.plan c.isNop (handler o).run tag = some ((recipe o).parts, (recipe o).result.map (Datum.shift tag))

-- The recipe that the handler of a node shows by what it does; an empty one, if it does more than ask.
def Recipe.shown (c : DumperClass) (o : Datum) : Recipe o :=
  match (c.handlerName? o.type).bind fun name => c.handlers.lookup name with
  | none => ⟨[], .error (.raised "")⟩
  | some handler =>
    match Script.plan c.isNop (handler o).run 0 with
    | none => ⟨[], .error (.raised "")⟩
    | some (parts, result) => ⟨parts, result⟩

-- A recipe that a handler follows on a tree and that leads to trees only.
structure Recipe.Fits (c : DumperClass) (Tree : Datum → Prop) {o : Datum} (r : Recipe o) (handler : Handler) : Prop where
  trees : ∀ part ∈ r.parts, Tree part.1
  refers : ∀ {d}, r.result = .ok d → d.Refers r.parts.length
  follows : ∀ tag, Script.plan c.isNop (handler o).run tag = some (r.parts, r.result.map (Datum.shift tag))

theorem Recipe.shown_eq {c : DumperClass} {Tree : Datum → Prop} {o : Datum} {name : String} {handler : Handler}
    {r : Recipe o} (hn : c.handlerName? o.type = some name) (hh : c.handlers.lookup name = some handler)
    (hr : r.Fits c Tree handler) : Recipe.shown c o = r := by
  have hs : r.result.map (Datum.shift 0) = r.result := by
    cases r.result <;> simp [Except.map, Datum.shift_zero]
  simp only [Recipe.shown, hn, Option.bind_some, hh, hr.follows 0, hs]

-- A class whose handlers follow recipes has a cookbook.
def Cookbook.ofFits (c : DumperClass) (Tree : Datum → Prop)
    (handled : ∀ {o}, Tree o → ∃ name handler, c.handlerName? o.type = some name ∧
      c.handlers.lookup name = some handler ∧ ∃ r : Recipe o, r.Fits c Tree handler) : Cookbook c where
  Tree := Tree
  recipe := Recipe.shown c
  tree_of_part ht := by
    obtain ⟨_, _, hn, hh, r, hr⟩ := handled ht
    rw [Recipe.shown_eq hn hh hr]
    exact hr.trees
  refers ht := by
    obtain ⟨_, _, hn, hh, r, hr⟩ := handled ht
    rw [Recipe.shown_eq hn hh hr]
    exact hr.refers
  follows ht hn hh := by
    obtain ⟨_, _, hn', hh', r, hr⟩ := handled ht
    cases hn.symm.trans hn'
    cases hh.symm.trans hh'
    rw [Recipe.shown_eq hn hh hr]
    exact hr.follows

-- The normal value of a node in which its parts are left open.
structure Draft (o : Datum) where
  parts : List { d : Datum // d.IsPartOf o }
  value : Datum

namespace Cookbook

variable {c : DumperClass}

-- The search for a handler, its call and the normalization of its result, on their own.
def draft (b : Cookbook c) (node : Datum) : Except Fault (Draft node) :=
  match c.handlerName? node.type with
  | none => .error (.dump (.noHandler c.name node.typeName "dump"))
  | some _ =>
    match (b.recipe node).result with
    | .error fault => .error fault
    | .ok result =>
      match result.normalize (some (c.name ++ "." ++ "dump" ++ "_" ++ node.typeName)) with
      | .error fault => .error (.dump fault)
      | .ok value => .ok ⟨(b.recipe node).parts, value⟩

-- The value of a node, with the values of its parts in it.
def value (b : Cookbook c) (node : Datum) : Except Fault Datum :=
  match b.draft node with
  | .error fault => .error fault
  | .ok draft => do
    let values ← draft.parts.mapM fun part => b.value part.1
    return draft.value.plug values
termination_by node.weight
decreasing_by exact part.2

-- A node and all below it that is asked for, depth first.
def preorder (b : Cookbook c) (node : Datum) : List Datum :=
  node ::
    match b.draft node with
    | .error _ => []
    | .ok draft => draft.parts.flatMap fun part => b.preorder part.1
termination_by node.weight
decreasing_by exact part.2

section

variable {b : Cookbook c} {node : Datum} {draft : Draft node}

theorem recipe_of_draft (h : b.draft node = .ok draft) :
    draft.parts = (b.recipe node).parts ∧ ∃ result context, (b.recipe node).result = .ok result ∧
      result.normalize context = .ok draft.value := by
  simp only [Cookbook.draft] at h
  split at h
  case h_1 => cases h
  case h_2 =>
    split at h
    case h_1 => cases h
    case h_2 result hr =>
      split at h
      case h_1 => cases h
      case h_2 hv =>
        cases h
        exact ⟨rfl, result, _, hr, hv⟩

-- The draft of a node whose handler shows its plan.
theorem draft_of_plan {name : String} {handler : Handler} {parts : List { d : Datum // d.IsPartOf node }}
    {result value : Datum} (ht : b.Tree node) (hn : c.handlerName? node.type = some name)
    (hh : c.handlers.lookup name = some handler)
    (hp : Script.plan c.isNop (handler node).run 0 = some (parts, .ok result))
    (hv : ∀ context, result.normalize context = .ok value) : b.draft node = .ok ⟨parts, value⟩ := by
  have hf := (b.follows ht hn hh 0).symm.trans hp
  have hs : (b.recipe node).parts = parts ∧ (b.recipe node).result.map (Datum.shift 0) = .ok result := by
    simpa using hf
  have hr : (b.recipe node).result = .ok result := by
    cases he : (b.recipe node).result
    case error =>
      rw [he] at hs
      cases hs.right
    case ok d =>
      rw [he] at hs
      simpa [Except.map, Datum.shift_zero] using hs.right
  simp only [Cookbook.draft, hn, hr, hv, hs.left]

theorem refers_of_draft (h : b.draft node = .ok draft) (ht : b.Tree node) : draft.value.Refers draft.parts.length := by
  obtain ⟨hp, result, _, hr, hv⟩ := recipe_of_draft h
  rw [hp]
  exact (b.refers ht hr).normalize hv

theorem tree_of_draft (h : b.draft node = .ok draft) (ht : b.Tree node) : ∀ part ∈ draft.parts, b.Tree part.1 := by
  rw [(recipe_of_draft h).left]
  exact b.tree_of_part ht

theorem value_of_draft (h : b.draft node = .ok draft) :
    b.value node = (do return draft.value.plug (← draft.parts.mapM fun part => b.value part.1)) := by
  rw [value, h]

theorem preorder_of_draft (h : b.draft node = .ok draft) :
    b.preorder node = node :: draft.parts.flatMap fun part => b.preorder part.1 := by
  rw [preorder, h]

theorem preorder_of_error {fault : Fault} (h : b.draft node = .error fault) : b.preorder node = [node] := by
  rw [preorder, h]

-- A value can only be there if nothing below the node fails.
theorem drafted_of_value {node v : Datum} (h : b.value node = .ok v) : ∀ n ∈ b.preorder node, (b.draft n).isOk := by
  induction hw : node.weight using Nat.strongRecOn generalizing node v
  case ind w hi =>
    subst hw
    cases hd : b.draft node
    case error =>
      rw [value, hd] at h
      cases h
    case ok draft =>
      rw [value_of_draft hd] at h
      rw [preorder_of_draft hd]
      intro n hn
      cases hn
      case head => rw [hd]; rfl
      case tail hn =>
        obtain ⟨part, hp, hn⟩ := List.mem_flatMap.mp hn
        cases hm : draft.parts.mapM fun part => b.value part.1
        case error =>
          rw [hm] at h
          cases h
        case ok values =>
          obtain ⟨v, hv⟩ := ok_of_mapM hm part hp
          exact hi _ part.2 hv rfl n hn

end

end Cookbook

namespace Dumper

-- Requests for data, with tags that go up from `base`.
def numbered (base : Nat) : List Datum → List Request
  | [] => []
  | d :: ds => ⟨base, d⟩ :: numbered (base + 1) ds

section

variable {o : Datum} {α : Type} {nested : (part : Datum) → part.IsPartOf o → Nested (Except Fault String)}
  {s : Script o α} {d : Dumper} {parts : List { d : Datum // d.IsPartOf o }} {a : α}

-- The dumper once a handler has asked for some data.
def askAll (d : Dumper) (data : List Datum) : Dumper :=
  data.foldl ask d

theorem run_plan (hr : ∀ r ∈ d.requests, r.node.IsPartOf o) (hp : s.plan d.cls.isNop d.nextTag = some (parts, a)) :
    (run nested s d hr).result = a ∧ (run nested s d hr).dumper = d.askAll (parts.map Subtype.val) := by
  induction s generalizing d parts
  case done =>
    cases hp
    exact ⟨rfl, rfl⟩
  case request part isPart next hi =>
    simp only [Script.plan, Option.map_eq_some_iff] at hp
    obtain ⟨⟨others, a⟩, ho, he⟩ := hp
    cases he
    exact hi d.nextTag (requests_ask isPart hr) ho
  case isNop x next hi => exact hi _ hr hp
  all_goals cases hp

theorem attend_plan {handler : Handler} {a : Except Fault Datum}
    (hp : Script.plan d.cls.isNop (handler o).run d.nextTag = some (parts, a)) :
    (d.attend handler o).result = a ∧ (d.attend handler o).dumper = d.listening.askAll (parts.map Subtype.val) :=
  run_plan (d := d.listening) _ hp

end

section

variable {d : Dumper}

theorem nextTag_askAll (data : List Datum) : (d.askAll data).nextTag = d.nextTag + data.length := by
  induction data generalizing d
  case nil => rfl
  case cons node data hi =>
    simp only [askAll, List.foldl_cons] at hi ⊢
    simp only [hi, ask, List.length_cons]
    omega

theorem depth_askAll (data : List Datum) : (d.askAll data).depth = d.depth := by
  induction data generalizing d
  case nil => rfl
  case cons node data hi => exact hi

theorem requests_askAll (hd : d.pending.isSome) (data : List Datum) :
    (d.askAll data).requests = d.requests ++ numbered d.nextTag data := by
  induction data generalizing d
  case nil => simp [askAll, numbered]
  case cons node data hi =>
    obtain ⟨asked, ha⟩ := Option.isSome_iff_exists.mp hd
    simp only [askAll, List.foldl_cons] at hi ⊢
    rw [hi (by simp [ask, ha])]
    simp [requests, ask, ha, numbered]

theorem Steady.after_askAll {c : DumperClass} (h : Steady c d) (data : List Datum) : Steady c (d.askAll data) := by
  induction data generalizing d
  case nil => exact h
  case cons node data hi => exact hi (h.congr rfl rfl)

end

theorem Steady.context {c : DumperClass} {d : Dumper} (h : Steady c d) (node : Datum) :
    d.context node = c.name ++ "." ++ "dump" ++ "_" ++ node.typeName := by
  rw [Dumper.context, h.cls, h.verb]

section

variable {c : DumperClass} {b : Cookbook c} {d : Dumper} {node : Datum}

-- A call gives the draft of the node, with fresh tags, and asks for its parts.
theorem handle_draft (h : Steady c d) (ht : b.Tree node) :
    (d.handle node).1 = (b.draft node).map (fun draft => draft.value.shift d.nextTag) ∧
      Steady c (d.handle node).2 ∧
      ∀ draft, b.draft node = .ok draft →
        (d.handle node).2.requests = numbered d.nextTag (draft.parts.map Subtype.val) ∧
          (d.handle node).2.nextTag = d.nextTag + draft.parts.length ∧ (d.handle node).2.depth = d.depth := by
  cases hn : c.handlerName? node.type
  case none => simp [handle, h.route_none hn, Cookbook.draft, hn, Except.map, h]
  case some name =>
    obtain ⟨handler, e, hh, hr, he, hk, hz⟩ := h.route_some hn
    have hp : Script.plan e.cls.isNop (handler node).run e.nextTag =
        some ((b.recipe node).parts, (b.recipe node).result.map (Datum.shift e.nextTag)) := by
      rw [he.cls]
      exact b.follows ht hn hh e.nextTag
    obtain ⟨hs, hd⟩ := attend_plan hp
    have hl : Steady c e.listening := he.congr rfl rfl
    have hf := hl.after_askAll ((b.recipe node).parts.map Subtype.val)
    simp only [handle, hr, Cookbook.draft, hn]
    generalize e.attend handler node = ran at hs hd
    obtain ⟨result, _, _⟩ := ran
    subst hs hd
    cases (b.recipe node).result
    case error => exact ⟨rfl, hf, fun _ he => by cases he⟩
    case ok result =>
      simp only [Except.map, hf.context, Datum.normalize_shift]
      cases result.normalize _
      case error => exact ⟨rfl, hf, fun _ he => by cases he⟩
      case ok value =>
        refine ⟨by rw [← hk]; rfl, hf, ?_⟩
        rintro _ ⟨⟩
        refine ⟨?_, ?_, ?_⟩
        case refine_1 =>
          rw [← hk]
          exact requests_askAll rfl _
        case refine_2 => simp [nextTag_askAll, listening, hk]
        case refine_3 => simp [depth_askAll, listening, hz]

end

end Dumper
end ParenTree
