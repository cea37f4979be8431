import ParenTree.Proofs.Dispatch.Visit

-- As long as receivers are as their classes make them, the names that a visitor remembers are the ones it would find again,
-- so that every visit goes as it would with a new visitor.

namespace ParenTree

namespace Visitor

variable {α : Type} {v : Visitor} {r : Receiver} {node : Datum} {args : List α} {name : String}

-- What a visit gives if nothing is remembered. A handler is called on the receiver of the visit and for its node.
inductive Routes (v : Visitor) (r : Receiver) (node : Datum) (args : List α) : Except Fault (Call α) → Prop
  | refused : ¬v.Admits args.length →
    Routes v r node args (.error (.dump (.arity r.blueprint.cls.name args.length v.minArgs v.maxArgs)))
  | handled {name owner : String} : v.Admits args.length → v.Nearest r.callable node.type name →
    r.member? name = some (.handler owner) → Routes v r node args (.ok ⟨r.id, owner, name, node, args⟩)
  | unhandled : v.Admits args.length → (∀ t ∈ node.type.lineage, r.callable (v.handlerName t) = false) →
    Routes v r node args (.error (.dump (.noHandler r.blueprint.cls.name node.type.name v.verb)))

-- The same visitor with nothing remembered.
def forget (v : Visitor) : Visitor :=
  .new v.verb v.minArgs v.maxArgs

theorem exists_owner (h : r.callable name = true) : ∃ owner, r.member? name = some (.handler owner) := by
  rw [Receiver.callable] at h
  cases hm : r.member? name
  case none => simp [hm] at h
  case some member =>
    cases member
    case handler owner => exact ⟨owner, rfl⟩
    case constant => simp [hm, Member.isCallable] at h

theorem Nearest.callable (h : v.Nearest r.callable node.type name) : r.callable name = true := by
  obtain ⟨_, _, hc⟩ := h
  exact hc

theorem call_of_nearest (h : v.Nearest r.callable node.type name) :
    ∃ owner, r.member? name = some (.handler owner) ∧ call r name node args = .ok ⟨r.id, owner, name, node, args⟩ := by
  obtain ⟨owner, hm⟩ := exists_owner h.callable
  exact ⟨owner, hm, by rw [call, hm]⟩

theorem routes_forget (v : Visitor) (r : Receiver) (node : Datum) (args : List α) :
    v.forget.Routes r node args (v.forget.visit r node args).1 := by
  obtain ⟨_, _, he, hv⟩ := v.forget.exists_visited r node args
  rw [he]
  cases hv
  case refused ha => exact .refused ha
  case known hc => cases hc
  case found ha _ hn =>
    obtain ⟨owner, hm, hc⟩ := call_of_nearest hn
    rw [hc]
    exact .handled ha hn hm
  case unhandled ha _ hl => exact .unhandled ha hl

-- A name that is remembered and would be found again might as well be forgotten.
theorem visit_forget
    (h : ∀ {name}, v.cached? r.blueprint.cls node.type = some name → v.lookup? r.callable node.type = some name) :
    (v.visit r node args).1 = (v.forget.visit r node args).1 := by
  have hf : v.forget.cached? r.blueprint.cls node.type = none := rfl
  have hl : v.forget.lookup? r.callable node.type = v.lookup? r.callable node.type := rfl
  have ha : v.forget.checkArity r.blueprint.cls.name args.length = v.checkArity r.blueprint.cls.name args.length := rfl
  simp only [visit, resolve, hf, hl, ha]
  cases v.checkArity r.blueprint.cls.name args.length
  case error => rfl
  case ok =>
    cases hc : v.cached? r.blueprint.cls node.type
    case some name => simp only [h hc]
    case none => cases v.lookup? r.callable node.type <;> rfl

theorem forget_visit (v : Visitor) (r : Receiver) (node : Datum) (args : List α) :
    (v.visit r node args).2.forget = v.forget := by
  obtain ⟨_, _, he, hv⟩ := v.exists_visited r node args
  rw [he]
  cases hv <;> rfl

theorem lookup?_visit (v : Visitor) (r : Receiver) (node : Datum) (args : List α) :
    (v.visit r node args).2.lookup? = v.lookup? := by
  obtain ⟨_, _, he, hv⟩ := v.exists_visited r node args
  rw [he]
  cases hv <;> rfl

-- What is remembered after a visit was so before, or it has just been found.
theorem cached?_visit {cls : ReceiverClass} {other : NodeType}
    (h : (v.visit r node args).2.cached? cls other = some name) :
    v.cached? cls other = some name ∨
      cls.id = r.blueprint.cls.id ∧ other = node.type ∧ v.lookup? r.callable node.type = some name := by
  obtain ⟨_, _, he, hv⟩ := v.exists_visited r node args
  rw [he] at h
  cases hv
  case refused => exact .inl h
  case known => exact .inl h
  case unhandled => exact .inl h
  case found hn =>
    simp only [cached?, remember, List.lookup_cons] at h
    split at h
    case h_2 => exact .inl h
    case h_1 hk =>
      cases h
      simp only [beq_iff_eq, Occasion.mk.injEq] at hk
      exact .inr ⟨hk.left, hk.right, lookup?_eq_some_iff.mpr hn⟩

end Visitor

namespace Dispatch

-- Classes that have been declared one after the other.
inductive Blueprints.Declared : Blueprints → Prop
  | nil : Declared []
  | declare {known : Blueprints} (name : String) (bases handlers : List String) (constants : List (String × String)) :
    Declared known → Declared (known.declare name bases handlers constants)

section

variable {known : Blueprints} {entry other : String × Blueprint}

theorem Blueprints.Declared.id_lt (h : known.Declared) (he : entry ∈ known) : entry.2.cls.id < known.length := by
  induction h
  case nil => cases he
  case declare known _ _ _ _ _ hi =>
    cases he
    case head => exact Nat.lt_succ_self known.length
    case tail he => exact Nat.lt_succ_of_lt (hi he)

theorem Blueprints.Declared.blueprint_eq (h : known.Declared) (he : entry ∈ known) (ho : other ∈ known)
    (hi : entry.2.cls.id = other.2.cls.id) : entry.2 = other.2 := by
  induction h
  case nil => cases he
  case declare known _ _ _ _ hk hn =>
    cases he
    case head =>
      cases ho
      case head => rfl
      case tail ho => exact absurd (hk.id_lt ho) (Nat.not_lt_of_le (Nat.le_of_eq hi))
    case tail he =>
      cases ho
      case head => exact absurd (hk.id_lt he) (Nat.not_lt_of_le (Nat.le_of_eq hi.symm))
      case tail ho => exact hn he ho

end

-- A receiver of a declared class that has nothing of its own.
structure Blueprints.Makes (known : Blueprints) (r : Receiver) : Prop where
  declared : ∃ name, (name, r.blueprint) ∈ known
  own : r.own = []

-- Receivers of one class differ in nothing but their numbers, and so the same names can be called on them.
theorem Blueprints.Makes.callable_eq {known : Blueprints} {r r' : Receiver} (h : known.Makes r) (h' : known.Makes r')
    (hk : known.Declared) (hi : r.blueprint.cls.id = r'.blueprint.cls.id) : r.callable = r'.callable := by
  obtain ⟨⟨_, hm⟩, ho⟩ := h
  obtain ⟨⟨_, hm'⟩, ho'⟩ := h'
  have hb : r.blueprint = r'.blueprint := hk.blueprint_eq hm hm' hi
  funext name
  rw [Receiver.callable, Receiver.callable, Receiver.member?, Receiver.member?, ho, ho', hb]

namespace Session

variable {α : Type} {known : Blueprints} {s t : Session} {step : Step α} {steps : List (Step α)}

-- A session that began as `s` and has remembered nothing but what is found on the receivers.
structure Continues (s t : Session) : Prop where
  main : t.main = s.main
  receivers : t.receivers = s.receivers
  forget : t.visitor.forget = s.visitor
  found : ∀ {receiver r type name}, s.receivers.lookup receiver = some r →
    t.visitor.cached? r.blueprint.cls type = some name → t.visitor.lookup? r.callable type = some name

theorem Continues.visit?_eq (h : Continues s t) (step : Step α) : t.visit? step = s.visit? step := by
  cases step <;> simp only [visit?, h.main, h.receivers]

theorem lookup_of_visit? {r : Receiver} {node : Datum} {args : List α} (h : s.visit? step = some (r, node, args)) :
    ∃ receiver, s.receivers.lookup receiver = some r := by
  cases step
  case visit =>
    obtain ⟨_, hl, he⟩ := Option.map_eq_some_iff.mp h
    cases he
    exact ⟨_, hl⟩
  case visitOn =>
    obtain ⟨_, hl, he⟩ := Option.map_eq_some_iff.mp h
    cases he
    exact ⟨_, hl⟩
  case set => cases h
  case delete => cases h

section

variable (hk : known.Declared) (hr : ∀ entry ∈ s.receivers, known.Makes entry.2)

include hk hr

theorem Continues.perform (h : Continues s t) {r : Receiver} {node : Datum} {args : List α}
    (hv : s.visit? step = some (r, node, args)) :
    (t.perform step).1 = (s.perform step).1 ∧ Continues s (t.perform step).2 := by
  obtain ⟨receiver, hl⟩ := lookup_of_visit? hv
  rw [perform_visit hv, perform_visit ((h.visit?_eq step).trans hv)]
  constructor
  case left =>
    rw [Visitor.visit_forget (h.found hl), h.forget]
  case right =>
    refine ⟨h.main, h.receivers, (Visitor.forget_visit ..).trans h.forget, ?_⟩
    intro receiver' r' type' name hl' hc
    rw [Visitor.lookup?_visit]
    -- A name that has just been found can be called on every receiver of the class.
    rcases Visitor.cached?_visit hc with hc | ⟨hi, rfl, hf⟩
    case inl => exact h.found hl' hc
    case inr =>
      have he : r'.callable = r.callable := (hr _ (mem_of_lookup hl')).callable_eq (hr _ (mem_of_lookup hl)) hk hi
      exact he ▸ hf

theorem Continues.run (h : Continues s t) (hv : ∀ step ∈ steps, (s.visit? step).isSome) :
    (t.run steps).1 = steps.map fun step => (s.perform step).1 := by
  induction steps generalizing t
  case nil => rfl
  case cons step steps hi =>
    obtain ⟨hf, hs⟩ := List.forall_mem_cons.mp hv
    obtain ⟨_, hf⟩ := Option.isSome_iff_exists.mp hf
    obtain ⟨he, hc⟩ := h.perform hk hr hf
    simp only [Session.run, List.map_cons, he, hi hc hs]

-- Every visit of a session gives what it gives as the first visit of a new visitor: it is refused for its arguments, or it
-- calls the nearest handler on its own receiver and for its own node, or there is none.
theorem cache_is_invisible {verb : String} {minArgs : Int} {maxArgs : Option Int}
    (hn : s.visitor = .new verb minArgs maxArgs) (hv : ∀ step ∈ steps, (s.visit? step).isSome) :
    (s.run steps).1 = steps.map (fun step => (s.perform step).1) ∧
      ∀ step ∈ steps, ∃ r node args outcome, s.visit? step = some (r, node, args) ∧
        (s.perform step).1 = outcome.map some ∧ s.visitor.Routes r node args outcome := by
  have hf : s.visitor.forget = s.visitor := by rw [hn]; rfl
  constructor
  case left =>
    refine Continues.run hk hr ⟨rfl, rfl, hf, ?_⟩ hv
    intro _ _ _ _ _ hc
    rw [hn] at hc
    cases hc
  case right =>
    intro step hm
    obtain ⟨⟨r, node, args⟩, hs⟩ := Option.isSome_iff_exists.mp (hv step hm)
    refine ⟨r, node, args, _, hs, by rw [perform_visit hs], ?_⟩
    have hr := Visitor.routes_forget s.visitor r node args
    rwa [hf] at hr

end

end Session

-- A class of namers, and a class of mute ones in which a constant hides a handler.
def namers : Blueprints :=
  Blueprints.declare (Blueprints.declare [] "Namer" [] ["name_Shape", "name_Circle"] []) "Mute" ["Namer"] []
    [("name_Circle", "int")]

def circle : NodeType :=
  ⟨⟨.declared 1, "Circle"⟩, [⟨.declared 0, "Shape"⟩, .object]⟩

-- Another type of the same name, which is no shape.
def ring : NodeType :=
  ⟨⟨.declared 2, "Circle"⟩, [.object]⟩

-- Two namers and a mute one.
def naming : Session :=
  .start (.new "name" 0 (some 0)) "a" ((namers.lookup "Namer").toList.flatMap (fun b => [("a", b), ("b", b)]) ++
    (namers.lookup "Mute").toList.map fun b => ("m", b))

theorem declared_namers : namers.Declared :=
  .declare "Mute" ["Namer"] [] [("name_Circle", "int")] (.declare "Namer" [] ["name_Shape", "name_Circle"] [] .nil)

def small : Datum :=
  .node circle [("radius", .int 1)]

def large : Datum :=
  .node circle [("radius", .int 9)]

def band : Datum :=
  .node ring []

def namingSteps : List (Step Nat) :=
  [.visit small [], .visitOn "m" small [], .visitOn "b" large [], .visitOn "m" band [], .visit small [7], .visitOn "m" large [],
    .visit band []]

-- The name that was found on the first receiver is called on the second, for the node of the second visit.
theorem naming_is_as_new :
    (naming.run namingSteps).1 =
      [.ok (some ⟨0, "Namer", "name_Circle", small, []⟩), .ok (some ⟨2, "Namer", "name_Shape", small, []⟩),
        .ok (some ⟨1, "Namer", "name_Circle", large, []⟩), .error (.dump (.noHandler "Mute" "Circle" "name")),
        .error (.dump (.arity "Namer" 1 0 (some 0))), .ok (some ⟨2, "Namer", "name_Shape", large, []⟩),
        .ok (some ⟨0, "Namer", "name_Circle", band, []⟩)] := by
  have hr : ∀ entry ∈ naming.receivers, namers.Makes entry.2 :=
    List.forall_mem_cons.mpr ⟨⟨⟨"Namer", .tail _ (.head _)⟩, rfl⟩,
      List.forall_mem_cons.mpr ⟨⟨⟨"Namer", .tail _ (.head _)⟩, rfl⟩,
        List.forall_mem_cons.mpr ⟨⟨⟨"Mute", .head _⟩, rfl⟩, List.forall_mem_nil _⟩⟩⟩
  have hv : ∀ step ∈ namingSteps, (naming.visit? step).isSome := List.all_eq_true.mp rfl
  obtain ⟨he, _⟩ := Session.cache_is_invisible declared_namers hr rfl hv
  exact he

end Dispatch
end ParenTree
