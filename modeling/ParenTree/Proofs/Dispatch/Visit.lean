import ParenTree.Dispatch.Session

-- What a visit does, whether the name of its handler is known already or not.

namespace ParenTree

theorem mem_of_lookup {α β : Type} [BEq α] [LawfulBEq α] {entries : List (α × β)} {key : α} {value : β}
    (h : entries.lookup key = some value) : (key, value) ∈ entries := by
  obtain ⟨before, after, he, _⟩ := List.lookup_eq_some_iff.mp h
  rw [he]
  exact List.mem_append_right before List.mem_cons_self

namespace Visitor

section

variable (v : Visitor) (callable : String → Bool) (type : NodeType)

-- The number of arguments is within the bounds of the visitor.
def Admits (given : Nat) : Prop :=
  v.minArgs ≤ given ∧ ∀ maxArgs, v.maxArgs = some maxArgs → (given : Int) ≤ maxArgs

-- The name of the handler for the first type in a lineage whose handler can be called.
inductive Nearest : String → Prop
  | intro {before after : List TypeRef} {t : TypeRef} :
    type.lineage = before ++ t :: after → (∀ u ∈ before, callable (v.handlerName u) = false) →
    callable (v.handlerName t) = true → Nearest (v.handlerName t)

end

section

variable {v : Visitor} {callable : String → Bool} {type : NodeType}

theorem admits_iff {given : Nat} : v.Admits given ↔ ((given : Int) < v.minArgs || exceeds given v.maxArgs) = false := by
  rw [Admits, Bool.or_eq_false_iff, decide_eq_false_iff_not, Int.not_lt]
  cases v.maxArgs <;> simp [exceeds]

instance {given : Nat} : Decidable (v.Admits given) :=
  decidable_of_iff _ admits_iff.symm

theorem checkArity_of_admits {given : Nat} (h : v.Admits given) (receiver : String) :
    v.checkArity receiver given = .ok () := by
  rw [checkArity, admits_iff.mp h]
  rfl

theorem checkArity_of_not_admits {given : Nat} (h : ¬v.Admits given) (receiver : String) :
    v.checkArity receiver given = .error (.arity receiver given v.minArgs v.maxArgs) := by
  rw [admits_iff, Bool.not_eq_false] at h
  rw [checkArity, h]
  rfl

theorem lookup?_eq_some_iff {name : String} : v.lookup? callable type = some name ↔ v.Nearest callable type name := by
  rw [lookup?, List.find?_eq_some_iff_append]
  constructor
  case mp =>
    rintro ⟨hc, names, others, he, hb⟩
    obtain ⟨before, rest, hl, rfl, hr⟩ := List.map_eq_append_iff.mp he
    obtain ⟨t, after, rfl, rfl, rfl⟩ := List.map_eq_cons_iff.mp hr
    exact .intro hl (fun u hu => by simpa using hb _ (List.mem_map_of_mem hu)) hc
  case mpr =>
    rintro ⟨hl, hb, hc⟩
    exact ⟨hc, _, _, by rw [hl, List.map_append, List.map_cons], by simpa using hb⟩

theorem lookup?_eq_none_iff : v.lookup? callable type = none ↔ ∀ t ∈ type.lineage, callable (v.handlerName t) = false := by
  simp [lookup?]

end

section

variable {α : Type} (v : Visitor) (r : Receiver) (node : Datum) (args : List α)

-- What comes of a name on a receiver: whatever stands behind it at the moment is called, on that receiver and for that node.
inductive Uses (name : String) : Except Fault (Call α) → Prop
  | handled {owner : String} : r.member? name = some (.handler owner) → Uses name (.ok ⟨r.id, owner, name, node, args⟩)
  | notCallable {typeName : String} : r.member? name = some (.constant typeName) →
    Uses name (.error (.notCallable typeName))
  | absent : r.member? name = none → Uses name (.error (.noField r.blueprint.cls.name name))

theorem uses_call (name : String) : Uses r node args name (call r name node args) := by
  rw [call]
  split
  case h_1 h => exact .handled h
  case h_2 h => exact .notCallable h
  case h_3 h => exact .absent h

-- All that a visit can come to: its outcome, and the visitor after it.
inductive Visited : Except Fault (Call α) → Visitor → Prop
  | refused : ¬v.Admits args.length →
    Visited (.error (.dump (.arity r.blueprint.cls.name args.length v.minArgs v.maxArgs))) v
  | known {name : String} : v.Admits args.length → v.cached? r.blueprint.cls node.type = some name →
    Visited (call r name node args) v
  | found {name : String} : v.Admits args.length → v.cached? r.blueprint.cls node.type = none →
    v.Nearest r.callable node.type name → Visited (call r name node args) (v.remember r.blueprint.cls node.type name)
  | unhandled : v.Admits args.length → v.cached? r.blueprint.cls node.type = none →
    (∀ t ∈ node.type.lineage, r.callable (v.handlerName t) = false) →
    Visited (.error (.dump (.noHandler r.blueprint.cls.name node.type.name v.verb))) v

theorem exists_visited : ∃ outcome w, v.visit r node args = (outcome, w) ∧ Visited v r node args outcome w := by
  rw [visit]
  by_cases ha : v.Admits args.length
  case neg =>
    rw [checkArity_of_not_admits ha]
    exact ⟨_, _, rfl, .refused ha⟩
  case pos =>
    rw [checkArity_of_admits ha]
    cases hc : v.cached? r.blueprint.cls node.type
    case some name =>
      simp only [resolve, hc]
      exact ⟨_, _, rfl, .known ha hc⟩
    case none =>
      cases hl : v.lookup? r.callable node.type
      case some name =>
        simp only [resolve, hc, hl]
        exact ⟨_, _, rfl, .found ha hc (lookup?_eq_some_iff.mp hl)⟩
      case none =>
        simp only [resolve, hc, hl]
        exact ⟨_, _, rfl, .unhandled ha hc (lookup?_eq_none_iff.mp hl)⟩

end

end Visitor

namespace Dispatch.Session

variable {α : Type} {s : Session} {step : Step α} {r : Receiver} {node : Datum} {args : List α}

-- The visit that a step is: the receiver as it is now, the node, and the arguments.
def visit? (s : Session) : Step α → Option (Receiver × Datum × List α)
  | .visit node args => (s.receivers.lookup s.main).map (·, node, args)
  | .visitOn receiver node args => (s.receivers.lookup receiver).map (·, node, args)
  | .set .. | .delete .. => none

theorem visitOn_of_lookup {receiver : String} (h : s.receivers.lookup receiver = some r) :
    s.visitOn receiver node args =
      ((s.visitor.visit r node args).1.map some, { s with visitor := (s.visitor.visit r node args).2 }) := by
  simp only [visitOn, h]

theorem perform_visit (h : s.visit? step = some (r, node, args)) :
    s.perform step =
      ((s.visitor.visit r node args).1.map some, { s with visitor := (s.visitor.visit r node args).2 }) := by
  cases step
  case visit =>
    obtain ⟨_, hl, he⟩ := Option.map_eq_some_iff.mp h
    cases he
    exact visitOn_of_lookup hl
  case visitOn =>
    obtain ⟨_, hl, he⟩ := Option.map_eq_some_iff.mp h
    cases he
    exact visitOn_of_lookup hl
  case set => cases h
  case delete => cases h

theorem run_append (s : Session) (steps later : List (Step α)) :
    s.run (steps ++ later) = ((s.run steps).1 ++ ((s.run steps).2.run later).1, ((s.run steps).2.run later).2) := by
  induction steps generalizing s
  case nil => rfl
  case cons step steps hi => simp only [List.cons_append, run, hi]

end Dispatch.Session
end ParenTree
