import ParenTree.Proofs.Dispatch.Visit

-- Receivers that change between visits. The first name that is found for a class of receivers and a type of nodes is used
-- from then on, whatever becomes of it on the receivers; a visit for which no name is found leaves nothing behind.

namespace ParenTree.Dispatch

-- A visit that did not come to a name: its arguments were too few or too many, or it had no handler.
inductive Rejected {β : Type} : Except Fault β → Prop
  | arity {receiver : String} {given minArgs : Int} {maxArgs : Option Int} :
    Rejected (.error (.dump (.arity receiver given minArgs maxArgs)))
  | noHandler {receiver nodeType verb : String} : Rejected (.error (.dump (.noHandler receiver nodeType verb)))

theorem not_rejected_of_uses {α : Type} {r : Receiver} {node : Datum} {args : List α} {name : String}
    {outcome : Except Fault (Call α)} (h : Visitor.Uses r node args name outcome) : ¬Rejected (outcome.map some) := by
  intro hr
  cases h <;> cases hr

namespace Session

section

variable {α : Type} (s : Session) (step : Step α) (key : Occasion)

-- The session once some steps have been taken.
def after (steps : List (Step α)) : Session :=
  (s.run steps).2

-- The step is a visit for a class of receivers and a type of nodes, on the receiver `r` as it is now.
structure Asks (r : Receiver) (node : Datum) (args : List α) : Prop where
  visit : s.visit? step = some (r, node, args)
  receiver : r.blueprint.cls.id = key.receiver
  type : node.type = key.node

-- Such a visit has the right number of arguments, and a search on its receiver gives the name.
def Finds (name : String) : Prop :=
  ∃ r node args, s.Asks step key r node args ∧ s.visitor.Admits args.length ∧ s.visitor.Nearest r.callable key.node name

-- A visit that has the right number of arguments calls what stands behind the name, and is not rejected.
def Keeps (name : String) : Prop :=
  ∀ {r node args}, s.Asks step key r node args → s.visitor.Admits args.length →
    ¬Rejected (s.perform step).1 ∧
      ∃ outcome, (s.perform step).1 = outcome.map some ∧ Visitor.Uses r node args name outcome

-- None of the steps finds a name when its turn has come.
def Unresolved (s : Session) : List (Step α) → Prop
  | [] => True
  | step :: steps => (∀ name, ¬s.Finds step key name) ∧ Unresolved (s.perform step).2 steps

end

variable {α : Type} {s : Session} {step : Step α} {steps : List (Step α)} {key : Occasion} {r : Receiver} {node : Datum}
  {args : List α} {name : String}

theorem after_append (s : Session) (steps later : List (Step α)) :
    s.after (steps ++ later) = (s.after steps).after later := by
  rw [after, run_append]
  rfl

-- A step that is no visit touches the visitor as little as a visit to a receiver that is not there.
theorem perform_of_no_visit (h : s.visit? step = none) :
    ¬Rejected (s.perform step).1 ∧ (s.perform step).2.visitor = s.visitor := by
  cases step
  case visit =>
    simp only [perform, visitOn, Option.map_eq_none_iff.mp h, and_true]
    exact fun hr => by cases hr
  case visitOn =>
    simp only [perform, visitOn, Option.map_eq_none_iff.mp h, and_true]
    exact fun hr => by cases hr
  case set =>
    simp only [perform]
    split <;> exact ⟨fun hr => (by cases hr), rfl⟩
  case delete =>
    simp only [perform]
    split
    case h_1 => exact ⟨fun hr => (by cases hr), rfl⟩
    case h_2 => split <;> exact ⟨fun hr => (by cases hr), rfl⟩

theorem perform_of_visit (h : s.visit? step = some (r, node, args)) :
    ∃ outcome w, s.perform step = (outcome.map some, { s with visitor := w }) ∧
      Visitor.Visited s.visitor r node args outcome w := by
  obtain ⟨outcome, w, he, hv⟩ := s.visitor.exists_visited r node args
  exact ⟨outcome, w, by rw [perform_visit h, he], hv⟩

namespace Asks

theorem cached?_eq (h : s.Asks step key r node args) :
    s.visitor.cached? r.blueprint.cls node.type = s.visitor.cache.lookup key := by
  rw [Visitor.cached?, h.receiver, h.type]

theorem rejected (h : s.Asks step key r node args) (hc : s.visitor.cache.lookup key = none) (hf : ∀ name, ¬s.Finds step key name) :
    Rejected (s.perform step).1 := by
  obtain ⟨_, _, he, hv⟩ := perform_of_visit h.visit
  rw [he]
  cases hv
  case refused => exact .arity
  case known hk => cases hc.symm.trans (h.cached?_eq.symm.trans hk)
  case found ha _ hn => exact absurd ⟨r, node, args, h, ha, h.type ▸ hn⟩ (hf _)
  case unhandled => exact .noHandler

end Asks

-- The name that is remembered after a visit is the one that it has called.
theorem keeps_of_remembered (hc : (s.perform step).2.visitor.cache.lookup key = some name) : s.Keeps step key name := by
  intro r node args h ha
  obtain ⟨_, _, he, hv⟩ := perform_of_visit h.visit
  have hu := Visitor.uses_call r node args name
  rw [he] at hc ⊢
  cases hv
  case refused hr => exact absurd ha hr
  case known hk =>
    cases hc.symm.trans (h.cached?_eq.symm.trans hk)
    exact ⟨not_rejected_of_uses hu, _, rfl, hu⟩
  case found =>
    simp only [Visitor.remember, h.receiver, h.type, List.lookup_cons_self] at hc
    cases hc
    exact ⟨not_rejected_of_uses hu, _, rfl, hu⟩
  case unhandled hn _ => cases hc.symm.trans (h.cached?_eq.symm.trans hn)

theorem perform_of_rejected (h : Rejected (s.perform step).1) : (s.perform step).2 = s := by
  cases hv : s.visit? step
  case none => exact absurd h (perform_of_no_visit hv).left
  case some visit =>
    obtain ⟨_, w, he, hv⟩ := perform_of_visit hv
    rw [he] at h ⊢
    cases hv
    case refused => rfl
    case unhandled => rfl
    case known => exact absurd h (not_rejected_of_uses (Visitor.uses_call ..))
    case found => exact absurd h (not_rejected_of_uses (Visitor.uses_call ..))

-- A step adds the name that it finds to what is remembered, if there was none, and changes nothing else there.
theorem cache_perform (s : Session) (step : Step α) :
    (s.perform step).2.visitor = s.visitor ∧
        (∀ {key name}, s.visitor.cache.lookup key = none → ¬s.Finds step key name) ∨
      ∃ key name, s.visitor.cache.lookup key = none ∧ s.Finds step key name ∧
        (s.perform step).2.visitor = { s.visitor with cache := (key, name) :: s.visitor.cache } := by
  cases hv : s.visit? step
  case none =>
    refine .inl ⟨(perform_of_no_visit hv).right, ?_⟩
    rintro key name _ ⟨r, node, args, ha, _⟩
    cases hv.symm.trans ha.visit
  case some visit =>
    obtain ⟨r, node, args⟩ := visit
    have asks {key : Occasion} {r' : Receiver} {node' : Datum} {args' : List α} (h : s.Asks step key r' node' args') :
        r' = r ∧ args' = args ∧ key = ⟨r.blueprint.cls.id, node.type⟩ := by
      cases hv.symm.trans h.visit
      exact ⟨rfl, rfl, by rw [h.receiver, h.type]⟩
    obtain ⟨_, w, he, hw⟩ := perform_of_visit hv
    rw [he]
    cases hw
    case refused hr =>
      refine .inl ⟨rfl, ?_⟩
      rintro key name _ ⟨r', node', args', ha, hm, _⟩
      obtain ⟨_, rfl, _⟩ := asks ha
      exact hr hm
    case known name _ hk =>
      refine .inl ⟨rfl, ?_⟩
      rintro key _ hn ⟨r', node', args', ha, _⟩
      obtain ⟨rfl, _, rfl⟩ := asks ha
      cases hk.symm.trans hn
    case unhandled hl =>
      refine .inl ⟨rfl, ?_⟩
      rintro key name _ ⟨r', node', args', ha, _, hn⟩
      obtain ⟨rfl, _, rfl⟩ := asks ha
      cases (Visitor.lookup?_eq_none_iff.mpr hl).symm.trans (Visitor.lookup?_eq_some_iff.mpr hn)
    case found name ha hc hn =>
      exact .inr ⟨⟨r.blueprint.cls.id, node.type⟩, name, hc, ⟨r, node, args, ⟨hv, rfl, rfl⟩, ha, hn⟩, rfl⟩

theorem Finds.unique {other : Occasion} {name' : String} (h : s.Finds step key name) (h' : s.Finds step other name') :
    key = other ∧ name = name' := by
  obtain ⟨r, node, args, ha, _, hn⟩ := h
  obtain ⟨r', node', args', ha', _, hn'⟩ := h'
  obtain ⟨id, type⟩ := key
  obtain ⟨id', type'⟩ := other
  cases ha.visit.symm.trans ha'.visit
  cases ha.receiver
  cases ha'.receiver
  cases ha.type
  cases ha'.type
  exact ⟨rfl, Option.some.inj ((Visitor.lookup?_eq_some_iff.mpr hn).symm.trans (Visitor.lookup?_eq_some_iff.mpr hn'))⟩

theorem lookup_perform (h : s.visitor.cache.lookup key = none → ∀ name, ¬s.Finds step key name) :
    (s.perform step).2.visitor.cache.lookup key = s.visitor.cache.lookup key := by
  rcases s.cache_perform step with ⟨hv, _⟩ | ⟨other, name, hn, hf, hv⟩
  case inl => rw [hv]
  case inr =>
    have he : key ≠ other := by
      rintro rfl
      exact h hn name hf
    rw [hv, List.lookup_cons, beq_eq_false_iff_ne.mpr he]

theorem lookup_of_found (hc : s.visitor.cache.lookup key = none) (hf : s.Finds step key name) :
    (s.perform step).2.visitor.cache.lookup key = some name := by
  rcases s.cache_perform step with ⟨_, hn⟩ | ⟨other, name', _, hn, hv⟩
  case inl => exact absurd hf (hn hc)
  case inr =>
    obtain ⟨rfl, rfl⟩ := hf.unique hn
    rw [hv, List.lookup_cons_self]

theorem lookup_of_known (hc : s.visitor.cache.lookup key = some name) :
    (s.perform step).2.visitor.cache.lookup key = some name := by
  refine (lookup_perform ?_).trans hc
  intro hn
  cases hc.symm.trans hn

-- What has been remembered once stays.
theorem lookup_after_of_known (hc : s.visitor.cache.lookup key = some name) (steps : List (Step α)) :
    (s.after steps).visitor.cache.lookup key = some name := by
  induction steps generalizing s
  case nil => exact hc
  case cons step steps hi => exact hi (lookup_of_known hc)

theorem lookup_after_of_unresolved (h : s.Unresolved key steps) (hc : s.visitor.cache.lookup key = none) :
    (s.after steps).visitor.cache.lookup key = none := by
  induction steps generalizing s
  case nil => exact hc
  case cons step steps hi => exact hi h.right ((lookup_perform fun _ => h.left).trans hc)

theorem unresolved_append {later : List (Step α)} :
    s.Unresolved key (steps ++ later) ↔ s.Unresolved key steps ∧ (s.after steps).Unresolved key later := by
  induction steps generalizing s
  case nil => exact ⟨fun h => ⟨trivial, h⟩, And.right⟩
  case cons step steps hi => exact (and_congr_right fun _ => hi).trans and_assoc.symm

-- As long as no name is found for a class and a type, visits for them are rejected. Once a name has been found, it is the one
-- that is used on every receiver. A visit that is rejected might as well not have been made.
theorem first_resolution_sticks {verb : String} {minArgs : Int} {maxArgs : Option Int}
    (hn : s.visitor = .new verb minArgs maxArgs) :
    (∀ {key} {before : List (Step α)} {step r node args}, s.Unresolved key (before ++ [step]) →
      (s.after before).Asks step key r node args → Rejected ((s.after before).perform step).1) ∧
    (∀ {key} {before : List (Step α)} {first name}, s.Unresolved key before → (s.after before).Finds first key name →
      (s.after before).Keeps first key name ∧
        ∀ between (step : Step α), (s.after (before ++ first :: between)).Keeps step key name) ∧
    ∀ {before : List (Step α)} {step}, Rejected ((s.after before).perform step).1 →
      ∀ later : List (Step α), (s.after (before ++ [step])).run later = (s.after before).run later := by
  have hc (key : Occasion) : s.visitor.cache.lookup key = none := by rw [hn]; rfl
  refine ⟨?_, ?_, ?_⟩
  case refine_1 =>
    intro key before step r node args hu ha
    obtain ⟨hb, hs⟩ := unresolved_append.mp hu
    exact ha.rejected (lookup_after_of_unresolved hb (hc key)) hs.left
  case refine_2 =>
    intro key before first name hu hf
    have hb := lookup_after_of_unresolved hu (hc key)
    refine ⟨keeps_of_remembered (lookup_of_found hb hf), ?_⟩
    intro between step
    rw [after_append]
    exact keeps_of_remembered (lookup_of_known (lookup_after_of_known (lookup_of_found hb hf) between))
  case refine_3 =>
    intro before step hr later
    rw [after_append]
    exact congrArg (run · later) (perform_of_rejected hr)

end Session

def label : Blueprint :=
  ⟨⟨0, "Label"⟩, [("label_Shape", .handler "Label")]⟩

-- Two receivers of one class; nothing but the handler for shapes is common to them.
def labels : Session :=
  .start (.new "label" 0 (some 1)) "a" [("a", label), ("b", label)]

def disk : Datum :=
  .node ⟨⟨.declared 2, "Disk"⟩, [.object]⟩ []

-- Disks are not labelled until one of the receivers has learnt it.
def unlabelled : Step Nat :=
  .visit disk []

def learning : List (Step Nat) :=
  [unlabelled, .set "b" "label_Disk" (.handler "b")]

-- The one that had it loses it again, and gets a handler that would be found if it were looked for.
def losing : List (Step Nat) :=
  [.set "a" "label_Disk" (.constant "float"), .visit disk [1], .delete "b" "label_Disk", .set "b" "label_object" (.handler "b")]

theorem disks_stay_with_their_label :
    (labels.run (learning ++ .visitOn "b" disk [] :: losing ++ [.visitOn "b" disk [5]])).1 =
      [.error (.dump (.noHandler "Label" "Disk" "label")), .ok none, .ok (some ⟨1, "b", "label_Disk", disk, []⟩), .ok none,
        .error (.notCallable "float"), .ok none, .ok none, .error (.noField "Label" "label_Disk")] ∧
      Rejected (labels.perform unlabelled).1 ∧
      ¬Rejected ((labels.after (learning ++ .visitOn "b" disk [] :: losing)).perform (.visitOn "b" disk [5])).1 ∧
      (labels.after [unlabelled]).run losing = labels.run losing := by
  have hv : labels.Unresolved ⟨0, disk.type⟩ [unlabelled] := by
    refine ⟨?_, trivial⟩
    rintro name ⟨r, node, args, ha, _, hn⟩
    cases ha.visit
    cases Visitor.lookup?_eq_some_iff.mpr hn
  have hu : labels.Unresolved ⟨0, disk.type⟩ learning := by
    refine ⟨hv.left, ?_, trivial⟩
    rintro name ⟨r, node, args, ha, _⟩
    cases ha.visit
  have hf : (labels.after learning).Finds (.visitOn "b" disk ([] : List Nat)) ⟨0, disk.type⟩ "label_Disk" :=
    ⟨_, _, [], ⟨rfl, rfl, rfl⟩, by decide, Visitor.lookup?_eq_some_iff.mp rfl⟩
  obtain ⟨hr, hk, hl⟩ := Session.first_resolution_sticks (α := Nat) (rfl : labels.visitor = _)
  have he := @hr ⟨0, disk.type⟩ [] unlabelled _ _ [] hv ⟨rfl, rfl, rfl⟩
  exact ⟨rfl, he, ((hk hu hf).right losing (.visitOn "b" disk [5]) ⟨rfl, rfl, rfl⟩ (by decide)).left, @hl [] _ he losing⟩

end ParenTree.Dispatch
