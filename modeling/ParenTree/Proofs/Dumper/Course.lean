import ParenTree.Dumper.Session
import ParenTree.Proofs.Dispatch.Visit

-- The work list of a dumper, one call of a handler after the other, and what no call changes.

namespace ParenTree

-- The name of the handler of a type, without a visitor that may know it already.
def DumperClass.handlerName? (c : DumperClass) (type : NodeType) : Option String :=
  (type.lineage.map fun t => "dump" ++ "_" ++ t.name).find? fun name => (c.handlers.lookup name).isSome

theorem DumperClass.exists_handler {c : DumperClass} {type : NodeType} {name : String}
    (hn : c.handlerName? type = some name) : ∃ handler, c.handlers.lookup name = some handler :=
  have hs : (c.handlers.lookup name).isSome := List.find?_some (p := fun name => (c.handlers.lookup name).isSome) hn
  Option.isSome_iff_exists.mp hs

namespace Dumper

theorem dump_pending (d : Dumper) (node : Datum) : (d.dump node).2.pending = d.pending := by
  rw [dump_eq_finish]
  exact finish_pending _ _

-- The dumper as a handler finds it, with nothing asked for.
def listening (d : Dumper) : Dumper :=
  { d with pending := some [] }

theorem isPartOf_listening (d : Dumper) (node : Datum) : ∀ r ∈ d.listening.requests, r.node.IsPartOf node :=
  List.forall_mem_nil _

def attend (d : Dumper) (handler : Handler) (node : Datum) : Ran node (Except Fault Datum) :=
  run (fun part _ d => ⟨d.dump part, d.dump_pending part⟩) (handler node) d.listening
    (d.isPartOf_listening node)

-- One call: the handler is found and run, and what it returns is made normal.
def handle (d : Dumper) (node : Datum) : Except Fault Datum × Dumper :=
  match d.route node with
  | (.error fault, d) => (.error fault, d)
  | (.ok handler, d) =>
    match d.attend handler node with
    | ⟨.error fault, d, _⟩ => (.error fault, d)
    | ⟨.ok result, d, _⟩ => ((result.normalize (some (d.context node))).mapError .dump, d)

theorem handle_of_route {d e : Dumper} {node : Datum} {handler : Handler} (h : d.route node = (.ok handler, e)) :
    d.handle node =
      (do ((← (e.attend handler node).result).normalize (some ((e.attend handler node).dumper.context node))).mapError .dump,
        (e.attend handler node).dumper) := by
  simp only [handle, h]
  split <;> rename_i hs <;> rw [hs] <;> rfl

theorem carryOut_cons (d : Dumper) (r : Request) (work : List Request) (fillings : Fillings) :
    carryOut d (r :: work) fillings =
      match d.handle r.node with
      | (.error fault, d) => (.error fault, d)
      | (.ok value, d) => carryOut d (d.requests ++ work) ((r.tag, value) :: fillings) := by
  obtain ⟨tag, node⟩ := r
  rw [carryOut]
  simp only [handle, attend, listening, dump_eq_finish]
  cases d.route node
  case mk found d =>
    cases found
    case error => rfl
    case ok handler =>
      dsimp only
      split <;> rename_i hr
      case h_1 => rw [hr]
      case h_2 result d _ =>
        rw [hr]
        dsimp only
        cases result.normalize (some (d.context node)) <;> rfl

theorem isPartOf_of_handle {d d' : Dumper} {node : Datum} {result : Except Fault Datum}
    (h : d.handle node = (result, d')) (hr : result.isOk) : ∀ r ∈ d'.requests, r.node.IsPartOf node := by
  simp only [handle] at h
  cases hf : d.route node
  case mk found d =>
    cases found
    case error =>
      simp only [hf] at h
      cases h
      cases hr
    case ok handler =>
      simp only [hf] at h
      split at h
      case h_1 =>
        cases h
        cases hr
      case h_2 parts _ =>
        cases h
        exact parts

-- Induction on work lists: requests for parts of the first node may come in its place, and the dump of a part may begin
-- with a work list of its own.
theorem workInduct {motive : List Request → Prop} (nil : motive [])
    (cons : ∀ r work,
      (∀ requests, (∀ q ∈ requests, q.node.IsPartOf r.node) → motive (requests ++ work)) →
      (∀ tag part, part.IsPartOf r.node → motive [⟨tag, part⟩]) → motive (r :: work)) (work : List Request) :
    motive work := by
  induction hw : Agenda.mk (work.map (·.node.weight)) using Agenda.wellFounded.induction generalizing work
  case h agenda hi =>
    subst hw
    cases work
    case nil => exact nil
    case cons r work =>
      refine cons r work ?_ ?_
      case refine_1 =>
        intro requests hp
        refine hi _ ?_ _ rfl
        rw [List.map_append, List.map_cons]
        exact .keep (by simpa [Datum.IsPartOf] using hp)
      case refine_2 =>
        intro tag part hp
        refine hi _ ?_ _ rfl
        exact .drop (by simpa [Datum.IsPartOf] using hp)

theorem run_keeps {o : Datum} {α : Type} {P : Dumper → Prop}
    {nested : (part : Datum) → part.IsPartOf o → Nested (Except Fault String)}
    (ask : ∀ {d part}, P d → P (d.ask part)) (inside : ∀ {part d} (h : part.IsPartOf o), P d → P (nested part h d).1.2)
    (format : ∀ {d value}, P d → P (d.format value).2) (depth : ∀ {d : Dumper} {n}, P d → P { d with depth := n })
    (s : Script o α) {d : Dumper} (hr : ∀ r ∈ d.requests, r.node.IsPartOf o) (hd : P d) :
    P (run nested s d hr).dumper := by
  induction s generalizing d
  case done => exact hd
  case request hi => exact hi _ _ (ask hd)
  case dump isPart _ hi => exact hi _ _ (inside isPart hd)
  case format hi => exact hi _ _ (format hd)
  case isNop hi => exact hi _ _ hd
  case depth hi => exact hi _ _ hd
  case setDepth hi => exact hi _ (depth hd)

-- The search for a handler may make the visitor learn a name, and tells so; nothing else comes of it.
theorem route_eq (d : Dumper) (node : Datum) :
    ∃ visitor events, (d.route node).2 = { d with visitor := visitor, events := events } := by
  simp only [route]
  split
  case h_1 => exact ⟨_, _, rfl⟩
  case h_2 =>
    split
    case h_1 => exact ⟨_, _, rfl⟩
    case h_2 =>
      split
      all_goals
        dsimp only
        split
        all_goals exact ⟨_, _, rfl⟩

-- What no single deed of a dumper puts an end to.
structure Lasting (P : Dumper → Prop) : Prop where
  route : ∀ {d : Dumper} {node}, P d → P (d.route node).2
  ask : ∀ {d : Dumper} {part}, P d → P (d.ask part)
  starting : ∀ {d : Dumper}, P d → P d.starting
  note : ∀ {d : Dumper} {event}, P d → P (d.note event)
  depth : ∀ {d : Dumper} {n}, P d → P { d with depth := n }
  pending : ∀ {d : Dumper} {requests}, P d → P { d with pending := requests }

namespace Lasting

variable {P : Dumper → Prop} {d : Dumper}

theorem format (h : Lasting P) {value : Datum} (hd : P d) : P (d.format value).2 := by
  simp only [Dumper.format]
  split
  · exact h.depth hd
  · exact hd

theorem finish (h : Lasting P) {tag : Nat} {outer : Option (List Request)} {out : Except Fault Fillings × Dumper}
    (ho : P out.2) : P (Dumper.finish tag (leave outer out)).2 := by
  obtain ⟨result, d⟩ := out
  cases result
  case ok => exact h.format (h.pending ho)
  case error => exact h.pending ho

theorem handle (h : Lasting P) {node : Datum} (hp : ∀ part d, part.IsPartOf node → P d → P (Dumper.dump d part).2)
    (hd : P d) : P (d.handle node).2 := by
  have hr : P (d.route node).2 := h.route hd
  simp only [Dumper.handle]
  cases hf : d.route node
  case mk found e =>
    rw [hf] at hr
    cases found
    case error => exact hr
    case ok handler =>
      have he : P e.listening := h.pending hr
      have ha : P (e.attend handler node).dumper :=
        run_keeps (P := P) h.ask (fun hpart hd => hp _ _ hpart hd) h.format h.depth (handler node) _ he
      dsimp only
      split <;> rename_i hs <;> rwa [hs] at ha

theorem carryOut (h : Lasting P) (work : List Request) (fillings : Fillings) (hd : P d) :
    P (d.carryOut work fillings).2 := by
  induction work using workInduct generalizing d fillings
  case nil =>
    rw [Dumper.carryOut]
    exact hd
  case cons r work others inside =>
    have hh : P (d.handle r.node).2 := by
      refine h.handle ?_ hd
      intro part d hp hd
      rw [dump_eq_finish]
      exact h.finish (inside _ part hp [] (h.starting (h.note hd)))
    rw [carryOut_cons]
    cases hr : d.handle r.node
    case mk result e =>
      rw [hr] at hh
      cases result
      case error => exact hh
      case ok => exact others _ (isPartOf_of_handle hr rfl) _ hh

theorem expand (h : Lasting P) (node : Datum) (hd : P d) : P (d.expand node).2 :=
  h.pending (h.carryOut _ _ (h.starting hd))

theorem dump (h : Lasting P) (node : Datum) (hd : P d) : P (d.dump node).2 := by
  rw [dump_eq_finish]
  exact h.finish (h.carryOut _ _ (h.starting (h.note hd)))

theorem doDump (h : Lasting P) (node : Datum) (hd : P d) : P (d.doDump node).2 := by
  simp only [Dumper.doDump]
  split
  · exact h.expand node hd
  · exact h.ask hd

theorem formatTimes (h : Lasting P) (value : Datum) (times : Nat) (hd : P d) : P (d.formatTimes value times).2 := by
  induction times generalizing d
  case zero => exact hd
  case succ times hi =>
    have hf : P (d.format value).2 := h.format hd
    simp only [Dumper.formatTimes]
    cases hr : d.format value
    case mk text d =>
      rw [hr] at hf
      cases text
      case error => exact hf
      case ok => exact hi hf

theorem perform (h : Lasting P) (step : Step) (hd : P d) : P (d.perform step).2 := by
  cases step
  case dump node => exact h.dump node hd
  case doDump node => exact h.doDump node hd
  case layOut node times =>
    have ho := h.doDump node hd
    simp only [Dumper.perform]
    cases hr : d.doDump node
    case mk value d =>
      rw [hr] at ho
      cases value
      case error => exact ho
      case ok value => exact h.formatTimes value times ho
  case format => exact h.format hd
  case setDepth => exact h.depth hd
  case indent => exact hd
  case isNop => exact hd

end Lasting

-- Numbers of placeholders are used once.
theorem nextTag_lasting (n : Nat) : Lasting fun d => n ≤ d.nextTag where
  route {d node} h := by
    obtain ⟨visitor, events, he⟩ := d.route_eq node
    rw [he]
    exact h
  ask h := Nat.le_succ_of_le h
  starting h := Nat.le_succ_of_le h
  note h := h
  depth h := h
  pending h := h

-- A dumper whose visitor remembers nothing but what it would find anyway.
structure Steady (c : DumperClass) (d : Dumper) : Prop where
  cls : d.cls = c
  verb : d.visitor.verb = "dump"
  minArgs : d.visitor.minArgs = 0
  maxArgs : d.visitor.maxArgs = some 0
  cached : ∀ {type name}, d.visitor.cached? d.receiver type = some name → c.handlerName? type = some name

namespace Steady

variable {c : DumperClass} {d d' : Dumper}

theorem of_new (c : DumperClass) (depth : Int) : Steady c (.new c depth) where
  cls := rfl
  verb := rfl
  minArgs := rfl
  maxArgs := rfl
  cached h := nomatch h

theorem congr (h : Steady c d) (hc : d'.cls = d.cls) (hv : d'.visitor = d.visitor) : Steady c d' where
  cls := hc.trans h.cls
  verb := hv ▸ h.verb
  minArgs := hv ▸ h.minArgs
  maxArgs := hv ▸ h.maxArgs
  cached hn := h.cached (by rwa [receiver, hc, hv] at hn)

theorem checkArity (h : Steady c d) : d.visitor.checkArity d.cls.name 0 = .ok () :=
  Visitor.checkArity_of_admits (by simp [Visitor.Admits, h.minArgs, h.maxArgs]) d.cls.name

theorem lookup?_eq (h : Steady c d) (type : NodeType) :
    d.visitor.lookup? (fun name => (d.cls.handlers.lookup name).isSome) type = c.handlerName? type := by
  have hn : d.visitor.handlerName = fun t => "dump" ++ "_" ++ t.name := by
    funext t
    rw [Visitor.handlerName, h.verb]
  rw [Visitor.lookup?, DumperClass.handlerName?, hn, h.cls]

theorem resolve_none (h : Steady c d) {type : NodeType} (hn : c.handlerName? type = none) :
    d.visitor.resolve d.receiver (fun name => (d.cls.handlers.lookup name).isSome) type =
      .error (.noHandler c.name type.name "dump") := by
  have hc : d.visitor.cached? d.receiver type = none := by
    cases hc : d.visitor.cached? d.receiver type
    case none => rfl
    case some name => cases hn ▸ h.cached hc
  simp only [Visitor.resolve, hc, h.lookup?_eq, hn]
  rw [receiver, h.cls, h.verb]

-- Whether the name is known or not, it is the one that a search would give.
theorem resolve_some (h : Steady c d) {type : NodeType} {name : String} (hn : c.handlerName? type = some name) :
    ∃ visitor, d.visitor.resolve d.receiver (fun name => (d.cls.handlers.lookup name).isSome) type = .ok (name, visitor) ∧
      Steady c { d with visitor := visitor } := by
  cases hc : d.visitor.cached? d.receiver type
  case some known =>
    cases hn ▸ h.cached hc
    exact ⟨d.visitor, by simp only [Visitor.resolve, hc], h⟩
  case none =>
    refine ⟨d.visitor.remember d.receiver type name, by simp only [Visitor.resolve, hc, h.lookup?_eq, hn],
      h.cls, h.verb, h.minArgs, h.maxArgs, ?_⟩
    intro other found ho
    simp only [Visitor.cached?, Visitor.remember, receiver, List.lookup_cons] at ho
    split at ho
    case h_1 he =>
      cases ho
      simp only [beq_iff_eq, Occasion.mk.injEq, true_and] at he
      exact he ▸ hn
    case h_2 => exact h.cached ho

theorem route_none (h : Steady c d) {node : Datum} (hn : c.handlerName? node.type = none) :
    d.route node = (.error (.dump (.noHandler c.name node.typeName "dump")), d) := by
  simp only [route, h.checkArity, h.resolve_none hn, Datum.typeName]

theorem route_some (h : Steady c d) {node : Datum} {name : String} (hn : c.handlerName? node.type = some name) :
    ∃ handler d', c.handlers.lookup name = some handler ∧ d.route node = (.ok handler, d') ∧ Steady c d' ∧
      d'.nextTag = d.nextTag ∧ d'.depth = d.depth := by
  obtain ⟨visitor, hv, hs⟩ := h.resolve_some hn
  obtain ⟨handler, hh⟩ := DumperClass.exists_handler hn
  simp only [route, h.checkArity, hv]
  cases (d.visitor.cached? d.receiver node.type).isSome
  case true => exact ⟨handler, _, hh, by simp only [if_true, h.cls, hh], hs, rfl, rfl⟩
  case false =>
    refine ⟨handler, { d.note (.resolved node.typeName name) with visitor := visitor }, hh, ?_, hs.congr rfl rfl, rfl, rfl⟩
    simp only [note, Bool.false_eq_true, if_false, h.cls, hh]

theorem lookup_of_route (h : Steady c d) {node : Datum} {handler : Handler} (hr : d.route node = (.ok handler, d')) :
    ∃ name, c.handlers.lookup name = some handler := by
  cases hn : c.handlerName? node.type
  case none => cases hr.symm.trans (h.route_none hn)
  case some name =>
    obtain ⟨_, _, hl, he, _⟩ := h.route_some hn
    cases hr.symm.trans he
    exact ⟨name, hl⟩

theorem after_route (h : Steady c d) (node : Datum) : Steady c (d.route node).2 := by
  cases hn : c.handlerName? node.type
  case none => rwa [h.route_none hn]
  case some =>
    obtain ⟨_, _, _, hr, hs, _, _⟩ := h.route_some hn
    rwa [hr]

theorem lasting (c : DumperClass) : Lasting (Steady c) where
  route h := h.after_route _
  ask h := h.congr rfl rfl
  starting h := h.congr rfl rfl
  note h := h.congr rfl rfl
  depth h := h.congr rfl rfl
  pending h := h.congr rfl rfl

end Steady

theorem formatTimes_pending (d : Dumper) (value : Datum) (times : Nat) :
    (d.formatTimes value times).2.pending = d.pending := by
  induction times generalizing d
  case zero => rfl
  case succ times hi =>
    have hf := d.format_pending value
    simp only [formatTimes]
    cases hr : d.format value
    case mk text e =>
      rw [hr] at hf
      cases text
      case error => exact hf
      case ok => exact (hi e).trans hf

theorem doDump_of_pending {d : Dumper} (h : d.pending = none) (node : Datum) : d.doDump node = d.expand node := by
  rw [doDump, h]

theorem perform_pending {d : Dumper} (step : Step) (h : d.pending = none) : (d.perform step).2.pending = none := by
  cases step
  case dump node => exact (d.dump_pending node).trans h
  case doDump node =>
    simp only [perform, doDump_of_pending h]
    exact h
  case layOut node times =>
    have hx : (d.expand node).2.pending = none := h
    simp only [perform, doDump_of_pending h]
    cases hr : d.expand node
    case mk value e =>
      rw [hr] at hx
      cases value
      case error => exact hx
      case ok value => exact (e.formatTimes_pending value times).trans hx
  case format value => exact (d.format_pending value).trans h
  case setDepth => exact h
  case indent => exact h
  case isNop => exact h

-- A dumper between two steps: no handler is running.
structure Idle (c : DumperClass) (d : Dumper) : Prop extends Steady c d where
  pending : d.pending = none

namespace Idle

variable {c : DumperClass} {d : Dumper}

theorem after_perform (h : Idle c d) (step : Step) : Idle c (d.perform step).2 :=
  ⟨(Steady.lasting c).perform step h.toSteady, perform_pending step h.pending⟩

theorem after_performAll (h : Idle c d) (steps : List Step) : Idle c (d.performAll steps).2 := by
  induction steps generalizing d
  case nil => exact h
  case cons step steps hi => exact hi (h.after_perform step)

theorem of_session (c : DumperClass) (depth : Int) (steps : List Step) : Idle c ((new c depth).performAll steps).2 :=
  after_performAll ⟨.of_new c depth, rfl⟩ steps

end Idle

-- A work list that is being carried out.
structure Stage where
  dumper : Dumper
  work : List Request
  fillings : Fillings

namespace Stage

-- The rest of the work.
def carryOut (s : Stage) : Except Fault Fillings × Dumper :=
  s.dumper.carryOut s.work s.fillings

-- From one stage to another by calls that do not fail, each for the request that is first on the list.
inductive Course : Stage → List Request → Stage → Prop
  | refl {s : Stage} : Course s [] s
  | call {d d' : Dumper} {r : Request} {value : Datum} {work calls : List Request} {fillings : Fillings} {s : Stage} :
    d.handle r.node = (.ok value, d') → Course ⟨d', d'.requests ++ work, (r.tag, value) :: fillings⟩ calls s →
    Course ⟨d, r :: work, fillings⟩ (r :: calls) s

namespace Course

variable {s t u : Stage} {calls calls' : List Request}

theorem trans (h : Course s calls t) (h' : Course t calls' u) : Course s (calls ++ calls') u := by
  induction h
  case refl => exact h'
  case call hc _ hi => exact call hc (hi h')

theorem carryOut_eq (h : Course s calls t) : s.carryOut = t.carryOut := by
  induction h
  case refl => rfl
  case call hc _ hi => simpa only [Stage.carryOut, carryOut_cons, hc] using hi

theorem carryOut_of_done {e : Dumper} {fillings : Fillings} (h : Course s calls ⟨e, [], fillings⟩) :
    s.carryOut = (.ok fillings, e) := by
  rw [h.carryOut_eq, Stage.carryOut, Dumper.carryOut]

theorem carryOut_of_failed {e : Dumper} {r : Request} {work : List Request} {fillings : Fillings} {fault : Fault}
    (h : Course s calls ⟨e, r :: work, fillings⟩) (hf : (e.handle r.node).1 = .error fault) :
    s.carryOut = (.error fault, (e.handle r.node).2) := by
  rw [h.carryOut_eq, Stage.carryOut, carryOut_cons]
  cases hr : e.handle r.node
  case mk result e' =>
    rw [hr] at hf
    cases hf
    rfl

end Course
end Stage

end Dumper
end ParenTree
