import ParenTree.Dispatch.Visitor
import ParenTree.Dumper.Agenda
import ParenTree.Dumper.Script
import ParenTree.Layout.Join

-- Dumpers. The dump of a node is what its handler returns, with placeholders for the children that the handler asks for. They
-- are filled in from a work list after the handler has returned, so handlers never call each other. The depth of indentation
-- stays with the dumper from one dump to the next.

namespace ParenTree

structure DumperClass where
  name : String
  handlers : List (String × Handler)
  nopTypes : List TypeId

namespace DumperClass

def extend (c : DumperClass) (name : String) (handlers : List (String × Handler)) (nopTypes : Option (List TypeId)) :
    DumperClass :=
  ⟨name, handlers ++ c.handlers, nopTypes.getD c.nopTypes⟩

def plain : DumperClass :=
  ⟨"TreeDumper", [], []⟩

def isNop (c : DumperClass) : Datum → Bool
  | .null => true
  | d => c.nopTypes.any d.type.isA

end DumperClass

inductive Event
  | dumping (typeName : String) (depth : Int)
  | resolved (typeName handler : String)
deriving DecidableEq, Repr

def Event.message : Event → String
  | dumping typeName depth => "dumping " ++ typeName ++ " at depth " ++ toString depth
  | resolved typeName handler => "resolved " ++ typeName ++ " -> " ++ handler

structure Request where
  tag : Nat
  node : Datum

structure Dumper where
  cls : DumperClass
  depth : Int
  visitor : Visitor
  -- The requests of the handler that is running, the latest first; none if no handler is running.
  pending : Option (List Request)
  nextTag : Nat
  events : List Event

namespace Dumper

def new (cls : DumperClass) (depth : Int) : Dumper :=
  ⟨cls, depth, .new "dump" 0 (some 0), none, 0, []⟩

def requests (d : Dumper) : List Request :=
  (d.pending.getD []).reverse

def note (d : Dumper) (e : Event) : Dumper :=
  { d with events := e :: d.events }

def ask (d : Dumper) (node : Datum) : Dumper :=
  { d with pending := d.pending.map (⟨d.nextTag, node⟩ :: ·), nextTag := d.nextTag + 1 }

def format (d : Dumper) (value : Datum) : Except Fault String × Dumper :=
  match Layout.flatten value d.depth with
  | .ok (words, depth) => (.ok (Layout.join words), { d with depth := depth })
  | .error fault => (.error (.dump fault), d)

def receiver (d : Dumper) : ReceiverClass :=
  ⟨0, d.cls.name⟩

def route (d : Dumper) (node : Datum) : Except Fault Handler × Dumper :=
  match d.visitor.checkArity d.cls.name 0 with
  | .error fault => (.error (.dump fault), d)
  | .ok () =>
    match d.visitor.resolve d.receiver (fun name => (d.cls.handlers.lookup name).isSome) node.type with
    | .error fault => (.error (.dump fault), d)
    | .ok (name, visitor) =>
      let known := (d.visitor.cached? d.receiver node.type).isSome
      let d := if known then d else d.note (.resolved node.typeName name)
      let d := { d with visitor := visitor }
      match d.cls.handlers.lookup name with
      | some handler => (.ok handler, d)
      | none => (.error (.noField d.cls.name name), d)

def context (d : Dumper) (node : Datum) : String :=
  d.cls.name ++ "." ++ d.visitor.verb ++ "_" ++ node.typeName

abbrev Nested (α : Type) := (d : Dumper) → { out : α × Dumper // out.2.pending = d.pending }

structure Ran (o : Datum) (α : Type) where
  result : α
  dumper : Dumper
  parts : ∀ r ∈ dumper.requests, r.node.IsPartOf o

theorem requests_ask {d : Dumper} {node o : Datum} (hp : node.IsPartOf o) (h : ∀ r ∈ d.requests, r.node.IsPartOf o) :
    ∀ r ∈ (d.ask node).requests, r.node.IsPartOf o := by
  intro r hr
  unfold requests ask at hr
  cases hd : d.pending with
  | none => simp [hd] at hr
  | some rs =>
    simp only [hd, Option.map_some, Option.getD_some, List.reverse_cons, List.mem_append, List.mem_reverse,
      List.mem_singleton] at hr
    rcases hr with hr | rfl
    · exact h r (by simp [requests, hd, hr])
    · exact hp

theorem requests_congr {d e : Dumper} (h : e.pending = d.pending) : e.requests = d.requests := by
  simp [requests, h]

theorem format_pending (d : Dumper) (value : Datum) : (d.format value).2.pending = d.pending := by
  unfold format
  split <;> rfl

def run {o : Datum} {α : Type} (nested : (part : Datum) → part.IsPartOf o → Nested (Except Fault String)) :
    Script o α → (d : Dumper) → (∀ r ∈ d.requests, r.node.IsPartOf o) → Ran o α
  | .done a, d, h => ⟨a, d, h⟩
  | .request part isPart next, d, h => run nested (next d.nextTag) (d.ask part) (requests_ask isPart h)
  | .dump part isPart next, d, h =>
    let out := nested part isPart d
    run nested (next out.1.1) out.1.2 (requests_congr out.2 ▸ h)
  | .format value next, d, h =>
    run nested (next (d.format value).1) (d.format value).2 (requests_congr (d.format_pending value) ▸ h)
  | .isNop x next, d, h => run nested (next (d.cls.isNop x)) d h
  | .depth next, d, h => run nested (next d.depth) d h
  | .setDepth n next, d, h => run nested next { d with depth := n } h

abbrev Fillings := List (Nat × Datum)

def leave (outer : Option (List Request)) (out : Except Fault Fillings × Dumper) : Except Fault Fillings × Dumper :=
  (out.1, { out.2 with pending := outer })

end Dumper

namespace Datum

mutual

def fill (values : Dumper.Fillings) : Datum → Datum
  | unfilled (.asked tag) =>
    match values.lookup tag with
    | some content => filled (.asked tag) content
    | none => unfilled (.asked tag)
  | filled tag content => filled tag (content.fill values)
  | list items => list (fillAll values items)
  | tuple items => tuple (fillAll values items)
  | group items => group (fillAll values items)
  | d => d

def fillAll (values : Dumper.Fillings) : List Datum → List Datum
  | [] => []
  | d :: ds => d.fill values :: fillAll values ds

end

end Datum

namespace Dumper

-- All values with their placeholders filled. A value has placeholders only for later ones, which are complete before it.
def complete (fillings : Fillings) : Fillings :=
  fillings.foldl (fun values filling => (filling.1, filling.2.fill values) :: values) []

def assemble (tag : Nat) (fillings : Fillings) : Datum :=
  ((complete fillings).lookup tag).getD (.unfilled (.asked tag))

def finish (tag : Nat) (out : Except Fault Fillings × Dumper) : Except Fault String × Dumper :=
  match out with
  | (.ok fillings, d) => d.format (assemble tag fillings)
  | (.error fault, d) => (.error fault, d)

theorem finish_pending (tag : Nat) (out : Except Fault Fillings × Dumper) :
    (finish tag out).2.pending = out.2.pending := by
  unfold finish
  split
  · exact format_pending _ _
  · rfl

def starting (d : Dumper) : Dumper :=
  { d with nextTag := d.nextTag + 1 }

-- Carries out requests, those of each handler before the ones that were there already. The first failure ends it.
def carryOut (d : Dumper) (work : List Request) (fillings : Fillings) : Except Fault Fillings × Dumper :=
  match work with
  | [] => (.ok fillings, d)
  | ⟨tag, node⟩ :: work =>
    match d.route node with
    | (.error fault, d) => (.error fault, d)
    | (.ok handler, d) =>
      let nested (part : Datum) (isPart : part.IsPartOf node) : Nested (Except Fault String) := fun d =>
        let d' := d.note (.dumping part.typeName d.depth)
        ⟨finish d'.nextTag (leave d.pending (carryOut d'.starting [⟨d'.nextTag, part⟩] [])), finish_pending _ _⟩
      match run nested (handler node) { d with pending := some [] } (by simp [requests]) with
      | ⟨.error fault, d, _⟩ => (.error fault, d)
      | ⟨.ok result, d, parts⟩ =>
        match result.normalize (some (d.context node)) with
        | .error fault => (.error (.dump fault), d)
        | .ok value => carryOut d (d.requests ++ work) ((tag, value) :: fillings)
termination_by Agenda.mk (work.map fun r => r.node.weight)
decreasing_by
  · exact .drop (by simpa [Datum.IsPartOf] using isPart)
  · simp only [List.map_append, List.map_cons]
    exact .keep (by simpa [Datum.IsPartOf] using parts)

def expand (d : Dumper) (node : Datum) : Except Fault Datum × Dumper :=
  let out := leave d.pending (carryOut d.starting [⟨d.nextTag, node⟩] [])
  (out.1.map (assemble d.nextTag), out.2)

def dump (d : Dumper) (node : Datum) : Except Fault String × Dumper :=
  let d := d.note (.dumping node.typeName d.depth)
  match d.expand node with
  | (.ok value, d) => d.format value
  | (.error fault, d) => (.error fault, d)

-- Dumps that handlers run on their own are dumps like any other.
theorem dump_eq_finish (d : Dumper) (node : Datum) :
    d.dump node =
      let d' := d.note (.dumping node.typeName d.depth)
      finish d'.nextTag (leave d.pending (carryOut d'.starting [⟨d'.nextTag, node⟩] [])) := by
  unfold dump expand finish
  simp only [note]
  generalize leave d.pending _ = out
  obtain ⟨result, d⟩ := out
  cases result <;> rfl

-- The dump of a node as handlers get it: a placeholder while a handler is running, otherwise the value.
def doDump (d : Dumper) (node : Datum) : Except Fault Datum × Dumper :=
  match d.pending with
  | none => d.expand node
  | some _ => (.ok (.unfilled (.asked d.nextTag)), d.ask node)

def indent (d : Dumper) : String :=
  Layout.indentation d.depth

end Dumper
end ParenTree
