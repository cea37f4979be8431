import ParenTree.Proofs.Dumper.Independence
import ParenTree.Proofs.Dumper.Template
import ParenTree.Proofs.Layout.Rise

-- Dumps that leave the depth where it was. Handlers that step out as often as they step in make values that do not rise, and
-- the depth does not move for the length of a session of dumps.

namespace ParenTree

namespace Datum

mutual

-- A datum that holds nothing of what values are laid out with: objects, lists, texts, numbers and the like.
def isPlain : Datum → Bool
  | text _ | int _ | float _ | bool _ | null | dict => true
  | list items | tuple items => allPlain items
  | node _ fields => fieldsPlain fields
  | literal _ | group _ | marker _ | unfilled _ | filled .. => false

def allPlain : List Datum → Bool
  | [] => true
  | d :: ds => d.isPlain && allPlain ds

def fieldsPlain : List (String × Datum) → Bool
  | [] => true
  | f :: fs => fieldPlain f && fieldsPlain fs

def fieldPlain : String × Datum → Bool
  | (_, d) => d.isPlain

end

theorem allPlain_iff {ds : List Datum} : allPlain ds = true ↔ ∀ d ∈ ds, d.isPlain := by
  induction ds
  case nil => simp [allPlain]
  case cons d ds hi => simp [allPlain, hi]

theorem fieldsPlain_iff {fields : List (String × Datum)} : fieldsPlain fields = true ↔ ∀ field ∈ fields, field.2.isPlain := by
  induction fields
  case nil => simp [fieldsPlain]
  case cons field fields hi =>
    obtain ⟨name, d⟩ := field
    rw [fieldsPlain, fieldPlain, Bool.and_eq_true, hi, List.forall_mem_cons]

theorem hereditary_isPlain : Hereditary isPlain where
  text _ := rfl
  list := allPlain_iff.mp
  tuple := allPlain_iff.mp
  node := fieldsPlain_iff.mp

mutual

theorem isForeign_of_isPlain : ∀ {d : Datum}, d.isPlain → d.isForeign
  | text _, _ | int _, _ | float _, _ | bool _, _ | null, _ | dict, _ => rfl
  | list _, h | tuple _, h => allForeign_of_allPlain h
  | node .., h => fieldsForeign_of_fieldsPlain h

theorem allForeign_of_allPlain : ∀ {ds : List Datum}, allPlain ds → allForeign ds
  | [], _ => rfl
  | _ :: _, h => by
    obtain ⟨hd, hs⟩ := Bool.and_eq_true_iff.mp h
    exact Bool.and_eq_true_iff.mpr ⟨isForeign_of_isPlain hd, allForeign_of_allPlain hs⟩

theorem fieldsForeign_of_fieldsPlain : ∀ {fields : List (String × Datum)}, fieldsPlain fields → fieldsForeign fields
  | [], _ => rfl
  | _ :: _, h => by
    obtain ⟨hf, hs⟩ := Bool.and_eq_true_iff.mp h
    exact Bool.and_eq_true_iff.mpr ⟨fieldForeign_of_fieldPlain hf, fieldsForeign_of_fieldsPlain hs⟩

theorem fieldForeign_of_fieldPlain : ∀ {field : String × Datum}, fieldPlain field → fieldForeign field
  | (_, _), h => isForeign_of_isPlain h

end

theorem rise_of_isPlain {d : Datum} (h : d.isPlain) : d.rise = 0 := by
  induction d using inductInside
  case list items hi | tuple items hi => exact riseAll_eq_zero fun d hd => hi d hd (allPlain_iff.mp h d hd)
  case group | filled | unfilled | literal | marker => cases h
  all_goals rfl

end Datum

-- A script that asks for plain parts and looks around, and ends with a result of which `p` holds.
def Script.Yields {o : Datum} {α : Type} (p : α → Prop) : Script o α → Prop
  | done a => p a
  | request part _ next => part.isPlain ∧ ∀ tag, (next tag).Yields p
  | isNop _ next => ∀ b, (next b).Yields p
  | depth next => ∀ n, (next n).Yields p
  | dump .. | format .. | setDepth .. => False

theorem Script.Yields.bind {o : Datum} {α β : Type} {p : α → Prop} {q : β → Prop} {s : Script o α} {f : α → Script o β}
    (hs : s.Yields p) (hf : ∀ a, p a → (f a).Yields q) : (s.bind f).Yields q := by
  induction s
  case done a => exact hf a hs
  case request hi => exact ⟨hs.left, fun tag => hi tag (hs.right tag)⟩
  case isNop hi => exact fun b => hi b (hs b)
  case depth hi => exact fun n => hi n (hs n)
  case dump => cases hs
  case format => cases hs
  case setDepth => cases hs

namespace Action

variable {o : Datum} {α β : Type}

-- An action that fails, or ends with a result of which `p` holds.
def Yields (p : α → Prop) (x : Action o α) : Prop :=
  Script.Yields (fun result => ∀ a, result = .ok a → p a) x.run

namespace Yields

variable {p : α → Prop} {q : β → Prop} {x : Action o α} {parts : List { d : Datum // d.IsPartOf o }}

theorem pure {a : α} (h : p a) : Yields p (pure a : Action o α) := by
  rintro _ ⟨⟩
  exact h

theorem throw (fault : Fault) : Yields p (throw fault : Action o α) := by
  rintro _ ⟨⟩

theorem bind {f : α → Action o β} (hx : Yields p x) (hf : ∀ a, p a → Yields q (f a)) : Yields q (x >>= f) := by
  refine Script.Yields.bind hx ?_
  intro result hr
  cases result
  case error => exact throw _
  case ok a => exact hf a (hr a rfl)

theorem child {part : { d : Datum // d.IsPartOf o }} (h : part.1.isPlain) : Yields (·.rise = 0) (child part) :=
  ⟨h, fun _ => pure rfl⟩

theorem mapM_child (h : ∀ part ∈ parts, part.1.isPlain) : Yields (∀ d ∈ ·, d.rise = 0) (parts.mapM Action.child) := by
  have hl {sofar : List Datum} (hs : ∀ d ∈ sofar, d.rise = 0) :
      Yields (∀ d ∈ ·, d.rise = 0) (List.mapM.loop Action.child parts sofar) := by
    induction parts generalizing sofar
    case nil => exact pure fun d hd => hs d (List.mem_reverse.mp hd)
    case cons part parts hi =>
      obtain ⟨hp, ho⟩ := List.forall_mem_cons.mp h
      exact bind (child hp) fun d hd => hi ho (List.forall_mem_cons.mpr ⟨hd, hs⟩)
  exact hl (List.forall_mem_nil _)

theorem isNop (d : Datum) : Yields (fun _ => True) (Action.isNop d : Action o Bool) :=
  fun _ => pure trivial

theorem field (ho : o.isPlain) (name : String) : Yields (·.1.isPlain) (Action.field name : Action o _) := by
  rw [Action.field]
  split
  case h_1 hd => exact pure (Datum.hereditary_isPlain.field? ho hd)
  case h_2 => exact throw _

theorem elements (ho : o.isPlain) (name : String) : Yields (∀ e ∈ ·, e.1.isPlain) (Action.elements name : Action o _) := by
  refine bind (field ho name) fun d hd => ?_
  split
  case h_2 => exact throw _
  case h_1 es he =>
    refine pure ?_
    simp only [List.mem_map]
    rintro _ ⟨e, hm, rfl⟩
    exact Datum.hereditary_isPlain.elements? hd he e hm

end Yields
end Action

-- A handler whose values, on plain nodes, do not rise.
def Handler.Level (handler : Handler) : Prop :=
  ∀ o, o.isPlain → Action.Yields (·.rise = 0) (handler o)

def DumperClass.Level (c : DumperClass) : Prop :=
  ∀ h ∈ c.handlers, h.2.Level

namespace Dumper

variable {c : DumperClass} {d : Dumper} {o node : Datum} {α : Type}

-- None of the values rises.
def Fillings.Level (fillings : Fillings) : Prop :=
  ∀ f ∈ fillings, f.2.rise = 0

theorem Fillings.Level.rise_of_lookup {fillings : Fillings} (h : fillings.Level) {tag : Nat} {value : Datum}
    (hl : fillings.lookup tag = some value) : value.rise = 0 :=
  h (tag, value) (mem_of_lookup hl)

theorem Fillings.Level.completeOnto {values fillings : Fillings} (hv : values.Level) (hf : fillings.Level) :
    (completeOnto values fillings).Level := by
  induction fillings generalizing values
  case nil => exact hv
  case cons f fillings hi =>
    obtain ⟨hz, hf⟩ := List.forall_mem_cons.mp hf
    exact hi (List.forall_mem_cons.mpr ⟨(Datum.rise_fill hv.rise_of_lookup f.2).trans hz, hv⟩) hf

theorem Fillings.Level.assemble {fillings : Fillings} (h : fillings.Level) (tag : Nat) : (assemble tag fillings).rise = 0 := by
  have hc : (complete fillings).Level := completeOnto (List.forall_mem_nil _) h
  rw [Dumper.assemble]
  cases hl : (complete fillings).lookup tag
  case none => rfl
  case some value => exact hc.rise_of_lookup hl

theorem format_level {value : Datum} (h : value.rise = 0) : (d.format value).2.depth = d.depth := by
  rw [format, Layout.flatten_eq]
  cases hw : value.words d.depth
  case error => rfl
  case ok out =>
    have hz := Datum.words_depth hw
    rwa [h, Int.add_zero] at hz

theorem isPlain_requests_ask {part : Datum} (hp : part.isPlain) (h : ∀ r ∈ d.requests, r.node.isPlain) :
    ∀ r ∈ (d.ask part).requests, r.node.isPlain := by
  intro r hr
  obtain ⟨rs, hs, hm⟩ := mem_requests.mp hr
  obtain ⟨qs, hq, rfl⟩ := Option.map_eq_some_iff.mp hs
  cases hm
  case head => exact hp
  case tail hm => exact h r (mem_requests.mpr ⟨qs, hq, hm⟩)

theorem play_yields {p : α → Prop} {s : Script o α} (hs : s.Yields p) (hr : ∀ r ∈ d.requests, r.node.IsPartOf o)
    (h : ∀ r ∈ d.requests, r.node.isPlain) :
    p (play s d hr).result ∧ (play s d hr).dumper.depth = d.depth ∧ ∀ r ∈ (play s d hr).dumper.requests, r.node.isPlain := by
  induction s generalizing d
  case done => exact ⟨hs, rfl, h⟩
  case request isPart _ hi => exact hi _ (hs.right _) (requests_ask isPart hr) (isPlain_requests_ask hs.left h)
  case isNop hi => exact hi _ (hs _) hr h
  case depth hi => exact hi _ (hs _) hr h
  case dump => cases hs
  case format => cases hs
  case setDepth => cases hs

-- The ends of a call that leaves the depth where it was.
inductive HandledLevel (d : Dumper) : Except Fault Datum × Dumper → Prop
  | failed {fault : Fault} {e : Dumper} : e.depth = d.depth → HandledLevel d (.error fault, e)
  | handled {value : Datum} {e : Dumper} : e.depth = d.depth → value.rise = 0 → (∀ r ∈ e.requests, r.node.isPlain) →
    HandledLevel d (.ok value, e)

section

variable (hl : c.Level)

include hl

theorem handledLevel (h : Steady c d) (hn : node.isPlain) : HandledLevel d (d.handle node) := by
  cases hf : c.handlerName? node.type
  case none =>
    simp only [handle, h.route_none hf]
    exact .failed rfl
  case some name =>
    obtain ⟨handler, e, hh, he, _, _, hz⟩ := h.route_some hf
    have hy := hl _ (mem_of_lookup hh) node hn
    obtain ⟨hv, hd, hp⟩ := play_yields hy (e.isPartOf_listening node) (List.forall_mem_nil _)
    change ∀ value, (e.attend handler node).result = .ok value → value.rise = 0 at hv
    replace hd : (e.attend handler node).dumper.depth = d.depth := hd.trans hz
    rw [handle_of_route he]
    cases hr : (e.attend handler node).result
    case error => exact .failed hd
    case ok result =>
      show HandledLevel d ((result.normalize _).mapError _, _)
      cases hs : result.normalize (some ((e.attend handler node).dumper.context node))
      case error => exact .failed hd
      case ok value => exact .handled hd ((Datum.rise_normalize hs).trans (hv result hr)) hp

-- A work list of plain nodes: the depth is the same at its end, and the values that it has come to do not rise.
theorem carryOut_level (h : Steady c d) {work : List Request} (hw : ∀ r ∈ work, r.node.isPlain) {fillings : Fillings}
    (hf : fillings.Level) :
    (d.carryOut work fillings).2.depth = d.depth ∧ ∀ values, (d.carryOut work fillings).1 = .ok values → values.Level := by
  induction work using workInduct generalizing d fillings
  case nil =>
    rw [carryOut]
    refine ⟨rfl, ?_⟩
    rintro _ ⟨⟩
    exact hf
  case cons r work others _ =>
    obtain ⟨hn, hw⟩ := List.forall_mem_cons.mp hw
    have hh := handledLevel hl h hn
    have hs : Steady c (d.handle r.node).2 :=
      (Steady.lasting c).handle (fun part _ _ hd => (Steady.lasting c).dump part hd) h
    rw [carryOut_cons]
    cases hr : d.handle r.node
    case mk result e =>
      rw [hr] at hh hs
      cases hh
      case failed hz => exact ⟨hz, fun _ he => by cases he⟩
      case handled value hv hz hq =>
        obtain ⟨hd, hl⟩ := others _ (isPartOf_of_handle hr rfl) hs (List.forall_mem_append.mpr ⟨hq, hw⟩)
          (List.forall_mem_cons.mpr ⟨hv, hf⟩ : Fillings.Level ((r.tag, value) :: fillings))
        exact ⟨hd.trans hz, hl⟩

theorem dump_level (h : Steady c d) (hn : node.isPlain) : (d.dump node).2.depth = d.depth := by
  have hs : Steady c (d.note (.dumping node.typeName d.depth)).starting := h.congr rfl rfl
  have hw : ∀ r ∈ [Request.mk d.nextTag node], r.node.isPlain := by simpa using hn
  obtain ⟨hz, hv⟩ := carryOut_level hl hs hw (List.forall_mem_nil _)
  rw [dump_eq_finish]
  show (finish d.nextTag (leave d.pending (carryOut _ [⟨d.nextTag, node⟩] []))).2.depth = _
  cases ho : carryOut (d.note (.dumping node.typeName d.depth)).starting [⟨d.nextTag, node⟩] []
  case mk result e =>
    rw [ho] at hz hv
    cases result
    case error => exact hz
    case ok values => exact (format_level ((hv values rfl).assemble d.nextTag)).trans hz

-- A dump leaves nothing behind that would make a difference to the next one.
theorem performAll_dumps (hu : c.Uniform) (h : Steady c d) {nodes : List Datum} (hn : ∀ node ∈ nodes, node.isPlain) :
    (d.performAll (nodes.map .dump)).1 = nodes.map fun node => (((new c d.depth).dump node).1.map .text, d.depth) := by
  induction nodes generalizing d
  case nil => rfl
  case cons node nodes hi =>
    obtain ⟨hf, hs⟩ := List.forall_mem_cons.mp hn
    have hz : (d.perform (.dump node)).2.depth = d.depth := dump_level hl h hf
    have ht := (dump_eq_of_steady hu (Datum.isForeign_of_isPlain hf) (.of_new c d.depth) h rfl).left
    have hr := hi ((Steady.lasting c).perform (.dump node) h) hs
    rw [hz] at hr
    simp only [List.map_cons, performAll, hz, hr]
    exact congrArg (fun text => (Except.map Answer.text text, d.depth) :: _) ht

end
end Dumper
end ParenTree
