import Mathlib.Data.List.Forall2
import ParenTree.Proofs.Dumper.Independence
import ParenTree.Proofs.Dumper.Template

-- Steps that fail. If the handlers of a class leave the depth alone, so does a step that fails; and since nothing that a
-- dumper learns on the way makes a difference, the other steps go as if the failed ones had not been there.

namespace ParenTree
namespace Dumper

variable {c : DumperClass} {k : Nat} {d d' : Dumper} {o node : Datum} {α : Type}

-- Asking and looking leave the depth where it is, in the handler and in everything that comes of it.
theorem depth_play {s : Script o α} (hs : s.Quiet) (d : Dumper) (hr : ∀ r ∈ d.requests, r.node.IsPartOf o) :
    (play s d hr).dumper.depth = d.depth := by
  induction s generalizing d
  case done => rfl
  case request hi => exact hi _ (hs _) _ _
  case isNop hi => exact hi _ (hs _) _ _
  case depth hi => exact hi _ (hs _) _ _
  case dump => cases hs
  case format => cases hs
  case setDepth => cases hs

section

variable (hq : c.Quiet)

include hq

theorem depth_handle (h : Steady c d) (node : Datum) : (d.handle node).2.depth = d.depth := by
  cases hn : c.handlerName? node.type
  case none => simp only [handle, h.route_none hn]
  case some name =>
    obtain ⟨handler, e, hl, he, _, _, hz⟩ := h.route_some hn
    have hs := hq _ (mem_of_lookup hl) node
    rw [handle_of_route he]
    exact (depth_play hs e.listening (e.isPartOf_listening node)).trans hz

theorem depth_carryOut (h : Steady c d) (work : List Request) (fillings : Fillings) :
    (d.carryOut work fillings).2.depth = d.depth := by
  induction work using workInduct generalizing d fillings
  case nil => rw [carryOut]
  case cons r work others _ =>
    have hz := depth_handle hq h r.node
    have hs : Steady c (d.handle r.node).2 :=
      (Steady.lasting c).handle (fun part _ _ hd => (Steady.lasting c).dump part hd) h
    rw [carryOut_cons]
    cases hr : d.handle r.node
    case mk result e =>
      rw [hr] at hz hs
      cases result
      case error => exact hz
      case ok => exact (others _ (isPartOf_of_handle hr rfl) hs _).trans hz

theorem depth_expand (h : Steady c d) (node : Datum) : (d.expand node).2.depth = d.depth :=
  depth_carryOut hq ((Steady.lasting c).starting h) _ _

end

theorem format_failed {value : Datum} {fault : Fault} (h : (d.format value).1 = .error fault) : (d.format value).2 = d := by
  simp only [format] at h ⊢
  split at h
  case h_1 => cases h
  case h_2 => rfl

-- A value that has been laid out once can be laid out any number of times.
theorem formatTimes_isOk {value : Datum} {depth : Int} {out : List String × Int} (h : value.words depth = .ok out)
    (d : Dumper) (times : Nat) : (d.formatTimes value times).1.isOk := by
  induction times generalizing d
  case zero => rfl
  case succ times hi =>
    simp only [formatTimes, format, Layout.flatten_eq]
    cases hw : value.words d.depth
    case error => cases h.symm.trans (Datum.words_error hw depth)
    case ok out =>
      have ho := hi { d with depth := out.2 }
      dsimp only
      cases hr : Dumper.formatTimes { d with depth := out.2 } value times
      case mk texts e =>
        rw [hr] at ho
        cases texts
        case error => cases ho
        case ok => rfl

theorem formatTimes_failed {value : Datum} {times : Nat} {fault : Fault} (h : (d.formatTimes value times).1 = .error fault) :
    (d.formatTimes value times).2 = d := by
  cases hw : value.words d.depth
  case ok out =>
    have ho := formatTimes_isOk hw d times
    rw [h] at ho
    cases ho
  case error =>
    cases times
    case zero => rfl
    case succ => simp only [formatTimes, format, Layout.flatten_eq, hw]

theorem perform_failed (hq : c.Quiet) (h : Idle c d) {step : Step} {fault : Fault}
    (hf : (d.perform step).1 = .error fault) : (d.perform step).2.depth = d.depth := by
  cases step
  case dump node =>
    have hn : Steady c (d.note (.dumping node.typeName d.depth)) := h.congr rfl rfl
    have hz := depth_expand hq hn node
    simp only [perform, dump] at hf ⊢
    cases hx : (d.note (.dumping node.typeName d.depth)).expand node
    case mk value e =>
      rw [hx] at hz
      simp only [hx] at hf ⊢
      cases value
      case error => exact hz
      case ok value => exact (congrArg depth (format_failed (error_of_map hf))).trans hz
  case doDump node =>
    simp only [perform, doDump_of_pending h.pending]
    exact depth_expand hq h.toSteady node
  case layOut node times =>
    have hz := depth_expand hq h.toSteady node
    simp only [perform, doDump_of_pending h.pending] at hf ⊢
    cases hx : d.expand node
    case mk value e =>
      rw [hx] at hz
      simp only [hx] at hf ⊢
      cases value
      case error => exact hz
      case ok value => exact (congrArg depth (formatTimes_failed (error_of_map hf))).trans hz
  case format value => exact congrArg depth (format_failed (error_of_map hf))
  case setDepth => cases hf
  case indent => cases hf
  case isNop => cases hf

-- The node of a step comes from outside. A value to be laid out may be any, also one that a step before has given.
def Step.isForeign : Step → Bool
  | dump node | doDump node | layOut node _ => node.isForeign
  | format _ | setDepth _ | indent | isNop _ => true

def Answer.renumber (k : Nat) : Answer → Answer
  | value d => value (d.renumber k)
  | answer => answer

theorem map_renumber {f : α → Answer} (hf : ∀ a, (f a).renumber k = f a) (x : Except Fault α) :
    (x.map f).map (Answer.renumber k) = x.map f := by
  cases x
  case error => rfl
  case ok a => exact congrArg Except.ok (hf a)

theorem Apart.formatTimes (h : Apart c k d d') (value : Datum) (times : Nat) :
    (d'.formatTimes (value.renumber k) times).1 = (d.formatTimes value times).1 ∧
      Apart c k (d.formatTimes value times).2 (d'.formatTimes (value.renumber k) times).2 := by
  induction times generalizing d d'
  case zero => exact ⟨rfl, h⟩
  case succ times hi =>
    obtain ⟨ht, ha⟩ := h.format (Datum.words_renumber k value)
    simp only [Dumper.formatTimes]
    cases hr : d.format value
    case mk text e =>
      cases hr' : d'.format (value.renumber k)
      case mk text' e' =>
        simp only [hr, hr'] at ht ha
        subst ht
        cases text'
        case error => exact ⟨rfl, ha⟩
        case ok =>
          obtain ⟨ht, ha⟩ := hi ha
          exact ⟨by simp only [ht], ha⟩

theorem Apart.perform (hu : c.Uniform) (h : Apart c k d d') (hp : d.pending = none) (hp' : d'.pending = none) {step : Step}
    (hs : step.isForeign) :
    (d'.perform step).1 = (d.perform step).1.map (Answer.renumber k) ∧ Apart c k (d.perform step).2 (d'.perform step).2 := by
  cases step
  case dump node =>
    obtain ⟨ht, ha⟩ := h.dump hu hs
    exact ⟨(congrArg (Except.map _) ht).trans (map_renumber (fun _ => rfl) _).symm, ha⟩
  case doDump node =>
    obtain ⟨ht, ha⟩ := h.expand hu hs
    simp only [Dumper.perform, doDump_of_pending hp, doDump_of_pending hp', ht]
    refine ⟨?_, ha⟩
    cases (d.expand node).1 <;> rfl
  case layOut node times =>
    obtain ⟨ht, ha⟩ := h.expand hu hs
    simp only [Dumper.perform, doDump_of_pending hp, doDump_of_pending hp']
    cases hr : d.expand node
    case mk value e =>
      cases hr' : d'.expand node
      case mk value' e' =>
        simp only [hr, hr'] at ht ha
        subst ht
        cases value
        case error => exact ⟨rfl, ha⟩
        case ok value =>
          obtain ⟨ht, ha⟩ := ha.formatTimes value times
          exact ⟨(congrArg (Except.map _) ht).trans (map_renumber (fun _ => rfl) _).symm, ha⟩
  case format value =>
    obtain ⟨ht, ha⟩ := h.format fun _ => rfl
    exact ⟨(congrArg (Except.map _) ht).trans (map_renumber (fun _ => rfl) _).symm, ha⟩
  case setDepth depth => exact ⟨rfl, h.withDepth depth⟩
  case indent =>
    refine ⟨?_, h⟩
    simp only [Dumper.perform, Dumper.indent, h.depth]
    rfl
  case isNop node =>
    refine ⟨?_, h⟩
    simp only [Dumper.perform, h.left.cls, h.right.cls]
    rfl

-- A step that fails puts a dumper further ahead and does nothing else.
theorem Apart.perform_failed (hq : c.Quiet) (h : Apart c k d d') (hi : Idle c d') {step : Step} {fault : Fault}
    (hf : (d'.perform step).1 = .error fault) : ∃ k', Apart c k' d (d'.perform step).2 := by
  have hn : d'.nextTag ≤ (d'.perform step).2.nextTag := (nextTag_lasting d'.nextTag).perform step (Nat.le_refl _)
  have ht := h.nextTag
  exact ⟨(d'.perform step).2.nextTag - d.nextTag, h.left, (hi.after_perform step).toSteady,
    (Dumper.perform_failed hq hi hf).trans h.depth, by omega⟩

-- The steps that do not fail.
def succeeding (d : Dumper) (steps : List Step) : List Step :=
  ((steps.zip (d.performAll steps).1).filter fun s => s.2.1.isOk).map (·.1)

-- The same answer with the same depth behind it. Which numbers its placeholders have does not count.
def Likewise (answer answer' : Except Fault Answer × Int) : Prop :=
  answer'.2 = answer.2 ∧ ∃ k, answer'.1 = answer.1.map (Answer.renumber k)

theorem succeeding_of_failed {step : Step} {steps : List Step} {fault : Fault} (h : (d.perform step).1 = .error fault) :
    d.succeeding (step :: steps) = (d.perform step).2.succeeding steps := by
  simp only [succeeding, performAll, List.zip_cons_cons, h, List.filter_cons]
  rfl

theorem succeeding_of_ok {step : Step} {steps : List Step} {answer : Answer} (h : (d.perform step).1 = .ok answer) :
    d.succeeding (step :: steps) = step :: (d.perform step).2.succeeding steps := by
  simp only [succeeding, performAll, List.zip_cons_cons, h, List.filter_cons]
  rfl

-- The run without the failed steps stays behind the whole run by some number, which grows with each failed step.
theorem performAll_succeeding (hu : c.Uniform) (hq : c.Quiet) (h : Apart c k d d') (hi : Idle c d) (hi' : Idle c d')
    {steps : List Step} (hs : ∀ step ∈ steps, step.isForeign) :
    List.Forall₂ Likewise (d.performAll (d'.succeeding steps)).1 ((d'.performAll steps).1.filter (·.1.isOk)) := by
  induction steps generalizing k d d'
  case nil => exact .nil
  case cons step steps hn =>
    obtain ⟨hf, hs⟩ := List.forall_mem_cons.mp hs
    cases hr : (d'.perform step).1
    case error fault =>
      obtain ⟨k', ha⟩ := h.perform_failed hq hi' hr
      simp only [succeeding_of_failed hr, performAll, hr, List.filter_cons]
      exact hn ha hi (hi'.after_perform step) hs
    case ok answer =>
      obtain ⟨ht, ha⟩ := h.perform hu hi.pending hi'.pending hf
      simp only [succeeding_of_ok hr, performAll, hr, List.filter_cons]
      refine .cons ⟨ha.depth, k, hr.symm.trans ht⟩ ?_
      exact hn ha (hi.after_perform step) (hi'.after_perform step) hs

-- What fails leaves the depth as it was and no handler running, and can be left out.
theorem failed_steps_leave_no_trace (hu : c.Uniform) (hq : c.Quiet) (depth : Int) :
    (∀ before step d fault, ((new c depth).performAll before).2 = d → (d.perform step).1 = .error fault →
      (d.perform step).2.depth = d.depth ∧ (d.perform step).2.pending = none) ∧
    ∀ steps, (∀ step ∈ steps, step.isForeign) →
      List.Forall₂ Likewise ((new c depth).performAll ((new c depth).succeeding steps)).1
        (((new c depth).performAll steps).1.filter (·.1.isOk)) := by
  have hi : Idle c (new c depth) := ⟨.of_new c depth, rfl⟩
  constructor
  case left =>
    rintro before step d fault rfl hf
    have hd := Idle.of_session c depth before
    exact ⟨perform_failed hq hd hf, (hd.after_perform step).pending⟩
  case right =>
    intro steps hs
    exact performAll_succeeding hu hq (.refl hi.toSteady) hi hi hs

-- Couples, and what is no word: its handler returns a number.
def coupleClass : DumperClass :=
  ⟨"CoupleDumper",
    [("dump_Couple", Template.handler (.group [.value (.literal "couple"), .child "left", .child "right"])),
      ("dump_Number", Template.handler (.value (.int 3))), ("dump_str", Template.handler .self)], []⟩

def couple (left right : Datum) : Datum :=
  .node (.builtin "Couple") [("left", left), ("right", right)]

-- The left part is done when the right one turns out to be no word.
def brokenCouple : Datum :=
  couple (.text "a") (.node (.builtin "Number") [])

theorem uniform_coupleClass : coupleClass.Uniform := by
  simp only [DumperClass.Uniform, coupleClass, List.forall_mem_cons]
  exact ⟨Template.uniform_handler rfl, Template.uniform_handler rfl, Template.uniform_handler rfl, List.forall_mem_nil _⟩

theorem quiet_coupleClass : coupleClass.Quiet := by
  simp only [DumperClass.Quiet, coupleClass, List.forall_mem_cons]
  exact ⟨Template.quiet_handler rfl, Template.quiet_handler rfl, Template.quiet_handler rfl, List.forall_mem_nil _⟩

theorem dump_brokenCouple : ((new coupleClass 1).dump brokenCouple).1 =
    .error (.dump (.malformed "int" (some "CoupleDumper.dump_Number"))) := by
  have hc : (((new coupleClass 1).note (.dumping "Couple" 1)).opening brokenCouple).Course _ ⟨_, ⟨2, _⟩ :: [], _⟩ :=
    .call rfl (.call rfl .refl)
  exact dump_of_failed hc rfl

theorem dump_coupleWord (h : Idle coupleClass d) (hz : d.depth = 2) : (d.dump (.text "a")).1 = .ok "a" := by
  have hc : (((new coupleClass 2).note (.dumping "str" 2)).opening (.text "a")).Course _ ⟨_, [], _⟩ := .call rfl .refl
  have hn : ((new coupleClass 2).dump (.text "a")).1 = .ok "a" := by
    rw [dump_of_done hc, format, Layout.flatten_eq]
    rfl
  exact (dump_eq_of_steady uniform_coupleClass rfl (.of_new coupleClass 2) h.toSteady hz).left.trans hn

theorem brokenCouple_leaves_no_trace :
    ((new coupleClass 1).perform (.dump brokenCouple)).1.isOk = false ∧
      ((new coupleClass 1).perform (.dump brokenCouple)).2.depth = 1 ∧
      ((new coupleClass 1).perform (.dump brokenCouple)).2.pending = none ∧
      List.Forall₂ Likewise ((new coupleClass 1).performAll [.setDepth 2, .dump (.text "a")]).1
        (((new coupleClass 1).performAll [.dump brokenCouple, .setDepth 2, .format (.int 3), .dump (.text "a")]).1.filter
          (·.1.isOk)) := by
  obtain ⟨hf, hs⟩ := failed_steps_leave_no_trace uniform_coupleClass quiet_coupleClass 1
  have he : ((new coupleClass 1).perform (.dump brokenCouple)).1 = _ := congrArg (Except.map _) dump_brokenCouple
  have hk : (new coupleClass 1).succeeding [.dump brokenCouple, .setDepth 2, .format (.int 3), .dump (.text "a")] =
      [.setDepth 2, .dump (.text "a")] := by
    have hw (d : Dumper) : (d.perform (.format (.int 3))).1 = .error (.dump (.malformed "int" (some "flatten"))) := by
      simp only [perform, format, Layout.flatten_eq]
      rfl
    have hi := Idle.of_session coupleClass 1 [.dump brokenCouple, .setDepth 2]
    have hz := perform_failed quiet_coupleClass hi (hw _)
    have ht : (Dumper.perform _ (.dump (.text "a"))).1 = _ :=
      congrArg (Except.map _) (dump_coupleWord (hi.after_perform (.format (.int 3))) hz)
    rw [succeeding_of_failed he, succeeding_of_ok rfl, succeeding_of_failed (hw _)]
    exact congrArg (List.cons _) (succeeding_of_ok ht)
  have hn := hs [.dump brokenCouple, .setDepth 2, .format (.int 3), .dump (.text "a")] (by decide)
  rw [hk] at hn
  obtain ⟨hz, hp⟩ := hf [] (.dump brokenCouple) _ _ rfl he
  exact ⟨by rw [he]; rfl, hz, hp, hn⟩

end Dumper
end ParenTree
