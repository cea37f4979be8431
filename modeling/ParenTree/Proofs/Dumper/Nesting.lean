import ParenTree.Proofs.Dumper.Independence
import ParenTree.Proofs.Dumper.Template

-- Handlers that run dumps of their own. Such a dump takes place apart from what the handler has asked for: it ends as it would
-- outside of all handlers, and what was asked for before and after it is carried out once, in order.

namespace ParenTree
namespace Dumper

variable {c : DumperClass} {d d' e : Dumper} {o node root value : Datum} {α : Type}

-- From one point of a script to a later one, with what is asked for in between.
inductive Reaches : Script o α → Dumper → List Request → Script o α → Dumper → Prop
  | refl {s : Script o α} {d : Dumper} : Reaches s d [] s d
  | request {part : Datum} {isPart : part.IsPartOf o} {next : Nat → Script o α} {s : Script o α} {d d' : Dumper}
    {asked : List Request} :
    Reaches (next d.nextTag) (d.ask part) asked s d' → Reaches (.request part isPart next) d (⟨d.nextTag, part⟩ :: asked) s d'
  | dump {part : Datum} {isPart : part.IsPartOf o} {next : Except Fault String → Script o α} {s : Script o α} {d d' : Dumper}
    {asked : List Request} :
    Reaches (next (d.dump part).1) (d.dump part).2 asked s d' → Reaches (.dump part isPart next) d asked s d'
  | format {value : Datum} {next : Except Fault String → Script o α} {s : Script o α} {d d' : Dumper} {asked : List Request} :
    Reaches (next (d.format value).1) (d.format value).2 asked s d' → Reaches (.format value next) d asked s d'
  | isNop {x : Datum} {next : Bool → Script o α} {s : Script o α} {d d' : Dumper} {asked : List Request} :
    Reaches (next (d.cls.isNop x)) d asked s d' → Reaches (.isNop x next) d asked s d'
  | depth {next : Int → Script o α} {s : Script o α} {d d' : Dumper} {asked : List Request} :
    Reaches (next d.depth) d asked s d' → Reaches (.depth next) d asked s d'
  | setDepth {n : Int} {next s : Script o α} {d d' : Dumper} {asked : List Request} :
    Reaches next { d with depth := n } asked s d' → Reaches (.setDepth n next) d asked s d'

namespace Reaches

variable {s s' : Script o α} {asked : List Request}

theorem dump_of_eq {part : Datum} {isPart : part.IsPartOf o} {next : Except Fault String → Script o α}
    {text : Except Fault String} (ht : (d.dump part).1 = text) (h : Reaches (next text) (d.dump part).2 asked s d') :
    Reaches (.dump part isPart next) d asked s d' :=
  .dump (ht ▸ h)

-- What a run does is what it does from any point that it reaches.
theorem play_eq (h : Reaches s d asked s' d') (hr : ∀ r ∈ d.requests, r.node.IsPartOf o) :
    ∃ hr', play s d hr = play s' d' hr' := by
  induction h
  case refl => exact ⟨hr, rfl⟩
  case request hi => exact hi _
  case dump hi => exact hi _
  case format hi => exact hi _
  case isNop hi => exact hi _
  case depth hi => exact hi _
  case setDepth hi => exact hi _

theorem play (s : Script o α) (d : Dumper) (hr : ∀ r ∈ d.requests, r.node.IsPartOf o) :
    ∃ asked, Reaches s d asked (.done (Dumper.play s d hr).result) (Dumper.play s d hr).dumper := by
  induction s generalizing d
  case done => exact ⟨[], .refl⟩
  case request part isPart next hi =>
    obtain ⟨_, h⟩ := hi _ _ (requests_ask isPart hr)
    exact ⟨_, .request h⟩
  case dump part isPart next hi =>
    obtain ⟨_, h⟩ := hi _ _ (requests_congr (d.dump_pending part) ▸ hr)
    exact ⟨_, .dump h⟩
  case format value next hi =>
    obtain ⟨_, h⟩ := hi _ _ (requests_congr (d.format_pending value) ▸ hr)
    exact ⟨_, .format h⟩
  case isNop hi =>
    obtain ⟨_, h⟩ := hi _ d hr
    exact ⟨_, .isNop h⟩
  case depth hi =>
    obtain ⟨_, h⟩ := hi _ d hr
    exact ⟨_, .depth h⟩
  case setDepth n _ hi =>
    obtain ⟨_, h⟩ := hi { d with depth := n } hr
    exact ⟨_, .setDepth h⟩

theorem pending_isSome (h : Reaches s d asked s' d') (hp : d.pending.isSome) : d'.pending.isSome := by
  induction h
  case refl => exact hp
  case request hi => exact hi (by simpa [ask] using hp)
  case dump part _ _ _ d _ _ _ hi => exact hi (by rwa [d.dump_pending part])
  case format value _ _ d _ _ _ hi => exact hi (by rwa [d.format_pending value])
  case isNop hi => exact hi hp
  case depth hi => exact hi hp
  case setDepth hi => exact hi hp

-- Asking adds to what was asked for; dumps of parts and all else leave it as it was.
theorem requests_eq (h : Reaches s d asked s' d') (hp : d.pending.isSome) : d'.requests = d.requests ++ asked := by
  induction h
  case refl => exact (List.append_nil _).symm
  case request part _ _ _ d _ _ _ hi =>
    obtain ⟨rs, hs⟩ := Option.isSome_iff_exists.mp hp
    have ha : (d.ask part).requests = d.requests ++ [⟨d.nextTag, part⟩] := by simp [requests, ask, hs]
    rw [hi (by simp [ask, hs]), ha, List.append_assoc]
    rfl
  case dump part _ _ _ d _ _ _ hi =>
    have hd := d.dump_pending part
    rw [hi (by rwa [hd]), requests_congr hd]
  case format value _ _ d _ _ _ hi =>
    have hf := d.format_pending value
    rw [hi (by rwa [hf]), requests_congr hf]
  case isNop hi => exact hi hp
  case depth hi => exact hi hp
  case setDepth hi => exact hi hp

-- A handler that does not look at the numbers of placeholders runs dumps of data from outside only.
theorem isForeign_of_dump {k : Nat} {move : α → α} {t : Script o α} {part : Datum} {isPart : part.IsPartOf o}
    {next : Except Fault String → Script o α} (h : Reaches s d asked (.dump part isPart next) d')
    (hs : Script.Alike k move s t) : part.isForeign := by
  generalize he : Script.dump part isPart next = s' at h
  induction h generalizing t
  case refl =>
    subst he
    cases hs
    assumption
  case request hi =>
    cases hs
    case request hs => exact hi (hs _) he
  case dump hi =>
    cases hs
    case dump hs => exact hi (hs _) he
  case format hi =>
    cases hs
    case format hs => exact hi (hs _) he
  case isNop hi =>
    cases hs
    case isNop hs => exact hi (hs _) he
  case depth hi =>
    cases hs
    case depth hs => exact hi (hs _) he
  case setDepth hi =>
    cases hs
    case setDepth hs => exact hi hs he

end Reaches

-- Whatever was asked for has a number from `base` on that has been used up.
structure Numbered (base : Nat) (d : Dumper) : Prop where
  base_le : base ≤ d.nextTag
  tags : ∀ q ∈ d.requests, base ≤ q.tag ∧ q.tag < d.nextTag

namespace Numbered

variable {base : Nat}

theorem ask (h : Numbered base d) (part : Datum) : Numbered base (d.ask part) where
  base_le := Nat.le_succ_of_le h.base_le
  tags q hq := by
    obtain ⟨rs, hs, hm⟩ := mem_requests.mp hq
    obtain ⟨qs, hp, rfl⟩ := Option.map_eq_some_iff.mp hs
    show base ≤ q.tag ∧ q.tag < d.nextTag + 1
    cases hm
    case head => exact ⟨h.base_le, Nat.lt_succ_self _⟩
    case tail hm =>
      obtain ⟨hb, hl⟩ := h.tags q (mem_requests.mpr ⟨qs, hp, hm⟩)
      exact ⟨hb, Nat.lt_succ_of_lt hl⟩

theorem of_le (h : Numbered base d) (hn : d.nextTag ≤ d'.nextTag) (hp : d'.pending = d.pending) : Numbered base d' where
  base_le := Nat.le_trans h.base_le hn
  tags q hq := by
    obtain ⟨hb, hl⟩ := h.tags q (requests_congr hp ▸ hq)
    exact ⟨hb, Nat.lt_of_lt_of_le hl hn⟩

end Numbered

-- The requests of a call have numbers that no request before had.
theorem numbered_of_handle (h : d.handle node = (.ok value, e)) : Numbered d.nextTag e := by
  cases hf : d.route node
  case mk found e₁ =>
    cases found
    case error => simp [handle, hf] at h
    case ok handler =>
      obtain ⟨_, _, he⟩ := d.route_eq node
      have hl : Numbered d.nextTag e₁.listening := by
        rw [hf] at he
        refine ⟨?_, List.forall_mem_nil _⟩
        rw [show e₁ = _ from he]
        exact Nat.le_refl _
      have ha : Numbered d.nextTag (e₁.attend handler node).dumper := by
        refine run_keeps (P := Numbered d.nextTag) (fun h => h.ask _) ?_ ?_ ?_ (handler node) _ hl
        case refine_1 =>
          intro part d _ h
          exact h.of_le ((nextTag_lasting d.nextTag).dump part (Nat.le_refl _)) (d.dump_pending part)
        case refine_2 =>
          intro d value h
          exact h.of_le ((nextTag_lasting d.nextTag).format (Nat.le_refl _)) (d.format_pending value)
        case refine_3 => exact fun h => h.of_le (Nat.le_refl _) rfl
      rw [handle_of_route hf] at h
      have hx : (e₁.attend handler node).dumper = e := (Prod.ext_iff.mp h).right
      rwa [hx] at ha

namespace Stage

variable {s t : Stage} {calls : List Request}

-- Whatever else comes up on the way, of the requests that were there each is carried out once and in order, or still waits.
theorem Course.filter_eq (h : Course s calls t) {p : Request → Bool} (hp : ∀ q, p q → q.tag < s.dumper.nextTag) :
    (calls ++ t.work).filter p = s.work.filter p := by
  induction h
  case refl => rfl
  case call d d' r value work calls fillings _ hc _ hi =>
    have hd' := numbered_of_handle hc
    have hn : d'.requests.filter p = [] := by
      refine List.filter_eq_nil_iff.mpr ?_
      intro q hq hpq
      exact absurd (hp q hpq) (Nat.not_lt.mpr (hd'.tags q hq).left)
    have ho : (calls ++ _).filter p = (d'.requests ++ work).filter p :=
      hi fun q hq => Nat.lt_of_lt_of_le (hp q hq) hd'.base_le
    rw [d'.requests.filter_append work, hn, List.nil_append] at ho
    rw [List.cons_append, List.filter_cons, List.filter_cons, ho]

theorem exists_course (s : Stage) :
    (∃ calls e fillings, s.Course calls ⟨e, [], fillings⟩) ∨
      ∃ calls e r work fillings fault, s.Course calls ⟨e, r :: work, fillings⟩ ∧ (e.handle r.node).1 = .error fault := by
  obtain ⟨d, work, fillings⟩ := s
  induction work using workInduct generalizing d fillings
  case nil => exact .inl ⟨[], d, fillings, .refl⟩
  case cons r work others _ =>
    cases hr : d.handle r.node
    case mk result e =>
      cases result
      case error fault => exact .inr ⟨[], d, r, work, fillings, fault, .refl, by rw [hr]⟩
      case ok value =>
        rcases others e.requests (isPartOf_of_handle hr rfl) e ((r.tag, value) :: fillings) with
          ⟨calls, e', fillings', hc⟩ | ⟨calls, e', q, work', fillings', fault, hc, hf⟩
        case inl => exact .inl ⟨_, e', fillings', .call hr hc⟩
        case inr => exact .inr ⟨_, e', q, work', fillings', fault, .call hr hc, hf⟩

-- A work list of nodes from outside, whose numbers have been used up.
structure Proper (c : DumperClass) (s : Stage) : Prop where
  steady : Steady c s.dumper
  foreign : ∀ r ∈ s.work, r.node.isForeign
  made : ∀ r ∈ s.work, r.tag < s.dumper.nextTag

theorem Proper.opening (hd : Steady c d) (hr : root.isForeign) : Proper c (d.opening root) where
  steady := (Steady.lasting c).starting hd
  foreign r h := by
    rw [List.mem_singleton.mp h]
    exact hr
  made r h := by
    rw [List.mem_singleton.mp h]
    exact Nat.lt_succ_self _

theorem Proper.call (hu : c.Uniform) {r : Request} {work : List Request} {fillings : Fillings}
    (h : Proper c ⟨d, r :: work, fillings⟩) (hc : d.handle r.node = (.ok value, e)) (fillings' : Fillings) :
    Proper c ⟨e, e.requests ++ work, fillings'⟩ := by
  have hh := (Apart.refl h.steady).handle hu (h.foreign r List.mem_cons_self) fun _ _ hf => fun ha => ha.dump hu hf
  obtain ⟨_, hb⟩ := hh.abreast hc
  have hn := numbered_of_handle hc
  refine ⟨hb.left, ?_, ?_⟩
  case refine_1 =>
    intro q hq
    cases List.mem_append.mp hq
    case inl hq => exact hb.foreign q hq
    case inr hq => exact h.foreign q (List.mem_cons_of_mem r hq)
  case refine_2 =>
    intro q hq
    cases List.mem_append.mp hq
    case inl hq => exact (hn.tags q hq).right
    case inr hq => exact Nat.lt_of_lt_of_le (h.made q (List.mem_cons_of_mem r hq)) hn.base_le

theorem Proper.course (hu : c.Uniform) (h : Course s calls t) (hs : Proper c s) : Proper c t := by
  induction h
  case refl => exact hs
  case call hc _ hi => exact hi (hs.call hu hc _)

end Stage

-- A call of a handler while a node is expanded: the calls before it, the dumper that comes to it and its request, what else is
-- on the work list, and the handler that was found.
structure Visit (d : Dumper) (root : Datum) where
  calls : List Request
  dumper : Dumper
  request : Request
  work : List Request
  fillings : Fillings
  course : (d.opening root).Course calls ⟨dumper, request :: work, fillings⟩
  handler : Handler
  listener : Dumper
  routed : dumper.route request.node = (.ok handler, listener)

namespace Visit

def script (v : Visit d root) : Script v.request.node (Except Fault Datum) :=
  (v.handler v.request.node).run

-- The end of the handler.
def ran (v : Visit d root) : Ran v.request.node (Except Fault Datum) :=
  v.listener.attend v.handler v.request.node

-- The handler has asked for `asked` and is about to dump `part`.
def ComesTo (v : Visit d root) (asked : List Request) (part : Datum) (e : Dumper) : Prop :=
  ∃ isPart next, Reaches v.script v.listener.listening asked (.dump part isPart next) e

end Visit

-- Dumpers that are about to expand a node: between two steps, or inside a handler that was called while such a dumper expanded
-- a node, and so on.
inductive Ready (c : DumperClass) : Dumper → Prop
  | session (depth : Int) (steps : List Step) : Ready c ((new c depth).performAll steps).2
  | noted {d : Dumper} {event : Event} : Ready c d → Ready c (d.note event)
  | nested {d e : Dumper} {root part : Datum} {asked : List Request} (v : Visit d root) :
    Ready c d → v.ComesTo asked part e → Ready c e

-- What comes of the requests on a work list that are marked by their numbers.
inductive CarriedOut (s : Stage) (asked : List Request) : Except Fault Fillings → Prop
  -- Each one is carried out, once and in order.
  | all {calls : List Request} {e : Dumper} {fillings : Fillings} : s.Course calls ⟨e, [], fillings⟩ →
    calls.filter (fun q => q.tag ∈ asked.map (·.tag)) = asked → CarriedOut s asked (.ok fillings)
  -- The same holds up to a call that fails, and the others still wait behind it.
  | upTo {calls : List Request} {e : Dumper} {r : Request} {work : List Request} {fillings : Fillings} {fault : Fault} :
    s.Course calls ⟨e, r :: work, fillings⟩ → (e.handle r.node).1 = .error fault →
    (calls ++ r :: work).filter (fun q => q.tag ∈ asked.map (·.tag)) = asked → CarriedOut s asked (.error fault)

namespace Lasting

variable {P : Dumper → Prop} (h : Lasting P)

include h

theorem course {s t : Stage} {calls : List Request} (hc : s.Course calls t) (hs : P s.dumper) : P t.dumper := by
  induction hc
  case refl => exact hs
  case call d _ r _ _ _ _ _ hc _ hi =>
    have hh : P (d.handle r.node).2 := h.handle (fun part _ _ hd => h.dump part hd) hs
    rw [hc] at hh
    exact hi hh

theorem reaches {s s' : Script o α} {asked : List Request} (hr : Reaches s d asked s' d') (hd : P d) : P d' := by
  induction hr
  case refl => exact hd
  case request hi => exact hi (h.ask hd)
  case dump hi => exact hi (h.dump _ hd)
  case format hi => exact hi (h.format hd)
  case isNop hi => exact hi hd
  case depth hi => exact hi hd
  case setDepth hi => exact hi (h.depth hd)

theorem listener (v : Visit d root) (hd : P d) : P v.listener := by
  have hr : P (v.dumper.route v.request.node).2 := h.route (h.course v.course (h.starting hd))
  rwa [v.routed] at hr

end Lasting

theorem Ready.steady (h : Ready c d) : Steady c d := by
  induction h
  case session depth steps => exact (Idle.of_session c depth steps).toSteady
  case noted hi => exact (Steady.lasting c).note hi
  case nested v _ hr hi =>
    obtain ⟨_, _, hr⟩ := hr
    exact (Steady.lasting c).reaches hr ((Steady.lasting c).pending ((Steady.lasting c).listener v hi))

section

variable {v : Visit d root} {asked : List Request} {part : Datum}

theorem Visit.ComesTo.requests_eq (h : v.ComesTo asked part e) : e.requests = asked := by
  obtain ⟨_, _, hr⟩ := h
  exact hr.requests_eq rfl

theorem Visit.reaches_ran (v : Visit d root) :
    Reaches v.script v.listener.listening v.ran.dumper.requests (.done v.ran.result) v.ran.dumper := by
  obtain ⟨asked, hr⟩ := Reaches.play v.script v.listener.listening (v.listener.isPartOf_listening v.request.node)
  have ha : v.ran.dumper.requests = asked := hr.requests_eq rfl
  rw [ha]
  exact hr

-- What was asked for before a dump of a part is asked for still when the handler ends.
theorem Visit.ComesTo.prefix_ran (h : v.ComesTo asked part e) : asked <+: v.ran.dumper.requests := by
  obtain ⟨isPart, next, hr⟩ := h
  obtain ⟨hp, he⟩ := hr.play_eq (v.listener.isPartOf_listening v.request.node)
  obtain ⟨later, hl⟩ := Reaches.play (.dump part isPart next) e hp
  have hq : v.ran.dumper.requests = e.requests ++ later :=
    (congrArg (·.dumper.requests) he).trans (hl.requests_eq (hr.pending_isSome rfl))
  exact ⟨later, by rw [hq, hr.requests_eq rfl]; rfl⟩

theorem Visit.handle_eq (v : Visit d root) {result value : Datum} (hr : v.ran.result = .ok result)
    (hv : result.normalize (some (v.ran.dumper.context v.request.node)) = .ok value) :
    v.dumper.handle v.request.node = (.ok value, v.ran.dumper) := by
  rw [handle_of_route v.routed]
  change (do ((← v.ran.result).normalize _).mapError _, v.ran.dumper) = _
  rw [hr]
  exact congrArg (fun out : Except DumpFault Datum => (out.mapError Fault.dump, v.ran.dumper)) hv

end

-- Requests that come first on a work list, with numbers of their own.
theorem carriedOut {s : Stage} {asked work : List Request} (hs : s.work = asked ++ work)
    (hm : ∀ q ∈ asked, q.tag < s.dumper.nextTag) (hw : ∀ q ∈ work, q.tag ∉ asked.map (·.tag)) :
    CarriedOut s asked s.carryOut.1 := by
  have hp (q : Request) (hq : decide (q.tag ∈ asked.map (·.tag)) = true) : q.tag < s.dumper.nextTag := by
    obtain ⟨r, hr, he⟩ := List.mem_map.mp (of_decide_eq_true hq)
    exact he ▸ hm r hr
  have ha : s.work.filter (fun q => q.tag ∈ asked.map (·.tag)) = asked := by
    have hk : asked.filter (fun q => q.tag ∈ asked.map (·.tag)) = asked :=
      List.filter_eq_self.mpr fun q hq => decide_eq_true (List.mem_map_of_mem hq)
    have hn : work.filter (fun q => q.tag ∈ asked.map (·.tag)) = [] :=
      List.filter_eq_nil_iff.mpr fun q hq hd => hw q hq (of_decide_eq_true hd)
    rw [hs, List.filter_append, hk, hn, List.append_nil]
  rcases s.exists_course with ⟨calls, e, fillings, hc⟩ | ⟨calls, e, r, work', fillings, fault, hc, hf⟩
  case inl =>
    have hq := (hc.filter_eq hp).trans ha
    rw [List.append_nil] at hq
    rw [hc.carryOut_of_done]
    exact .all hc hq
  case inr =>
    rw [hc.carryOut_of_failed hf]
    exact .upTo hc hf ((hc.filter_eq hp).trans ha)

-- A dump that a handler runs leaves alone what the handler has asked for, and goes as it would outside of all handlers.
structure Isolated (c : DumperClass) (asked : List Request) (part : Datum) (e : Dumper) : Prop where
  requests : e.requests = asked
  pending : (e.dump part).2.pending = e.pending
  outcome : ∀ depth steps f, ((new c depth).performAll steps).2 = f → f.depth = e.depth →
    (e.dump part).1 = (f.dump part).1 ∧ (e.dump part).2.depth = (f.dump part).2.depth

theorem Visit.ComesTo.isolated (hu : c.Uniform) (hd : Ready c d) (hr : root.isForeign) {v : Visit d root}
    {asked : List Request} {part : Datum} (h : v.ComesTo asked part e) : Isolated c asked part e where
  requests := h.requests_eq
  pending := e.dump_pending part
  outcome := by
    rintro depth steps f rfl hz
    have hs := (Ready.nested v hd h).steady
    have hp : part.isForeign := by
      have hw := Stage.Proper.course hu v.course (.opening hd.steady hr)
      obtain ⟨_, hl⟩ := hw.steady.lookup_of_route v.routed
      obtain ⟨_, _, hr⟩ := h
      exact hr.isForeign_of_dump (hu _ (mem_of_lookup hl) v.request.node (hw.foreign _ List.mem_cons_self) 0)
    exact dump_eq_of_steady hu hp (Idle.of_session c depth steps).toSteady hs hz.symm

-- The course of a handler from its beginning to its end; each dump of its own on the way; and what comes of all that it has
-- asked for, be it before such a dump or behind it, also if the dump has failed and the handler has gone on.
theorem nested_dumps_are_isolated (hu : c.Uniform) (hd : Ready c d) (hr : root.isForeign) (v : Visit d root) :
    Reaches v.script v.listener.listening v.ran.dumper.requests (.done v.ran.result) v.ran.dumper ∧
    (∀ asked part e, v.ComesTo asked part e → asked <+: v.ran.dumper.requests ∧ Isolated c asked part e) ∧
    ∀ result value, v.ran.result = .ok result → result.normalize (some (v.ran.dumper.context v.request.node)) = .ok value →
      ∃ s outcome, s = ⟨v.ran.dumper, v.ran.dumper.requests ++ v.work, (v.request.tag, value) :: v.fillings⟩ ∧
        (d.opening root).Course (v.calls ++ [v.request]) s ∧ CarriedOut s v.ran.dumper.requests outcome ∧
        (d.expand root).1 = outcome.map (assemble d.nextTag) := by
  refine ⟨v.reaches_ran, fun asked part e h => ⟨h.prefix_ran, h.isolated hu hd hr⟩, ?_⟩
  intro result value hv hn
  have hh := v.handle_eq hv hn
  have ht := numbered_of_handle hh
  have hw := Stage.Proper.course hu v.course (.opening hd.steady hr)
  have hc := v.course.trans (.call hh .refl)
  refine ⟨_, _, rfl, hc, carriedOut rfl (fun q hq => (ht.tags q hq).right) ?_, ?_⟩
  case refine_1 =>
    intro q hq hm
    obtain ⟨r, hr, he⟩ := List.mem_map.mp hm
    have hl := hw.made q (List.mem_cons_of_mem _ hq)
    exact absurd (ht.tags r hr).left (Nat.not_le.mpr (he ▸ hl))
  case refine_2 =>
    rw [← hc.carryOut_eq]
    rfl

-- Notes, whose handler asks for the title, tries a dump of the body, and asks for the title again if that fails.
def noteClass : DumperClass :=
  ⟨"NoteDumper",
    [("dump_Note", Template.handler (.group [.child "title", .attempt (.dump "body") (.child "title")])),
      ("dump_str", Template.handler .self)], []⟩

-- There is no handler for the body.
def bodilessNote : Datum :=
  .node (.builtin "Note") [("title", .text "a"), ("body", .int 3)]

theorem uniform_noteClass : noteClass.Uniform := by
  simp only [DumperClass.Uniform, noteClass, List.forall_mem_cons]
  exact ⟨Template.uniform_handler rfl, Template.uniform_handler rfl, List.forall_mem_nil _⟩

def noteVisit : Visit (new noteClass 0) bodilessNote where
  calls := []
  dumper := (new noteClass 0).starting
  request := ⟨0, bodilessNote⟩
  work := []
  fillings := []
  course := .refl
  handler := Template.handler (.group [.child "title", .attempt (.dump "body") (.child "title")])
  listener := ((new noteClass 0).starting.route bodilessNote).2
  routed := rfl

-- The handler in front of the dump of the body.
def noteDumper : Dumper :=
  noteVisit.listener.listening.ask (.text "a")

theorem noteVisit_comesTo : noteVisit.ComesTo [⟨1, .text "a"⟩] (.int 3) noteDumper :=
  ⟨_, _, .request .refl⟩

theorem dump_body : (noteDumper.dump (.int 3)).1 = .error (.dump (.noHandler "NoteDumper" "int" "dump")) :=
  dump_of_failed .refl rfl

theorem bodilessNote_isolated : ∃ n outcome,
    Isolated noteClass [⟨1, .text "a"⟩] (.int 3) noteDumper ∧
      noteVisit.ran.dumper.requests = [⟨1, .text "a"⟩, ⟨n, .text "a"⟩] ∧
      CarriedOut ⟨noteVisit.ran.dumper, noteVisit.ran.dumper.requests ++ [],
        [(0, .group [.unfilled (.asked 1), .unfilled (.asked n)])]⟩ noteVisit.ran.dumper.requests outcome ∧
      ((new noteClass 0).expand bodilessNote).1 = outcome.map (assemble 0) := by
  have hd : Ready noteClass (new noteClass 0) := .session 0 []
  obtain ⟨_, hi, ho⟩ := nested_dumps_are_isolated uniform_noteClass hd rfl noteVisit
  have hn : Reaches noteVisit.script noteVisit.listener.listening
      [⟨1, .text "a"⟩, ⟨(noteDumper.dump (.int 3)).2.nextTag, .text "a"⟩]
      (.done (.ok (.group [.unfilled (.asked 1), .unfilled (.asked (noteDumper.dump (.int 3)).2.nextTag)])))
      ((noteDumper.dump (.int 3)).2.ask (.text "a")) := by
    exact .request (.dump_of_eq dump_body (.request .refl))
  obtain ⟨_, he⟩ := hn.play_eq (noteVisit.listener.isPartOf_listening bodilessNote)
  have hv : noteVisit.ran.result = _ := congrArg Ran.result he
  have hq : noteVisit.ran.dumper.requests = _ := (congrArg (·.dumper.requests) he).trans (hn.requests_eq rfl)
  obtain ⟨_, outcome, rfl, _, hc, hx⟩ := ho _ _ hv rfl
  exact ⟨_, outcome, (hi _ _ _ noteVisit_comesTo).right, hq, hc, hx⟩

end Dumper
end ParenTree
