import ParenTree.Proofs.Dumper.Uniform

-- Two dumpers of one class at the same depth do the same, whatever either has done before: one that has come further with
-- its numbers gives the same texts and failures, and values that differ by the numbers only.

namespace ParenTree

namespace Dumper

variable {c : DumperClass} {k : Nat} {d d' : Dumper} {o node : Datum} {α : Type}

-- Two dumpers of a class at the same depth, the second of which is `k` numbers ahead.
structure Apart (c : DumperClass) (k : Nat) (d d' : Dumper) : Prop where
  left : Steady c d
  right : Steady c d'
  depth : d'.depth = d.depth
  nextTag : d'.nextTag = k + d.nextTag

-- The same inside a handler, where the same has been asked for so far.
structure Abreast (c : DumperClass) (k : Nat) (d d' : Dumper) : Prop extends Apart c k d d' where
  pending : d'.pending = d.pending.map (List.map (Request.renumber k))
  foreign : ∀ r ∈ d.requests, r.node.isForeign

-- Dumps of a part end alike, wherever they are run.
def DumpsAlike (c : DumperClass) (k : Nat) (part : Datum) : Prop :=
  ∀ {d d' : Dumper}, Apart c k d d' → (d'.dump part).1 = (d.dump part).1 ∧ Apart c k (d.dump part).2 (d'.dump part).2

theorem mem_requests {r : Request} : r ∈ d.requests ↔ ∃ rs, d.pending = some rs ∧ r ∈ rs := by
  cases hp : d.pending
  case none => simp [requests, hp]
  case some rs => simp [requests, hp]

namespace Apart

theorem congr {e e' : Dumper} (h : Apart c k d d') (hl : e.cls = d.cls) (hv : e.visitor = d.visitor)
    (hr : e'.cls = d'.cls) (hw : e'.visitor = d'.visitor) (hz : e'.depth = e.depth) (ht : e'.nextTag = k + e.nextTag) :
    Apart c k e e' :=
  ⟨h.left.congr hl hv, h.right.congr hr hw, hz, ht⟩

theorem refl (h : Steady c d) : Apart c 0 d d :=
  ⟨h, h, rfl, (Nat.zero_add _).symm⟩

theorem starting (h : Apart c k d d') : Apart c k d.starting d'.starting :=
  h.congr rfl rfl rfl rfl h.depth (congrArg (· + 1) h.nextTag)

theorem note (h : Apart c k d d') (event event' : Event) : Apart c k (d.note event) (d'.note event') :=
  h.congr rfl rfl rfl rfl h.depth h.nextTag

theorem withPending (h : Apart c k d d') (p p' : Option (List Request)) :
    Apart c k { d with pending := p } { d' with pending := p' } :=
  h.congr rfl rfl rfl rfl h.depth h.nextTag

theorem withDepth (h : Apart c k d d') (n : Int) : Apart c k { d with depth := n } { d' with depth := n } :=
  h.congr rfl rfl rfl rfl rfl h.nextTag

theorem format (h : Apart c k d d') {value value' : Datum} (hw : ∀ depth, value'.words depth = value.words depth) :
    (d'.format value').1 = (d.format value).1 ∧ Apart c k (d.format value).2 (d'.format value').2 := by
  have hf : Layout.flatten value' d'.depth = Layout.flatten value d.depth := by
    rw [Layout.flatten_eq, Layout.flatten_eq, hw, h.depth]
  simp only [Dumper.format, hf]
  cases Layout.flatten value d.depth
  case error => exact ⟨rfl, h⟩
  case ok out => exact ⟨rfl, h.withDepth out.2⟩

-- A search gives the same handler to both, or the same failure.
theorem route (h : Apart c k d d') (node : Datum) :
    (∃ fault, d.route node = (.error fault, d) ∧ d'.route node = (.error fault, d')) ∨
      ∃ name handler e e', c.handlers.lookup name = some handler ∧ d.route node = (.ok handler, e) ∧
        d'.route node = (.ok handler, e') ∧ Apart c k e e' := by
  cases hn : c.handlerName? node.type
  case none => exact .inl ⟨_, h.left.route_none hn, h.right.route_none hn⟩
  case some name =>
    obtain ⟨handler, e, hl, he, hs, ht, hz⟩ := h.left.route_some hn
    obtain ⟨handler', e', hl', he', hs', ht', hz'⟩ := h.right.route_some hn
    cases hl.symm.trans hl'
    refine .inr ⟨name, handler, e, e', hl, he, he', hs, hs', ?_, ?_⟩
    case refine_1 => rw [hz, hz', h.depth]
    case refine_2 => rw [ht, ht', h.nextTag]

theorem context (h : Apart c k d d') (node : Datum) : d'.context node = d.context node := by
  rw [Dumper.context, Dumper.context, h.left.cls, h.right.cls, h.left.verb, h.right.verb]

theorem listening (h : Apart c k d d') : Abreast c k d.listening d'.listening where
  toApart := h.withPending _ _
  pending := rfl
  foreign := List.forall_mem_nil _

theorem finish {out out' : Except Fault Fillings × Dumper} (ho : out'.1 = out.1.map (Fillings.renumber k))
    (h : Apart c k out.2 out'.2) {tag tag' : Nat} (ht : tag' = k + tag) (p p' : Option (List Request)) :
    (finish tag' (leave p' out')).1 = (finish tag (leave p out)).1 ∧
      Apart c k (finish tag (leave p out)).2 (finish tag' (leave p' out')).2 := by
  obtain ⟨result, d⟩ := out
  obtain ⟨result', d'⟩ := out'
  subst ho ht
  cases result
  case error => exact ⟨rfl, h.withPending _ _⟩
  case ok fillings =>
    simp only [Except.map, leave, Dumper.finish, Fillings.assemble_renumber]
    exact (h.withPending p p').format (Datum.words_renumber k _)

end Apart

theorem Abreast.requests (h : Abreast c k d d') : d'.requests = d.requests.map (Request.renumber k) := by
  simp only [Dumper.requests, h.pending]
  cases d.pending <;> simp

theorem Abreast.ask (h : Abreast c k d d') {part : Datum} (hp : part.isForeign) :
    Abreast c k (d.ask part) (d'.ask part) where
  toApart := h.congr rfl rfl rfl rfl h.depth (congrArg (· + 1) h.nextTag)
  pending := by
    simp only [Dumper.ask, h.pending, Option.map_map, h.nextTag]
    rfl
  foreign r hr := by
    obtain ⟨rs, hs, hm⟩ := mem_requests.mp hr
    obtain ⟨qs, hq, rfl⟩ := Option.map_eq_some_iff.mp hs
    cases hm
    case head => exact hp
    case tail hm => exact h.foreign r (mem_requests.mpr ⟨qs, hq, hm⟩)

theorem Abreast.of_apart {e e' : Dumper} (h : Abreast c k d d') (he : Apart c k e e') (hp : e.pending = d.pending)
    (hp' : e'.pending = d'.pending) : Abreast c k e e' where
  toApart := he
  pending := by rw [hp, hp', h.pending]
  foreign r hr := h.foreign r (requests_congr hp ▸ hr)

-- A script with dumps like any other for its dumps of parts.
def play (s : Script o α) (d : Dumper) (hr : ∀ r ∈ d.requests, r.node.IsPartOf o) : Ran o α :=
  run (fun part _ d => ⟨d.dump part, d.dump_pending part⟩) s d hr

-- Step by step, the two courses of a handler stay abreast of each other.
theorem Abreast.play {move : α → α} {s s' : Script o α} (hs : Script.Alike k move s s')
    (hp : ∀ part, part.IsPartOf o → part.isForeign → DumpsAlike c k part) (h : Abreast c k d d')
    (hr : ∀ r ∈ d.requests, r.node.IsPartOf o) (hr' : ∀ r ∈ d'.requests, r.node.IsPartOf o) :
    (Dumper.play s' d' hr').result = move (Dumper.play s d hr).result ∧
      Abreast c k (Dumper.play s d hr).dumper (Dumper.play s' d' hr').dumper := by
  induction hs generalizing d d'
  case done => exact ⟨rfl, h⟩
  case request hf _ hi =>
    simp only [Dumper.play, run, h.nextTag]
    exact hi _ (h.ask hf) _ _
  case dump part isPart _ _ hf _ hi =>
    obtain ⟨ht, hd⟩ := hp part isPart hf h.toApart
    simp only [Dumper.play, run, ht]
    exact hi _ (h.of_apart hd (d.dump_pending part) (d'.dump_pending part)) _ _
  case format value _ _ _ hi =>
    obtain ⟨ht, hd⟩ := h.toApart.format (Datum.words_renumber k value)
    simp only [Dumper.play, run, ht]
    exact hi _ (h.of_apart hd (d.format_pending _) (d'.format_pending _)) _ _
  case isNop x _ _ _ hi =>
    simp only [Dumper.play, run, Datum.isNop_renumber, h.left.cls, h.right.cls]
    exact hi _ h _ _
  case depth hi =>
    simp only [Dumper.play, run, h.depth]
    exact hi _ h _ _
  case setDepth n _ _ _ hi => exact hi (h.of_apart (h.withDepth n) rfl rfl) _ _

-- The two ends of a call.
inductive HandledAlike (c : DumperClass) (k : Nat) : Except Fault Datum × Dumper → Except Fault Datum × Dumper → Prop
  | failed {fault : Fault} {e e' : Dumper} : Apart c k e e' → HandledAlike c k (.error fault, e) (.error fault, e')
  | handled {value : Datum} {e e' : Dumper} : Abreast c k e e' → HandledAlike c k (.ok value, e) (.ok (value.renumber k), e')

theorem HandledAlike.abreast {out out' : Except Fault Datum × Dumper} (h : HandledAlike c k out out') {value : Datum}
    {e : Dumper} (ho : out = (.ok value, e)) : ∃ e', Abreast c k e e' := by
  cases h
  case failed => cases ho
  case handled e' hb =>
    cases ho
    exact ⟨e', hb⟩

theorem Apart.handle (hu : c.Uniform) (ho : node.isForeign)
    (hp : ∀ part, part.IsPartOf node → part.isForeign → DumpsAlike c k part) (h : Apart c k d d') :
    HandledAlike c k (d.handle node) (d'.handle node) := by
  rcases h.route node with ⟨fault, he, he'⟩ | ⟨name, handler, e, e', hl, he, he', ha⟩
  case inl =>
    simp only [Dumper.handle, he, he']
    exact .failed h
  case inr =>
    have hs := hu _ (mem_of_lookup hl) node ho k
    obtain ⟨hr, hb⟩ := ha.listening.play hs hp (e.isPartOf_listening node) (e'.isPartOf_listening node)
    change (e'.attend handler node).result = (e.attend handler node).result.map _ at hr
    change Abreast c k (e.attend handler node).dumper (e'.attend handler node).dumper at hb
    rw [handle_of_route he, handle_of_route he', hr, hb.context]
    cases (e.attend handler node).result
    case error => exact .failed hb.toApart
    case ok result =>
      show HandledAlike c k ((result.normalize _).mapError _, _) (((result.renumber k).normalize _).mapError _, _)
      rw [Datum.normalize_renumber]
      cases result.normalize (some ((e.attend handler node).dumper.context node))
      case error => exact .failed hb.toApart
      case ok => exact .handled hb

-- A work list ends alike for dumpers that are apart.
def CarriedOutAlike (c : DumperClass) (k : Nat) (work : List Request) : Prop :=
  ∀ {d d' : Dumper}, Apart c k d d' → ∀ fillings,
    (d'.carryOut (work.map (Request.renumber k)) (Fillings.renumber k fillings)).1 =
        (d.carryOut work fillings).1.map (Fillings.renumber k) ∧
      Apart c k (d.carryOut work fillings).2 (d'.carryOut (work.map (Request.renumber k)) (Fillings.renumber k fillings)).2

theorem carriedOutAlike_opening {part : Datum} (h : ∀ tag, CarriedOutAlike c k [⟨tag, part⟩]) (ha : Apart c k d d') :
    (d'.opening part).carryOut.1 = (d.opening part).carryOut.1.map (Fillings.renumber k) ∧
      Apart c k (d.opening part).carryOut.2 (d'.opening part).carryOut.2 := by
  have hw : [Request.mk d'.nextTag part] = [Request.mk d.nextTag part].map (Request.renumber k) := by
    rw [ha.nextTag]
    rfl
  simp only [Stage.carryOut, opening, hw]
  exact h d.nextTag ha.starting []

theorem dumpsAlike_of_carriedOut {part : Datum} (h : ∀ tag, CarriedOutAlike c k [⟨tag, part⟩]) : DumpsAlike c k part := by
  intro d d' ha
  have hn := ha.note (.dumping part.typeName d.depth) (.dumping part.typeName d'.depth)
  obtain ⟨ho, hd⟩ := carriedOutAlike_opening h hn
  rw [dump_eq_finish, dump_eq_finish]
  exact hd.finish ho hn.nextTag d.pending d'.pending

theorem carriedOutAlike (hu : c.Uniform) {work : List Request} (hw : ∀ r ∈ work, r.node.isForeign) :
    CarriedOutAlike c k work := by
  induction work using workInduct
  case nil =>
    intro d d' h fillings
    simp only [List.map_nil, Dumper.carryOut]
    exact ⟨rfl, h⟩
  case cons r work others inside =>
    intro d d' h fillings
    -- The dump of a part begins a work list of its own, which is lighter.
    have hp (part : Datum) (hpart : part.IsPartOf r.node) (hf : part.isForeign) : DumpsAlike c k part :=
      dumpsAlike_of_carriedOut fun tag => inside tag part hpart (by simpa using hf)
    have hh := h.handle hu (hw r List.mem_cons_self) hp
    have hn : (r.renumber k).node = r.node := rfl
    rw [List.map_cons, carryOut_cons, carryOut_cons, hn]
    cases hr : d.handle r.node
    case mk result e =>
      cases hr' : d'.handle r.node
      case mk result' e' =>
        rw [hr, hr'] at hh
        cases hh
        case failed ha => exact ⟨rfl, ha⟩
        case handled value hb =>
          have hf : ∀ q ∈ e.requests ++ work, q.node.isForeign := by
            intro q hq
            cases List.mem_append.mp hq
            case inl hq => exact hb.foreign q hq
            case inr hq => exact hw q (List.mem_cons_of_mem r hq)
          have ho := others e.requests (isPartOf_of_handle hr rfl) hf hb.toApart ((r.tag, value) :: fillings)
          dsimp only
          rw [hb.requests, ← List.map_append]
          exact ho

theorem carriedOutAlike_one (hu : c.Uniform) {node : Datum} (hn : node.isForeign) (tag : Nat) :
    CarriedOutAlike c k [⟨tag, node⟩] :=
  carriedOutAlike hu (by simpa using hn)

theorem Apart.dump (hu : c.Uniform) (hn : node.isForeign) (h : Apart c k d d') :
    (d'.dump node).1 = (d.dump node).1 ∧ Apart c k (d.dump node).2 (d'.dump node).2 :=
  dumpsAlike_of_carriedOut (carriedOutAlike_one hu hn) h

theorem Apart.expand (hu : c.Uniform) (hn : node.isForeign) (h : Apart c k d d') :
    (d'.expand node).1 = (d.expand node).1.map (Datum.renumber k) ∧ Apart c k (d.expand node).2 (d'.expand node).2 := by
  obtain ⟨ho, hd⟩ := carriedOutAlike_opening (carriedOutAlike_one hu hn) h
  refine ⟨?_, hd.withPending _ _⟩
  show (d'.opening node).carryOut.1.map _ = ((d.opening node).carryOut.1.map _).map _
  rw [ho]
  cases (d.opening node).carryOut.1
  case error => rfl
  case ok fillings => exact congrArg Except.ok (by rw [h.nextTag, Fillings.assemble_renumber])

-- The text of a node and the depth behind it depend on nothing but the class and the depth before.
theorem dump_eq_of_steady (hu : c.Uniform) (hn : node.isForeign) (hd : Steady c d) (hd' : Steady c d')
    (hz : d'.depth = d.depth) : (d'.dump node).1 = (d.dump node).1 ∧ (d'.dump node).2.depth = (d.dump node).2.depth := by
  rcases Nat.le_total d.nextTag d'.nextTag with hl | hl
  case inl =>
    have ha : Apart c (d'.nextTag - d.nextTag) d d' := ⟨hd, hd', hz, by omega⟩
    obtain ⟨ht, ha⟩ := ha.dump hu hn
    exact ⟨ht, ha.depth⟩
  case inr =>
    have ha : Apart c (d.nextTag - d'.nextTag) d' d := ⟨hd', hd, hz.symm, by omega⟩
    obtain ⟨ht, ha⟩ := ha.dump hu hn
    exact ⟨ht.symm, ha.depth.symm⟩

end Dumper
end ParenTree
