import ParenTree.Proofs.Dumper.Recipe

-- A work list computes the recursive value: its calls are in pre-order, the first one that fails decides, and if none
-- fails the placeholders hold the values of what was asked for.

namespace ParenTree
namespace Dumper

-- Values put on top of others, their placeholders filled from what is below them.
def completeOnto (values fillings : Fillings) : Fillings :=
  fillings.foldl (fun values filling => (filling.1, filling.2.fill values) :: values) values

theorem completeOnto_append (values f g : Fillings) :
    completeOnto values (f ++ g) = completeOnto (completeOnto values f) g :=
  List.foldl_append

theorem completeOnto_snoc (values f : Fillings) (tag : Nat) (value : Datum) :
    completeOnto values (f ++ [(tag, value)]) =
      (tag, value.fill (completeOnto values f)) :: completeOnto values f := by
  rw [completeOnto_append]
  rfl

theorem lookup_completeOnto (values : Fillings) {f : Fillings} {tag : Nat} (h : tag ∉ f.map (·.1)) :
    (completeOnto values f).lookup tag = values.lookup tag := by
  induction f generalizing values
  case nil => rfl
  case cons filling f hi =>
    simp only [List.map_cons, List.mem_cons, not_or] at h
    refine (hi _ h.right).trans ?_
    rw [List.lookup_cons, beq_eq_false_iff_ne.mpr h.left]

theorem tags_numbered (base : Nat) (data : List Datum) :
    (numbered base data).map (·.tag) = List.range' base data.length := by
  induction data generalizing base
  case nil => rfl
  case cons d data hi => simp [numbered, hi, List.range'_succ]

theorem flatMap_numbered {α : Type} (f : Datum → List α) (base : Nat) (data : List Datum) :
    ((numbered base data).flatMap fun r => f r.node) = data.flatMap f := by
  induction data generalizing base
  case nil => rfl
  case cons d data hi => simp [numbered, hi]

theorem mem_of_numbered {base : Nat} {data : List Datum} {r : Request} (h : r ∈ numbered base data) : r.node ∈ data := by
  induction data generalizing base
  case nil => cases h
  case cons d data hi =>
    cases h
    case head => exact List.mem_cons_self
    case tail h => exact List.mem_cons_of_mem d (hi h)

-- Requests that were made before and have nothing in common.
structure Open (d : Dumper) (requests : List Request) : Prop where
  made : ∀ r ∈ requests, r.tag < d.nextTag
  nodup : (requests.map (·.tag)).Nodup

theorem Open.numbered {d : Dumper} {base : Nat} {data : List Datum} (h : base + data.length ≤ d.nextTag) :
    Open d (numbered base data) where
  made r hr := by
    have := List.mem_map_of_mem (f := Request.tag) hr
    rw [tags_numbered, List.mem_range'_1] at this
    omega
  nodup := by
    rw [tags_numbered]
    exact List.nodup_range'

end Dumper

open Dumper

namespace Cookbook

variable {c : DumperClass} {b : Cookbook c}

-- The placeholder of a request holds the value of its node.
def Served (b : Cookbook c) (values : Fillings) (r : Request) : Prop :=
  ∃ v, values.lookup r.tag = some v ∧ v.Whole ∧ b.value r.node = .ok v.reveal

theorem mapM_value {o : Datum} {values : Fillings} {base : Nat} {parts : List { d : Datum // d.IsPartOf o }}
    (h : ∀ r ∈ numbered base (parts.map Subtype.val), b.Served values r) :
    ∃ vs, parts.mapM (fun part => b.value part.1) = .ok vs ∧ vs.length = parts.length ∧
      ∀ i (hi : i < vs.length), ∃ d, values.lookup (base + i) = some d ∧ d.Whole ∧ d.reveal = vs[i] := by
  induction parts generalizing base
  case nil => exact ⟨[], rfl, rfl, fun i hi => absurd hi (Nat.not_lt_zero i)⟩
  case cons part parts hi =>
    obtain ⟨v, hv, hw, hr⟩ := h _ List.mem_cons_self
    obtain ⟨vs, hm, hl, hs⟩ := @hi (base + 1) fun r hr => h r (List.mem_cons_of_mem _ hr)
    refine ⟨v.reveal :: vs, ?_, by simp [hl], ?_⟩
    case refine_1 =>
      rw [List.mapM_cons, hr, hm]
      rfl
    case refine_2 =>
      intro i hi
      cases i
      case zero => exact ⟨v, hv, hw, rfl⟩
      case succ i =>
        obtain ⟨d, hd, he⟩ := hs i (by simpa using hi)
        exact ⟨d, by rwa [Nat.add_assoc, Nat.add_comm 1] at hd, he⟩

-- A stretch of calls for some requests and all that they lead to, whatever else is on the work list.
structure Stretch (b : Cookbook c) (d : Dumper) (requests : List Request) (d' : Dumper) (calls : List Request)
    (new : Fillings) : Prop where
  steady : Steady c d'
  depth : d'.depth = d.depth
  course : ∀ work fillings, Stage.Course ⟨d, requests ++ work, fillings⟩ calls ⟨d', work, new ++ fillings⟩
  nodes : calls.map (·.node) = requests.flatMap fun r => b.preorder r.node
  drafted : ∀ r ∈ calls, (b.draft r.node).isOk
  called : ∀ r ∈ requests, r ∈ calls
  keys : new.map (·.1) = (calls.map (·.tag)).reverse
  nextTag_le : d.nextTag ≤ d'.nextTag
  tags : (calls.map (·.tag)).Perm (requests.map (·.tag) ++ List.range' d.nextTag (d'.nextTag - d.nextTag))
  served : ∀ values, ∀ r ∈ calls, b.Served (completeOnto values new) r

namespace Stretch

variable {d d₁ d₂ : Dumper} {requests others calls calls' : List Request} {new new' : Fillings}

theorem mem_tags (h : Stretch b d requests d₁ calls new) {tag : Nat} :
    tag ∈ calls.map (·.tag) ↔ tag ∈ requests.map (·.tag) ∨ d.nextTag ≤ tag ∧ tag < d₁.nextTag := by
  have := h.nextTag_le
  rw [h.tags.mem_iff, List.mem_append, List.mem_range'_1, Nat.add_sub_cancel' this]

theorem nil (h : Steady c d) : Stretch b d [] d [] [] where
  steady := h
  depth := rfl
  course _ _ := .refl
  nodes := rfl
  drafted _ hr := absurd hr List.not_mem_nil
  called _ hr := absurd hr List.not_mem_nil
  keys := rfl
  nextTag_le := Nat.le_refl _
  tags := by simp
  served _ _ hr := absurd hr List.not_mem_nil

theorem disjoint (h : Stretch b d requests d₁ calls new) (h' : Stretch b d₁ others d₂ calls' new')
    (ho : Open d (requests ++ others)) {tag : Nat} (ht : tag ∈ calls'.map (·.tag)) : tag ∉ calls.map (·.tag) := by
  have hm (r : Request) (hr : r ∈ requests ++ others) := ho.made r hr
  have hl := h.nextTag_le
  have hn := ho.nodup
  rw [List.map_append, List.nodup_append] at hn
  rw [h'.mem_tags] at ht
  rw [h.mem_tags]
  rintro (ha | ha)
  case inl =>
    obtain ⟨r, hr, he⟩ := List.mem_map.mp ha
    have := hm r (List.mem_append_left _ hr)
    cases ht
    case inl ht => exact hn.right.right tag ha tag ht rfl
    case inr => omega
  case inr =>
    cases ht
    case inl ht =>
      obtain ⟨r, hr, he⟩ := List.mem_map.mp ht
      have := hm r (List.mem_append_right _ hr)
      omega
    case inr => omega

theorem append (h : Stretch b d requests d₁ calls new) (h' : Stretch b d₁ others d₂ calls' new')
    (ho : Open d (requests ++ others)) : Stretch b d (requests ++ others) d₂ (calls ++ calls') (new' ++ new) where
  steady := h'.steady
  depth := h'.depth.trans h.depth
  course work fillings := by
    simpa only [List.append_assoc] using (h.course (others ++ work) fillings).trans (h'.course work (new ++ fillings))
  nodes := by simp only [List.map_append, List.flatMap_append, h.nodes, h'.nodes]
  drafted r hr := (List.mem_append.mp hr).elim (h.drafted r) (h'.drafted r)
  called r hr := List.mem_append.mpr ((List.mem_append.mp hr).imp (h.called r) (h'.called r))
  keys := by simp only [List.map_append, List.reverse_append, h.keys, h'.keys]
  nextTag_le := Nat.le_trans h.nextTag_le h'.nextTag_le
  tags := by
    have hl := h.nextTag_le
    have hl' := h'.nextTag_le
    have hr : List.range' d.nextTag (d₂.nextTag - d.nextTag) =
        List.range' d.nextTag (d₁.nextTag - d.nextTag) ++ List.range' d₁.nextTag (d₂.nextTag - d₁.nextTag) := by
      rw [show d₂.nextTag - d.nextTag = (d₁.nextTag - d.nextTag) + (d₂.nextTag - d₁.nextTag) by omega,
        ← List.range'_append_1, Nat.add_sub_cancel' hl]
    simp only [List.map_append, hr]
    refine (h.tags.append h'.tags).trans ?_
    simp only [List.append_assoc]
    exact (List.perm_append_comm_assoc _ _ _).append_left _
  served values r hr := by
    rw [completeOnto_append]
    cases List.mem_append.mp hr
    case inl hr => exact h.served _ r hr
    case inr hr =>
      -- What the later calls have filled is not touched by the earlier ones.
      obtain ⟨v, hv, hw⟩ := h'.served values r hr
      refine ⟨v, ?_, hw⟩
      rw [lookup_completeOnto, hv]
      rw [h.keys, List.mem_reverse]
      exact h.disjoint h' ho (List.mem_map_of_mem hr)

theorem node {r : Request} {draft : Draft r.node} (hd : b.draft r.node = .ok draft) (ht : b.Tree r.node) (hr : r.tag < d.nextTag)
    (hc : d.handle r.node = (.ok (draft.value.shift d.nextTag), d₁))
    (hq : d₁.requests = numbered d.nextTag (draft.parts.map Subtype.val))
    (hk : d₁.nextTag = d.nextTag + draft.parts.length) (hz : d₁.depth = d.depth) (h : Stretch b d₁ d₁.requests d₂ calls new) :
    Stretch b d [r] d₂ (r :: calls) (new ++ [(r.tag, draft.value.shift d.nextTag)]) where
  steady := h.steady
  depth := h.depth.trans hz
  course work fillings := by
    rw [List.append_assoc]
    exact .call hc (h.course work ((r.tag, _) :: fillings))
  nodes := by
    rw [List.map_cons, h.nodes, hq, flatMap_numbered, List.flatMap_map, List.flatMap_singleton, preorder_of_draft hd]
  drafted q hq := by
    cases hq
    case head => rw [hd]; rfl
    case tail hq => exact h.drafted q hq
  called q hq := by
    rw [List.mem_singleton.mp hq]
    exact List.mem_cons_self
  keys := by simp only [List.map_append, List.map_cons, List.map_nil, List.reverse_cons, h.keys]
  nextTag_le := by
    have := h.nextTag_le
    omega
  tags := by
    have hl := h.nextTag_le
    have ht := h.tags
    rw [hq, tags_numbered, List.length_map, hk, List.range'_append_1] at ht
    rw [show d₂.nextTag - d.nextTag = draft.parts.length + (d₂.nextTag - (d.nextTag + draft.parts.length)) by omega]
    exact ht.cons r.tag
  served values q hm := by
    obtain ⟨vs, hv, hl, hf⟩ := mapM_value fun q hm => h.served values q (h.called q (hq ▸ hm))
    rw [completeOnto_snoc]
    cases hm
    case head =>
      have hs := refers_of_draft hd ht
      rw [← hl] at hs
      refine ⟨_, List.lookup_cons_self, ?_, ?_⟩
      case refine_1 =>
        refine Datum.whole_fill_shift hs fun i hi => ?_
        obtain ⟨v, hv, hw, _⟩ := hf i hi
        exact ⟨v, hv, hw⟩
      case refine_2 =>
        have hr := Datum.reveal_fill_shift hs fun i hi => (hf i hi).imp fun _ h => ⟨h.left, h.right.right⟩
        rw [value_of_draft hd, hv, hr]
        rfl
    case tail hm =>
      obtain ⟨v, hv, hw⟩ := h.served values q hm
      refine ⟨v, ?_, hw⟩
      rw [List.lookup_cons, beq_eq_false_iff_ne.mpr ?_, hv]
      intro he
      have ht := h.mem_tags.mp (List.mem_map_of_mem hm)
      rw [hq, tags_numbered, List.mem_range'_1, hk] at ht
      omega

end Stretch

-- Calls for some requests and what they lead to, up to one that fails.
structure Stop (b : Cookbook c) (d : Dumper) (requests calls : List Request) (node : Datum) (fault : Fault) : Prop where
  course : ∀ work fillings, ∃ d' r work' fillings',
    Stage.Course ⟨d, requests ++ work, fillings⟩ calls ⟨d', r :: work', fillings'⟩ ∧ r.node = node ∧
      (d'.handle node).1 = .error fault
  nodes : ∃ after, (requests.flatMap fun r => b.preorder r.node) = calls.map (·.node) ++ node :: after
  drafted : ∀ r ∈ calls, (b.draft r.node).isOk
  failed : b.draft node = .error fault

namespace Stop

variable {d d₁ : Dumper} {requests others calls calls' : List Request} {new : Fillings} {node : Datum} {fault : Fault}

theorem here {r : Request} (hd : b.draft r.node = .error fault) (hc : (d.handle r.node).1 = .error fault) :
    Stop b d [r] [] r.node fault where
  course work fillings := ⟨d, r, work, fillings, .refl, rfl, hc⟩
  nodes := ⟨[], by rw [List.flatMap_singleton, preorder_of_error hd]; rfl⟩
  drafted _ hr := absurd hr List.not_mem_nil
  failed := hd

theorem below {r : Request} {draft : Draft r.node} {value : Datum} (hd : b.draft r.node = .ok draft)
    (hc : d.handle r.node = (.ok value, d₁)) (hq : d₁.requests = numbered d.nextTag (draft.parts.map Subtype.val))
    (h : Stop b d₁ d₁.requests calls node fault) : Stop b d [r] (r :: calls) node fault where
  course work fillings := by
    obtain ⟨d', r', work', fillings', hs, hr⟩ := h.course work ((r.tag, value) :: fillings)
    exact ⟨d', r', work', fillings', .call hc hs, hr⟩
  nodes := by
    obtain ⟨after, ha⟩ := h.nodes
    rw [hq, flatMap_numbered, List.flatMap_map] at ha
    exact ⟨after, by rw [List.flatMap_singleton, preorder_of_draft hd, ha]; rfl⟩
  drafted q hq := by
    cases hq
    case head => rw [hd]; rfl
    case tail hq => exact h.drafted q hq
  failed := h.failed

theorem before (h : Stop b d requests calls node fault) : Stop b d (requests ++ others) calls node fault where
  course work fillings := by
    rw [List.append_assoc]
    exact h.course (others ++ work) fillings
  nodes := by
    obtain ⟨after, ha⟩ := h.nodes
    exact ⟨after ++ others.flatMap fun r => b.preorder r.node, by simp [List.flatMap_append, ha]⟩
  drafted := h.drafted
  failed := h.failed

theorem after (h : Stretch b d requests d₁ calls new) (h' : Stop b d₁ others calls' node fault) :
    Stop b d (requests ++ others) (calls ++ calls') node fault where
  course work fillings := by
    obtain ⟨d', r, work', fillings', hs, hr⟩ := h'.course work (new ++ fillings)
    rw [List.append_assoc]
    exact ⟨d', r, work', fillings', (h.course (others ++ work) fillings).trans hs, hr⟩
  nodes := by
    obtain ⟨after, ha⟩ := h'.nodes
    exact ⟨after, by simp [List.flatMap_append, ha, h.nodes]⟩
  drafted r hr := (List.mem_append.mp hr).elim (h.drafted r) (h'.drafted r)
  failed := h'.failed

end Stop

-- How it ends with some requests.
inductive Outcome (b : Cookbook c) (d : Dumper) (requests : List Request) : Prop
  | complete {d' : Dumper} {calls : List Request} {new : Fillings} : Stretch b d requests d' calls new → Outcome b d requests
  | stopped {calls : List Request} {node : Datum} {fault : Fault} : Stop b d requests calls node fault → Outcome b d requests

namespace Outcome

variable {d : Dumper} {requests : List Request}

theorem all (hs : Steady c d) (ho : Open d requests)
    (hr : ∀ r ∈ requests, ∀ d, Steady c d → r.tag < d.nextTag → Outcome b d [r]) : Outcome b d requests := by
  induction requests generalizing d
  case nil => exact .complete (.nil hs)
  case cons r requests hi =>
    cases hr r List.mem_cons_self d hs (ho.made r List.mem_cons_self)
    case stopped h => exact .stopped h.before
    case complete d' calls new h =>
      have hl := h.nextTag_le
      have ho' : Open d' requests := by
        refine ⟨fun q hq => ?_, (List.nodup_cons.mp ho.nodup).right⟩
        have := ho.made q (List.mem_cons_of_mem r hq)
        omega
      cases hi h.steady ho' fun q hq => hr q (List.mem_cons_of_mem r hq)
      case complete h' => exact .complete (h.append h' ho)
      case stopped h' => exact .stopped (.after h h')

theorem one (hs : Steady c d) {r : Request} (ht : b.Tree r.node) (hr : r.tag < d.nextTag) : Outcome b d [r] := by
  induction hw : r.node.weight using Nat.strongRecOn generalizing r d
  case ind w hi =>
    subst hw
    obtain ⟨hv, hs', hq⟩ := handle_draft hs ht
    cases hd : b.draft r.node
    case error fault => exact .stopped (.here hd (by rw [hv, hd]; rfl))
    case ok draft =>
      obtain ⟨hq, hk, hz⟩ := hq draft hd
      have hc : d.handle r.node = (.ok (draft.value.shift d.nextTag), (d.handle r.node).2) :=
        Prod.ext (by rw [hv, hd]; rfl) rfl
      have ho : Open (d.handle r.node).2 (d.handle r.node).2.requests := by
        rw [hq]
        exact .numbered (by simp only [hk, List.length_map, Nat.le_refl])
      have hp : Outcome b (d.handle r.node).2 (d.handle r.node).2.requests := by
        refine all hs' ho fun q hm d hs hr => ?_
        rw [hq] at hm
        obtain ⟨part, hm, he⟩ := List.mem_map.mp (mem_of_numbered hm)
        refine hi _ ?_ hs ?_ hr rfl
        case refine_1 => exact he ▸ part.2
        case refine_2 => exact he ▸ tree_of_draft hd ht part hm
      cases hp
      case complete h => exact .complete (.node hd ht hr hc hq hk hz h)
      case stopped h => exact .stopped (.below hd hc hq h)

end Outcome

end Cookbook

namespace Dumper

section

variable {c : DumperClass} {b : Cookbook c} {d d' : Dumper} {root : Datum} {calls : List Request} {new : Fillings}

-- The work list that the dump of a node begins with.
def opening (d : Dumper) (root : Datum) : Stage :=
  ⟨d.starting, [⟨d.nextTag, root⟩], []⟩

theorem dump_of_done {e : Dumper} {node : Datum} {fillings : Fillings}
    (h : ((d.note (.dumping node.typeName d.depth)).opening node).Course calls ⟨e, [], fillings⟩) :
    (d.dump node).1 = (Dumper.format { e with pending := d.pending } (assemble d.nextTag fillings)).1 := by
  rw [dump_eq_finish]
  exact congrArg (fun out => (finish _ (leave _ out)).1) h.carryOut_of_done

theorem dump_of_failed {e : Dumper} {node : Datum} {r : Request} {work : List Request} {fillings : Fillings} {fault : Fault}
    (h : ((d.note (.dumping node.typeName d.depth)).opening node).Course calls ⟨e, r :: work, fillings⟩)
    (hf : (e.handle r.node).1 = .error fault) : (d.dump node).1 = .error fault := by
  rw [dump_eq_finish]
  exact congrArg (fun out => (finish _ (leave _ out)).1) (h.carryOut_of_failed hf)

theorem outcome_opening (hs : Steady c d) (hr : b.Tree root) : b.Outcome d.starting [⟨d.nextTag, root⟩] :=
  have hs : Steady c d.starting := hs.congr rfl rfl
  .one hs hr (Nat.lt_succ_self _)

theorem expand_of_stretch (h : b.Stretch d.starting [⟨d.nextTag, root⟩] d' calls new) :
    (d.opening root).Course calls ⟨d', [], new⟩ ∧
      d.expand root = (.ok (assemble d.nextTag new), { d' with pending := d.pending }) := by
  have hc : (d.opening root).Course calls ⟨d', [], new⟩ := new.append_nil ▸ h.course [] []
  have ho : d.starting.carryOut [⟨d.nextTag, root⟩] [] = (.ok new, d') := hc.carryOut_of_done
  exact ⟨hc, by rw [expand, ho]; rfl⟩

theorem expand_of_stop {node : Datum} {fault : Fault} (h : b.Stop d.starting [⟨d.nextTag, root⟩] calls node fault) :
    ∃ e r work fillings, (d.opening root).Course calls ⟨e, r :: work, fillings⟩ ∧ r.node = node ∧
      (d.expand root).1 = .error fault := by
  obtain ⟨e, r, work, fillings, hc, hn, hf⟩ := h.course [] []
  refine ⟨e, r, work, fillings, hc, hn, ?_⟩
  have ho : (d.starting.carryOut [⟨d.nextTag, root⟩] []).1 = .error fault :=
    congrArg Prod.fst (hc.carryOut_of_failed (hn ▸ hf))
  rw [expand, leave, ho]
  rfl

-- The value behind the placeholder of the root.
theorem assemble_of_stretch (h : b.Stretch d.starting [⟨d.nextTag, root⟩] d' calls new) :
    (assemble d.nextTag new).Whole ∧ b.value root = .ok (assemble d.nextTag new).reveal := by
  obtain ⟨v, hv, hw, hr⟩ := h.served [] _ (h.called _ List.mem_cons_self)
  have ha : assemble d.nextTag new = v := by
    rw [assemble, complete, ← completeOnto, hv]
    rfl
  exact ha ▸ ⟨hw, hr⟩

-- A node that has a value is expanded to it, wherever the depth is, and the depth stays there.
theorem expand_of_value {v : Datum} (hs : Steady c d) (hr : b.Tree root) (hv : b.value root = .ok v) :
    ∃ value e, d.expand root = (.ok value, e) ∧ value.reveal = v ∧ e.depth = d.depth := by
  cases outcome_opening hs hr
  case complete d' calls new h =>
    obtain ⟨_, hx⟩ := expand_of_stretch h
    obtain ⟨_, ha⟩ := assemble_of_stretch h
    exact ⟨_, _, hx, Except.ok.inj (ha.symm.trans hv), h.depth⟩
  case stopped calls node fault h =>
    obtain ⟨after, ha⟩ := h.nodes
    have hn : node ∈ b.preorder root := by
      rw [List.flatMap_singleton] at ha
      simp [ha]
    have ho := Cookbook.drafted_of_value hv node hn
    rw [h.failed] at ho
    cases ho

theorem doDump_computes_value (b : Cookbook c) {depth : Int} {steps : List Step}
    (hd : ((Dumper.new c depth).performAll steps).2 = d) (hr : b.Tree root) :
    ((∀ n ∈ b.preorder root, (b.draft n).isOk) ∧ ∃ calls d' fillings v,
      (d.opening root).Course calls ⟨d', [], fillings⟩ ∧ calls.map (·.node) = b.preorder root ∧
        (calls.map (·.tag)).Perm (List.range' d.nextTag (d'.nextTag - d.nextTag)) ∧
        (∀ r ∈ calls, b.Served (complete fillings) r) ∧ (d.doDump root).1 = .ok v ∧ v.Whole ∧ b.value root = .ok v.reveal) ∨
    ∃ before n after fault calls d' r work fillings,
      b.preorder root = before ++ n :: after ∧ (∀ m ∈ before, (b.draft m).isOk) ∧ b.draft n = .error fault ∧
        (d.opening root).Course calls ⟨d', r :: work, fillings⟩ ∧ calls.map (·.node) = before ∧ r.node = n ∧
        (d.doDump root).1 = .error fault := by
  have hi : Idle c d := hd ▸ .of_session c depth steps
  have he : d.doDump root = d.expand root := by rw [doDump, hi.pending]
  rw [he]
  cases outcome_opening hi.toSteady hr
  case complete d' calls new h =>
    obtain ⟨hc, hx⟩ := expand_of_stretch h
    obtain ⟨hw, hv⟩ := assemble_of_stretch h
    have hn : calls.map (·.node) = b.preorder root := by rw [h.nodes, List.flatMap_singleton]
    refine .inl ⟨Cookbook.drafted_of_value hv, calls, d', new, _, hc, hn, ?_, h.served [], by rw [hx], hw, hv⟩
    have hl : d'.nextTag - d.nextTag = (d'.nextTag - d.starting.nextTag) + 1 := by
      have := h.nextTag_le
      simp only [starting] at this ⊢
      omega
    rw [hl, List.range'_succ]
    exact h.tags
  case stopped calls node fault h =>
    obtain ⟨e, r, work, fillings, hc, hn, hf⟩ := expand_of_stop h
    obtain ⟨after, ha⟩ := h.nodes
    rw [List.flatMap_singleton] at ha
    refine .inr ⟨_, node, after, fault, calls, e, r, work, fillings, ha, ?_, h.failed, hc, rfl, hn, hf⟩
    intro m hm
    obtain ⟨q, hq, he⟩ := List.mem_map.mp hm
    exact he ▸ h.drafted q hq

end

-- Pairs, whose handler asks for the left part twice and leaves one of the two placeholders out.
def dumpPair (o : Datum) : Action o Datum :=
  match o.field? "left", o.field? "right" with
  | some left, some right => do
    let _ ← Action.child left
    return .list [.text "pair", ← Action.child right, ← Action.child left]
  | _, _ => throw (.raised "no pair")

def pairClass : DumperClass :=
  ⟨"PairDumper", [("dump_Pair", dumpPair), ("dump_str", fun _ => return .text "leaf")], []⟩

def pairRecipe (o : Datum) : Recipe o :=
  match o.field? "left", o.field? "right" with
  | some left, some right =>
    ⟨[left, right, left], .ok (.list [.text "pair", .unfilled (.asked 1), .unfilled (.asked 2)])⟩
  | _, _ => ⟨[], .error (.raised "no pair")⟩

def pairCookbook : Cookbook pairClass where
  Tree _ := True
  recipe o := if pairClass.handlerName? o.type = some "dump_Pair" then pairRecipe o else ⟨[], .ok (.text "leaf")⟩
  tree_of_part _ _ _ := trivial
  refers := by
    intro o d _ hd
    split at hd
    case isTrue h =>
      simp only [h, if_true, pairRecipe] at hd ⊢
      split at hd
      case h_1 =>
        cases hd
        simp [Datum.Refers, Datum.Tagged, Datum.TaggedAll]
      case h_2 => cases hd
    case isFalse =>
      cases hd
      trivial
  follows := by
    intro o name handler _ hn hh tag
    simp only [pairClass, List.lookup_cons, List.lookup_nil] at hh
    split at hh
    case h_1 he =>
      cases hh
      rw [beq_iff_eq.mp he] at hn
      simp only [hn, if_true, dumpPair, pairRecipe]
      split <;> rfl
    case h_2 he =>
      have hp : pairClass.handlerName? o.type ≠ some "dump_Pair" := by
        rw [hn]
        intro h
        cases h
        cases he
      split at hh <;> cases hh
      simp only [hp, if_false]
      rfl

def pair (left right : Datum) : Datum :=
  .node (.builtin "Pair") [("left", left), ("right", right)]

theorem value_leaf (s : String) : pairCookbook.value (.text s) = .ok (.literal "leaf") := by
  have hd : pairCookbook.draft (.text s) = .ok ⟨[], .literal "leaf"⟩ := rfl
  rw [Cookbook.value_of_draft hd]
  rfl

theorem value_pair {left right v w : Datum} (hl : pairCookbook.value left = .ok v) (hr : pairCookbook.value right = .ok w) :
    pairCookbook.value (pair left right) = .ok (.group [.literal "pair", w, v]) := by
  have hd : pairCookbook.draft (pair left right) = .ok ⟨(pairRecipe (pair left right)).parts,
      .group [.literal "pair", .unfilled (.asked 1), .unfilled (.asked 2)]⟩ :=
    Cookbook.draft_of_plan trivial rfl rfl rfl fun _ => by rw [Datum.normalize_eq_normal]; rfl
  rw [Cookbook.value_of_draft hd]
  show (do return Datum.plug (← [left, right, left].mapM pairCookbook.value) _) = _
  simp only [List.mapM_cons, List.mapM_nil, hl, hr]
  rfl

theorem doDump_pair :
    ∃ v, ((new pairClass 0).doDump (pair (.text "a") (pair (.text "b") (.text "c")))).1 = .ok v ∧ v.Whole ∧
      v.reveal = .group [.literal "pair", .group [.literal "pair", .literal "leaf", .literal "leaf"], .literal "leaf"] := by
  have hd : ((new pairClass 0).performAll []).2 = new pairClass 0 := rfl
  have hr : pairCookbook.Tree (pair (.text "a") (pair (.text "b") (.text "c"))) := trivial
  have hv := value_pair (value_leaf "a") (value_pair (value_leaf "b") (value_leaf "c"))
  rcases doDump_computes_value pairCookbook hd hr with
    ⟨_, _, _, _, v, _, _, _, _, hx, hw, he⟩ | ⟨before, n, _, _, _, _, _, _, _, hp, _, hf, _⟩
  case inl => exact ⟨v, hx, hw, Except.ok.inj (he.symm.trans hv)⟩
  case inr =>
    have hk := Cookbook.drafted_of_value hv n (by simp [hp])
    rw [hf] at hk
    cases hk

end Dumper
end ParenTree
