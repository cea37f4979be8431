import ParenTree.Dumper.Basic
import ParenTree.Proofs.Layout.Normal

-- Handlers that are functions of their node. Such a handler asks for parts of the node and returns a value with placeholders
-- for them; what it does is written down as a recipe, in which a placeholder is known by its place among the requests.

namespace ParenTree

namespace Datum

-- Induction over the values inside a datum. What the fields of an object hold is not inside it.
theorem inductInside {motive : Datum → Prop}
    (list : ∀ items, (∀ d ∈ items, motive d) → motive (list items))
    (tuple : ∀ items, (∀ d ∈ items, motive d) → motive (tuple items))
    (group : ∀ items, (∀ d ∈ items, motive d) → motive (group items))
    (filled : ∀ tag content, motive content → motive (filled tag content))
    (unfilled : ∀ tag, motive (unfilled tag))
    (text : ∀ s, motive (text s)) (int : ∀ n, motive (int n)) (float : ∀ x, motive (float x))
    (bool : ∀ b, motive (bool b)) (null : motive null) (dict : motive dict) (literal : ∀ s, motive (literal s))
    (marker : ∀ m, motive (marker m)) (node : ∀ type fields, motive (node type fields)) (d : Datum) : motive d := by
  induction hn : d.weight using Nat.strongRecOn generalizing d
  case ind n hi =>
    subst hn
    have inside {items : List Datum} (h : weightAll items < d.weight) : ∀ e ∈ items, motive e := fun e he =>
      hi _ (Nat.lt_of_le_of_lt (weight_le_weightAll he) h) e rfl
    cases d
    case list items => exact list items (inside (by simp only [weight]; omega))
    case tuple items => exact tuple items (inside (by simp only [weight]; omega))
    case group items => exact group items (inside (by simp only [weight]; omega))
    case filled tag content => exact filled tag content (hi _ (by simp only [weight]; omega) content rfl)
    all_goals apply_assumption

mutual

-- A datum with other data in place of its placeholders.
def replace (hole : Tag → Datum) (wrap : Tag → Datum → Datum) : Datum → Datum
  | unfilled tag => hole tag
  | filled tag content => wrap tag (content.replace hole wrap)
  | list items => list (replaceAll hole wrap items)
  | tuple items => tuple (replaceAll hole wrap items)
  | group items => group (replaceAll hole wrap items)
  | d => d

def replaceAll (hole : Tag → Datum) (wrap : Tag → Datum → Datum) : List Datum → List Datum
  | [] => []
  | d :: ds => d.replace hole wrap :: replaceAll hole wrap ds

end

mutual

-- The tags of unfilled placeholders satisfy `p`, those of filled ones `q`.
def Tagged (p q : Tag → Prop) : Datum → Prop
  | unfilled tag => p tag
  | filled tag content => q tag ∧ content.Tagged p q
  | list items | tuple items | group items => TaggedAll p q items
  | _ => True

def TaggedAll (p q : Tag → Prop) : List Datum → Prop
  | [] => True
  | d :: ds => d.Tagged p q ∧ TaggedAll p q ds

end

section

variable {hole hole' : Tag → Datum} {wrap wrap' : Tag → Datum → Datum} {p q p' q' : Tag → Prop}

theorem replaceAll_eq_map (ds : List Datum) : replaceAll hole wrap ds = ds.map (replace hole wrap) := by
  induction ds
  case nil => rfl
  case cons d ds hi => simp [replaceAll, hi]

theorem taggedAll_iff (ds : List Datum) : TaggedAll p q ds ↔ ∀ d ∈ ds, d.Tagged p q := by
  induction ds
  case nil => simp [TaggedAll]
  case cons d ds hi => simp [TaggedAll, hi]

theorem replace_congr {d : Datum} (hd : d.Tagged p q) (hh : ∀ tag, p tag → hole tag = hole' tag)
    (hw : ∀ tag content, q tag → wrap tag content = wrap' tag content) : d.replace hole wrap = d.replace hole' wrap' := by
  induction d using inductInside
  case unfilled tag => exact hh tag hd
  case filled tag content hi =>
    obtain ⟨hq, hc⟩ := hd
    simp only [replace, hi hc, hw tag _ hq]
  case list items hi | tuple items hi | group items hi =>
    simp only [Tagged, taggedAll_iff] at hd
    simp only [replace, replaceAll_eq_map]
    rw [List.map_congr_left fun e he => hi e he (hd e he)]
  all_goals simp only [replace]

theorem replace_replace (d : Datum) :
    (d.replace hole filled).replace hole' wrap' = d.replace (fun tag => (hole tag).replace hole' wrap') wrap' := by
  induction d using inductInside
  case filled tag content hi => simp only [replace, hi]
  case list items hi | tuple items hi | group items hi =>
    simp only [replace, replaceAll_eq_map, List.map_map]
    rw [List.map_congr_left fun e he => show (replace hole' wrap' ∘ replace hole filled) e = _ from hi e he]
  all_goals simp only [replace]

theorem Tagged.replace {d : Datum} (hd : d.Tagged p q) (hh : ∀ tag, p tag → (hole tag).Tagged p' q')
    (hw : ∀ tag content, q tag → content.Tagged p' q' → (wrap tag content).Tagged p' q') :
    (d.replace hole wrap).Tagged p' q' := by
  induction d using inductInside
  case unfilled tag => exact hh tag hd
  case filled tag content hi => exact hw tag _ hd.left (hi hd.right)
  case list items hi | tuple items hi | group items hi =>
    simp only [Tagged, taggedAll_iff] at hd
    simp only [Datum.replace, Tagged, taggedAll_iff, replaceAll_eq_map, List.mem_map]
    rintro _ ⟨e, he, rfl⟩
    exact hi e he (hd e he)
  all_goals trivial

end

-- The same value of a handler whose first placeholder has the tag `base`.
def shift (base : Nat) : Datum → Datum :=
  replace (fun
    | .asked i => unfilled (.asked (base + i))
    | tag => unfilled tag) filled

-- A value with other values in place of the placeholders of a handler.
def plug (values : List Datum) : Datum → Datum :=
  replace (fun
    | .asked i => values[i]?.getD (unfilled (.asked i))
    | tag => unfilled tag) filled

-- A value with the contents of what handlers have asked for in place of its placeholder.
def reveal : Datum → Datum :=
  replace unfilled (fun
    | .asked _, content => content
    | tag, content => filled tag content)

-- All placeholders that a handler has asked for are unfilled, and there are fewer than `count` of them.
def Refers (count : Nat) : Datum → Prop :=
  Tagged (fun
    | .asked i => i < count
    | .given _ => True) (fun
    | .asked _ => False
    | .given _ => True)

-- Every placeholder that a handler has asked for is filled.
def Whole : Datum → Prop :=
  Tagged (fun
    | .asked _ => False
    | .given _ => True) fun _ => True

theorem shift_zero (d : Datum) : d.shift 0 = d := by
  simp only [shift]
  induction d using inductInside
  case unfilled tag => cases tag <;> simp [replace]
  case filled tag content hi => rw [replace, hi]
  case list items hi | tuple items hi | group items hi =>
    rw [replace, replaceAll_eq_map, List.map_congr_left hi, List.map_id']
  all_goals rw [replace] <;> simp

theorem reveal_group (items : List Datum) : (group items).reveal = group (items.map reveal) := by
  simp only [reveal, replace, replaceAll_eq_map]

theorem plug_group (values items : List Datum) : (group items).plug values = group (items.map (plug values)) := by
  simp only [plug, replace, replaceAll_eq_map]

theorem fillAll_eq_map (values : Dumper.Fillings) (ds : List Datum) : fillAll values ds = ds.map (fill values) := by
  induction ds
  case nil => rfl
  case cons d ds hi => simp [fillAll, hi]

theorem fill_eq_replace (values : Dumper.Fillings) (d : Datum) :
    d.fill values = d.replace (fun
      | .asked tag => (values.lookup tag).elim (unfilled (.asked tag)) (filled (.asked tag))
      | tag => unfilled tag) filled := by
  induction d using inductInside
  case unfilled tag =>
    cases tag
    case asked tag =>
      simp only [fill, replace]
      cases values.lookup tag <;> rfl
    case given => rfl
  case filled tag content hi => simp only [fill, replace, hi]
  case list items hi | tuple items hi | group items hi =>
    simp only [fill, replace, fillAll_eq_map, replaceAll_eq_map]
    rw [List.map_congr_left hi]
  all_goals rfl

section

variable {value : Datum} {count base : Nat} {values : List Datum} {fillings : Dumper.Fillings}

-- Filling the placeholders of a handler and looking into them is plugging in what they were filled with.
theorem reveal_fill_shift (hv : value.Refers values.length)
    (hf : ∀ i (hi : i < values.length), ∃ d, fillings.lookup (base + i) = some d ∧ d.reveal = values[i]) :
    ((value.shift base).fill fillings).reveal = value.plug values := by
  rw [fill_eq_replace]
  simp only [shift, reveal, plug, replace_replace]
  refine replace_congr hv ?_ ?_
  case refine_1 =>
    intro tag ht
    cases tag
    case given => rfl
    case asked i =>
      obtain ⟨d, hd, hr⟩ := hf i ht
      simp only [replace, hd, Option.elim_some, List.getElem?_eq_getElem ht, Option.getD_some, ← hr]
      rfl
  case refine_2 =>
    intro tag content ht
    cases tag
    case given => rfl
    case asked => exact absurd ht id

theorem whole_fill_shift (hv : value.Refers count)
    (hf : ∀ i < count, ∃ d, fillings.lookup (base + i) = some d ∧ d.Whole) : ((value.shift base).fill fillings).Whole := by
  rw [fill_eq_replace]
  simp only [shift, replace_replace]
  refine hv.replace ?_ ?_
  case refine_1 =>
    intro tag ht
    cases tag
    case given => trivial
    case asked i =>
      obtain ⟨d, hd, hw⟩ := hf i ht
      simpa only [replace, hd, Option.elim_some] using ⟨trivial, hw⟩
  case refine_2 => exact fun _ _ _ hw => ⟨trivial, hw⟩

end

section

variable {context : Option String} {value : Datum}

theorem normalAll_map {f : Datum → Datum} {ds : List Datum}
    (h : ∀ d ∈ ds, (f d).normal context = (d.normal context).map f) :
    normalAll context (ds.map f) = (normalAll context ds).map (List.map f) := by
  induction ds
  case nil => rfl
  case cons d ds hi =>
    simp only [List.map_cons, normalAll, h d List.mem_cons_self, hi fun e he => h e (List.mem_cons_of_mem d he)]
    cases d.normal context
    case error => rfl
    case ok => cases normalAll context ds <;> rfl

-- Normalization looks at no placeholder, so it does not matter which ones there are.
theorem normal_replace {hole : Tag → Datum} {wrap : Tag → Datum → Datum}
    (hh : ∀ tag, (hole tag).normal context = .ok (hole tag))
    (hw : ∀ tag content, (wrap tag content).normal context = .ok (wrap tag content)) (d : Datum) :
    (d.replace hole wrap).normal context = (d.normal context).map (replace hole wrap) := by
  induction d using inductInside
  case list items hi | tuple items hi =>
    simp only [replace, replaceAll_eq_map, normal]
    rw [normalAll_map hi]
    cases normalAll context items
    case error => rfl
    case ok values => exact congrArg Except.ok (by rw [replace, replaceAll_eq_map])
  case unfilled tag => exact hh tag
  case filled tag content _ => exact hw tag _
  all_goals rfl

theorem normalize_shift (base : Nat) (d : Datum) :
    (d.shift base).normalize context = (d.normalize context).map (shift base) := by
  simp only [normalize_eq_normal]
  refine normal_replace ?_ (fun _ _ => rfl) d
  intro tag
  cases tag <;> rfl

theorem mem_of_normalAll {items values : List Datum} (h : normalAll context items = .ok values) :
    ∀ value ∈ values, ∃ d ∈ items, d.normal context = .ok value := by
  induction items generalizing values
  case nil => cases h; simp
  case cons d ds hi =>
    simp only [normalAll] at h
    cases hd : d.normal context
    case error => simp [hd, bind, Except.bind] at h
    case ok first =>
      cases hs : normalAll context ds
      case error => simp [hd, hs, bind, Except.bind] at h
      case ok others =>
        rw [hd, hs] at h
        cases h
        intro value hm
        cases hm
        case head => exact ⟨d, List.mem_cons_self, hd⟩
        case tail hm =>
          obtain ⟨e, he, hv⟩ := hi hs value hm
          exact ⟨e, List.mem_cons_of_mem d he, hv⟩

theorem Tagged.normalize {p q : Tag → Prop} {d : Datum} (hd : d.Tagged p q) (hv : d.normalize context = .ok value) :
    value.Tagged p q := by
  rw [normalize_eq_normal] at hv
  induction d using inductInside generalizing value
  case list items hi | tuple items hi =>
    simp only [Tagged, taggedAll_iff] at hd
    simp only [normal] at hv
    cases hs : normalAll context items
    case error => simp [hs, bind, Except.bind] at hv
    case ok values =>
      rw [hs] at hv
      cases hv
      simp only [Tagged, taggedAll_iff]
      intro value hm
      obtain ⟨e, he, hv⟩ := mem_of_normalAll hs value hm
      exact hi e he (hd e he) hv
  case group | filled | unfilled =>
    cases hv
    exact hd
  case text | literal | marker =>
    cases hv
    trivial
  all_goals cases hv

end

end Datum
end ParenTree
