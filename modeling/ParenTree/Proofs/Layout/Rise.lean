import ParenTree.Proofs.Layout.Words

-- How far the depth has moved behind a value. Neither normalization nor the filling of placeholders with level values makes a
-- difference to it.

namespace ParenTree.Datum

mutual

-- The steps in less the steps out, those in the contents of placeholders included.
def rise : Datum → Int
  | marker .indent => 1
  | marker .dedent => -1
  | list items | tuple items | group items => riseAll items
  | filled _ content => content.rise
  | _ => 0

def riseAll : List Datum → Int
  | [] => 0
  | d :: ds => d.rise + riseAll ds

end

theorem riseAll_append (ds es : List Datum) : riseAll (ds ++ es) = riseAll ds + riseAll es := by
  induction ds
  case nil => simp [riseAll]
  case cons d ds hi => simp only [List.cons_append, riseAll, hi, Int.add_assoc]

theorem riseAll_eq_zero {ds : List Datum} (h : ∀ d ∈ ds, d.rise = 0) : riseAll ds = 0 := by
  induction ds
  case nil => rfl
  case cons d ds hi =>
    obtain ⟨hd, hs⟩ := List.forall_mem_cons.mp h
    rw [riseAll, hd, hi hs, Int.add_zero]

theorem riseAll_map {f : Datum → Datum} {ds : List Datum} (h : ∀ d ∈ ds, (f d).rise = d.rise) :
    riseAll (ds.map f) = riseAll ds := by
  induction ds
  case nil => rfl
  case cons d ds hi =>
    obtain ⟨hd, hs⟩ := List.forall_mem_cons.mp h
    rw [List.map_cons, riseAll, riseAll, hd, hi hs]

section

variable {d value : Datum} {items values : List Datum} {ws : List String} {depth depth' : Int} {context : Option String}

theorem allWords_depth
    (h : ∀ d ∈ items, ∀ {ws} {depth depth' : Int}, d.words depth = .ok (ws, depth') → depth' = depth + d.rise)
    (hw : allWords depth items = .ok (ws, depth')) : depth' = depth + riseAll items := by
  induction items generalizing ws depth
  case nil =>
    cases hw
    exact (Int.add_zero _).symm
  case cons d ds hi =>
    obtain ⟨hd, hs⟩ := List.forall_mem_cons.mp h
    rw [allWords] at hw
    obtain ⟨⟨ws₁, depth₁⟩, hf, hw⟩ := bind_eq_ok.mp hw
    obtain ⟨⟨ws₂, depth₂⟩, ho, hw⟩ := bind_eq_ok.mp hw
    cases hw
    rw [hi hs ho, hd hf, riseAll, Int.add_assoc]

-- The depth behind a value is the one before it and what the value rises by.
theorem words_depth (h : d.words depth = .ok (ws, depth')) : depth' = depth + d.rise := by
  induction d using inductInside generalizing ws depth depth'
  case group items hi =>
    obtain ⟨⟨_, _⟩, hi', hw⟩ := bind_eq_ok.mp h
    cases hw
    exact allWords_depth hi hi'
  case filled content hi => exact hi h
  case literal =>
    cases h
    exact (Int.add_zero _).symm
  case marker m =>
    cases m
    case lineBreak =>
      cases h
      exact (Int.add_zero _).symm
    all_goals
      cases h
      rfl
  all_goals cases h

theorem riseAll_normalAll (h : ∀ d ∈ items, ∀ {value}, d.normal context = .ok value → value.rise = d.rise)
    (hv : normalAll context items = .ok values) : riseAll values = riseAll items := by
  induction items generalizing values
  case nil =>
    cases hv
    rfl
  case cons d ds hi =>
    obtain ⟨hd, hs⟩ := List.forall_mem_cons.mp h
    rw [normalAll] at hv
    obtain ⟨_, hf, hv⟩ := bind_eq_ok.mp hv
    obtain ⟨_, ho, hv⟩ := bind_eq_ok.mp hv
    cases hv
    rw [riseAll, riseAll, hd hf, hi hs ho]

theorem rise_normalize (h : d.normalize context = .ok value) : value.rise = d.rise := by
  rw [normalize_eq_normal] at h
  induction d using inductInside generalizing value
  case list items hi | tuple items hi =>
    rw [normal] at h
    obtain ⟨values, hs, hv⟩ := bind_eq_ok.mp h
    cases hv
    exact riseAll_normalAll hi hs
  case text | literal | group | filled | unfilled | marker =>
    cases h
    rfl
  all_goals cases h

end

theorem rise_fill {values : Dumper.Fillings} (h : ∀ {tag d}, values.lookup tag = some d → d.rise = 0) (d : Datum) :
    (d.fill values).rise = d.rise := by
  induction d using inductInside
  case unfilled tag =>
    cases tag
    case given => rfl
    case asked tag =>
      rw [fill]
      split
      case h_1 hl =>
        have hz := h hl
        exact hz
      case h_2 => rfl
  case filled content hi => exact hi
  case list items hi | tuple items hi | group items hi =>
    simp only [fill, rise, fillAll_eq_map]
    exact riseAll_map hi
  all_goals rfl

end ParenTree.Datum
