import ParenTree.Proofs.Dumper.Expansion
import ParenTree.Proofs.Layout.Words

-- Handlers that do not look at the numbers of their placeholders. A placeholder is there to be put into the result; the number
-- that tells it from others is the dumper's own. So a handler does the same whichever number its dumper has come to, and what
-- it returns is the same but for the numbers.

namespace ParenTree

-- Placeholders that were handed in keep their number.
def Tag.renumber (k : Nat) : Tag → Tag
  | asked n => asked (k + n)
  | given n => given n

namespace Datum

-- The same value where the placeholders that handlers have asked for, filled or not, are numbered from `k` on.
def renumber (k : Nat) : Datum → Datum :=
  replace (fun tag => unfilled (tag.renumber k)) fun tag content => filled (tag.renumber k) content

mutual

-- A datum from outside: no handler has asked for a placeholder in it, nor in the fields of an object in it.
def isForeign : Datum → Bool
  | unfilled (.asked _) | filled (.asked _) _ => false
  | filled (.given _) content => content.isForeign
  | list items | tuple items | group items => allForeign items
  | node _ fields => fieldsForeign fields
  | _ => true

def allForeign : List Datum → Bool
  | [] => true
  | d :: ds => d.isForeign && allForeign ds

def fieldsForeign : List (String × Datum) → Bool
  | [] => true
  | f :: fs => fieldForeign f && fieldsForeign fs

def fieldForeign : String × Datum → Bool
  | (_, d) => d.isForeign

end

theorem allForeign_iff {ds : List Datum} : allForeign ds = true ↔ ∀ d ∈ ds, d.isForeign := by
  induction ds
  case nil => simp [allForeign]
  case cons d ds hi => simp [allForeign, hi]

section

variable (k : Nat)

theorem renumber_list (items : List Datum) : (list items).renumber k = list (items.map (renumber k)) := by
  simp only [renumber, replace, replaceAll_eq_map]

theorem renumber_tuple (items : List Datum) : (tuple items).renumber k = tuple (items.map (renumber k)) := by
  simp only [renumber, replace, replaceAll_eq_map]

theorem renumber_group (items : List Datum) : (group items).renumber k = group (items.map (renumber k)) := by
  simp only [renumber, replace, replaceAll_eq_map]

theorem renumber_filled (tag : Tag) (content : Datum) :
    (filled tag content).renumber k = filled (tag.renumber k) (content.renumber k) :=
  rfl

theorem isNop_renumber (c : DumperClass) (d : Datum) : c.isNop (d.renumber k) = c.isNop d := by
  cases d <;> rfl

-- There is nothing to renumber in a datum from outside.
theorem renumber_of_isForeign {d : Datum} (h : d.isForeign) : d.renumber k = d := by
  induction d using inductInside
  case unfilled tag =>
    cases tag
    case asked => cases h
    case given => rfl
  case filled tag content hi =>
    cases tag
    case asked => cases h
    case given => rw [renumber_filled, hi h, Tag.renumber]
  case list items hi | tuple items hi | group items hi =>
    simp only [renumber_list, renumber_tuple, renumber_group]
    rw [List.map_congr_left fun d hd => hi d hd (allForeign_iff.mp h d hd), List.map_id']
  all_goals rfl

theorem normalize_renumber (context : Option String) (d : Datum) :
    (d.renumber k).normalize context = (d.normalize context).map (renumber k) := by
  simp only [normalize_eq_normal]
  exact normal_replace (fun _ => rfl) (fun _ _ => rfl) d

-- Numbers of placeholders are not printed.
theorem words_renumber (d : Datum) (depth : Int) : (d.renumber k).words depth = d.words depth := by
  induction d using inductInside generalizing depth
  case group items hi => rw [renumber_group, words, words, allWords_map hi]
  case filled tag content hi => exact hi depth
  all_goals rfl

end
end Datum

-- The request that a handler makes where the numbers begin at `k`.
def Request.renumber (k : Nat) (r : Request) : Request :=
  ⟨k + r.tag, r.node⟩

namespace Dumper.Fillings

def renumber (k : Nat) (fillings : Fillings) : Fillings :=
  fillings.map fun f => (k + f.1, f.2.renumber k)

variable (k : Nat)

theorem lookup_renumber (fillings : Fillings) (tag : Nat) :
    (fillings.renumber k).lookup (k + tag) = (fillings.lookup tag).map (Datum.renumber k) := by
  induction fillings
  case nil => rfl
  case cons f fillings hi =>
    obtain ⟨key, value⟩ := f
    have he : (k + tag == k + key) = (tag == key) := Bool.eq_iff_iff.mpr (by simp)
    simp only [renumber, List.map_cons, List.lookup_cons, he]
    cases tag == key
    case true => rfl
    case false => exact hi

theorem fill_renumber (values : Fillings) (d : Datum) :
    (d.renumber k).fill (values.renumber k) = (d.fill values).renumber k := by
  induction d using Datum.inductInside
  case unfilled tag =>
    cases tag
    case given => rfl
    case asked tag =>
      show Datum.fill _ (.unfilled (.asked (k + tag))) = _
      simp only [Datum.fill, lookup_renumber]
      cases values.lookup tag <;> rfl
  case filled tag content hi =>
    rw [Datum.renumber_filled, Datum.fill, hi]
    rfl
  case list items hi | tuple items hi | group items hi =>
    simp only [Datum.renumber_list, Datum.renumber_tuple, Datum.renumber_group, Datum.fill, Datum.fillAll_eq_map,
      List.map_map]
    rw [List.map_congr_left fun d hd => show (Datum.fill (values.renumber k) ∘ Datum.renumber k) d = _ from hi d hd]
    rfl
  all_goals rfl

theorem completeOnto_renumber (values fillings : Fillings) :
    completeOnto (values.renumber k) (fillings.renumber k) = (completeOnto values fillings).renumber k := by
  induction fillings generalizing values
  case nil => rfl
  case cons f fillings hi =>
    refine Eq.trans ?_ (hi ((f.1, f.2.fill values) :: values))
    show completeOnto ((k + f.1, (f.2.renumber k).fill (renumber k values)) :: renumber k values) (renumber k fillings) = _
    rw [fill_renumber]
    rfl

theorem assemble_renumber (tag : Nat) (fillings : Fillings) :
    assemble (k + tag) (fillings.renumber k) = (assemble tag fillings).renumber k := by
  have hc : complete (fillings.renumber k) = (complete fillings).renumber k := completeOnto_renumber k [] fillings
  rw [assemble, assemble, hc, lookup_renumber]
  cases (complete fillings).lookup tag <;> rfl

end Dumper.Fillings

namespace Script

variable {o : Datum} {α β : Type}

-- Two courses of one handler whose placeholders are numbered apart by `k`: the same parts of the outside world are asked for
-- and dumped, what is laid out is the same but for the numbers, and `move` takes one result to the other.
inductive Alike (k : Nat) (move : α → α) : Script o α → Script o α → Prop
  | done (a : α) : Alike k move (done a) (done (move a))
  | request {part : Datum} {isPart : part.IsPartOf o} {next next' : Nat → Script o α} :
    part.isForeign → (∀ tag, Alike k move (next tag) (next' (k + tag))) →
    Alike k move (request part isPart next) (request part isPart next')
  | dump {part : Datum} {isPart : part.IsPartOf o} {next next' : Except Fault String → Script o α} :
    part.isForeign → (∀ text, Alike k move (next text) (next' text)) →
    Alike k move (dump part isPart next) (dump part isPart next')
  | format {value : Datum} {next next' : Except Fault String → Script o α} :
    (∀ text, Alike k move (next text) (next' text)) → Alike k move (format value next) (format (value.renumber k) next')
  | isNop {d : Datum} {next next' : Bool → Script o α} :
    (∀ b, Alike k move (next b) (next' b)) → Alike k move (isNop d next) (isNop (d.renumber k) next')
  | depth {next next' : Int → Script o α} :
    (∀ n, Alike k move (next n) (next' n)) → Alike k move (depth next) (depth next')
  | setDepth {n : Int} {next next' : Script o α} :
    Alike k move next next' → Alike k move (setDepth n next) (setDepth n next')

-- A script that asks for parts and looks around: it runs no dump, lays nothing out and leaves the depth alone.
def Quiet : Script o α → Prop
  | done _ => True
  | request _ _ next => ∀ tag, (next tag).Quiet
  | isNop _ next => ∀ b, (next b).Quiet
  | depth next => ∀ n, (next n).Quiet
  | dump .. | format .. | setDepth .. => False

end Script

-- A handler that does the same on a node from outside whatever the numbers of its placeholders are.
def Handler.Uniform (handler : Handler) : Prop :=
  ∀ o, o.isForeign → ∀ k, Script.Alike k (Except.map (Datum.renumber k)) (handler o).run (handler o).run

def Handler.Quiet (handler : Handler) : Prop :=
  ∀ o, Script.Quiet (handler o).run

namespace DumperClass

def Uniform (c : DumperClass) : Prop :=
  ∀ h ∈ c.handlers, h.2.Uniform

def Quiet (c : DumperClass) : Prop :=
  ∀ h ∈ c.handlers, h.2.Quiet

end DumperClass
end ParenTree
