-- Work in steps of which each may fail: what the outcome of the whole says about the steps.

namespace ParenTree

variable {α β ε : Type}

theorem bind_eq_ok {x : Except ε α} {f : α → Except ε β} {b : β} :
    (x >>= f) = .ok b ↔ ∃ a, x = .ok a ∧ f a = .ok b := by
  constructor
  case mp =>
    intro h
    cases x
    case error => cases h
    case ok a => exact ⟨a, rfl, h⟩
  case mpr =>
    rintro ⟨a, rfl, h⟩
    exact h

theorem error_of_bind_pure {x : Except ε α} {g : α → β} {e : ε} (h : (x >>= fun a => pure (g a)) = .error e) :
    x = .error e := by
  cases x
  case error =>
    cases h
    rfl
  case ok => cases h

theorem error_of_map {f : α → β} {x : Except ε α} {e : ε} (h : x.map f = .error e) : x = .error e := by
  cases x
  case error =>
    cases h
    rfl
  case ok => cases h

theorem mapM_ok {f : α → Except ε β} {g : α → β} {l : List α} (h : ∀ x ∈ l, f x = .ok (g x)) :
    l.mapM f = .ok (l.map g) := by
  induction l
  case nil => rfl
  case cons a l hi =>
    rw [List.mapM_cons, h a List.mem_cons_self, hi fun x hx => h x (List.mem_cons_of_mem a hx)]
    rfl

theorem ok_of_mapM {f : α → Except ε β} {l : List α} {ys : List β} (h : l.mapM f = .ok ys) : ∀ x ∈ l, ∃ y, f x = .ok y := by
  induction l generalizing ys
  case nil => exact List.forall_mem_nil _
  case cons a l hi =>
    rw [List.mapM_cons] at h
    obtain ⟨y, ha, h⟩ := bind_eq_ok.mp h
    obtain ⟨ys, hl, -⟩ := bind_eq_ok.mp h
    exact List.forall_mem_cons.mpr ⟨⟨y, ha⟩, hi hl⟩

end ParenTree
