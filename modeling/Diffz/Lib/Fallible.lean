/-!
# Fallible computations

A result of `Except` taken apart: what was computed before it, and with what.
-/

set_option autoImplicit false

namespace Diffz

variable {ε α β : Type} {x : Except ε α}

theorem ok_bind (a : α) (f : α → Except ε β) : ((.ok a : Except ε α) >>= f) = f a := rfl

theorem ok_of_bind {f : α → Except ε β} {b : β} (h : x >>= f = .ok b) :
    ∃ a, x = .ok a ∧ f a = .ok b := by
  cases x with
  | error e => cases h
  | ok a => exact ⟨a, rfl, h⟩

theorem ok_of_map {f : α → β} {b : β} (h : x.map f = .ok b) : ∃ a, x = .ok a ∧ f a = b := by
  cases x with
  | error e => cases h
  | ok a => exact ⟨a, rfl, Except.ok.inj h⟩

theorem ok_of_mapError {ε' : Type} {f : ε → ε'} {a : α}
    (h : x.mapError f = .ok a) : x = .ok a := by
  cases x with
  | error e => cases h
  | ok b => exact congrArg Except.ok (Except.ok.inj h)

theorem ok_of_isOk (h : x.isOk = true) : ∃ a, x = .ok a := by
  cases x with
  | error e => cases h
  | ok a => exact ⟨a, rfl⟩

theorem ok_of_toOption {a : α} (h : x.toOption = some a) : x = .ok a := by
  cases x with
  | error e => cases h
  | ok b => exact congrArg Except.ok (Option.some.inj h)

/-- All of a list is computed where each of it is. -/
theorem mapM_eq_ok_iff {f : α → Except ε β} {l : List α} {v : List β} :
    l.mapM f = .ok v ↔ l.map f = v.map .ok := by
  induction l generalizing v with
  | nil =>
    cases v with
    | nil => exact ⟨fun _ => rfl, fun _ => rfl⟩
    | cons b v =>
      constructor
      · intro h
        cases h
      · intro h
        cases h
  | cons a l ih =>
    rw [List.mapM_cons]
    constructor
    · intro h
      obtain ⟨b, hb, h⟩ := ok_of_bind h
      obtain ⟨w, hw, h⟩ := ok_of_bind h
      cases h
      rw [List.map_cons, hb, ih.mp hw, List.map_cons]
    · intro h
      cases v with
      | nil => cases h
      | cons b v =>
        obtain ⟨hb, hv⟩ := List.cons_eq_cons.mp h
        rw [hb, ok_bind, ih.mpr hv, ok_bind]
        rfl

theorem exists_map_ok {l : List (Except ε α)} (h : ∀ x ∈ l, ∃ a, x = .ok a) :
    ∃ v : List α, l = v.map .ok := by
  induction l with
  | nil => exact ⟨[], rfl⟩
  | cons x l ih =>
    obtain ⟨⟨a, rfl⟩, hrest⟩ := List.forall_mem_cons.mp h
    obtain ⟨v, rfl⟩ := ih hrest
    exact ⟨a :: v, rfl⟩

end Diffz
