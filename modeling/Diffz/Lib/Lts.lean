import Mathlib.Logic.Basic

/-!
# Runs of a transition system

A system is a partial step function: `step s e = none` where the event `e` is not enabled in `s`.
A run is a list of events, and `Steps ok` are the runs all of whose steps meet a condition on the
state before them and the event, which is how an assumption about the callers of a system enters.

`Steps.invariant` is the rule every safety result here goes through: what holds at the start and is
kept by every step that meets the condition holds in every state reached.
-/

set_option autoImplicit false

universe u v

namespace Diffz

/-- A system with states `σ` and events `ε`. -/
structure Lts (σ : Type u) (ε : Type v) where
  step : σ → ε → Option σ

namespace Lts

variable {σ : Type u} {ε : Type v} (m : Lts σ ε)

/-- The state after a run, if every event of it was enabled. -/
def run (s : σ) : List ε → Option σ
  | [] => some s
  | e :: es => (m.step s e).bind fun s' => run s' es

/-- The runs whose steps all meet `ok`. -/
inductive Steps (ok : σ → ε → Prop) : σ → List ε → σ → Prop
  | nil {s : σ} : Steps ok s [] s
  | cons {s s₁ s' : σ} {e : ε} {es : List ε} (hok : ok s e) (hs : m.step s e = some s₁)
      (hr : Steps ok s₁ es s') : Steps ok s (e :: es) s'

variable {m}

theorem steps_of_run {s s' : σ} {es : List ε} (h : m.run s es = some s') :
    m.Steps (fun _ _ => True) s es s' := by
  induction es generalizing s with
  | nil =>
    cases h
    exact .nil
  | cons e es ih =>
    rw [run] at h
    cases hs : m.step s e with
    | none =>
      rw [hs] at h
      cases h
    | some s₁ =>
      rw [hs] at h
      exact .cons trivial hs (ih h)

theorem Steps.run {ok : σ → ε → Prop} {s s' : σ} {es : List ε} (h : m.Steps ok s es s') :
    m.run s es = some s' := by
  induction h with
  | nil => rfl
  | cons _ hs _ ih => simp [Lts.run, hs, ih]

/-- What the start has and every allowed step keeps, every state reached has. -/
theorem Steps.invariant {ok : σ → ε → Prop} {P : σ → Prop}
    (step : ∀ s e s', ok s e → m.step s e = some s' → P s → P s') {s s' : σ} {es : List ε}
    (h : m.Steps ok s es s') (hs : P s) : P s' := by
  induction h with
  | nil => exact hs
  | cons hok he _ ih => exact ih (step _ _ _ hok he hs)

/-- A run that checks a condition before every step. -/
def checkedRun (m : Lts σ ε) (check : σ → ε → Bool) (s : σ) : List ε → Option σ
  | [] => some s
  | e :: es => if check s e then (m.step s e).bind fun s' => checkedRun m check s' es else none

theorem steps_of_checkedRun {ok : σ → ε → Prop} {check : σ → ε → Bool} {s s' : σ} {es : List ε}
    (hok : ∀ s, ∀ e ∈ es, check s e → ok s e) (h : m.checkedRun check s es = some s') :
    m.Steps ok s es s' := by
  induction es generalizing s with
  | nil =>
    cases h
    exact .nil
  | cons e es ih =>
    rw [checkedRun] at h
    split at h
    · rename_i hc
      obtain ⟨s₁, hs₁, hrun⟩ := Option.bind_eq_some_iff.mp h
      refine .cons (hok s e List.mem_cons_self hc) hs₁ (ih ?_ hrun)
      intro t e' he'
      exact hok t e' (List.mem_cons_of_mem e he')
    · cases h

theorem Steps.append {ok : σ → ε → Prop} {s s₁ s₂ : σ} {es es' : List ε} (h : m.Steps ok s es s₁)
    (h' : m.Steps ok s₁ es' s₂) : m.Steps ok s (es ++ es') s₂ := by
  induction h with
  | nil => exact h'
  | cons hok hs _ ih => exact .cons hok hs (ih h')

theorem Steps.imp {ok ok' : σ → ε → Prop} (himp : ∀ s e, ok s e → ok' s e) {s s' : σ}
    {es : List ε} (h : m.Steps ok s es s') : m.Steps ok' s es s' := by
  induction h with
  | nil => exact .nil
  | cons hok he _ ih => exact .cons (himp _ _ hok) he ih

/-- The condition may be checked on the events alone. -/
theorem Steps.of_mem {ok ok' : σ → ε → Prop} {s s' : σ} {es : List ε}
    (h : m.Steps ok s es s') (hok : ∀ s, ∀ e ∈ es, ok' s e) : m.Steps ok' s es s' := by
  induction h with
  | nil => exact .nil
  | cons _ he _ ih =>
    refine .cons (hok _ _ List.mem_cons_self) he (ih ?_)
    intro s e he'
    exact hok s e (List.mem_cons_of_mem _ he')

end Lts
end Diffz
