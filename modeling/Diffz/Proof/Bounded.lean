import Mathlib.Data.List.Nodup
import Mathlib.Data.List.Perm.Basic
import Mathlib.Data.List.Range
import Diffz.Adapters.Bounded
import Diffz.Lib.Fallible

/-!
# Parallel reads keep order and lose nothing

`Shared` is what holds in every state that the workers reach: the items that `f` was called on are
those below the counter, unless a failing worker moved it, and what the calls came to is what the
workers keep. From it follows what is joined at the end.
-/

set_option autoImplicit false

namespace Diffz.Proof.Bounded

open Diffz.Bounded

variable {ρ ε : Type} {len : Nat} {s s' : State ρ ε}

/-! ## Steps -/

/-- One worker of a list is replaced by another one. -/
def Replaced (old new : Worker ρ ε) (ws ws' : List (Worker ρ ε)) : Prop :=
  ∃ before after, ws = before ++ old :: after ∧ ws' = before ++ new :: after

namespace Replaced

variable {old new : Worker ρ ε} {ws ws' : List (Worker ρ ε)}

theorem mem_old (h : Replaced old new ws ws') : old ∈ ws := by
  obtain ⟨before, after, rfl, -⟩ := h
  simp

theorem mem_new (h : Replaced old new ws ws') : new ∈ ws' := by
  obtain ⟨before, after, -, rfl⟩ := h
  simp

theorem mem (h : Replaced old new ws ws') {w : Worker ρ ε} (hw : w ∈ ws') : w = new ∨ w ∈ ws := by
  obtain ⟨before, after, rfl, rfl⟩ := h
  simp only [List.mem_append, List.mem_cons] at hw ⊢
  rcases hw with hw | rfl | hw
  · exact .inr (.inl hw)
  · exact .inl rfl
  · exact .inr (.inr (.inr hw))

theorem length_eq (h : Replaced old new ws ws') : ws'.length = ws.length := by
  obtain ⟨before, after, rfl, rfl⟩ := h
  simp

theorem countP_eq (h : Replaced old new ws ws') (p : Worker ρ ε → Bool) :
    ws'.countP p + (if p old then 1 else 0) = ws.countP p + if p new then 1 else 0 := by
  obtain ⟨before, after, rfl, rfl⟩ := h
  simp only [List.countP_append, List.countP_cons]
  omega

theorem flatMap_eq {β : Type} (h : Replaced old new ws ws') (f : Worker ρ ε → List β) :
    ∃ before after, ws.flatMap f = before ++ (f old ++ after) ∧
      ws'.flatMap f = before ++ (f new ++ after) := by
  obtain ⟨before, after, rfl, rfl⟩ := h
  exact ⟨before.flatMap f, after.flatMap f, by simp, by simp⟩

end Replaced

/-- What a step can do. -/
inductive Moved (len : Nat) (s s' : State ρ ε) : Prop
  | claim (worker : Worker ρ ε) (hphase : worker.phase = .claiming) (hlt : s.next < len)
      (hworkers : Replaced worker { worker with phase := .calling s.next } s.workers s'.workers)
      (hnext : s'.next = (s.next + 1) % usizeCount) (hcalled : s'.called = s.called ++ [s.next])
      (hresults : s'.results = s.results)
  | exhaust (worker : Worker ρ ε) (hphase : worker.phase = .claiming) (hle : len ≤ s.next)
      (hworkers : Replaced worker { worker with phase := .returned } s.workers s'.workers)
      (hnext : s'.next = (s.next + 1) % usizeCount) (hcalled : s'.called = s.called)
      (hresults : s'.results = s.results)
  | finish (worker : Worker ρ ε) (i : Nat) (outcome : Outcome ρ ε)
      (hphase : worker.phase = .calling i)
      (hworkers : Replaced worker (worker.finish i outcome) s.workers s'.workers)
      (hnext : s'.next = s.next) (hcalled : s'.called = s.called)
      (hresults : s'.results = s.results ++ [(i, outcome)])
  | store (worker : Worker ρ ε) (hphase : worker.phase = .stopping)
      (hworkers : Replaced worker { worker with phase := .returned } s.workers s'.workers)
      (hnext : s'.next = len) (hcalled : s'.called = s.called)
      (hresults : s'.results = s.results)

theorem replaced_set {ws : List (Worker ρ ε)} {w : Nat} {old : Worker ρ ε}
    (h : ws[w]? = some old) (new : Worker ρ ε) : Replaced old new ws (ws.set w new) := by
  obtain ⟨hlt, hold⟩ := List.getElem?_eq_some_iff.mp h
  refine ⟨ws.take w, ws.drop (w + 1), ?_, List.set_eq_take_append_cons_drop .. |>.trans (if_pos hlt)⟩
  rw [← hold, List.getElem_cons_drop, List.take_append_drop]

theorem moved_of_step {e : Bounded.Event ρ ε} (h : step len s e = some s') : Moved len s s' := by
  cases e with
  | fetch w =>
    simp only [step] at h
    split at h
    · rename_i worker hworker
      split at h
      · rename_i hphase
        split at h
        · rename_i hlt
          cases h
          exact .claim worker hphase hlt (replaced_set hworker _) rfl rfl rfl
        · rename_i hle
          cases h
          exact .exhaust worker hphase (Nat.le_of_not_lt hle) (replaced_set hworker _) rfl rfl rfl
      · cases h
    · cases h
  | finish w outcome =>
    simp only [step] at h
    split at h
    · rename_i worker hworker
      split at h
      · rename_i i hphase
        cases h
        exact .finish worker i outcome hphase (replaced_set hworker _) rfl rfl rfl
      · cases h
    · cases h
  | store w =>
    simp only [step] at h
    split at h
    · rename_i worker hworker
      split at h
      · rename_i hphase
        cases h
        exact .store worker hphase (replaced_set hworker _) rfl rfl rfl
      · cases h
    · cases h

/-! ## What the workers share -/

/-- The item that a worker is calling `f` on. -/
def running (worker : Worker ρ ε) : List Nat :=
  match worker.phase with
  | .calling i => [i]
  | _ => []

/-- What a worker keeps of a call. -/
def kept (c : Nat × Outcome ρ ε) : Option (Nat × Except ε ρ) :=
  match c.2 with
  | .ok r => some (c.1, .ok r)
  | .err e => some (c.1, .error e)
  | .panicked => none

/-- A call failed or panicked. -/
def Failed (s : State ρ ε) : Prop := ∃ c ∈ s.results, ∀ r, c.2 ≠ .ok r

structure Shared (len : Nat) (s : State ρ ε) : Prop where
  once : s.called.Nodup
  below : ∀ i ∈ s.called, i < len ∧ i < s.next
  bound : s.next ≤ len + s.workers.countP Worker.ended
  workers : s.workers.length = min width len
  /-- Nothing is left out below the counter, unless a failing worker moved it. -/
  covered : (∀ i, i < len → i < s.next → i ∈ s.called) ∨ Failed s
  calls : s.called.Perm (s.results.map (·.1) ++ s.workers.flatMap running)
  parts : (s.results.filterMap kept).Perm (s.workers.flatMap (·.done))
  returned : ∀ w ∈ s.workers, w.phase = .returned → len ≤ s.next
  failed : ∀ w ∈ s.workers, w.phase = .stopping ∨ w.phase = .panicked → Failed s
  /-- No failure is kept by a worker that may yet panic. -/
  delivered : ∀ w ∈ s.workers, ∀ i e, (i, .error e) ∈ w.done →
    w.phase = .stopping ∨ w.phase = .returned

theorem perm_insert {α : Type} {l A B : List α} (h : l.Perm (A ++ B)) (x : α) :
    (l ++ [x]).Perm (A ++ x :: B) :=
  (List.perm_append_singleton x l).trans ((h.cons x).trans List.perm_middle.symm)

theorem shared_start (len : Nat) : Shared len (start len : State ρ ε) where
  once := .nil
  below := nofun
  bound := Nat.zero_le _
  workers := List.length_replicate
  covered := .inl fun i _ hi => absurd hi (Nat.not_lt_zero i)
  calls := by
    have hnone : ∀ n, (List.replicate n ({ phase := .claiming, done := [] } : Worker ρ ε)).flatMap
        running = [] := fun n => by simp [running]
    rw [start, hnone]
    exact .nil
  parts := by
    have hnone : ∀ n, (List.replicate n ({ phase := .claiming, done := [] } : Worker ρ ε)).flatMap
        (·.done) = [] := fun n => by simp
    rw [start, hnone]
    exact .nil
  returned := by
    intro w hw hphase
    rw [(List.mem_replicate.mp hw).2] at hphase
    cases hphase
  failed := by
    intro w hw hphase
    rw [(List.mem_replicate.mp hw).2] at hphase
    simp at hphase
  delivered := by
    intro w hw i e he
    rw [(List.mem_replicate.mp hw).2] at he
    cases he

/-- The most items of a slice, where they have a size: `isize::MAX`. -/
def isizeMax : Nat := 2 ^ 63 - 1

/-- A worker takes the next item. -/
theorem shared_claim (hlen : len ≤ isizeMax) (h : Shared len s) {worker : Worker ρ ε}
    (hphase : worker.phase = .claiming) (hlt : s.next < len)
    (hworkers : Replaced worker { worker with phase := .calling s.next } s.workers s'.workers)
    (hnext : s'.next = (s.next + 1) % usizeCount) (hcalled : s'.called = s.called ++ [s.next])
    (hresults : s'.results = s.results) : Shared len s' := by
  have hnext' : s'.next = s.next + 1 := by
    rw [hnext, Nat.mod_eq_of_lt]
    simp only [isizeMax, usizeCount] at hlen ⊢
    omega
  have hnew : s.next ∉ s.called := fun hmem => Nat.lt_irrefl _ (h.below _ hmem).2
  have hfailed : Failed s' ↔ Failed s := by rw [Failed, Failed, hresults]
  have hend : worker.ended = false := by simp [Worker.ended, hphase]
  constructor
  case once =>
    rw [hcalled]
    exact List.nodup_append.mpr ⟨h.once, List.nodup_singleton _, fun a ha b hb heq =>
      hnew (by rwa [← List.mem_singleton.mp hb, ← heq])⟩
  case below =>
    intro i hi
    rw [hcalled, List.mem_append, List.mem_singleton] at hi
    rcases hi with hi | rfl
    · have := h.below i hi
      omega
    · omega
  case bound => omega
  case workers => rw [hworkers.length_eq, h.workers]
  case covered =>
    refine h.covered.imp (fun hcovered i hi hin => ?_) hfailed.mpr
    rw [hcalled, List.mem_append, List.mem_singleton]
    by_cases hi' : i = s.next
    · exact .inr hi'
    · exact .inl (hcovered i hi (by omega))
  case calls =>
    obtain ⟨before, after, hold, hnew⟩ := hworkers.flatMap_eq running
    have hcalls := h.calls
    rw [hold, show running worker = [] by simp [running, hphase], List.nil_append,
      ← List.append_assoc] at hcalls
    rw [hcalled, hresults, hnew, ← List.append_assoc]
    exact perm_insert hcalls s.next
  case parts =>
    obtain ⟨before, after, hold, hnew⟩ := hworkers.flatMap_eq (·.done)
    rw [hresults, hnew, ← hold]
    exact h.parts
  case returned =>
    intro w hw hreturned
    rcases hworkers.mem hw with rfl | hw
    · cases hreturned
    · have := h.returned w hw hreturned
      omega
  case failed =>
    intro w hw hstopped
    rcases hworkers.mem hw with rfl | hw
    · simp at hstopped
    · exact hfailed.mpr (h.failed w hw hstopped)
  case delivered =>
    intro w hw i e he
    rcases hworkers.mem hw with rfl | hw
    · have hold := h.delivered worker hworkers.mem_old i e he
      simp [hphase] at hold
    · exact h.delivered w hw i e he

/-- A worker finds no item left. -/
theorem shared_exhaust (hlen : len ≤ isizeMax) (h : Shared len s) {worker : Worker ρ ε}
    (hphase : worker.phase = .claiming) (hle : len ≤ s.next)
    (hworkers : Replaced worker { worker with phase := .returned } s.workers s'.workers)
    (hnext : s'.next = (s.next + 1) % usizeCount) (hcalled : s'.called = s.called)
    (hresults : s'.results = s.results) : Shared len s' := by
  have hfailed : Failed s' ↔ Failed s := by rw [Failed, Failed, hresults]
  have hcount := hworkers.countP_eq Worker.ended
  have hwidth : s.workers.countP Worker.ended ≤ width :=
    List.countP_le_length.trans (h.workers.trans_le (Nat.min_le_left ..))
  have hbound := h.bound
  have hnext' : s'.next = s.next + 1 := by
    rw [hnext, Nat.mod_eq_of_lt]
    simp only [isizeMax, usizeCount, width] at hlen hwidth ⊢
    omega
  have hend : worker.ended = false := by simp [Worker.ended, hphase]
  have hrunning : running { worker with phase := .returned } = running worker := by
    simp [running, hphase]
  constructor
  case once => exact hcalled ▸ h.once
  case below =>
    intro i hi
    have := h.below i (hcalled ▸ hi)
    omega
  case bound =>
    have hend' : Worker.ended { worker with phase := .returned } = true := rfl
    simp only [hend, hend', Bool.false_eq_true, if_false, if_true] at hcount
    omega
  case workers => rw [hworkers.length_eq, h.workers]
  case covered =>
    refine h.covered.imp (fun hcovered i hi _ => ?_) hfailed.mpr
    exact hcalled ▸ hcovered i hi (by omega)
  case calls =>
    obtain ⟨before, after, hold, hnew⟩ := hworkers.flatMap_eq running
    rw [hcalled, hresults, hnew, hrunning, ← hold]
    exact h.calls
  case parts =>
    obtain ⟨before, after, hold, hnew⟩ := hworkers.flatMap_eq (·.done)
    rw [hresults, hnew, ← hold]
    exact h.parts
  case returned =>
    intro w _ _
    omega
  case failed =>
    intro w hw hstopped
    rcases hworkers.mem hw with rfl | hw
    · simp at hstopped
    · exact hfailed.mpr (h.failed w hw hstopped)
  case delivered =>
    intro w hw i e he
    rcases hworkers.mem hw with rfl | hw
    · exact .inr rfl
    · exact h.delivered w hw i e he

/-- A call of `f` is over. -/
theorem shared_finish (h : Shared len s) {worker : Worker ρ ε} {i : Nat} {outcome : Outcome ρ ε}
    (hphase : worker.phase = .calling i)
    (hworkers : Replaced worker (worker.finish i outcome) s.workers s'.workers)
    (hnext : s'.next = s.next) (hcalled : s'.called = s.called)
    (hresults : s'.results = s.results ++ [(i, outcome)]) : Shared len s' := by
  have hfailed : Failed s → Failed s' := by
    rintro ⟨c, hc, hnot⟩
    exact ⟨c, by rw [hresults]; exact List.mem_append_left _ hc, hnot⟩
  have hthis : (∀ r, outcome ≠ .ok r) → Failed s' := fun hnot =>
    ⟨(i, outcome), by rw [hresults]; simp, hnot⟩
  have hcount := hworkers.countP_eq Worker.ended
  have hend : worker.ended = false := by simp [Worker.ended, hphase]
  have hkeep : (worker.finish i outcome).done = worker.done ++ (kept (i, outcome)).toList := by
    cases outcome <;> simp [Worker.finish, kept]
  constructor
  case once => exact hcalled ▸ h.once
  case below =>
    intro j hj
    have := h.below j (hcalled ▸ hj)
    omega
  case bound =>
    have := h.bound
    simp only [hend, Bool.false_eq_true, if_false] at hcount
    omega
  case workers => rw [hworkers.length_eq, h.workers]
  case covered =>
    exact h.covered.imp (fun hcovered j hj hjn => hcalled ▸ hcovered j hj (hnext ▸ hjn)) hfailed
  case calls =>
    obtain ⟨before, after, hold, hnew⟩ := hworkers.flatMap_eq running
    have hidle : running (worker.finish i outcome) = [] := by
      cases outcome <;> simp [Worker.finish, running]
    have hcalls := h.calls
    rw [hold, show running worker = [i] by simp [running, hphase]] at hcalls
    rw [hcalled, hresults, hnew, hidle]
    refine hcalls.trans ?_
    rw [List.map_append, List.append_assoc]
    exact (List.Perm.refl _).append List.perm_middle
  case parts =>
    obtain ⟨before, after, hold, hnew⟩ := hworkers.flatMap_eq (·.done)
    have hparts := h.parts
    rw [hold, ← List.append_assoc] at hparts
    rw [hresults, hnew, hkeep, List.filterMap_append, ← List.append_assoc, ← List.append_assoc]
    cases hk : kept (i, outcome) with
    | none => simpa [hk] using hparts
    | some part => simpa [hk] using perm_insert hparts part
  case returned =>
    intro w hw hreturned
    rcases hworkers.mem hw with rfl | hw
    · cases outcome <;> cases hreturned
    · exact hnext ▸ h.returned w hw hreturned
  case failed =>
    intro w hw hstopped
    rcases hworkers.mem hw with rfl | hw
    · refine hthis fun r hr => ?_
      subst hr
      simp [Worker.finish] at hstopped
    · exact hfailed (h.failed w hw hstopped)
  case delivered =>
    intro w hw j e he
    rcases hworkers.mem hw with rfl | hw
    · have hold : ∀ j e, (j, .error e) ∉ worker.done := by
        intro j e hmem
        have := h.delivered worker hworkers.mem_old j e hmem
        simp [hphase] at this
      cases outcome with
      | err => exact .inl rfl
      | ok r =>
        rw [hkeep] at he
        simp [kept, hold] at he
      | panicked => exact absurd he (hold j e)
    · exact h.delivered w hw j e he

/-- A worker that failed stops the others. -/
theorem shared_store (h : Shared len s) {worker : Worker ρ ε} (hphase : worker.phase = .stopping)
    (hworkers : Replaced worker { worker with phase := .returned } s.workers s'.workers)
    (hnext : s'.next = len) (hcalled : s'.called = s.called)
    (hresults : s'.results = s.results) : Shared len s' := by
  have hfailed : Failed s' ↔ Failed s := by rw [Failed, Failed, hresults]
  have hrunning : running { worker with phase := .returned } = running worker := by
    simp [running, hphase]
  constructor
  case once => exact hcalled ▸ h.once
  case below =>
    intro i hi
    have := h.below i (hcalled ▸ hi)
    omega
  case bound => omega
  case workers => rw [hworkers.length_eq, h.workers]
  case covered => exact .inr (hfailed.mpr (h.failed worker hworkers.mem_old (.inl hphase)))
  case calls =>
    obtain ⟨before, after, hold, hnew⟩ := hworkers.flatMap_eq running
    rw [hcalled, hresults, hnew, hrunning, ← hold]
    exact h.calls
  case parts =>
    obtain ⟨before, after, hold, hnew⟩ := hworkers.flatMap_eq (·.done)
    rw [hresults, hnew, ← hold]
    exact h.parts
  case returned =>
    intro w _ _
    omega
  case failed =>
    intro w hw hstopped
    rcases hworkers.mem hw with rfl | hw
    · simp at hstopped
    · exact hfailed.mpr (h.failed w hw hstopped)
  case delivered =>
    intro w hw i e he
    rcases hworkers.mem hw with rfl | hw
    · exact .inr rfl
    · exact h.delivered w hw i e he

theorem shared_step (hlen : len ≤ isizeMax) (h : Shared len s) (hmoved : Moved len s s') :
    Shared len s' := by
  cases hmoved with
  | claim worker hphase hlt hworkers hnext hcalled hresults =>
    exact shared_claim hlen h hphase hlt hworkers hnext hcalled hresults
  | exhaust worker hphase hle hworkers hnext hcalled hresults =>
    exact shared_exhaust hlen h hphase hle hworkers hnext hcalled hresults
  | finish worker i outcome hphase hworkers hnext hcalled hresults =>
    exact shared_finish h hphase hworkers hnext hcalled hresults
  | store worker hphase hworkers hnext hcalled hresults =>
    exact shared_store h hphase hworkers hnext hcalled hresults

/-! ## The end -/

/-- What a worker still has to do, at most. -/
def weight (worker : Worker ρ ε) : Nat :=
  match worker.phase with
  | .claiming => 1
  | .calling _ => 3
  | .stopping => 2
  | _ => 0

/-- What all of them still have to do, at most. -/
def left (len : Nat) (s : State ρ ε) : Nat := 3 * (len - s.next) + (s.workers.map weight).sum

theorem Replaced.sum_weight {old new : Worker ρ ε} {ws ws' : List (Worker ρ ε)}
    (h : Replaced old new ws ws') :
    (ws'.map weight).sum + weight old = (ws.map weight).sum + weight new := by
  obtain ⟨before, after, rfl, rfl⟩ := h
  simp only [List.map_append, List.map_cons, List.sum_append, List.sum_cons]
  omega

/-- Every step leaves less to do. -/
theorem left_step (hlen : len ≤ isizeMax) (h : Shared len s) (hmoved : Moved len s s') :
    left len s' < left len s := by
  unfold left
  cases hmoved with
  | claim worker hphase hlt hworkers hnext hcalled hresults =>
    have hsum := hworkers.sum_weight
    have hnext' : s'.next = s.next + 1 := by
      rw [hnext, Nat.mod_eq_of_lt]
      simp only [isizeMax, usizeCount] at hlen ⊢
      omega
    simp only [weight, hphase] at hsum
    omega
  | exhaust worker hphase hle hworkers hnext hcalled hresults =>
    have hsum := hworkers.sum_weight
    have hshared := shared_exhaust hlen h hphase hle hworkers hnext hcalled hresults
    have hnext' := hshared.returned _ hworkers.mem_new rfl
    simp only [weight, hphase] at hsum
    omega
  | finish worker i outcome hphase hworkers hnext hcalled hresults =>
    have hsum := hworkers.sum_weight
    have hless : weight (worker.finish i outcome) ≤ 2 := by
      cases outcome <;> simp [Worker.finish, weight]
    simp only [weight, hphase] at hsum hless
    omega
  | store worker hphase hworkers hnext hcalled hresults =>
    have hsum := hworkers.sum_weight
    simp only [weight, hphase] at hsum
    omega

/-- A worker that has not ended can do its next step, whatever its call comes to. -/
theorem exists_step (h : s.workers.all Worker.ended = false) :
    ∃ e, ((threads len).step s e).isSome = true := by
  obtain ⟨worker, hmem, hend⟩ : ∃ worker ∈ s.workers, worker.ended = false := by simpa using h
  obtain ⟨w, hw⟩ := List.mem_iff_getElem?.mp hmem
  cases hphase : worker.phase with
  | claiming =>
    refine ⟨.fetch w, ?_⟩
    simp only [threads, step, hw, hphase, if_true]
    split <;> rfl
  | calling i => exact ⟨.finish w .panicked, by simp [threads, step, hw, hphase]⟩
  | stopping => exact ⟨.store w, by simp [threads, step, hw, hphase]⟩
  | returned => simp [Worker.ended, hphase] at hend
  | panicked => simp [Worker.ended, hphase] at hend

/-- Where the workers have ended, every call is over. -/
theorem called_perm (h : Shared len s) (hend : s.workers.all Worker.ended = true) :
    s.called.Perm (s.results.map (·.1)) := by
  have hnone : s.workers.flatMap running = [] := by
    refine List.flatMap_eq_nil_iff.mpr fun worker hmem => ?_
    have hworker := List.all_eq_true.mp hend worker hmem
    cases hphase : worker.phase <;> simp_all [Worker.ended, running]
  have hcalls := h.calls
  rwa [hnone, List.append_nil] at hcalls

/-- **Nothing fails.** Then every item was called on, and all that was kept is joined. -/
theorem joined_of_not_failed (h : Shared len s) (hend : s.workers.all Worker.ended = true)
    (hnot : ¬ Failed s) : (∀ i, i ∈ s.called ↔ i < len) ∧
      (joined s).Perm (s.results.filterMap kept) := by
  have hphase : ∀ w ∈ s.workers, w.phase = .returned := by
    intro w hw
    have hworker := List.all_eq_true.mp hend w hw
    cases hphase : w.phase with
    | returned => rfl
    | panicked => exact absurd (h.failed w hw (.inr hphase)) hnot
    | stopping => exact absurd (h.failed w hw (.inl hphase)) hnot
    | claiming => simp [Worker.ended, hphase] at hworker
    | calling i => simp [Worker.ended, hphase] at hworker
  constructor
  · refine fun i => ⟨fun hi => (h.below i hi).1, fun hi => ?_⟩
    refine h.covered.resolve_right hnot i hi ?_
    have hworkers := h.workers
    cases hws : s.workers with
    | nil =>
      rw [hws] at hworkers
      simp [width] at hworkers
      omega
    | cons w ws =>
      have hw : w ∈ s.workers := hws ▸ List.mem_cons_self ..
      have := h.returned w hw (hphase w hw)
      omega
  · refine (List.mergeSort_perm _ _).trans ?_
    have hjoin : s.workers.flatMap Worker.join = s.workers.flatMap (·.done) :=
      List.flatMap_congr fun w hw => by rw [Worker.join, hphase w hw]; rfl
    rw [hjoin]
    exact h.parts.symm

/-- What is joined was kept of some call. -/
theorem mem_results_of_mem_joined (h : Shared len s) {c : Nat × Except ε ρ} (hc : c ∈ joined s) :
    c ∈ s.results.filterMap kept := by
  obtain ⟨w, hw, hjoin⟩ := List.mem_flatMap.mp ((List.mergeSort_perm _ _).mem_iff.mp hc)
  refine h.parts.mem_iff.mpr (List.mem_flatMap.mpr ⟨w, hw, ?_⟩)
  unfold Worker.join at hjoin
  split at hjoin
  · cases hjoin
  · exact hjoin

/-- A failure is joined. -/
theorem mem_joined_of_error (h : Shared len s) {i : Nat} {e : ε} (hc : (i, .err e) ∈ s.results) :
    (i, .error e) ∈ joined s := by
  have hpart : (i, .error e) ∈ s.results.filterMap kept :=
    List.mem_filterMap.mpr ⟨_, hc, rfl⟩
  obtain ⟨w, hw, hdone⟩ := List.mem_flatMap.mp (h.parts.mem_iff.mp hpart)
  refine (List.mergeSort_perm _ _).mem_iff.mpr (List.mem_flatMap.mpr ⟨w, hw, ?_⟩)
  have hphase : w.phase ≠ .panicked := by
    rcases h.delivered w hw i e hdone with hphase | hphase
    · rw [hphase]
      simp
    · rw [hphase]
      simp
  rw [Worker.join, if_neg hphase]
  exact hdone

/-- The joined results are in the order of the items. -/
theorem joined_sorted (s : State ρ ε) : ((joined s).map (·.1)).Pairwise (· ≤ ·) := by
  refine List.pairwise_map.mpr ((List.pairwise_mergeSort ?_ ?_ _).imp fun h => of_decide_eq_true h)
  · intro a b c hab hbc
    exact decide_eq_true ((of_decide_eq_true hab).trans (of_decide_eq_true hbc))
  · intro a b
    simpa using Nat.le_total a.1 b.1

/-- Then all results are returned, each at the place of its item. -/
theorem result_of_not_failed (into : String → ε) (h : Shared len s)
    (hend : s.workers.all Worker.ended = true) (hnot : ¬ Failed s) :
    ∃ v, result into len s = some (.ok v) ∧ v.length = len ∧
      ∀ i r, (i, .ok r) ∈ s.results ↔ v[i]? = some r := by
  obtain ⟨hcalled, hjoined⟩ := joined_of_not_failed h hend hnot
  have hok : ∀ c ∈ s.results, ∃ r, c.2 = .ok r := by
    intro c hc
    cases hc2 : c.2 with
    | ok r => exact ⟨r, rfl⟩
    | err e => exact absurd ⟨c, hc, by simp [hc2]⟩ hnot
    | panicked => exact absurd ⟨c, hc, by simp [hc2]⟩ hnot
  have hfst : (s.results.filterMap kept).map (·.1) = s.results.map (·.1) := by
    rw [List.map_filterMap, ← List.filterMap_eq_map]
    refine List.filterMap_congr fun c hc => ?_
    obtain ⟨r, hr⟩ := hok c hc
    simp [kept, hr]
  have hrange : (joined s).map (·.1) = List.range len := by
    refine List.Perm.eq_of_pairwise (fun a b _ _ => Nat.le_antisymm) (joined_sorted s)
      List.pairwise_le_range ?_
    refine (hjoined.map _).trans (hfst ▸ ?_)
    refine (called_perm h hend).symm.trans ?_
    refine (List.perm_ext_iff_of_nodup h.once List.nodup_range).mpr fun i => ?_
    rw [hcalled, List.mem_range]
  have hmem : ∀ i r, (i, .ok r) ∈ s.results ↔ (i, .ok r) ∈ joined s := by
    intro i r
    rw [hjoined.mem_iff, List.mem_filterMap]
    constructor
    · exact fun hc => ⟨_, hc, rfl⟩
    · rintro ⟨⟨j, o⟩, hc, hkept⟩
      obtain ⟨r', hr'⟩ := hok _ hc
      dsimp only at hr'
      subst hr'
      cases hkept
      exact hc
  obtain ⟨v, hv⟩ : ∃ v : List ρ, (joined s).map (·.2) = v.map .ok := by
    refine exists_map_ok fun x hx => ?_
    obtain ⟨c, hc, rfl⟩ := List.mem_map.mp hx
    obtain ⟨d, hd, hkept⟩ := List.mem_filterMap.mp (hjoined.mem_iff.mp hc)
    obtain ⟨r, hr⟩ := hok d hd
    rw [kept, hr] at hkept
    exact ⟨r, by rw [← Option.some.inj hkept]⟩
  have hlength : (joined s).length = len := by
    simpa using congrArg List.length hrange
  refine ⟨v, ?_, ?_, fun i r => ?_⟩
  · rw [result, if_pos hend, if_neg (fun hne => hne.1 hlength), mapM_eq_ok_iff.mpr hv]
  · rw [← hlength, ← List.length_map (f := Except.ok (ε := ε)), ← hv, List.length_map]
  · have hindex : ∀ k : Nat, ((joined s)[k]?).map (fun c => c.1) = (List.range len)[k]? := by
      intro k
      rw [← hrange, List.getElem?_map]
    have hvalue : ∀ k : Nat, ((joined s)[k]?).map (fun c => c.2) =
        (v[k]?).map (Except.ok (ε := ε)) := by
      intro k
      rw [← List.getElem?_map, hv, List.getElem?_map]
    rw [hmem]
    constructor
    · intro hc
      obtain ⟨k, hk⟩ := List.mem_iff_getElem?.mp hc
      have hi := hindex k
      have hr := hvalue k
      rw [hk, Option.map_some] at hi hr
      obtain ⟨r', hr', heq⟩ := Option.map_eq_some_iff.mp hr.symm
      obtain ⟨_, hik⟩ := List.getElem?_eq_some_iff.mp hi.symm
      rw [List.getElem_range] at hik
      dsimp only at hik
      rw [← hik, hr', Except.ok.inj heq]
    · intro hr
      have hi := hindex i
      have hr' := hvalue i
      rw [hr, Option.map_some] at hr'
      obtain ⟨c, hc, hok'⟩ := Option.map_eq_some_iff.mp hr'
      rw [hc, Option.map_some] at hi
      obtain ⟨_, hci⟩ := List.getElem?_eq_some_iff.mp hi.symm
      rw [List.getElem_range] at hci
      refine List.mem_of_getElem? (i := i) ?_
      rw [hc]
      exact congrArg some (Prod.ext hci.symm hok')

/-- Where a call panicked, less is joined than there are items. -/
theorem joined_length_lt (h : Shared len s) (hend : s.workers.all Worker.ended = true)
    {c : Nat × Outcome ρ ε} (hc : c ∈ s.results) (hpanic : c.2 = .panicked) :
    (joined s).length < len := by
  have hjoin : ∀ ws : List (Worker ρ ε),
      (ws.flatMap Worker.join).length ≤ (ws.flatMap (·.done)).length := by
    intro ws
    induction ws with
    | nil => exact le_refl _
    | cons w ws ih =>
      have hw : w.join.length ≤ w.done.length := by
        unfold Worker.join
        split
        · exact Nat.zero_le _
        · exact le_refl _
      simp only [List.flatMap_cons, List.length_append]
      omega
  have hkept : (s.results.filterMap kept).length < s.results.length :=
    List.length_filterMap_lt_length_iff_exists.mpr ⟨c, hc, by simp [kept, hpanic]⟩
  have hcalled : s.called.length ≤ len := by
    have hsub : s.called ⊆ List.range len := fun i hi => List.mem_range.mpr (h.below i hi).1
    simpa using (List.subperm_of_subset h.once hsub).length_le
  have hjoined : (joined s).length = (s.workers.flatMap Worker.join).length :=
    (List.mergeSort_perm _ _).length_eq
  have hcalls := (called_perm h hend).length_eq
  have hparts := h.parts.length_eq
  have hle := hjoin s.workers
  rw [List.length_map] at hcalls
  omega

/-- **Something fails.** Then an error is returned. -/
theorem result_of_failed (into : String → ε) (h : Shared len s)
    (hend : s.workers.all Worker.ended = true) (hfailed : Failed s) :
    ∃ e, result into len s = some (.error e) := by
  rw [result, if_pos hend]
  split
  · exact ⟨_, rfl⟩
  · rename_i hcheck
    cases hv : (joined s).mapM (·.2) with
    | error e => exact ⟨e, rfl⟩
    | ok v =>
      exfalso
      have hall := mapM_eq_ok_iff.mp hv
      have hok : ∀ c ∈ joined s, ∃ r, c.2 = .ok r := by
        intro c hc
        have hmem : c.2 ∈ v.map (Except.ok (ε := ε)) := hall ▸ List.mem_map_of_mem hc
        obtain ⟨r, -, hr⟩ := List.mem_map.mp hmem
        exact ⟨r, hr.symm⟩
      obtain ⟨c, hc, hnot⟩ := hfailed
      cases hc2 : c.2 with
      | ok r => exact hnot r hc2
      | err e =>
        obtain ⟨r, hr⟩ := hok _ (@mem_joined_of_error _ _ len s h c.1 e (by rw [← hc2]; exact hc))
        cases hr
      | panicked =>
        -- The panicked call has no result, so the lengths differ.
        have hshort := joined_length_lt h hend hc hc2
        refine hcheck ⟨by omega, List.all_eq_true.mpr fun d hd => ?_⟩
        obtain ⟨r, hr⟩ := hok d hd
        rw [hr]
        rfl

/-! ## Runs -/

/-- Every run keeps what the workers share, and there is less left to do after each of its steps. -/
theorem shared_run (hlen : len ≤ isizeMax) {s s' : State ρ ε} {es : List (Bounded.Event ρ ε)}
    (hs : Shared len s) (h : (threads len).Steps (fun _ _ => True) s es s') :
    Shared len s' ∧ left len s' + es.length ≤ left len s := by
  induction h with
  | nil => exact ⟨hs, le_refl _⟩
  | cons _ hstep _ ih =>
    have hmoved := moved_of_step hstep
    obtain ⟨hshared, hleft⟩ := ih (shared_step hlen hs hmoved)
    have := left_step hlen hs hmoved
    refine ⟨hshared, ?_⟩
    rw [List.length_cons]
    omega

/-- Each call came to what `f` makes of its item. -/
def Answers {τ : Type} (f : τ → Outcome ρ ε) (items : List τ) (s : State ρ ε) : Prop :=
  ∀ c ∈ s.results, items[c.1]?.map f = some c.2

/-- What is returned, of what the calls came to. -/
structure Returned {τ : Type} (items : List τ) (s : State ρ ε) (res : Except ε (List ρ)) :
    Prop where
  /-- All results where every call succeeded, and every item was called on. -/
  ok_iff : (∃ v, res = .ok v) ↔ ∀ i < items.length, ∃ r, (i, .ok r) ∈ s.results
  /-- Each result is at the place of its item. -/
  places : ∀ v, res = .ok v →
    v.length = items.length ∧ ∀ i r, (i, .ok r) ∈ s.results ↔ v[i]? = some r
  error_iff : (∃ e, res = .error e) ↔ Failed s
  /-- In terms of a function that the calls compute. -/
  answers : ∀ f : τ → Outcome ρ ε, Answers f items s →
    ((∃ v, res = .ok v) ↔ ∀ x ∈ items, ∃ r, f x = .ok r) ∧
      ∀ v, res = .ok v → items.map f = v.map .ok

theorem returned_of_failed {τ : Type} {items : List τ} (h : Shared items.length s)
    (hend : s.workers.all Worker.ended = true) (hfailed : Failed s) (e : ε) :
    Returned items s (.error e) where
  ok_iff := by
    refine ⟨fun ⟨v, hv⟩ => (by cases hv), fun hall => ?_⟩
    obtain ⟨c, hc, hnot⟩ := hfailed
    have hperm := called_perm h hend
    have hlt := (h.below c.1 (hperm.mem_iff.mpr (List.mem_map_of_mem hc))).1
    obtain ⟨r, hr⟩ := hall c.1 hlt
    have hsame := List.inj_on_of_nodup_map (hperm.nodup_iff.mp h.once) hc hr rfl
    exact absurd (congrArg Prod.snd hsame) (hnot r)
  places := fun v hv => by cases hv
  error_iff := ⟨fun _ => hfailed, fun _ => ⟨e, rfl⟩⟩
  answers := by
    refine fun f hf => ⟨⟨fun ⟨v, hv⟩ => (by cases hv), fun hall => ?_⟩, fun v hv => by cases hv⟩
    obtain ⟨c, hc, hnot⟩ := hfailed
    obtain ⟨x, hx, hfx⟩ := Option.map_eq_some_iff.mp (hf c hc)
    obtain ⟨r, hr⟩ := hall x (List.mem_of_getElem? hx)
    exact absurd (hfx.symm.trans hr) (hnot r)

theorem returned_of_not_failed {τ : Type} {items : List τ} {v : List ρ} (hnot : ¬ Failed s)
    (hlen : v.length = items.length) (hplaces : ∀ i r, (i, .ok r) ∈ s.results ↔ v[i]? = some r) :
    Returned items s (.ok v) where
  ok_iff := by
    refine ⟨fun _ i hi => ?_, fun _ => ⟨v, rfl⟩⟩
    exact ⟨v[i], (hplaces i v[i]).mpr (List.getElem?_eq_getElem (hlen ▸ hi))⟩
  places := by
    intro w hw
    cases hw
    exact ⟨hlen, hplaces⟩
  error_iff := ⟨fun ⟨e, he⟩ => (by cases he), fun hfailed => absurd hfailed hnot⟩
  answers := by
    intro f hf
    have hmap : items.map f = v.map .ok := by
      refine List.ext_getElem? fun i => ?_
      rw [List.getElem?_map, List.getElem?_map]
      cases hv : v[i]? with
      | none =>
        rw [List.getElem?_eq_none_iff, hlen, ← List.getElem?_eq_none_iff] at hv
        rw [hv]
        rfl
      | some r => exact hf (i, .ok r) ((hplaces i r).mpr hv)
    refine ⟨⟨fun _ x hx => ?_, fun _ => ⟨v, rfl⟩⟩, fun w hw => ?_⟩
    · have hfx : f x ∈ v.map Outcome.ok := hmap ▸ List.mem_map_of_mem hx
      obtain ⟨r, -, hr⟩ := List.mem_map.mp hfx
      exact ⟨r, hr.symm⟩
    · cases hw
      exact hmap

/-- **Parallel reads.** In every interleaving of the workers `f` is called at most once on each item,
the run ends, and what is returned is the results in the order of the items, or an error where a
call failed or panicked. -/
theorem bounded_sound {τ : Type} (into : String → ε) (items : List τ)
    (hlen : items.length ≤ isizeMax) {es : List (Bounded.Event ρ ε)}
    (h : (threads items.length).run (start items.length) es = some s) :
    s.called.Nodup ∧ (∀ i ∈ s.called, i < items.length) ∧
      es.length ≤ 3 * items.length + width ∧
      (result into items.length s = none →
        ∃ e, ((threads items.length).step s e).isSome = true) ∧
      ∀ res, result into items.length s = some res → Returned items s res := by
  obtain ⟨hshared, hleft⟩ := shared_run hlen (shared_start _) (Lts.steps_of_run h)
  refine ⟨hshared.once, fun i hi => (hshared.below i hi).1, ?_, fun hnone => ?_, fun res hres => ?_⟩
  · have hstart : left items.length (start items.length : State ρ ε) =
        3 * items.length + min width items.length := by
      simp [left, start, weight]
    omega
  · refine exists_step (Bool.eq_false_iff.mpr fun hend => ?_)
    rw [result, if_pos hend] at hnone
    split at hnone <;> cases hnone
  · have hend : s.workers.all Worker.ended = true := by
      by_contra hnot
      rw [result, if_neg hnot] at hres
      cases hres
    by_cases hfailed : Failed s
    · obtain ⟨e, he⟩ := result_of_failed into hshared hend hfailed
      obtain rfl : Except.error e = res := Option.some.inj (he.symm.trans hres)
      exact returned_of_failed hshared hend hfailed e
    · obtain ⟨v, hv, hvlen, hplaces⟩ := result_of_not_failed into hshared hend hfailed
      obtain rfl : Except.ok v = res := Option.some.inj (hv.symm.trans hres)
      exact returned_of_not_failed hfailed hvlen hplaces

/-- The second of two calls is over first. -/
def outOfOrder : List (Bounded.Event Nat String) :=
  [.fetch 0, .fetch 1, .finish 1 (.ok 7), .finish 0 (.ok 5), .fetch 1, .fetch 0]

theorem outOfOrder_sound : ∃ s, (threads 2).run (start 2) outOfOrder = some s ∧
    s.called.Nodup ∧ result id 2 s = some (.ok [5, 7]) ∧ Returned ["a", "b"] s (.ok [5, 7]) := by
  obtain ⟨s, hrun, hdone⟩ : ∃ s, (threads 2).run (start 2) outOfOrder = some s ∧
      s.workers = [⟨.returned, [(0, .ok 5)]⟩, ⟨.returned, [(1, .ok 7)]⟩] := ⟨_, rfl, rfl⟩
  have hjoined : joined s = [(0, .ok 5), (1, .ok 7)] := by
    rw [joined, hdone]
    exact List.mergeSort_of_pairwise (by simp [Worker.join])
  have hresult : result id 2 s = some (.ok [5, 7]) := by
    rw [result, hjoined, hdone]
    rfl
  have h := bounded_sound id ["a", "b"] (by decide) hrun
  exact ⟨s, hrun, h.1, hresult, h.2.2.2.2 _ hresult⟩

end Diffz.Proof.Bounded
