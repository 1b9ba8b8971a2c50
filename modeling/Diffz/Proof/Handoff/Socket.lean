import Diffz.Proof.Handoff.Step

/-!
# A window keeps its socket unless it binds beside a removal

A client that has found the lock free removes the socket file in a step of its own, under no lock,
and so does a window that drops its listener after its store. If a window takes the lock and binds
before that step, its new socket is what is removed, and no later request reaches it. That is the
only way: a socket that was bound while nobody stood before such a removal stays until its window
lets go of it, since nobody else can come to one while the lock is held.
-/

set_option autoImplicit false

namespace Diffz
namespace Proof
namespace Handoff

open Diffz.Handoff

variable {usable : Bool} {w w' : Handoff.World} {e : Handoff.Event} {reach : Reach} {f : Files}
  {i : Nat} {p : Proc}
  {a : Answer} {t : Turn}

/-- The socket file is that of a process that still has the writer lock. -/
def Owned (w : Handoff.World) (i : Nat) : Prop :=
  w.files.socket = some i ∧ w.files.writer = some i

/-- A window binds only while no other process is about to remove the socket file without the
lock. -/
def BindsAlone (w : Handoff.World) (e : Handoff.Event) : Prop :=
  ∀ i, e = .step i .ok → w.pos i = .binding → ∀ j, j ≠ i → removes (w.pos j) = false

/-! ## Who has bound a socket -/

/-- The positions of a window that has bound its socket, to the end. -/
def hasBound : At → Bool
  | .permitting | .live | .silent | .leaving | .done _ => true
  | _ => false

/-- A window that has bound never takes the lock again. -/
theorem hasBound_move (h : move reach f i p a = some t) (hp : hasBound p.pos = true) :
    hasBound t.proc.pos = true ∧ (t.files.writer = f.writer ∨ t.files.writer = none) := by
  unfold move at h
  cases hpos : p.pos with
  | permitting =>
    rw [hpos] at h
    cases a <;> cases h <;> exact ⟨rfl, .inl rfl⟩
  | live =>
    rw [hpos] at h
    cases a <;> cases h
    · exact ⟨rfl, .inl rfl⟩
    · exact ⟨rfl, .inr rfl⟩
  | silent =>
    rw [hpos] at h
    cases a <;> cases h
    exact ⟨rfl, .inr rfl⟩
  | leaving =>
    rw [hpos] at h
    cases a <;> cases h
    exact ⟨rfl, .inl rfl⟩
  | done r =>
    rw [hpos] at h
    cases a <;> cases h
  | _ =>
    rw [hpos] at hp
    cases hp

/-- The socket file was bound by a process that has bound. -/
def Binder (w : Handoff.World) : Prop :=
  ∀ i, w.files.socket = some i → ∃ p, w.procs i = some p ∧ hasBound p.pos = true

theorem binding_move (h : move reach f i p .ok = some t) (hp : p.pos = .binding)
    (hs : t.files.socket = some i) (hne : f.socket ≠ some i) : hasBound t.proc.pos = true := by
  unfold move at h
  rw [hp] at h
  dsimp only at h
  split at h
  · cases h
    rfl
  · cases h
    exact absurd hs hne

theorem binder_step (h : (Handoff.World.system usable).step w e = some w') (hw : Binder w) :
    Binder w' := by
  cases step_cases h with
  | @start i role _ _ _ hnone heq =>
    subst heq
    intro k hk
    obtain ⟨p, hp, hb⟩ := hw k hk
    have hki : k ≠ i := by
      rintro rfl
      rw [hnone] at hp
      cases hp
    exact ⟨p, by simp [Handoff.World.spawn, hki, hp], hb⟩
  | @step i a p t hp hmove hperform =>
    have heff := move_effect hmove
    have hperf := perform_cases hperform
    intro k hk
    rw [hperf.files] at hk
    by_cases hold : w.files.socket = some k
    · obtain ⟨q, hq, hb⟩ := hw k hold
      by_cases hki : k = i
      · subst hki
        cases hp.symm.trans hq
        exact ⟨t.proc, hperf.self, (hasBound_move hmove hb).1⟩
      · rcases hperf.others k hki with heq | ⟨hnone, -⟩
        · exact ⟨q, heq.trans hq, hb⟩
        · rw [hq] at hnone
          cases hnone
    · rcases heff.socket with heq | ⟨hnone, -⟩ | ⟨hsome, hpos, rfl⟩
      · exact absurd (heq ▸ hk) hold
      · rw [hnone] at hk
        cases hk
      · rw [hsome] at hk
        cases hk
        exact ⟨t.proc, hperf.self, binding_move hmove hpos hsome hold⟩
  | @exit i p hp heq =>
    subst heq
    intro k hk
    obtain ⟨q, hq, hb⟩ := hw k hk
    by_cases hki : k = i
    · subst hki
      exact ⟨_, Function.update_self .., rfl⟩
    · exact ⟨q, by simp [Handoff.World.spawn, hki, hq], hb⟩

/-! ## No removal beside a socket that is owned -/

structure SocketInv (w : Handoff.World) : Prop where
  locks : Locks w
  binder : Binder w
  alone : ∀ i, Owned w i → ∀ j, j ≠ i → removes (w.pos j) = false

theorem socketInv_initial (h : Handoff.World.Initial w) : SocketInv w := by
  refine ⟨locks_initial h, ?_, ?_⟩
  · intro i hi
    obtain ⟨p, hp⟩ := Option.isSome_iff_exists.mp (h.socket i hi)
    obtain ⟨r, hr⟩ := h.ended i p hp
    exact ⟨p, hp, by rw [hr]; rfl⟩
  · rintro i ⟨-, hwriter⟩
    rw [h.writer] at hwriter
    cases hwriter

/-- A process owns the socket after a step of its own only if it did so before, or has just bound
it. -/
theorem owned_before (hw : SocketInv w) (hp : w.procs i = some p)
    (hmove : move (w.reach usable) w.files i p a = some t) {k : Nat}
    (hs : t.files.socket = some k) (hl : t.files.writer = some k) :
    Owned w k ∨ (k = i ∧ p.pos = .binding ∧ a = .ok) := by
  have heff := move_effect hmove
  rcases heff.socket with heq | ⟨hnone, -⟩ | ⟨hsome, hpos, ha⟩
  · have hsocket : w.files.socket = some k := heq ▸ hs
    by_cases hki : k = i
    · subst hki
      obtain ⟨q, hq, hb⟩ := hw.binder k hsocket
      cases hp.symm.trans hq
      rcases (hasBound_move hmove hb).2 with hsame | hnone
      · exact .inl ⟨hsocket, hsame ▸ hl⟩
      · rw [hnone] at hl
        cases hl
    · refine .inl ⟨hsocket, ?_⟩
      have hlock := heff.writer
      rw [hl] at hlock
      generalize holdsWriter p.pos = b at hlock
      generalize holdsWriter t.proc.pos = b' at hlock
      generalize w.files.writer = l at hlock ⊢
      cases hlock with
      | keep => rfl
      | take => exact absurd rfl hki
  · rw [hnone] at hs
    cases hs
  · rw [hsome] at hs
    cases hs
    exact .inr ⟨rfl, hpos, ha⟩

theorem socketInv_step (hok : BindsAlone w e) (h : (Handoff.World.system usable).step w e = some w')
    (hw : SocketInv w) : SocketInv w' := by
  refine ⟨locks_step h hw.locks, binder_step h hw.binder, ?_⟩
  cases step_cases h with
  | @start i role _ _ _ hnone heq =>
    subst heq
    intro k hk j hj
    rw [pos_spawn]
    split
    · exact (holds_of_start role).2.2
    · exact hw.alone k hk j hj
  | @step i a p t hp hmove hperform =>
    have heff := move_effect hmove
    have hperf := perform_cases hperform
    rintro k ⟨hs, hl⟩ j hj
    rw [hperf.files] at hs hl
    by_cases hji : j = i
    · subst hji
      rw [pos_of_some hperf.self]
      rcases owned_before hw hp hmove hs hl with howned | ⟨rfl, -⟩
      · -- The lock is held, so `j` cannot have come to a removal in this step.
        have hold := hw.alone k howned j hj
        rw [pos_of_some hp] at hold
        by_contra hr
        rw [Bool.not_eq_false] at hr
        rcases heff.removes hr with hr | hnone | hfile
        · rw [hold] at hr
          cases hr
        · rw [hnone] at hl
          cases hl
        · have hlock := hw.locks.lockFile (by rw [howned.2]; simp)
          rw [hfile] at hlock
          cases hlock
      · exact absurd rfl hj
    · rcases hperf.pos_others hji with heq | ⟨-, heq⟩
      · rw [heq]
        rcases owned_before hw hp hmove hs hl with howned | ⟨rfl, hpos, rfl⟩
        · exact hw.alone k howned j hj
        · exact hok k rfl ((pos_of_some hp).trans hpos) j hj
      · rw [heq]
        rfl
  | @exit i p hp heq =>
    subst heq
    rintro k ⟨hs, hl⟩ j hj
    have hl : w.files.writer = some k := by
      simp only [Handoff.World.exited] at hl
      split at hl
      · cases hl
      · exact hl
    show removes ((w.spawn i { p with pos := .done .closed }).pos j) = false
    rw [pos_spawn]
    split
    · rfl
    · exact hw.alone k ⟨hs, hl⟩ j hj

/-- **A window keeps its socket.** In every run in which windows bind only while nobody else is about
to remove the socket file: the file of a window that still has the writer lock is removed by no step
of another process. -/
theorem run_keeps_owned_socket {w₀ : Handoff.World} {es : List Handoff.Event}
    (hinit : Handoff.World.Initial w₀)
    (hrun : (Handoff.World.system usable).Steps BindsAlone w₀ es w)
    (hstep : (Handoff.World.system usable).step w e = some w') (howned : Owned w i)
    (hother : e.actor ≠ i) : w'.files.socket = some i := by
  have hw : SocketInv w := hrun.invariant (fun _ _ _ hok h hw => socketInv_step hok h hw)
    (socketInv_initial hinit)
  cases step_cases hstep with
  | start hnone heq =>
    subst heq
    exact howned.1
  | @step k a p t hp hmove hperform =>
    rw [(perform_cases hperform).files]
    have heff := move_effect hmove
    rcases heff.socket with heq | ⟨-, hr | hl⟩ | ⟨-, hpos, -⟩
    · exact heq.trans howned.1
    · have halone := hw.alone i howned k hother
      rw [pos_of_some hp, hr] at halone
      cases halone
    · have hlock := hw.locks.writer k (pos_of_some hp ▸ hl)
      rw [howned.2] at hlock
      exact absurd (Option.some.inj hlock).symm hother
    · have hlock := hw.locks.writer k (by rw [pos_of_some hp, hpos]; rfl)
      rw [howned.2] at hlock
      exact absurd (Option.some.inj hlock).symm hother
  | exit hp heq =>
    subst heq
    exact howned.1

/-- Where a process is about to remove the file, one step of it does. -/
theorem removal_move (h : removes p.pos = true) :
    ∃ a t, move reach f i p a = some t ∧ t.files.socket = none ∧ t.launched = none := by
  obtain ⟨request, writes, token, pos⟩ := p
  unfold removes at h
  split at h
  case h_1 heq =>
    cases heq
    exact ⟨.ok, _, rfl, rfl, rfl⟩
  case h_2 locked heq =>
    cases heq
    refine ⟨.ok, _, rfl, ?_, ?_⟩
    all_goals cases locked <;> rfl
  case h_3 heq =>
    cases heq
    exact ⟨.ok, _, rfl, rfl, rfl⟩
  case h_4 heq =>
    cases heq
    exact ⟨.dropListener, _, rfl, rfl, rfl⟩
  case h_5 => cases h

/-- A bind beside such a process is all it takes: the socket can be gone with the next step. -/
theorem removal_step {j : Nat} (h : removes (w.pos j) = true) :
    ∃ a w', (Handoff.World.system usable).step w (.step j a) = some w' ∧ w'.files.socket = none := by
  cases hp : w.procs j with
  | none =>
    rw [pos_of_none hp] at h
    cases h
  | some p =>
    rw [pos_of_some hp] at h
    have hmove : ∃ a t, move (w.reach usable) w.files j p a = some t ∧ t.files.socket = none ∧
        t.launched = none := removal_move h
    obtain ⟨a, t, hmove, hsocket, hlaunched⟩ := hmove
    have hperform : ∃ w', w.perform j t = some w' := by
      simp [Handoff.World.perform, hlaunched]
    obtain ⟨w', hperform⟩ := hperform
    refine ⟨a, w', ?_, ?_⟩
    · simp [Handoff.World.system, Handoff.World.step, hp, hmove, hperform]
    · rw [(perform_cases hperform).files]
      exact hsocket

/-! ### One window and one client -/

/-- Window 1 opens the store and binds. -/
def windowStart : List Handoff.Event :=
  [.start 1 .window none ⟨false, false⟩ none, .step 1 .ok, .step 1 .ok, .step 1 .ok, .step 1 .ok,
    .step 1 .ok]

/-- A run of one process binds alone. -/
theorem bindsAlone_single {w : Handoff.World} {i : Nat} {a : Answer}
    (h : ∀ j, j ≠ i → w.procs j = none) : BindsAlone w (.step i a) := by
  intro k hk _ j hj
  cases hk
  rw [pos_of_none (h j hj)]
  rfl

/-- The window has started alone, and the first step of a client that comes now leaves its
socket. -/
theorem windowStart_keeps_socket :
    ∃ w w', (Handoff.World.system true).Steps BindsAlone coldDirectory windowStart w ∧ w.pos 1 = .live ∧
      Owned w 1 ∧
      (Handoff.World.system true).step w (.start 0 .send none ⟨false, false⟩ none) = some w' ∧
      w'.files.socket = some 1 := by
  have hrun : ∃ w, (Handoff.World.system true).Steps BindsAlone coldDirectory windowStart w ∧
      w.pos 1 = .live ∧ Owned w 1 ∧ w.procs 0 = none := by
    refine ⟨_, .cons ?_ rfl (.cons ?_ rfl (.cons ?_ rfl (.cons ?_ rfl (.cons ?_ rfl
      (.cons ?_ rfl .nil))))), rfl, ⟨rfl, rfl⟩, rfl⟩
    · exact nofun
    all_goals
      apply bindsAlone_single
      intro j hj
      simp [Handoff.World.spawn, coldDirectory, hj]
  obtain ⟨w, hsteps, hlive, howned, hnone⟩ := hrun
  have hstep : (Handoff.World.system true).step w (.start 0 .send none ⟨false, false⟩ none) =
      some (w.spawn 0 ⟨none, ⟨false, false⟩, none, .calling .connect⟩) := by
    simp [Handoff.World.system, Handoff.World.step, hnone, Role.start]
  exact ⟨w, _, hsteps, hlive, howned, hstep,
    run_keeps_owned_socket coldDirectory_initial hsteps hstep howned (by decide)⟩

/-- The client looks for a socket, finds none, and finds the lock free; then the window starts. -/
def racedStart : List Handoff.Event :=
  [.start 0 .send none ⟨false, false⟩ none, .step 0 .ok, .step 0 .ok, .step 0 .ok] ++ windowStart

/-- Now the client removes the socket it takes for a stale one: that of a live window. -/
theorem racedStart_loses_socket :
    ∃ w w', (Handoff.World.system true).run coldDirectory racedStart = some w ∧ w.pos 1 = .live ∧
      Owned w 1 ∧ (Handoff.World.system true).step w (.step 0 .ok) = some w' ∧ w'.files.socket = none ∧
      w'.pos 1 = .live ∧ w'.files.writer = some 1 :=
  ⟨_, _, rfl, rfl, ⟨rfl, rfl⟩, rfl, rfl, rfl, rfl⟩

end Handoff
end Proof
end Diffz
