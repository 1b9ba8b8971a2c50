import Diffz.Adapters.Handoff

/-!
# What a step of a process does to the locks and the socket

One lemma for each of the two locks, the socket and the launches, over all positions of a process.
The results about runs are put together from them and do not look at positions again.
-/

set_option autoImplicit false

namespace Diffz
namespace Proof
namespace Handoff

open Diffz.Handoff

/-! ## Positions -/

/-- `send_within` has the writer lock, in a probe. -/
def sendHolds : SendAt → Bool
  | .release _ => true
  | _ => false

/-- The positions of a process that has the writer lock. -/
def holdsWriter : At → Bool
  | .calling s | .sending _ s | .handingOff _ s => sendHolds s
  | .settling _ .release => true
  | .opened _ | .clearing | .binding | .permitting | .live | .silent => true
  | _ => false

/-- The positions of a `deliver` that has the launch lock. -/
def holdsLaunch : At → Bool
  | .sending locked _ | .settling locked _ => locked
  | .launch | .listen => true
  | _ => false

/-- The positions from which a process removes the socket file although it has not the lock. -/
def removes : At → Bool
  | .calling .unlink | .sending _ .unlink | .handingOff _ .unlink | .leaving => true
  | _ => false

/-- A lock before and after a step of process `i`, with whether `i` has it. -/
inductive Lock (i : Nat) : Option Nat → Bool → Option Nat → Bool → Prop
  | keep {l : Option Nat} {b : Bool} : Lock i l b l b
  | take : Lock i none false (some i) true
  | drop {l : Option Nat} : Lock i l true none false

variable {reach : Reach} {f : Files} {i : Nat} {p : Proc} {a : Answer} {t : Turn}

/-! ## Steps of `send_within` -/

def holdsAfter : SendNext → Bool
  | .goto s => sendHolds s
  | _ => false

/-- What a step of `send_within` at `s` does to the files. -/
structure SendEffect (f : Files) (i : Nat) (s : SendAt) (t : SendTurn) : Prop where
  launch : t.files.launch = f.launch
  lockFile : t.files.lockFile = f.lockFile
  writer : Lock i f.writer (sendHolds s) t.files.writer (holdsAfter t.next)
  locked : t.files.writer = f.writer ∨ t.files.writer = none ∨ f.lockFile = true
  socket : t.files.socket = f.socket ∨ (t.files.socket = none ∧ s = .unlink)
  unlink : t.next = .goto .unlink → t.files.writer = none ∨ f.lockFile = false

theorem sendMove_effect {s : SendAt} {t : SendTurn} (h : sendMove reach f i p s a = some t) :
    SendEffect f i s t := by
  unfold sendMove at h
  split at h
  · split at h <;> cases h <;> exact ⟨rfl, rfl, .keep, .inl rfl, .inl rfl, nofun⟩
  · split at h
    · rename_i hfile
      cases h
      refine ⟨rfl, rfl, ?_, .inl rfl, .inl rfl, fun _ => .inr (by simpa using hfile)⟩
      split <;> exact .keep
    · rename_i hfile
      split at h
      · rename_i hw
        cases h
        exact ⟨rfl, rfl, hw ▸ .take, .inr (.inr (by simpa using hfile)), .inl rfl, nofun⟩
      · split at h <;> cases h <;> exact ⟨rfl, rfl, .keep, .inl rfl, .inl rfl, nofun⟩
  · cases h
    refine ⟨rfl, rfl, ?_, .inr (.inl rfl), .inl rfl, fun _ => .inl rfl⟩
    dsimp only
    split <;> exact .drop
  · cases h
    exact ⟨rfl, rfl, .drop, .inr (.inl rfl), .inl rfl, nofun⟩
  · cases h
    exact ⟨rfl, rfl, .keep, .inl rfl, .inr ⟨rfl, rfl⟩, nofun⟩
  · cases h
    exact ⟨rfl, rfl, .keep, .inl rfl, .inl rfl, nofun⟩
  · cases h
    exact ⟨rfl, rfl, .keep, .inl rfl, .inl rfl, nofun⟩
  · split at h <;> cases h <;> exact ⟨rfl, rfl, .keep, .inl rfl, .inl rfl, nofun⟩
  · cases h
  · cases h
    exact ⟨rfl, rfl, .keep, .inl rfl, .inl rfl, nofun⟩
  · cases h
  · rename_i hrelease _
    cases h
    have hs : sendHolds s = false := by
      cases s with
      | release long => exact absurd rfl (hrelease long)
      | _ => rfl
    exact ⟨rfl, rfl, hs ▸ .keep, .inl rfl, .inl rfl, nofun⟩
  · cases h

/-! ## Steps of a process -/

/-- What a step at a position does to the files. -/
structure Effect (f : Files) (i : Nat) (pos : At) (a : Answer) (t : Turn) : Prop where
  writer : Lock i f.writer (holdsWriter pos) t.files.writer (holdsWriter t.proc.pos)
  launch : Lock i f.launch (holdsLaunch pos) t.files.launch (holdsLaunch t.proc.pos)
  lockFile : f.lockFile = true → t.files.lockFile = true
  locked : t.files.writer = f.writer ∨ t.files.writer = none ∨ t.files.lockFile = true
  socket : t.files.socket = f.socket ∨
    (t.files.socket = none ∧ (removes pos = true ∨ holdsWriter pos = true)) ∨
    (t.files.socket = some i ∧ pos = .binding ∧ a = .ok)
  removes : removes t.proc.pos = true →
    removes pos = true ∨ t.files.writer = none ∨ f.lockFile = false

/-- A turn that leaves everything but the launch lock as it is, from a position that has that lock
where `locked`. -/
structure Quiet (f : Files) (i : Nat) (locked : Bool) (t : Turn) : Prop where
  writer : t.files.writer = f.writer
  lockFile : t.files.lockFile = f.lockFile
  socket : t.files.socket = f.socket
  holds : holdsWriter t.proc.pos = false
  removes : removes t.proc.pos = false
  launch : Lock i f.launch locked t.files.launch (holdsLaunch t.proc.pos)

theorem quiet_leave (locked : Bool) (r : Ended) : Quiet f i locked (.leave f p locked r) := by
  cases locked
  · exact ⟨rfl, rfl, rfl, rfl, rfl, .keep⟩
  · exact ⟨rfl, rfl, rfl, rfl, rfl, .drop⟩

theorem quiet_unsettled (locked : Bool) : Quiet f i locked (.goto f p (unsettled locked)) := by
  cases locked
  · exact ⟨rfl, rfl, rfl, rfl, rfl, .keep⟩
  · exact ⟨rfl, rfl, rfl, rfl, rfl, .keep⟩

theorem quiet_settled (locked : Bool) (o : Outcome) : Quiet f i locked (settled locked f p o) := by
  cases o with
  | notRunning => exact quiet_unsettled locked
  | accepted => exact quiet_leave locked _
  | refused m => exact quiet_leave locked _
  | unanswered => exact ⟨rfl, rfl, rfl, rfl, rfl, .keep⟩

theorem quiet_handedOff (error : String) (o : Outcome) :
    Quiet f i false (handedOff error f p o) := by
  cases o <;> exact ⟨rfl, rfl, rfl, rfl, rfl, .keep⟩

theorem quiet_notOpened (again : Bool) (m : String) : Quiet f i false (notOpened f p again m) := by
  cases again <;> exact ⟨rfl, rfl, rfl, rfl, rfl, .keep⟩

theorem Quiet.effect {locked : Bool} {pos : At} (h : Quiet f i locked t)
    (hw : holdsWriter pos = false) (hl : holdsLaunch pos = locked) : Effect f i pos a t := by
  refine ⟨?_, hl ▸ h.launch, fun hf => h.lockFile.trans hf, .inl h.writer, .inl h.socket, ?_⟩
  · rw [hw, h.holds, h.writer]
    exact .keep
  · intro hr
    rw [h.removes] at hr
    cases hr

/-- A step of `send_within` in its caller `here`, which has the launch lock where `locked`. -/
theorem ofSend_effect {s : SendAt} {st : SendTurn} {here : SendAt → At} {locked : Bool}
    {returns : Files → Proc → Outcome → Turn} {fails : Files → Proc → String → Turn}
    (hs : SendEffect f i s st) (hw : ∀ s, holdsWriter (here s) = sendHolds s)
    (hl : ∀ s, holdsLaunch (here s) = locked) (hr : ∀ s, removes (here s) = true ↔ s = .unlink)
    (hreturns : ∀ p o, Quiet st.files i locked (returns st.files p o))
    (hfails : ∀ p m, Quiet st.files i locked (fails st.files p m)) :
    Effect f i (here s) a (.ofSend p st here returns fails) := by
  have hsocket : st.files.socket = f.socket ∨
      (st.files.socket = none ∧ removes (here s) = true) := by
    rcases hs.socket with h | ⟨h, hunlink⟩
    · exact .inl h
    · exact .inr ⟨h, (hr s).mpr hunlink⟩
  have hquiet : ∀ t : Turn, Quiet st.files i locked t →
      Lock i f.writer (sendHolds s) st.files.writer false →
      Effect f i (here s) a { t with framed := st.framed } := by
    intro t ht hwriter
    refine ⟨?_, ?_, ?_, ?_, ?_, ?_⟩
    · show Lock i f.writer (holdsWriter (here s)) t.files.writer (holdsWriter t.proc.pos)
      rw [hw, ht.writer, ht.holds]
      exact hwriter
    · rw [hl, ← hs.launch]
      exact ht.launch
    · intro hf
      exact ht.lockFile.trans (hs.lockFile.trans hf)
    · show t.files.writer = f.writer ∨ t.files.writer = none ∨ t.files.lockFile = true
      rw [ht.writer, ht.lockFile, hs.lockFile]
      exact hs.locked
    · show t.files.socket = f.socket ∨ (t.files.socket = none ∧ _) ∨ _
      rw [ht.socket]
      exact hsocket.imp_right fun h => .inl ⟨h.1, .inl h.2⟩
    · intro hrem
      exact absurd (ht.removes.symm.trans hrem) (by simp)
  have hwriter := hs.writer
  unfold Turn.ofSend
  cases hn : st.next with
  | goto s' =>
    rw [hn] at hwriter
    refine ⟨?_, ?_, ?_, ?_, ?_, ?_⟩
    · rw [hw]
      exact hw s' ▸ hwriter
    · rw [hl, ← hs.launch]
      exact hl s' ▸ .keep
    · intro hf
      exact hs.lockFile.trans hf
    · show st.files.writer = f.writer ∨ st.files.writer = none ∨ st.files.lockFile = true
      rw [hs.lockFile]
      exact hs.locked
    · exact hsocket.imp_right fun h => .inl ⟨h.1, .inl h.2⟩
    · intro hrem
      cases (hr s').mp hrem
      exact .inr (hs.unlink hn)
  | returns o =>
    rw [hn] at hwriter
    exact hquiet _ (hreturns _ o) hwriter
  | fails m =>
    rw [hn] at hwriter
    exact hquiet _ (hfails _ m) hwriter

theorem removes_send {here : SendAt → At} (h : ∀ s, removes (here s) = decide (s = .unlink))
    (s : SendAt) : removes (here s) = true ↔ s = .unlink := by
  rw [h, decide_eq_true_eq]

/-- **What a step of a process does to the files.** -/
theorem move_effect (h : move reach f i p a = some t) : Effect f i p.pos a t := by
  unfold move at h
  split at h <;> rename_i hpos
  all_goals try rw [hpos]
  case h_1 =>
    obtain ⟨st, hst, rfl⟩ := Option.map_eq_some_iff.mp h
    refine ofSend_effect (sendMove_effect hst) (fun _ => rfl) (fun _ => rfl) (removes_send ?_)
      (fun p o => ⟨rfl, rfl, rfl, rfl, rfl, .keep⟩) (fun p m => ⟨rfl, rfl, rfl, rfl, rfl, .keep⟩)
    intro s
    cases s <;> rfl
  case h_2 =>
    obtain ⟨st, hst, rfl⟩ := Option.map_eq_some_iff.mp h
    refine ofSend_effect (sendMove_effect hst) (fun _ => rfl) (fun _ => rfl) (removes_send ?_)
      (fun p o => quiet_settled _ o) (fun p m => quiet_leave _ _)
    intro s
    cases s <;> rfl
  case h_20 =>
    obtain ⟨st, hst, rfl⟩ := Option.map_eq_some_iff.mp h
    refine ofSend_effect (sendMove_effect hst) (fun _ => rfl) (fun _ => rfl) (removes_send ?_)
      (fun p o => quiet_handedOff _ o) (fun p m => ⟨rfl, rfl, rfl, rfl, rfl, .keep⟩)
    intro s
    cases s <;> rfl
  -- `settle`
  case h_3 =>
    split at h
    · cases h
      exact (quiet_unsettled _).effect rfl rfl
    · rename_i hfile
      split at h
      · rename_i hw
        cases h
        exact ⟨hw ▸ .take, .keep, id, .inr (.inr (not_not.mp hfile)), .inl rfl, nofun⟩
      · cases h
        exact ⟨.keep, .keep, id, .inl rfl, .inl rfl, nofun⟩
  case h_5 locked =>
    cases h
    have hq : Quiet { f with writer := none } i locked
        (.goto { f with writer := none } p (unsettled locked)) := quiet_unsettled _
    refine ⟨?_, hq.launch, id, .inr (.inl rfl), .inl rfl, ?_⟩
    · exact hq.holds ▸ .drop
    · intro hr
      exact .inr (.inl rfl)
  case h_6 locked m =>
    cases h
    have hq : Quiet { f with writer := none } i locked
        (.leave { f with writer := none } p locked (.error m)) := quiet_leave _ _
    refine ⟨?_, hq.launch, fun hf => hq.lockFile.trans hf, .inr (.inl hq.writer), .inl hq.socket, ?_⟩
    · exact hq.holds ▸ hq.writer ▸ .drop
    · intro hr
      exact .inr (.inl hq.writer)
  case h_4 | h_8 =>
    cases h
    exact (quiet_leave _ _).effect rfl rfl
  -- the launch lock
  case h_9 =>
    split at h
    · rename_i hl
      cases h
      exact ⟨.keep, hl ▸ .take, id, .inl rfl, .inl rfl, nofun⟩
    · cases h
  case h_12 | h_15 =>
    cases h
    exact ⟨.keep, .drop, id, .inl rfl, .inl rfl, nofun⟩
  case h_13 =>
    split at h
    · cases h
      exact ⟨.keep, .keep, id, .inl rfl, .inl rfl, nofun⟩
    · cases h
      exact ⟨.keep, .drop, id, .inl rfl, .inl rfl, nofun⟩
  -- `open`
  case h_16 =>
    dsimp only at h
    split at h
    · rename_i hw
      cases h
      exact ⟨hw ▸ .take, .keep, fun _ => rfl, .inr (.inr rfl), .inl rfl, nofun⟩
    · cases h
      have hq := quiet_notOpened (f := { f with lockFile := true }) (i := i) (p := p) ‹_›
        "another diffz instance is using this state directory"
      refine ⟨hq.holds ▸ hq.writer ▸ .keep, hq.launch, fun _ => hq.lockFile, .inl hq.writer,
        .inl hq.socket, ?_⟩
      intro hr
      exact absurd (hq.removes.symm.trans hr) (by simp)
  case h_17 =>
    cases h
    exact (quiet_notOpened _ _).effect rfl rfl
  case h_19 again m =>
    cases h
    have hq := quiet_notOpened (f := { f with writer := none }) (i := i) (p := p) again m
    refine ⟨hq.holds ▸ hq.writer ▸ .drop, hq.launch, fun hf => hq.lockFile.trans hf,
      .inr (.inl hq.writer), .inl hq.socket, ?_⟩
    intro hr
    exact absurd (hq.removes.symm.trans hr) (by simp)
  -- the window
  case h_21 =>
    cases h
    exact ⟨.keep, .keep, id, .inl rfl, .inr (.inl ⟨rfl, .inr rfl⟩), nofun⟩
  case h_23 =>
    split at h
    · cases h
      exact ⟨.keep, .keep, id, .inl rfl, .inr (.inr ⟨rfl, rfl, rfl⟩), nofun⟩
    · cases h
      exact ⟨.keep, .keep, id, .inl rfl, .inl rfl, nofun⟩
  case h_27 =>
    cases h
    exact ⟨.keep, .keep, id, .inl rfl, .inr (.inl ⟨rfl, .inr rfl⟩), nofun⟩
  case h_28 =>
    cases h
    exact ⟨.drop, .keep, id, .inr (.inl rfl), .inl rfl, fun _ => .inr (.inl rfl)⟩
  case h_29 =>
    cases h
    exact ⟨.drop, .keep, id, .inr (.inl rfl), .inl rfl, nofun⟩
  case h_30 =>
    cases h
    exact ⟨.keep, .keep, id, .inl rfl, .inr (.inl ⟨rfl, .inl rfl⟩), nofun⟩
  case h_31 => cases h
  -- the steps that only go on
  all_goals
    cases h
    exact ⟨.keep, .keep, id, .inl rfl, .inl rfl, nofun⟩

/-! ## Steps of the directory -/

variable {w w' : Handoff.World} {e : Handoff.Event} {usable : Bool}

theorem holds_of_start (role : Role) : holdsWriter role.start = false ∧
    holdsLaunch role.start = false ∧ removes role.start = false := by
  cases role <;> exact ⟨rfl, rfl, rfl⟩

theorem pos_of_none {j : Nat} (h : w.procs j = none) : w.pos j = .done .closed := by
  simp [Handoff.World.pos, h]

theorem pos_of_some {j : Nat} (h : w.procs j = some p) : w.pos j = p.pos := by
  simp [Handoff.World.pos, h]

/-- **What a step of the directory is**: a process starts, goes on or ends. -/
inductive StepCases (usable : Bool) (w w' : Handoff.World) : Handoff.Event → Prop
  | start {i : Nat} {role : Role} {request : Option OpenRequest} {writes : Writes}
      {token : Option String} (hnone : w.procs i = none)
      (heq : w' = w.spawn i ⟨request, writes, token, role.start⟩) :
      StepCases usable w w' (.start i role request writes token)
  | step {i : Nat} {a : Answer} {p : Proc} {t : Turn} (hp : w.procs i = some p)
      (hmove : move (w.reach usable) w.files i p a = some t) (hperform : w.perform i t = some w') :
      StepCases usable w w' (.step i a)
  | exit {i : Nat} {p : Proc} (hp : w.procs i = some p)
      (heq : w' = { w.spawn i { p with pos := .done .closed } with
        files := Handoff.World.exited w.files i }) : StepCases usable w w' (.exit i)

theorem step_cases (h : (Handoff.World.system usable).step w e = some w') :
    StepCases usable w w' e := by
  cases e with
  | start i role request writes token =>
    simp only [Handoff.World.system, Handoff.World.step] at h
    split at h
    · cases h
    · rename_i hnone
      cases h
      exact .start hnone rfl
  | step i a =>
    simp only [Handoff.World.system, Handoff.World.step] at h
    split at h
    · cases h
    · rename_i p hp
      obtain ⟨t, hmove, hperform⟩ := Option.bind_eq_some_iff.mp h
      exact .step hp hmove hperform
  | exit i =>
    simp only [Handoff.World.system, Handoff.World.step] at h
    split at h
    · cases h
    · rename_i p hp
      cases h
      exact .exit hp rfl

/-- What a turn does to the world. -/
structure Performed (w : Handoff.World) (i : Nat) (t : Turn) (w' : Handoff.World) : Prop where
  files : w'.files = t.files
  self : w'.procs i = some t.proc
  others : ∀ j, j ≠ i → w'.procs j = w.procs j ∨ (w.procs j = none ∧ ∃ p,
    w'.procs j = some p ∧ p.pos = .opening false ∧ ∃ token, t.launched = some (token, some j))
  frames : w'.frames = (t.framed.map (Prod.mk i)).toList ++ w.frames
  launches : w'.launches = (t.launched.map fun l => (i, l.1)).toList ++ w.launches

theorem perform_cases (h : w.perform i t = some w') : Performed w i t w' := by
  unfold Handoff.World.perform at h
  dsimp only at h
  split at h
  · rename_i token j hlaunched
    split at h
    · cases h
    · rename_i hnone
      cases h
      -- The new process is not the one that launched it.
      have hne : j ≠ i := by
        rintro rfl
        simp at hnone
      rw [Function.update_of_ne hne] at hnone
      refine ⟨rfl, ?_, ?_, rfl, rfl⟩
      · simp [Handoff.World.spawn, hne.symm]
      · intro k hk
        by_cases hkj : k = j
        · subst hkj
          exact .inr ⟨hnone, _, Function.update_self .., rfl, token, hlaunched⟩
        · exact .inl (by simp [Handoff.World.spawn, hkj, hk])
  · cases h
    refine ⟨rfl, by simp, ?_, rfl, rfl⟩
    intro k hk
    exact .inl (by simp [hk])

theorem Performed.pos_others (h : Performed w i t w') {j : Nat} (hj : j ≠ i) :
    w'.pos j = w.pos j ∨ (w.procs j = none ∧ w'.pos j = .opening false) := by
  rcases h.others j hj with heq | ⟨hnone, p, hp, hpos, -⟩
  · exact .inl (by simp [Handoff.World.pos, heq])
  · exact .inr ⟨hnone, (pos_of_some hp).trans hpos⟩

/-! ## The locks -/

/-- A lock has one owner, and keeps it when another process takes a step. -/
theorem Lock.owner {l l' : Option Nat} {b b' : Bool} (h : Lock i l b l' b')
    (hself : b = true → l = some i) : (b' = true → l' = some i) ∧
      ∀ j, j ≠ i → l = some j → l' = some j := by
  cases h with
  | keep => exact ⟨hself, fun _ _ h => h⟩
  | take => exact ⟨fun _ => rfl, nofun⟩
  | drop =>
    refine ⟨nofun, ?_⟩
    intro j hj hl
    rw [hself rfl] at hl
    exact absurd (Option.some.inj hl).symm hj

theorem pos_spawn (w : Handoff.World) (i j : Nat) (p : Proc) :
    (w.spawn i p).pos j = if j = i then p.pos else w.pos j := by
  by_cases hj : j = i
  · subst hj
    simp [Handoff.World.pos, Handoff.World.spawn]
  · simp [Handoff.World.pos, Handoff.World.spawn, hj]

/-- Whoever stands where a lock is held has it. -/
def Owners (holds : At → Bool) (l : Option Nat) (w : Handoff.World) : Prop :=
  ∀ j, holds (w.pos j) = true → l = some j

section

variable {holds : At → Bool} {l l' : Option Nat}

theorem owners_spawn (h : Owners holds l w) (hp : holds p.pos = false) :
    Owners holds l (w.spawn i p) := by
  intro j hj
  rw [pos_spawn] at hj
  split at hj
  · rw [hp] at hj
    cases hj
  · exact h j hj

theorem owners_perform (h : Owners holds l w) (hperf : Performed w i t w')
    (hlock : Lock i l (holds (w.pos i)) l' (holds t.proc.pos))
    (hopening : holds (.opening false) = false) : Owners holds l' w' := by
  obtain ⟨hself, hothers⟩ := hlock.owner (h i)
  intro j hj
  by_cases hji : j = i
  · subst hji
    exact hself (pos_of_some hperf.self ▸ hj)
  · rcases hperf.pos_others hji with heq | ⟨-, heq⟩
    · exact hothers j hji (h j (heq ▸ hj))
    · rw [heq, hopening] at hj
      cases hj

theorem owners_exit (h : Owners holds l w) (hdone : holds p.pos = false) :
    Owners holds (if l = some i then none else l) (w.spawn i p) := by
  intro j hj
  rw [pos_spawn] at hj
  split at hj
  · rw [hdone] at hj
    cases hj
  · rename_i hji
    rw [h j hj, if_neg]
    intro heq
    exact hji (Option.some.inj heq)

end

/-- The locks are with the processes that stand where they are held, and the writer lock has a
file. -/
structure Locks (w : Handoff.World) : Prop where
  writer : Owners holdsWriter w.files.writer w
  launch : Owners holdsLaunch w.files.launch w
  lockFile : w.files.writer ≠ none → w.files.lockFile = true

theorem pos_initial (h : Handoff.World.Initial w) (j : Nat) : ∃ r, w.pos j = .done r := by
  cases hp : w.procs j with
  | none => exact ⟨_, pos_of_none hp⟩
  | some p =>
    obtain ⟨r, hr⟩ := h.ended j p hp
    exact ⟨r, (pos_of_some hp).trans hr⟩

theorem locks_initial (h : Handoff.World.Initial w) : Locks w := by
  refine ⟨?_, ?_, fun hw => absurd h.writer hw⟩
  · intro j hj
    obtain ⟨r, hr⟩ := pos_initial h j
    rw [hr] at hj
    cases hj
  · intro j hj
    obtain ⟨r, hr⟩ := pos_initial h j
    rw [hr] at hj
    cases hj

theorem locks_step (h : (Handoff.World.system usable).step w e = some w') (hw : Locks w) :
    Locks w' := by
  cases step_cases h with
  | @start i role _ _ _ hnone heq =>
    obtain ⟨hwriter, hlaunch, -⟩ := holds_of_start role
    subst heq
    exact ⟨owners_spawn hw.writer hwriter, owners_spawn hw.launch hlaunch, hw.lockFile⟩
  | @step i a p t hp hmove hperform =>
    have heff := move_effect hmove
    have hperf := perform_cases hperform
    rw [← pos_of_some hp] at heff
    refine ⟨?_, ?_, ?_⟩
    · exact hperf.files ▸ owners_perform hw.writer hperf heff.writer rfl
    · exact hperf.files ▸ owners_perform hw.launch hperf heff.launch rfl
    · intro hne
      rw [hperf.files] at hne ⊢
      rcases heff.locked with h | h | h
      · exact heff.lockFile (hw.lockFile (h ▸ hne))
      · exact absurd h hne
      · exact h
  | @exit i p hp heq =>
    subst heq
    refine ⟨owners_exit hw.writer rfl, owners_exit hw.launch rfl, ?_⟩
    intro hne
    apply hw.lockFile
    intro hnone
    exact hne (by simp [Handoff.World.exited, hnone])

/-- A directory without a window. -/
def coldDirectory : Handoff.World := ⟨⟨true, none, none, none⟩, fun _ => none, [], []⟩

theorem coldDirectory_initial : Handoff.World.Initial coldDirectory := by
  refine ⟨?_, rfl, rfl, ?_, rfl, rfl⟩
  · intro i p h
    cases h
  · intro i h
    cases h

end Handoff
end Proof
end Diffz
