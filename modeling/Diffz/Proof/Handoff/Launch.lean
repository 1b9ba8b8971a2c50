import Diffz.Proof.Handoff.Step

/-!
# One window is launched, and a token is used once

A `deliver` that goes on to launch has found the writer lock free while it had the launch lock, and
it keeps the launch lock until a window takes requests. So once there was a launch, whoever gets the
launch lock finds the writer lock held. The token of a call is taken out before it is put anywhere.
-/

set_option autoImplicit false

namespace Diffz
namespace Proof
namespace Handoff

open Diffz.Handoff

variable {reach : Reach} {f : Files} {i : Nat} {p : Proc} {a : Answer} {t : Turn}
  {w w' : Handoff.World}
  {e : Handoff.Event} {usable : Bool}

/-! ## Positions -/

/-- `send_within` has found the writer lock free. -/
def foundFree : SendAt → Bool
  | .release _ | .unlink => true
  | _ => false

/-- `deliver` has the launch lock and has found the writer lock free. -/
def cleared : At → Bool
  | .sending locked s => locked && foundFree s
  | .settling locked .release => locked
  | .launch => true
  | _ => false

/-- A window that has the writer lock. -/
def running : At → Bool
  | .opened _ | .clearing | .binding | .permitting | .live | .silent => true
  | _ => false

theorem holdsLaunch_of_cleared {pos : At} (h : cleared pos = true) : holdsLaunch pos = true := by
  unfold cleared at h
  split at h
  · rw [Bool.and_eq_true] at h
    exact h.1
  · exact h
  · rfl
  · cases h

theorem holdsWriter_of_running {pos : At} (h : running pos = true) : holdsWriter pos = true := by
  cases pos <;> first | rfl | cases h

theorem running_of_listens {pos : At} (h : pos.listens = true) (hne : pos ≠ .leaving) :
    running pos = true := by
  cases pos <;> first | rfl | exact absurd rfl hne | cases h

/-- What the calls rely on: only `deliver` is called, `launch` succeeds, no wait comes to its
deadline, and a window that has the lock keeps it. -/
def Calm (w : Handoff.World) : Handoff.Event → Prop
  | .start _ role _ _ _ => role = .deliver
  | .exit _ => False
  | .step i a => a ≠ .late ∧ (w.pos i = .launch → ∃ j, a = .launched j) ∧
    (running (w.pos i) = true → a ≠ .unlock ∧ ∀ again m, w.pos i = .opened again → a ≠ .failed m)

/-! ## Steps -/

def foundFreeAfter : SendNext → Bool
  | .goto s => foundFree s
  | .returns .notRunning => true
  | _ => false

theorem sendMove_foundFree {s : SendAt} {st : SendTurn} (h : sendMove reach f i p s a = some st)
    (hs : foundFreeAfter st.next = true) :
    foundFree s = true ∨ f.writer = none ∨ f.lockFile = false := by
  unfold sendMove at h
  split at h
  · split at h <;> cases h <;> cases hs
  · split at h
    · rename_i hfile
      exact .inr (.inr (by simpa using hfile))
    · split at h
      · rename_i hw
        exact .inr (.inl hw)
      · split at h <;> cases h <;> cases hs
  · exact .inl rfl
  · exact .inl rfl
  · exact .inl rfl
  · cases h
    cases hs
  · cases h
    cases hs
  · split at h <;> cases h <;> cases hs
  · cases h
  · rename_i o ho
    cases h
    cases o with
    | notRunning => exact absurd rfl ho
    | _ => cases hs
  · cases h
  · cases h
    cases hs
  · cases h

theorem unsettled_cleared {locked : Bool} (h : cleared (unsettled locked) = true) :
    locked = true := by
  cases locked
  · cases h
  · rfl

theorem settled_cleared {locked : Bool} {o : Outcome}
    (h : cleared (settled locked f p o).proc.pos = true) : locked = true ∧ o = .notRunning := by
  cases o with
  | notRunning => cases locked <;> first | exact ⟨rfl, rfl⟩ | cases h
  | _ => cases h

theorem move_cleared (h : move reach f i p a = some t) (ht : cleared t.proc.pos = true) :
    cleared p.pos = true ∨ (p.pos ≠ .listen ∧ holdsLaunch p.pos = true ∧
      (f.writer = none ∨ f.lockFile = false)) := by
  unfold move at h
  split at h <;> rename_i hpos
  all_goals try rw [hpos]
  case h_2 locked s =>
    obtain ⟨st, hst, rfl⟩ := Option.map_eq_some_iff.mp h
    have hfree : locked = true ∧ foundFreeAfter st.next = true := by
      unfold Turn.ofSend at ht
      cases hn : st.next with
      | goto s' =>
        rw [hn] at ht
        exact (Bool.and_eq_true _ _).mp ht
      | returns o =>
        rw [hn] at ht
        obtain ⟨hl, rfl⟩ := settled_cleared ht
        exact ⟨hl, rfl⟩
      | fails m =>
        rw [hn] at ht
        cases ht
    rcases sendMove_foundFree hst hfree.2 with hs | hw
    · exact .inl ((Bool.and_eq_true _ _).mpr ⟨hfree.1, hs⟩)
    · exact .inr ⟨nofun, hfree.1, hw⟩
  case h_3 locked =>
    split at h
    · rename_i hfile
      cases h
      exact .inr ⟨nofun, unsettled_cleared ht, .inr (by simpa using hfile)⟩
    · split at h
      · rename_i hw
        cases h
        exact .inr ⟨nofun, ht, .inl hw⟩
      · cases h
        cases ht
  case h_5 locked =>
    cases h
    exact .inl (unsettled_cleared ht)
  case h_1 =>
    obtain ⟨st, -, rfl⟩ := Option.map_eq_some_iff.mp h
    unfold Turn.ofSend at ht
    cases hn : st.next <;> rw [hn] at ht <;> cases ht
  case h_20 =>
    obtain ⟨st, -, rfl⟩ := Option.map_eq_some_iff.mp h
    unfold Turn.ofSend at ht
    cases hn : st.next with
    | returns o =>
      rw [hn] at ht
      cases o <;> cases ht
    | _ =>
      rw [hn] at ht
      cases ht
  case h_9 | h_13 | h_23 =>
    split at h <;> cases h <;> cases ht
  case h_16 again =>
    dsimp only at h
    split at h <;> cases h
    · cases ht
    · cases again <;> cases ht
  case h_17 again _ | h_19 again _ =>
    cases h
    cases again <;> cases ht
  case h_31 => cases h
  all_goals
    cases h
    cases ht

/-- A call waits until it finds a window. -/
theorem move_listen (h : move reach f i p a = some t) (hp : p.pos = .listen) (ha : a ≠ .late) :
    t.proc.pos = .listen ∨ reach ≠ .missing := by
  unfold move at h
  rw [hp] at h
  cases a with
  | ok =>
    dsimp only at h
    split at h
    · cases h
      exact .inl rfl
    · rename_i hreach
      exact .inr hreach
  | failed m =>
    cases h
    exact .inl rfl
  | late => exact absurd rfl ha
  | _ => cases h

/-- A window that has the lock keeps it, unless it gives it up. -/
theorem move_running (h : move reach f i p a = some t) (hp : running p.pos = true)
    (ha : a ≠ .unlock ∧ ∀ again m, p.pos = .opened again → a ≠ .failed m) :
    running t.proc.pos = true := by
  unfold move at h
  split at h <;> rename_i hpos
  all_goals try rw [hpos] at hp
  case h_18 | h_21 | h_22 | h_24 | h_25 | h_26 | h_27 =>
    cases h
    rfl
  case h_23 => split at h <;> cases h <;> rfl
  case h_19 again m => exact absurd rfl (ha.2 again m hpos)
  case h_28 | h_29 => exact absurd rfl ha.1
  case h_31 => cases h
  all_goals cases hp

/-- Only a window that had the lock leaves. -/
theorem move_leaving (h : move reach f i p a = some t) (ht : t.proc.pos = .leaving) :
    running p.pos = true := by
  unfold move at h
  split at h <;> rename_i hpos
  all_goals try rw [hpos]
  case h_1 =>
    obtain ⟨st, -, rfl⟩ := Option.map_eq_some_iff.mp h
    unfold Turn.ofSend at ht
    cases hn : st.next <;> rw [hn] at ht <;> cases ht
  case h_2 locked _ =>
    obtain ⟨st, -, rfl⟩ := Option.map_eq_some_iff.mp h
    unfold Turn.ofSend at ht
    cases hn : st.next with
    | returns o =>
      rw [hn] at ht
      cases o <;> cases locked <;> cases ht
    | _ =>
      rw [hn] at ht
      cases ht
  case h_20 =>
    obtain ⟨st, -, rfl⟩ := Option.map_eq_some_iff.mp h
    unfold Turn.ofSend at ht
    cases hn : st.next with
    | returns o =>
      rw [hn] at ht
      cases o <;> cases ht
    | _ =>
      rw [hn] at ht
      cases ht
  case h_3 locked =>
    split at h
    · cases h
      cases locked <;> cases ht
    · split at h <;> cases h <;> cases ht
  case h_5 locked =>
    cases h
    cases locked <;> cases ht
  case h_9 | h_13 | h_23 => split at h <;> cases h <;> first | rfl | cases ht
  case h_16 again =>
    dsimp only at h
    split at h <;> cases h
    · cases ht
    · cases again <;> cases ht
  case h_17 again _ =>
    cases h
    cases again <;> cases ht
  case h_31 => cases h
  all_goals
    cases h
    first | rfl | cases ht

/-! ## What becomes of the token -/

/-- Where the token of a call goes in one step: it stays, it is put into a frame or lost in making
one, or it is passed to `launch`. -/
inductive Uses (p : Proc) (t : Turn) : Prop
  | none (hf : t.framed = none) (hl : t.launched = none) (ht : t.proc.token = p.token)
  | frame (m : Message) (hf : t.framed = some m) (hl : t.launched = none)
      (ht : t.proc.token = none) (hm : m.activationToken = none ∨ p.token.isSome = true)
  | lost (hf : t.framed = none) (hl : t.launched = none) (ht : t.proc.token = none)
  | launch (j : Option Nat) (hf : t.framed = none) (hl : t.launched = some (p.token, j))
      (ht : t.proc.token = none) (hp : p.pos = .launch)

theorem fit_token {m m' : Message} (h : fit m = .ok m') :
    m'.activationToken = none ∨ m'.activationToken = m.activationToken := by
  unfold fit at h
  cases hb : m.encode with
  | error e =>
    rw [hb] at h
    cases h
  | ok bytes =>
    rw [hb] at h
    simp only [bind, Except.bind] at h
    split at h
    · cases h
      exact .inr rfl
    · split at h
      · cases h
      · split at h
        · cases h
        · split at h
          · cases h
            exact .inl rfl
          · cases h

theorem sendMove_uses {s : SendAt} {st : SendTurn} (h : sendMove reach f i p s a = some st) :
    (st.framed = none ∧ (st.token = p.token ∨ st.token = none)) ∨
      ∃ m, st.framed = some m ∧ st.token = none ∧
        (m.activationToken = none ∨ p.token.isSome = true) := by
  unfold sendMove at h
  split at h
  case h_8 =>
    split at h
    · cases h
      exact .inl ⟨rfl, .inr rfl⟩
    · rename_i m hm
      cases h
      refine .inr ⟨m, rfl, rfl, ?_⟩
      rcases fit_token hm with hnone | heq
      · exact .inl hnone
      · cases htoken : p.token with
        | none =>
          refine .inl (heq.trans ?_)
          simp [message, htoken]
        | some token => exact .inr rfl
  case h_1 => split at h <;> cases h <;> exact .inl ⟨rfl, .inl rfl⟩
  case h_2 =>
    split at h
    · cases h
      exact .inl ⟨rfl, .inl rfl⟩
    · split at h
      · cases h
        exact .inl ⟨rfl, .inl rfl⟩
      · split at h <;> cases h <;> exact .inl ⟨rfl, .inl rfl⟩
  all_goals
    cases h
    try exact .inl ⟨rfl, .inl rfl⟩

/-- A turn that leaves the token where it is. -/
def KeepsToken (p : Proc) (t : Turn) : Prop :=
  t.framed = none ∧ t.launched = none ∧ t.proc.token = p.token

theorem ofSend_uses {s : SendAt} {st : SendTurn} {here : SendAt → At}
    {returns : Files → Proc → Outcome → Turn} {fails : Files → Proc → String → Turn}
    (hst : sendMove reach f i p s a = some st)
    (hreturns : ∀ p o, KeepsToken p (returns st.files p o))
    (hfails : ∀ p m, KeepsToken p (fails st.files p m)) :
    Uses p (.ofSend p st here returns fails) := by
  have hturn : (Turn.ofSend p st here returns fails).framed = st.framed ∧
      (Turn.ofSend p st here returns fails).launched = none ∧
      (Turn.ofSend p st here returns fails).proc.token = st.token := by
    unfold Turn.ofSend
    cases st.next with
    | goto s => exact ⟨rfl, rfl, rfl⟩
    | returns o => exact ⟨rfl, (hreturns _ o).2.1, (hreturns _ o).2.2⟩
    | fails m => exact ⟨rfl, (hfails _ m).2.1, (hfails _ m).2.2⟩
  obtain ⟨hframed, hlaunched, htoken⟩ := hturn
  rcases sendMove_uses hst with ⟨hf, ht | ht⟩ | ⟨m, hf, ht, hm⟩
  · exact .none (hframed.trans hf) hlaunched (htoken.trans ht)
  · exact .lost (hframed.trans hf) hlaunched (htoken.trans ht)
  · exact .frame m (hframed.trans hf) hlaunched (htoken.trans ht) hm

theorem keepsToken_settled (locked : Bool) (o : Outcome) :
    KeepsToken p (settled locked f p o) := by
  cases o <;> exact ⟨rfl, rfl, rfl⟩

theorem keepsToken_handedOff (error : String) (o : Outcome) :
    KeepsToken p (handedOff error f p o) := by
  cases o <;> exact ⟨rfl, rfl, rfl⟩

theorem move_uses (h : move reach f i p a = some t) : Uses p t := by
  unfold move at h
  split at h <;> rename_i hpos
  case h_1 =>
    obtain ⟨st, hst, rfl⟩ := Option.map_eq_some_iff.mp h
    exact ofSend_uses hst (fun _ _ => ⟨rfl, rfl, rfl⟩) (fun _ _ => ⟨rfl, rfl, rfl⟩)
  case h_2 =>
    obtain ⟨st, hst, rfl⟩ := Option.map_eq_some_iff.mp h
    exact ofSend_uses hst (fun _ => keepsToken_settled _) (fun _ _ => ⟨rfl, rfl, rfl⟩)
  case h_20 =>
    obtain ⟨st, hst, rfl⟩ := Option.map_eq_some_iff.mp h
    exact ofSend_uses hst (fun _ => keepsToken_handedOff _) (fun _ _ => ⟨rfl, rfl, rfl⟩)
  case h_11 | h_12 =>
    cases h
    exact .launch _ rfl rfl rfl hpos
  case h_3 =>
    split at h
    · cases h
      exact .none rfl rfl rfl
    · split at h <;> cases h <;> exact .none rfl rfl rfl
  case h_16 =>
    dsimp only at h
    split at h <;> cases h <;> exact .none rfl rfl rfl
  case h_9 | h_13 | h_23 => split at h <;> cases h <;> exact .none rfl rfl rfl
  case h_31 => cases h
  all_goals
    cases h
    exact .none rfl rfl rfl

theorem move_launched (h : move reach f i p a = some t) (ht : t.launched ≠ none) :
    p.pos = .launch ∧ ∀ j, a = .launched j → t.proc.pos = .listen := by
  cases move_uses h with
  | launch j _ _ _ hp =>
    refine ⟨hp, ?_⟩
    rintro j rfl
    unfold move at h
    rw [hp] at h
    cases h
    rfl
  | none _ hl _ => exact absurd hl ht
  | frame _ _ hl _ _ => exact absurd hl ht
  | lost _ hl _ => exact absurd hl ht

/-! ## One launch -/

/-- A launch leaves a call that waits for its window, or a window that has the lock. -/
structure LaunchInv (w : Handoff.World) : Prop where
  locks : Locks w
  noLeaving : ∀ j, w.pos j ≠ .leaving
  cleared : ∀ j, cleared (w.pos j) = true → w.launches = []
  launched : w.launches ≠ [] →
    (∃ j, w.pos j = .listen) ∨ ∃ j, running (w.pos j) = true
  once : w.launches.length ≤ 1

theorem launchInv_initial (h : Handoff.World.Initial w) : LaunchInv w := by
  refine ⟨locks_initial h, ?_, fun _ _ => h.launches, ?_, ?_⟩
  · intro j hj
    obtain ⟨r, hr⟩ := pos_initial h j
    rw [hr] at hj
    cases hj
  · intro hne
    exact absurd h.launches hne
  · rw [h.launches]
    exact Nat.zero_le 1

/-- A process that waits or has the lock is not a new one. -/
theorem pos_kept (hperf : Performed w i t w') {j : Nat} (hj : j ≠ i)
    (hpos : w.pos j ≠ .done .closed) : w'.pos j = w.pos j := by
  rcases hperf.pos_others hj with heq | ⟨hnone, -⟩
  · exact heq
  · exact absurd (pos_of_none hnone) hpos

/-- What a call that waits for its window connects to is a window that has the lock. -/
theorem running_of_reach (hw : LaunchInv w) (h : w.reach true ≠ .missing) :
    ∃ k, running (w.pos k) = true := by
  unfold Handoff.World.reach at h
  split at h
  · rename_i htrue
    exact absurd rfl htrue
  · split at h
    · exact absurd rfl h
    · rename_i k hk
      split at h
      · rename_i hlistens
        exact ⟨k, running_of_listens hlistens (hw.noLeaving k)⟩
      · exact absurd rfl h

/-- With the launch lock and the writer lock free, there was no launch yet. -/
theorem no_launch_before (hw : LaunchInv w) (hl : holdsLaunch (w.pos i) = true)
    (hne : w.pos i ≠ .listen) (hfree : w.files.writer = none ∨ w.files.lockFile = false) :
    w.launches = [] := by
  by_contra hlaunches
  rcases hw.launched hlaunches with ⟨j, hj⟩ | ⟨j, hj⟩
  · have hlock := hw.locks.launch j (by rw [hj]; rfl)
    rw [hw.locks.launch i hl] at hlock
    cases hlock
    exact hne hj
  · have hlock := hw.locks.writer j (holdsWriter_of_running hj)
    rcases hfree with hnone | hfile
    · rw [hnone] at hlock
      cases hlock
    · have hlocked := hw.locks.lockFile (by rw [hlock]; simp)
      rw [hfile] at hlocked
      cases hlocked

theorem launchInv_start {role : Role} {request : Option OpenRequest} {writes : Writes}
    {token : Option String} (hw : LaunchInv w) (hlocks : Locks (w.spawn i
      ⟨request, writes, token, role.start⟩)) (hnone : w.procs i = none) (hrole : role = .deliver) :
    LaunchInv (w.spawn i ⟨request, writes, token, role.start⟩) := by
  subst hrole
  have hpos : ∀ j, j ≠ i → (w.spawn i ⟨request, writes, token, Role.deliver.start⟩).pos j =
      w.pos j := by
    intro j hj
    rw [pos_spawn, if_neg hj]
  have hself : (w.spawn i ⟨request, writes, token, Role.deliver.start⟩).pos i =
      .sending false .connect := by
    rw [pos_spawn, if_pos rfl]
    rfl
  have hdone := pos_of_none hnone
  refine ⟨hlocks, ?_, ?_, ?_, hw.once⟩
  · intro j hj
    by_cases hji : j = i
    · rw [hji, hself] at hj
      cases hj
    · exact hw.noLeaving j (hpos j hji ▸ hj)
  · intro j hj
    by_cases hji : j = i
    · rw [hji, hself] at hj
      cases hj
    · exact hw.cleared j (hpos j hji ▸ hj)
  · intro hne
    refine (hw.launched hne).imp ?_ ?_
    · rintro ⟨j, hj⟩
      have hji : j ≠ i := by
        rintro rfl
        rw [hdone] at hj
        cases hj
      exact ⟨j, (hpos j hji).trans hj⟩
    · rintro ⟨j, hj⟩
      have hji : j ≠ i := by
        rintro rfl
        rw [hdone] at hj
        cases hj
      exact ⟨j, hpos j hji ▸ hj⟩

/-- A window that has the lock is still there after a step. -/
theorem running_kept (hok : Calm w (.step i a)) (hp : w.procs i = some p)
    (hmove : move (w.reach usable) w.files i p a = some t) (hperf : Performed w i t w') {j : Nat}
    (hj : running (w.pos j) = true) : running (w'.pos j) = true := by
  by_cases hji : j = i
  · subst hji
    rw [pos_of_some hp] at hj
    have hgive := hok.2.2
    rw [pos_of_some hp] at hgive
    rw [pos_of_some hperf.self]
    exact move_running hmove hj (hgive hj)
  · rw [pos_kept hperf hji]
    · exact hj
    · intro hdone
      rw [hdone] at hj
      cases hj

theorem launchInv_step (hok : Calm w e) (h : (Handoff.World.system true).step w e = some w')
    (hw : LaunchInv w) : LaunchInv w' := by
  have hlocks := locks_step h hw.locks
  cases step_cases h with
  | start hnone heq =>
    subst heq
    exact launchInv_start hw hlocks hnone hok
  | exit => exact hok.elim
  | @step i a p t hp hmove hperform =>
    have hperf := perform_cases hperform
    have hi := pos_of_some hp
    have hi' := pos_of_some hperf.self
    have hothers : ∀ j, j ≠ i → w'.pos j = w.pos j ∨ w'.pos j = .opening false := by
      intro j hj
      exact (hperf.pos_others hj).imp id And.right
    have hleaving : ∀ j, w'.pos j ≠ .leaving := by
      intro j hj
      by_cases hji : j = i
      · subst hji
        have hrun := move_leaving hmove (hi'.symm.trans hj)
        rw [← hi] at hrun
        have hrun' := running_kept hok hp hmove hperf hrun
        rw [hj] at hrun'
        cases hrun'
      · rcases hothers j hji with heq | heq
        · exact hw.noLeaving j (heq ▸ hj)
        · rw [heq] at hj
          cases hj
    by_cases hlaunch : t.launched = none
    · have hsame : w'.launches = w.launches := by
        rw [hperf.launches, hlaunch]
        rfl
      refine ⟨hlocks, hleaving, ?_, ?_, hsame ▸ hw.once⟩
      · intro j hj
        rw [hsame]
        by_cases hji : j = i
        · subst hji
          rw [hi'] at hj
          rcases move_cleared hmove hj with hc | ⟨hne, hl, hfree⟩
          · exact hw.cleared j (hi ▸ hc)
          · exact no_launch_before hw (hi ▸ hl) (hi ▸ hne) hfree
        · rcases hothers j hji with heq | heq
          · exact hw.cleared j (heq ▸ hj)
          · rw [heq] at hj
            cases hj
      · intro hne
        rw [hsame] at hne
        rcases hw.launched hne with ⟨j, hj⟩ | ⟨j, hj⟩
        · by_cases hji : j = i
          · subst hji
            rcases move_listen hmove (hi.symm.trans hj) hok.1 with hstay | hreach
            · exact .inl ⟨j, hi'.trans hstay⟩
            · obtain ⟨k, hk⟩ := running_of_reach hw hreach
              exact .inr ⟨k, running_kept hok hp hmove hperf hk⟩
          · refine .inl ⟨j, (pos_kept hperf hji ?_).trans hj⟩
            rw [hj]
            nofun
        · exact .inr ⟨j, running_kept hok hp hmove hperf hj⟩
    · obtain ⟨hplaunch, hlisten⟩ := move_launched hmove hlaunch
      obtain ⟨n, rfl⟩ := hok.2.1 (hi.trans hplaunch)
      have hlisten := hlisten n rfl
      have hempty : w.launches = [] := hw.cleared i (by rw [hi, hplaunch]; rfl)
      refine ⟨hlocks, hleaving, ?_, ?_, ?_⟩
      · intro j hj
        exfalso
        by_cases hji : j = i
        · subst hji
          rw [hi', hlisten] at hj
          cases hj
        · -- Two calls would have the launch lock.
          rcases hothers j hji with heq | heq
          · have hlock := hw.locks.launch j (holdsLaunch_of_cleared (heq ▸ hj))
            rw [hw.locks.launch i (by rw [hi, hplaunch]; rfl)] at hlock
            exact hji (Option.some.inj hlock).symm
          · rw [heq] at hj
            cases hj
      · intro _
        exact .inl ⟨i, hi'.trans hlisten⟩
      · rw [hperf.launches, hempty]
        cases t.launched <;> simp

/-! ## One use of a token -/

/-- The tokens a call has put into frames or passed to `launch`. -/
def tokenUses (w : Handoff.World) (i : Nat) : List String :=
  (w.frames.filterMap fun x => if x.1 = i then x.2.activationToken else none) ++
    w.launches.filterMap fun x => if x.1 = i then x.2 else none

/-- How many tokens a call may still use; one that has not started may be given one. -/
def tokenLeft (w : Handoff.World) (i : Nat) : Nat :=
  match w.procs i with
  | some p => p.token.toList.length
  | none => 1

def TokenInv (w : Handoff.World) : Prop := ∀ i, (tokenUses w i).length + tokenLeft w i ≤ 1

theorem token_length_le (o : Option String) : o.toList.length ≤ 1 := by
  cases o <;> simp

theorem tokenInv_initial (h : Handoff.World.Initial w) : TokenInv w := by
  intro i
  have hleft : tokenLeft w i ≤ 1 := by
    unfold tokenLeft
    split
    · exact token_length_le _
    · exact Nat.le_refl 1
  simpa [tokenUses, h.frames, h.launches] using hleft

theorem tokenUses_perform_other (hperf : Performed w i t w') {j : Nat} (hj : j ≠ i) :
    tokenUses w' j = tokenUses w j := by
  unfold tokenUses
  rw [hperf.frames, hperf.launches]
  cases t.framed <;> cases t.launched <;> simp [hj.symm]

theorem tokenUses_perform_self (hperf : Performed w i t w') :
    (tokenUses w' i).length = (t.framed.bind Message.activationToken).toList.length +
      (t.launched.bind Prod.fst).toList.length + (tokenUses w i).length := by
  have hcons : ∀ {α : Type} (g : α → Option String) (o : Option α) (l : List α),
      ((o.toList ++ l).filterMap g).length = (o.bind g).toList.length + (l.filterMap g).length := by
    intro α g o l
    rw [List.filterMap_append, List.length_append]
    cases o with
    | none => simp
    | some x => cases hg : g x <;> simp [hg]
  unfold tokenUses
  rw [hperf.frames, hperf.launches, List.length_append, List.length_append, hcons, hcons,
    Option.bind_map, Option.bind_map]
  simp only [Function.comp_def, if_true]
  exact Nat.add_add_add_comm _ _ _ _

theorem tokenInv_spawn (hw : TokenInv w) (hleft : p.token.toList.length ≤ tokenLeft w i) :
    TokenInv (w.spawn i p) := by
  intro j
  refine Nat.le_trans (Nat.add_le_add_left ?_ _) (hw j)
  by_cases hji : j = i
  · subst hji
    simpa [tokenLeft, Handoff.World.spawn] using hleft
  · simp [tokenLeft, Handoff.World.spawn, hji]

theorem tokenInv_step (h : (Handoff.World.system usable).step w e = some w') (hw : TokenInv w) :
    TokenInv w' := by
  cases step_cases h with
  | start hnone heq =>
    subst heq
    refine tokenInv_spawn hw ?_
    rw [tokenLeft, hnone]
    exact token_length_le _
  | exit hp heq =>
    subst heq
    refine tokenInv_spawn hw ?_
    rw [tokenLeft, hp]
  | @step i a p t hp hmove hperform =>
    have hperf := perform_cases hperform
    intro j
    by_cases hji : j = i
    · subst hji
      have hold := hw j
      have hleft : tokenLeft w j = p.token.toList.length := by rw [tokenLeft, hp]
      have hleft' : tokenLeft w' j = t.proc.token.toList.length := by rw [tokenLeft, hperf.self]
      rw [tokenUses_perform_self hperf, hleft']
      rw [hleft] at hold
      cases move_uses hmove with
      | none hf hl ht =>
        rw [hf, hl, ht]
        simpa using hold
      | lost hf hl ht =>
        rw [hf, hl, ht]
        simpa using Nat.le_trans (Nat.le_add_right _ _) hold
      | frame m hf hl ht hm =>
        rw [hf, hl, ht]
        rcases hm with hnone | hsome
        · simpa [hnone] using Nat.le_trans (Nat.le_add_right _ _) hold
        · -- The token was there, so there was no use before.
          obtain ⟨token, htoken⟩ := Option.isSome_iff_exists.mp hsome
          rw [htoken] at hold
          have hle := token_length_le m.activationToken
          simp only [Option.toList_some, List.length_singleton, Option.bind_some, Option.bind_none,
            Option.toList_none, List.length_nil] at hold ⊢
          omega
      | launch n hf hl ht _ =>
        rw [hf, hl, ht]
        simp only [Option.bind_none, Option.toList_none, List.length_nil, Option.bind_some] at hold ⊢
        omega
    · rw [tokenUses_perform_other hperf hji]
      refine Nat.le_trans (Nat.add_le_add_left ?_ _) (hw j)
      rcases hperf.others j hji with heq | ⟨hnone, q, hq, -⟩
      · rw [tokenLeft, tokenLeft, heq]
      · rw [tokenLeft, tokenLeft, hq, hnone]
        exact token_length_le _

/-- **One launch, and one use of each token.** In every run the token of each call is in at most one
frame or one call of `launch`, not in both. In every run of `deliver` calls on a directory without a
window, as long as launches succeed, waits do not come to their deadlines and a window keeps its
lock, `launch` is called at most once over all calls. -/
theorem run_launches_once {w₀ : Handoff.World} {es : List Handoff.Event}
    (hinit : Handoff.World.Initial w₀)
    (hrun : (Handoff.World.system true).run w₀ es = some w) :
    (∀ i, (tokenUses w i).length ≤ 1) ∧
      ((Handoff.World.system true).Steps Calm w₀ es w → w.launches.length ≤ 1) := by
  constructor
  · have htoken : TokenInv w := (Lts.steps_of_run hrun).invariant
      (fun _ _ _ _ h hw => tokenInv_step h hw) (tokenInv_initial hinit)
    intro i
    exact Nat.le_trans (Nat.le_add_right _ _) (htoken i)
  · intro hcalm
    have hlaunch : LaunchInv w := hcalm.invariant
      (fun _ _ _ hok h hw => launchInv_step hok h hw) (launchInv_initial hinit)
    exact hlaunch.once

/-! ### Two calls at once -/

/-- `Calm`, where no step of a window or a client fails. -/
def calm (w : Handoff.World) : Handoff.Event → Bool
  | .start _ role _ _ _ => role = .deliver
  | .exit _ => false
  | .step i a => match a with
    | .late | .unlock | .failed _ => false
    | .launched _ => true
    | _ => w.pos i ≠ .launch

theorem calm_sound (w : Handoff.World) (e : Handoff.Event) (h : calm w e) : Calm w e := by
  cases e with
  | start i role request writes token =>
    show role = .deliver
    exact of_decide_eq_true h
  | exit i => cases h
  | step i a =>
    cases a with
    | launched j => exact ⟨nofun, fun _ => ⟨j, rfl⟩, fun _ => ⟨nofun, nofun⟩⟩
    | late => cases h
    | unlock => cases h
    | failed m => cases h
    | _ =>
      have hne : w.pos i ≠ .launch := of_decide_eq_true h
      exact ⟨nofun, fun hl => absurd hl hne, fun _ => ⟨nofun, nofun⟩⟩

/-- Calls 0 and 1 find no window; call 0 gets the launch lock first and launches window 2, and call 1
hands its request over. -/
def coldStart : List Handoff.Event :=
  let ok (i : Nat) := Handoff.Event.step i .ok
  [.start 0 .deliver none ⟨false, false⟩ (some "first"),
    .start 1 .deliver none ⟨false, false⟩ (some "second"),
    ok 0, ok 0, ok 0, ok 0, ok 1, ok 1, ok 1, ok 1, ok 0, ok 0, ok 0, ok 0, ok 0,
    .step 0 (.launched 2), ok 2, ok 2, ok 2, ok 2, ok 0, ok 1, ok 1, ok 1,
    .step 1 (.outcome .accepted)]

theorem coldStart_launches_once :
    ∃ w, (Handoff.World.system true).run coldDirectory coldStart = some w ∧
      w.launches = [(0, some "first")] ∧ tokenUses w 1 = ["second"] ∧
      (∀ i, (tokenUses w i).length ≤ 1) ∧ w.launches.length ≤ 1 := by
  have hseen : ((Handoff.World.system true).checkedRun calm coldDirectory coldStart).map
        (fun w => (w.launches, tokenUses w 1)) = some ([(0, some "first")], ["second"]) := by
    decide +kernel
  obtain ⟨w, hw, hseen⟩ := Option.map_eq_some_iff.mp hseen
  obtain ⟨hlaunches, huses⟩ := Prod.mk.injEq .. ▸ hseen
  have hcalm := Lts.steps_of_checkedRun (fun s e _ => calm_sound s e) hw
  obtain ⟨htokens, honce⟩ := run_launches_once coldDirectory_initial hcalm.run
  exact ⟨w, hcalm.run, hlaunches, huses, htokens, honce hcalm⟩

end Handoff
end Proof
end Diffz
