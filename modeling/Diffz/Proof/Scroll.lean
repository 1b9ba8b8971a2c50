import Diffz.Core.Scroll

/-!
# A turn is pulled for

What a gate counts while it is pulling is one gesture: it began at the armed edge, and everything
since went on in its direction. This holds as long as no update of the gesture finds the view at
the other edge. Where the content is shorter than the view, both edges are reached without
scrolling, and a gesture that turns round keeps what it pulled the other way.
-/

set_option autoImplicit false

namespace Diffz
namespace Proof
namespace Scroll

open Diffz.BoundaryScroll

variable {b b' : BoundaryScroll} {c : Call} {history : List Call} {d : Int} {p : ℚ}

/-! ## One update -/

/-- **What an update does.** It ends any pull, or it goes on with one. -/
theorem update_cases (b : BoundaryScroll) (edge : Int) (delta : ℚ) (fresh : Bool) :
    ((b.update edge delta fresh).1.pulling = false ∧ (b.update edge delta fresh).2 = none) ∨
      ∃ p, edge ≠ 0 ∧ edge = direction delta ∧
        (fresh = true ∧ b.armed = edge ∧ p = |delta| ∨
          fresh = false ∧ b.pulling = true ∧ p = b.progress + |delta|) ∧
        (pullThreshold ≤ p ∧ b.update edge delta fresh = (new, some edge) ∨
          p < pullThreshold ∧ b.update edge delta fresh = (⟨b.armed, true, p⟩, none)) := by
  unfold update
  split
  · exact .inl ⟨rfl, rfl⟩
  rename_i hne
  split
  · exact .inl ⟨rfl, rfl⟩
  rename_i hdir
  have hdir : edge = direction delta := not_not.mp hdir
  split
  · rename_i hpull
    refine .inr ⟨(b.started edge fresh).progress + |delta|, hne, hdir, ?_, ?_⟩
    · cases fresh with
      | true => exact .inl ⟨rfl, by simpa [started] using hpull, by simp [started]⟩
      | false => exact .inr ⟨rfl, hpull, rfl⟩
    · split
      · exact .inl ⟨‹_›, rfl⟩
      · refine .inr ⟨not_le.mp ‹_›, ?_⟩
        cases fresh with
        | true => simp [started] at hpull ⊢; exact hpull
        | false => simp [started] at hpull ⊢; exact hpull
  · rename_i hpull
    exact .inl ⟨by simpa using hpull, rfl⟩

/-! ## Pulls -/

/-- How far a call pulls. -/
def length : Call → ℚ
  | .update _ delta _ => |delta|
  | .arm _ => 0
  | .release => 0

/-- The calls end in one gesture: it began where the gate was armed at `d`, it went in the direction
`d` at the edge `d` all the time, and it came as far as `p`. -/
def Pull (history : List Call) (d : Int) (p : ℚ) : Prop :=
  ∃ earlier first rest before, history = earlier ++ .update d first true :: rest ∧
    system.run new earlier = some before ∧ before.armed = d ∧ direction first = d ∧
    (∀ c ∈ rest, ∃ delta, c = .update d delta false ∧ direction delta = d) ∧
    p = |first| + (rest.map length).sum

theorem Pull.more (h : Pull history d p) {delta : ℚ} (hdir : direction delta = d) :
    Pull (history ++ [.update d delta false]) d (p + |delta|) := by
  obtain ⟨earlier, first, rest, before, rfl, hrun, harmed, hfirst, hrest, rfl⟩ := h
  refine ⟨earlier, first, rest ++ [.update d delta false], before, by simp, hrun, harmed, hfirst,
    ?_, by simp [length, add_assoc]⟩
  intro c hc
  rcases List.mem_append.mp hc with hc | hc
  · exact hrest c hc
  · exact ⟨delta, List.mem_singleton.mp hc, hdir⟩

theorem Pull.begun (hrun : system.run new history = some b) {delta : ℚ}
    (hdir : direction delta = b.armed) :
    Pull (history ++ [.update b.armed delta true]) b.armed |delta| :=
  ⟨history, delta, [], b, by simp, hrun, rfl, hdir, by simp, by simp⟩

/-! ## Runs -/

/-- A pull that goes on is not found at the other edge. -/
def Keeps (b : BoundaryScroll) : Call → Prop
  | .update edge delta fresh => b.pulling = true → fresh = false → edge ≠ 0 →
      edge = direction delta → edge = b.armed
  | .arm _ => True
  | .release => True

/-- A gate that is pulling counts one gesture. -/
def Counts (history : List Call) (b : BoundaryScroll) : Prop :=
  system.run new history = some b ∧ (b.pulling = true → Pull history b.armed b.progress)

/-- An update begins a pull, or goes on with one. -/
theorem pull_updated (hb : Counts history b) {edge : Int} {delta : ℚ} {fresh : Bool}
    (hkeep : Keeps b (.update edge delta fresh)) (hne : edge ≠ 0) (hdir : edge = direction delta)
    (h : fresh = true ∧ b.armed = edge ∧ p = |delta| ∨
      fresh = false ∧ b.pulling = true ∧ p = b.progress + |delta|) :
    b.armed = edge ∧ Pull (history ++ [.update edge delta fresh]) edge p := by
  rcases h with ⟨rfl, rfl, rfl⟩ | ⟨rfl, hpull, rfl⟩
  · exact ⟨rfl, .begun hb.1 hdir.symm⟩
  · obtain rfl := hkeep hpull rfl hne hdir
    exact ⟨rfl, (hb.2 hpull).more hdir.symm⟩

theorem run_snoc (hrun : system.run new history = some b) (c : Call) :
    system.run new (history ++ [c]) = some (b.called c).1 := by
  have hsteps := (Lts.steps_of_run hrun).append
    (Lts.steps_of_run (show system.run b [c] = some (b.called c).1 from rfl))
  exact hsteps.run

theorem counts_called (hb : Counts history b) (hkeep : Keeps b c) :
    Counts (history ++ [c]) (b.called c).1 := by
  refine ⟨run_snoc hb.1 c, fun hpull => ?_⟩
  cases c with
  | arm edge => cases hpull
  | release => cases hpull
  | update edge delta fresh =>
    rcases update_cases b edge delta fresh with
      ⟨hstop, -⟩ | ⟨p, hne, hdir, hp, ⟨-, hturn⟩ | ⟨-, hgo⟩⟩
    · exact absurd (hpull.symm.trans hstop) (by decide)
    · have hnew : (b.called (.update edge delta fresh)).1 = new := congrArg Prod.fst hturn
      rw [hnew] at hpull
      cases hpull
    · have hgo : (b.called (.update edge delta fresh)).1 = ⟨b.armed, true, p⟩ :=
        congrArg Prod.fst hgo
      obtain ⟨harmed, hpulled⟩ := pull_updated hb hkeep hne hdir hp
      rw [hgo]
      rw [← harmed] at hpulled ⊢
      exact hpulled

theorem counts_run {calls : List Call} (h : system.Steps Keeps b calls b')
    (hb : Counts history b) : Counts (history ++ calls) b' := by
  induction h generalizing history with
  | nil => simpa using hb
  | cons hkeep hs _ ih =>
    cases hs
    simpa using ih (counts_called hb hkeep)

/-- **A turn is pulled for.** In a run where no pull goes on at the other edge, what turns the view
is one gesture, which began at the armed edge and has come far enough. -/
theorem run_turns_on_pull {calls : List Call} (h : system.Steps Keeps new calls b)
    {edge : Int} {delta : ℚ} {fresh : Bool} (hkeep : Keeps b (.update edge delta fresh))
    (hturn : (b.update edge delta fresh).2 = some d) :
    ∃ p, pullThreshold ≤ p ∧ Pull (calls ++ [.update edge delta fresh]) d p := by
  have hb : Counts ([] ++ calls) b := counts_run h ⟨rfl, fun hpull => by cases hpull⟩
  rcases update_cases b edge delta fresh with
    ⟨-, hnone⟩ | ⟨p, hne, hdir, hp, ⟨hfar, hgo⟩ | ⟨-, hgo⟩⟩
  · rw [hnone] at hturn
    cases hturn
  · rw [hgo] at hturn
    cases hturn
    exact ⟨p, hfar, (pull_updated hb hkeep hne hdir hp).2⟩
  · rw [hgo] at hturn
    cases hturn

theorem second_gesture_turns : ∃ p, pullThreshold ≤ p ∧
    Pull [.update 1 30 false, .update 1 120 true] 1 p := by
  have hrun : system.Steps Keeps new [.update 1 30 false] ⟨1, false, 0⟩ := by
    refine .cons ?_ (by decide +kernel) .nil
    intro hpull
    cases hpull
  refine run_turns_on_pull hrun ?_ (by decide +kernel)
  intro hpull
  cases hpull

/-- The view is at no edge, or at the edge in the direction of the movement. -/
def atEdge : Call → Bool
  | .update edge delta _ => edge = 0 || edge = direction delta
  | .arm _ => true
  | .release => true

/-- A gesture at the lower edge of a short file that turns round. -/
def turnedRound : List Call := [.update 1 30 false, .update 1 50 true, .update (-1) (-80) false]

/-- The gate counts what was pulled down for the turn up. -/
theorem turnedRound_turns : turnedRound.all atEdge = true ∧
    (system.run new turnedRound.dropLast).map (fun b => (b.update (-1) (-80) false).2) =
      some (some (-1)) ∧ ∀ p, ¬ Pull turnedRound (-1) p := by
  refine ⟨by decide +kernel, by decide +kernel, ?_⟩
  rintro p ⟨earlier, first, rest, before, hcalls, -⟩
  have hmem : Call.update (-1) first true ∈ turnedRound := by
    rw [hcalls]
    simp
  simp [turnedRound] at hmem

end Scroll
end Proof
end Diffz
