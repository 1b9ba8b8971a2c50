import Diffz.Proof.Fingerprint
import Diffz.Proof.Viewport.Context

/-!
# The reader over whole runs

Requests, answers and switches of the display, in any order. The headers stay where `hunk_rows` has
them and no plan underflows whatever happens; the numbers increase as long as the lines that arrive
fit what is shown when they do (`Timely`). Two runs at the end show what happens otherwise: a switch
that drops lines while more are under way, and a request that goes back to a hunk of added lines.
-/

set_option autoImplicit false

namespace Diffz
namespace Proof
namespace Viewport

open Diffz.Viewport
open Diffz.Proof.Patch (HunksInv)

variable {src : Sources} {f : FileChange} {r r' : Reader}

/-! ## One step -/

/-- What a step does to the viewport and to the read that is under way. -/
inductive Moved (src : Sources) (r r' : Reader) : ReaderEvent → Prop
  | keep {e : ReaderEvent} (hv : r'.viewport = r.viewport) (ht : ∀ t ∈ r'.task, t ∈ r.task) :
      Moved src r r' e
  | request {row : Nat} {request : ContextRequest} {plan : ContextPlan}
      (hplan : r.viewport.planForRow row request = .ok (some plan))
      (hv : r'.viewport = r.viewport) (ht : r'.task = some (request, plan)) :
      Moved src r r' (.expandContext row request)
  | insert {request : ContextRequest} {plan : ContextPlan} {lines : List String}
      (htask : r.task = some (request, plan)) (hread : src.read plan = .ok lines)
      (hv : r'.viewport = r.viewport.insertContext plan.hunk request.isAbove plan.old plan.new lines)
      (ht : r'.task = none) : Moved src r r' .readDone
  | switch {split : Bool} (hne : split ≠ r.viewport.split)
      (hv : r'.viewport = r.viewport.configure split) (ht : r'.task = r.task) :
      Moved src r r' (.configure split)

theorem step_moved {e : ReaderEvent} (h : (Reader.system src).step r e = some r') :
    Moved src r r' e := by
  cases e with
  | expandContext row request =>
    have hstep : (r.expandContext row request).toOption = some r' := h
    unfold Reader.expandContext at hstep
    split at hstep
    · cases hstep
      exact .keep rfl fun _ ht => ht
    · obtain ⟨plan, hplan, -⟩ := planForRow_ok r.viewport row request
      rw [hplan] at hstep
      cases plan with
      | none =>
        cases hstep
        exact .keep rfl fun _ ht => ht
      | some plan =>
        simp only [bind, Except.bind] at hstep
        split at hstep
        · cases hstep
          exact .keep rfl fun _ ht => ht
        split at hstep
        · cases hstep
          exact .keep rfl fun _ ht => ht
        · cases hstep
          exact .request hplan rfl rfl
  | readDone =>
    obtain ⟨⟨request, plan⟩, htask, heq⟩ := Option.map_eq_some_iff.mp h
    cases hread : src.read plan with
    | ok lines =>
      simp only [hread] at heq
      cases heq
      exact .insert htask hread rfl rfl
    | error e =>
      simp only [hread] at heq
      cases heq
      exact .keep rfl nofun
  | readFailed message =>
    obtain ⟨t, -, rfl⟩ := Option.map_eq_some_iff.mp h
    exact .keep rfl nofun
  | configure split =>
    cases h
    by_cases hsame : split = r.viewport.split
    · refine .keep ?_ fun _ ht => ht
      rw [Viewport.configure, if_pos hsame]
    · exact .switch hsame rfl rfl

/-! ## Headers and plans -/

theorem laid_insertContext {v : Diffz.Viewport} {segs : List Segment} (h : Laid v f segs) (k : Nat)
    (above : Bool) (old new : Nat) (lines : List String) :
    ∃ segs', Laid (v.insertContext k above old new lines) f segs' := by
  cases hk : segs[k]? with
  | some g =>
    obtain ⟨pre, post, rfl, rfl⟩ := exists_split hk
    exact ⟨_, h.insert above old new lines⟩
  | none =>
    -- There is no such hunk, so it has no header either.
    have hnone : v.hunkRows[k]? = none := by
      rw [h.headers, h.rows, hunkRowsOf_segments f v.split h.plain]
      rw [List.getElem?_eq_none_iff] at hk ⊢
      rwa [blockStarts_length]
    refine ⟨segs, ?_⟩
    rw [insertContext, hnone]
    exact h

theorem step_laid {e : ReaderEvent} (hstep : (Reader.system src).step r e = some r')
    (h : ∃ segs, Laid r.viewport f segs) : ∃ segs, Laid r'.viewport f segs := by
  obtain ⟨segs, hl⟩ := h
  cases step_moved hstep with
  | keep hv => exact ⟨segs, hv ▸ hl⟩
  | request _ hv => exact ⟨segs, hv ▸ hl⟩
  | insert _ _ hv => rw [hv]; exact laid_insertContext hl _ _ _ _ _
  | switch hne hv => exact ⟨_, hv ▸ hl.configure hne⟩

/-- Whatever happens, `hunk_rows` holds exactly the positions of the headers. -/
theorem run_headers {s : Snapshot} {file : FileId} (hf : s.file file = some f) {split : Bool}
    {es : List ReaderEvent} {ok : Reader → ReaderEvent → Prop}
    (hrun : (Reader.system src).Steps ok (.new s file split) es r) :
    r.viewport.hunkRows = hunkRowsOf r.viewport.rows := by
  have h := hrun.invariant (P := fun r => ∃ segs, Laid r.viewport f segs)
    (fun _ _ _ _ hstep h => step_laid hstep h) ⟨_, laid_new hf split⟩
  obtain ⟨segs, hl⟩ := h
  exact hl.headers

/-! ## Numbers -/

/-- Lines arrive where they fit. -/
def Timely (src : Sources) (f : FileChange) (r : Reader) : ReaderEvent → Prop
  | .readDone => ∀ t ∈ r.task, ∀ lines, src.read t.2 = .ok lines → lines ≠ [] →
      Fitting r.viewport f.hunks t.1 t.2
  | _ => True

/-- The invariant: the rows are spaced, and the plan under way goes on from what is shown. -/
structure Sound (f : FileChange) (r : Reader) : Prop where
  shows : ∃ segs, Shows r.viewport f segs
  planned : ∀ t ∈ r.task, Planned r.viewport f.hunks t.1 t.2

/-- A switch makes room. -/
theorem Planned.configure {v : Diffz.Viewport} {hunks : List Hunk} {request : ContextRequest}
    {plan : ContextPlan} {split : Bool} (hne : split ≠ v.split)
    (h : Planned v hunks request plan) : Planned (v.configure split) hunks request plan := by
  have hnone : ∀ k, (v.configure split).expansion k = (0, 0) := by
    intro k
    rw [Viewport.configure, if_neg hne]
    rfl
  obtain ⟨g, hg, hoc, hnc, hcount, hroom⟩ := h
  refine ⟨g, hg, hoc, hnc, hcount, ?_⟩
  split
  · rename_i habove
    rw [if_pos habove] at hroom
    refine ⟨?_, hroom.2⟩
    refine le_trans ?_ hroom.1
    unfold previousEnd
    split
    · exact le_rfl
    · split
      · rw [hnone]
        omega
      · exact le_rfl
  · rename_i hbelow
    rw [if_neg hbelow] at hroom
    refine ⟨hroom.1, hroom.2.1, ?_⟩
    intro next hnext
    have hfit := hroom.2.2 next hnext
    rw [hnone]
    omega

theorem step_sound (hi : HunksInv f.hunks) (hsrc : src.AgreesFrom 0 0 f.hunks) {e : ReaderEvent}
    (hok : Timely src f r e) (hstep : (Reader.system src).step r e = some r') (h : Sound f r) :
    Sound f r' := by
  obtain ⟨segs, hs⟩ := h.shows
  cases step_moved hstep with
  | keep hv ht =>
    refine ⟨⟨segs, hv ▸ hs⟩, ?_⟩
    rw [hv]
    exact fun t htask => h.planned t (ht t htask)
  | request hplan hv ht =>
    refine ⟨⟨segs, hv ▸ hs⟩, ?_⟩
    rw [hv, ht]
    rintro t ⟨⟩
    obtain ⟨plan, hplan', hp⟩ := planForRow_ok r.viewport _ _
    cases hplan.symm.trans hplan'
    exact hp _ rfl f hs.laid.change
  | insert htask hread hv ht =>
    rename_i request plan lines
    refine ⟨?_, ?_⟩
    · have hp := h.planned _ htask
      obtain ⟨k, hk, -⟩ := hp
      obtain ⟨g, hg, -⟩ : ∃ g, segs[plan.hunk]? = some g ∧ g.hunk = k := by
        rw [← hs.laid.hunks, List.getElem?_map] at hk
        exact Option.map_eq_some_iff.mp hk
      obtain ⟨pre, post, rfl, hlen⟩ := exists_split hg
      rw [hv, ← hlen]
      by_cases hnil : lines = []
      · subst hnil
        exact ⟨_, hs.insert_nil _ _ _⟩
      · exact ⟨_, hs.insert_read hi hsrc hlen.symm (h.planned _ htask) hread
          (hok _ htask lines hread hnil)⟩
    · rw [ht]
      exact nofun
  | switch hne hv ht =>
    refine ⟨⟨bare f, ?_⟩, ?_⟩
    · rw [hv]
      refine shows_bare (hs.laid.configure hne) ?_ (agreesFrom_parallel hsrc)
      rw [Viewport.configure, if_neg hne]
    · rw [hv, ht]
      exact fun t htask => (h.planned t htask).configure hne

theorem Shows.increasing {v : Diffz.Viewport} {segs : List Segment} (h : Shows v f segs)
    (hi : HunksInv f.hunks) (hp : Parallel 0 0 f.hunks) (side : Side) :
    (shown side v.rows).Pairwise (· < ·) := by
  rw [h.laid.rows, shown_append, shown_notices, List.nil_append]
  rw [← h.laid.hunks] at hi hp
  cases side with
  | left => exact (spaced_increasing v.split h.spaced h.numbered hi).1
  | right => exact (spaced_increasing v.split (spaced_right (x := 0) hp h.spaced) h.numbered hi).1

/-- What the viewport is to keep: numbers increase down the rows, `hunk_rows` holds the positions of
the headers, and no plan underflows. -/
structure LinesOnce (v : Diffz.Viewport) : Prop where
  increasing : ∀ side, (shown side v.rows).Pairwise (· < ·)
  headers : v.hunkRows = hunkRowsOf v.rows
  plans : ∀ row request, ∃ plan, v.planForRow row request = .ok plan

/-- **Context expansion shows every source line at most once.** For a file of a parsed patch and the
documents its hunks come from, in every run of requests, answers and switches in which lines arrive
where they fit. -/
theorem run_shows_lines_once {sha256 : Bytes → Bytes} {bytes : Bytes} {limits : ParseLimits}
    {s : Snapshot} (hparse : parsePatch sha256 bytes limits = .ok s.patch) {file : FileId}
    (hf : s.file file = some f) (hsrc : src.AgreesFrom 0 0 f.hunks) {split : Bool}
    {es : List ReaderEvent}
    (hrun : (Reader.system src).Steps (Timely src f) (.new s file split) es r) :
    LinesOnce r.viewport := by
  have hi : HunksInv f.hunks :=
    Patch.parsePatch_hunksInv hparse f (List.mem_of_find?_eq_some hf)
  have hp := agreesFrom_parallel hsrc
  have hsound := hrun.invariant (P := Sound f)
    (fun _ _ _ hok hstep h => step_sound hi hsrc hok hstep h)
    ⟨⟨_, shows_bare (laid_new hf split) rfl hp⟩, nofun⟩
  obtain ⟨segs, hs⟩ := hsound.shows
  refine ⟨hs.increasing hi hp, run_headers hf hrun, ?_⟩
  intro row request
  obtain ⟨plan, hplan, -⟩ := planForRow_ok r.viewport row request
  exact ⟨plan, hplan⟩

/-! ## A file with an added line and a changed one -/

def spreadPatch : Bytes :=
  asBytes "diff --git a/x b/x\n@@ -1,0 +2 @@\n+a\n@@ -25 +26 @@\n-b\n+c\n"

def spreadFile : FileChange :=
  { sampleFile with
    hunks := [⟨1, 0, 2, 1, "", [⟨none, some 2, "a", .lf, .added⟩]⟩,
      ⟨25, 1, 26, 1, "", [⟨some 25, none, "b", .lf, .removed⟩, ⟨none, some 26, "c", .lf, .added⟩]⟩] }

def spreadSnapshot : Snapshot := { sampleSnapshot with patch := ⟨[spreadFile]⟩ }

def spreadSources : Sources :=
  ⟨List.replicate 24 "a" ++ ["b"], List.replicate 25 "a" ++ ["c"]⟩

theorem spread_parsed : parsePatch Sha256.sha256 spreadPatch .default = .ok spreadSnapshot.patch :=
  ok_of_toOption (by decide +kernel)

theorem spread_agrees : spreadSources.AgreesFrom 0 0 spreadFile.hunks := by
  refine ⟨by decide, by decide, by decide, ?_, by decide, by decide, by decide, ?_, rfl⟩
  · intro side
    cases side <;> decide
  · intro side
    cases side <;> decide

/-- `Fitting`, computed. -/
def fits (v : Diffz.Viewport) (hunks : List Hunk) (request : ContextRequest) (plan : ContextPlan) :
    Bool :=
  (hunks[plan.hunk]?).all (fun h =>
    if request.isAbove then plan.old + plan.count + (v.expansion plan.hunk).1 = h.oldStart
    else plan.old = h.oldStart + h.oldCount + (v.expansion plan.hunk).2) &&
  (hunks[plan.hunk - 1]?).all fun p => p.oldCount ≠ 0 || plan.old ≠ p.oldStart

theorem fitting_of_fits {v : Diffz.Viewport} {hunks : List Hunk} {request : ContextRequest}
    {plan : ContextPlan} (h : fits v hunks request plan) : Fitting v hunks request plan := by
  simp only [fits, Bool.and_eq_true] at h
  constructor
  · intro g hg
    have hcur := h.1
    rw [hg] at hcur
    rw [Option.all_some] at hcur
    split at hcur
    · rename_i habove
      rw [if_pos habove]
      exact of_decide_eq_true hcur
    · rename_i hbelow
      rw [if_neg hbelow]
      exact of_decide_eq_true hcur
  · intro _ p _ hp hzero hold
    have hbehind := h.2
    rw [hp] at hbehind
    simp [hzero, hold] at hbehind

/-- `Timely` of a read, computed. -/
def timely (f : FileChange) (r : Reader) (e : ReaderEvent) : Bool :=
  e != .readDone || r.task.all fun t => fits r.viewport f.hunks t.1 t.2

theorem timely_of_check {e : ReaderEvent} (h : timely f r e) : Timely src f r e := by
  cases e with
  | readDone =>
    intro t ht lines _ _
    have hall : r.task.all (fun t => fits r.viewport f.hunks t.1 t.2) = true := by
      simpa [timely] using h
    rw [Option.mem_def.mp ht] at hall
    exact fitting_of_fits hall
  | expandContext row request => trivial
  | readFailed message => trivial
  | configure split => trivial

/-- A switch while nothing of the hunk is shown yet does no harm. -/
def spreadRun : List ReaderEvent :=
  [.expandContext 2 .above, .configure true, .readDone, .expandContext 2 .above, .readDone]

theorem spreadRun_shows_lines_once : ∃ r, (Reader.system spreadSources).run
      (.new spreadSnapshot spreadFile.id false) spreadRun = some r ∧
    shown .right r.viewport.rows = 2 :: List.range' 6 21 ∧ LinesOnce r.viewport := by
  have hrun : ((Reader.system spreadSources).checkedRun (timely spreadFile)
      (.new spreadSnapshot spreadFile.id false) spreadRun).map
        (fun r => shown .right r.viewport.rows) = some (2 :: List.range' 6 21) := by
    decide +kernel
  obtain ⟨r, hr, hshown⟩ := Option.map_eq_some_iff.mp hrun
  have hsteps : (Reader.system spreadSources).Steps (Timely spreadSources spreadFile)
      (.new spreadSnapshot spreadFile.id false) spreadRun r :=
    Lts.steps_of_checkedRun (fun _ _ _ hc => timely_of_check hc) hr
  exact ⟨r, hsteps.run, hshown,
    run_shows_lines_once spread_parsed (by decide +kernel) spread_agrees hsteps⟩

/-- The display is switched while ten more lines are under way for a hunk that shows ten. -/
def switchedRun : List ReaderEvent :=
  [.expandContext 2 .above, .readDone, .expandContext 2 .above, .configure true, .readDone,
    .expandContext 2 .above, .readDone]

/-- All hidden lines above the second hunk are asked for, and the line the first one added is among
them. -/
def backRun : List ReaderEvent := [.expandContext 2 .all, .readDone]

theorem switched_and_back_show_lines_twice :
    parsePatch Sha256.sha256 spreadPatch .default = .ok spreadSnapshot.patch ∧
    spreadSnapshot.file spreadFile.id = some spreadFile ∧
    spreadSources.AgreesFrom 0 0 spreadFile.hunks ∧
    (∃ r, (Reader.system spreadSources).run (.new spreadSnapshot spreadFile.id false) switchedRun =
        some r ∧
      shown .right r.viewport.rows = 2 :: (List.range' 6 10 ++ List.range' 6 10 ++ [26]) ∧
      ¬(shown .right r.viewport.rows).Pairwise (· < ·)) ∧
    ∃ r, (Reader.system spreadSources).run (.new spreadSnapshot spreadFile.id false) backRun =
        some r ∧
      shown .right r.viewport.rows = 2 :: List.range' 2 25 ∧
      ¬(shown .right r.viewport.rows).Pairwise (· < ·) := by
  have hswitched : ((Reader.system spreadSources).run (.new spreadSnapshot spreadFile.id false)
      switchedRun).map (fun r => shown .right r.viewport.rows) =
      some (2 :: (List.range' 6 10 ++ List.range' 6 10 ++ [26])) := by
    decide +kernel
  have hback : ((Reader.system spreadSources).run (.new spreadSnapshot spreadFile.id false)
      backRun).map (fun r => shown .right r.viewport.rows) = some (2 :: List.range' 2 25) := by
    decide +kernel
  obtain ⟨r₁, hr₁, hshown₁⟩ := Option.map_eq_some_iff.mp hswitched
  obtain ⟨r₂, hr₂, hshown₂⟩ := Option.map_eq_some_iff.mp hback
  refine ⟨spread_parsed, by decide +kernel, spread_agrees, ⟨r₁, hr₁, hshown₁, ?_⟩, r₂, hr₂, hshown₂,
    ?_⟩
  · rw [hshown₁]
    decide
  · rw [hshown₂]
    decide

end Viewport
end Proof
end Diffz
