import Mathlib.Data.List.Perm.Basic
import Diffz.Ui.Workbench

/-!
# What is on screen belongs to the active snapshot

The marks of a file, the filtered list of files and the list of releases are computed at different
times and kept. `Coherent` says that they are what they would be if they were computed now; each of
the functions of the window keeps it, whatever reads are under way and in which order they end
(`run_coherent`).

The one read that replaces the snapshot of a compare is that of its releases. It counts only while
its token is the pending one, and then the snapshot is the one it was started with, which has no
releases yet (`Pending`, `Current`); so no filter by a release can be in place when it ends.
-/

set_option autoImplicit false

namespace Diffz
namespace Proof
namespace Workbench

open Diffz.Workbench

variable {lower : String → String} {sha256 : Bytes → Bytes} {Loaded : Snapshot → Prop}
  {w w' : Diffz.Workbench} {a : Active} {v : Shown} {o : Opened} {s t : Snapshot} {id : FileId}

/-! ## Snapshots of one id -/

/-- A snapshot with the id and the files of one that was opened. -/
def Known (Loaded : Snapshot → Prop) (s : Snapshot) : Prop :=
  ∃ t, Loaded t ∧ s.id = t.id ∧ s.patch = t.patch

/-- The ids of the snapshots that are opened name their files. -/
def Named (Loaded : Snapshot → Prop) : Prop :=
  ∀ s t, Loaded s → Loaded t → s.id = t.id → s.patch = t.patch

theorem Known.patch_eq (hn : Named Loaded) (hs : Known Loaded s) (ht : Known Loaded t)
    (h : s.id = t.id) : s.patch = t.patch := by
  obtain ⟨s', hs', hid, hp⟩ := hs
  obtain ⟨t', ht', hid', hp'⟩ := ht
  rw [hp, hp', hn s' t' hs' ht' (hid.symm.trans (h.trans hid'))]

theorem Known.of_loaded (h : Loaded s) : Known Loaded (Opened.withoutBlame s) := ⟨s, h, rfl, rfl⟩

theorem file_eq (h : s.patch = t.patch) (id : FileId) : s.file id = t.file id := by
  rw [Snapshot.file, Snapshot.file, h]

theorem annotationMarks_eq (h : s.patch = t.patch) (l : List Annotation) (id : FileId) :
    annotationMarks s l id = annotationMarks t l id := by
  rw [annotationMarks, annotationMarks, file_eq h]

/-- Without a filter by a release, the releases do not matter for the list of files. -/
theorem visible_eq (h : s.patch = t.patch) (query : String) :
    visible lower s none query = visible lower t none query := by
  simp only [visible, h, Option.all_none, List.filter_true]

/-! ## The read of the releases -/

/-- The reads of releases under way. -/
def releasesOf (tasks : List Task) : List (Nat × Diffz.Shared) :=
  tasks.filterMap fun t =>
    match t with
    | .releases cancel source => some (cancel, source)
    | _ => none

/-- A read of releases that is not cancelled is the pending one. -/
structure Pending (w : Diffz.Workbench) : Prop where
  bound : ∀ p ∈ releasesOf w.tasks, p.1 < w.fresh
  nodup : ((releasesOf w.tasks).map (·.1)).Nodup
  live : ∀ p ∈ releasesOf w.tasks, p.1 ∉ w.cancelled → w.releasesPending = some p.1

/-- A read of releases that is not cancelled is for the active snapshot, which has none. -/
def Current (w : Diffz.Workbench) : Prop :=
  ∀ p ∈ releasesOf w.tasks, p.1 ∉ w.cancelled → ∃ a, w.active = some a ∧ a.snapshot = p.2 ∧
    p.2.snapshot.overview.releases = []

theorem releasesOf_append (l m : List Task) :
    releasesOf (l ++ m) = releasesOf l ++ releasesOf m := List.filterMap_append

theorem Pending.frame (h : Pending w) (hcancelled : ∀ c ∈ w.cancelled, c ∈ w'.cancelled)
    (hfresh : w.fresh ≤ w'.fresh) (hpending : w'.releasesPending = w.releasesPending)
    (htasks : (releasesOf w'.tasks).Sublist (releasesOf w.tasks)) : Pending w' where
  bound p hp := Nat.lt_of_lt_of_le (h.bound p (htasks.subset hp)) hfresh
  nodup := h.nodup.sublist (htasks.map _)
  live p hp hc := by
    rw [hpending]
    exact h.live p (htasks.subset hp) fun hmem => hc (hcancelled _ hmem)

theorem Current.frame (h : Current w) (hcancelled : ∀ c ∈ w.cancelled, c ∈ w'.cancelled)
    (hactive : ∀ a, w.active = some a → ∃ a', w'.active = some a' ∧ a'.snapshot = a.snapshot)
    (htasks : (releasesOf w'.tasks).Sublist (releasesOf w.tasks)) : Current w' := by
  intro p hp hc
  obtain ⟨a, ha, hs, hr⟩ := h p (htasks.subset hp) fun hmem => hc (hcancelled _ hmem)
  obtain ⟨a', ha', hs'⟩ := hactive a ha
  exact ⟨a', ha', hs'.trans hs, hr⟩

/-- `load_releases` leaves no other read of releases that counts. -/
theorem pending_loadReleases (h : Pending w) :
    Pending w.loadReleases ∧ Current w.loadReleases := by
  have hold : ∀ p ∈ releasesOf w.tasks, p.1 ∈ w.loadReleases.cancelled := by
    intro p hp
    by_cases hc : p.1 ∈ w.cancelled
    · exact List.mem_append_right _ hc
    · exact List.mem_append_left _ (by simp [h.live p hp hc])
  cases hsource : w.active.filter listsReleases with
  | none =>
    have htasks : w.loadReleases.tasks = w.tasks := by simp [loadReleases, hsource]
    refine ⟨⟨?_, by rw [htasks]; exact h.nodup, ?_⟩, ?_⟩
    · intro p hp
      rw [htasks] at hp
      exact Nat.lt_succ_of_lt (h.bound p hp)
    · intro p hp hc
      rw [htasks] at hp
      exact absurd (hold p hp) hc
    · intro p hp hc
      rw [htasks] at hp
      exact absurd (hold p hp) hc
  | some a =>
    obtain ⟨ha, hlists⟩ := Option.filter_eq_some_iff.1 hsource
    have htasks : releasesOf w.loadReleases.tasks =
        releasesOf w.tasks ++ [(w.fresh, a.snapshot)] := by
      simp [loadReleases, hsource, releasesOf]
    have hmem : ∀ p ∈ releasesOf w.loadReleases.tasks, p.1 ∉ w.loadReleases.cancelled →
        p = (w.fresh, a.snapshot) := by
      intro p hp hc
      rw [htasks, List.mem_append, List.mem_singleton] at hp
      rcases hp with hp | rfl
      · exact absurd (hold p hp) hc
      · rfl
    refine ⟨⟨?_, ?_, ?_⟩, ?_⟩
    · intro p hp
      rw [htasks, List.mem_append, List.mem_singleton] at hp
      rcases hp with hp | rfl
      · exact Nat.lt_succ_of_lt (h.bound p hp)
      · exact Nat.lt_succ_self _
    · rw [htasks, List.map_append, List.nodup_append']
      refine ⟨h.nodup, by simp, ?_⟩
      intro c hc hc'
      obtain ⟨p, hp, rfl⟩ := List.mem_map.1 hc
      have hlt := h.bound p hp
      simp only [List.map_cons, List.map_nil, List.mem_singleton] at hc'
      omega
    · intro p hp hc
      rw [hmem p hp hc]
      simp [loadReleases, hsource]
    · intro p hp hc
      rw [hmem p hp hc]
      simp only [listsReleases, Bool.and_eq_true, List.isEmpty_iff] at hlists
      exact ⟨a, ha, rfl, hlists.2⟩

/-! ## The view -/

/-- What is on screen beside the marks of the releases. -/
structure Base (lower : String → String) (Loaded : Snapshot → Prop) (w : Diffz.Workbench) :
    Prop where
  shown : ∀ v, w.shown = some v → ∃ a, w.active = some a ∧ v.snapshot = a.snapshot ∧
    (a.snapshot.snapshot.file v.file).isSome = true
  annotations : ∀ a v, w.active = some a → w.shown = some v →
    v.annotations = annotationMarks a.snapshot.snapshot w.annotations v.file
  visible : ∀ a, w.active = some a →
    w.visibleFiles = visible lower a.snapshot.snapshot w.releaseFilter w.query
  filter : ∀ i, w.releaseFilter = some i → ∃ a, w.active = some a ∧
    i < a.snapshot.snapshot.overview.releases.length
  known : ∀ a, w.active = some a → Known Loaded a.snapshot.snapshot
  offered : ∀ o, w.offered = some o → Loaded o.snapshot

/-- What is on screen is computed from the active snapshot as it is. -/
structure View (lower : String → String) (Loaded : Snapshot → Prop) (w : Diffz.Workbench) : Prop
    extends Base lower Loaded w where
  releases : ∀ a v, w.active = some a → w.shown = some v →
    v.releases = releaseMarks a.snapshot.snapshot a.blame w.releaseFilter v.file

theorem View.of_eq (h : View lower Loaded w) (hactive : w'.active = w.active)
    (hshown : w'.shown = w.shown) (hvisible : w'.visibleFiles = w.visibleFiles)
    (hfilter : w'.releaseFilter = w.releaseFilter) (hquery : w'.query = w.query)
    (hannotations : w'.annotations = w.annotations) (hoffered : w'.offered = w.offered) :
    View lower Loaded w' where
  shown := by rw [hactive, hshown]; exact h.shown
  annotations := by rw [hactive, hshown, hannotations]; exact h.annotations
  visible := by rw [hactive, hvisible, hfilter, hquery]; exact h.visible
  filter := by rw [hactive, hfilter]; exact h.filter
  known := by rw [hactive]; exact h.known
  offered := by rw [hoffered]; exact h.offered
  releases := by rw [hactive, hshown, hfilter]; exact h.releases

theorem markReleases_shown (ha : w.active = some a) (hv : w.markReleases.shown = some v) :
    ∃ v', w.shown = some v' ∧ v = { v' with
      releases := releaseMarks a.snapshot.snapshot a.blame w.releaseFilter v'.file } := by
  simp only [markReleases, ha] at hv
  obtain ⟨v', hv', rfl⟩ := Option.map_eq_some_iff.1 hv
  exact ⟨v', hv', rfl⟩

theorem Base.markReleases (h : Base lower Loaded w) : View lower Loaded w.markReleases where
  shown v hv := by
    cases ha : w.active with
    | none =>
      simp only [Diffz.Workbench.markReleases, ha] at hv
      obtain ⟨a, ha', -⟩ := h.shown v hv
      rw [ha] at ha'
      cases ha'
    | some a =>
      obtain ⟨v', hv', rfl⟩ := markReleases_shown ha hv
      obtain ⟨a', ha', hrest⟩ := h.shown v' hv'
      exact ⟨a', ha', hrest⟩
  annotations a v ha hv := by
    obtain ⟨v', hv', rfl⟩ := markReleases_shown (w := w) ha hv
    exact h.annotations a v' ha hv'
  visible := h.visible
  filter := h.filter
  known := h.known
  offered := h.offered
  releases a v ha hv := by
    obtain ⟨v', -, rfl⟩ := markReleases_shown (w := w) ha hv
    rfl

/-- What `select_file` does: nothing, or it shows the file with the marks it has now. -/
theorem selectFile_cases (w : Diffz.Workbench) (id : FileId) :
    w.selectFile id = w ∨ ∃ a, w.active = some a ∧
      (a.snapshot.snapshot.file id).isSome = true ∧ w.selectFile id =
        ((((w.showFile a id).markAnnotations).markReleases).fetchBlame).highlight id := by
  unfold selectFile
  cases h : w.active.filter fun a => (a.snapshot.snapshot.file id).isSome with
  | none => exact .inl rfl
  | some a =>
    obtain ⟨ha, hfile⟩ := Option.filter_eq_some_iff.1 h
    exact .inr ⟨a, ha, hfile, rfl⟩

theorem View.selectFile (h : View lower Loaded w) (id : FileId) :
    View lower Loaded (w.selectFile id) := by
  rcases selectFile_cases w id with heq | ⟨a, ha, hfile, heq⟩
  · rw [heq]
    exact h
  · rw [heq]
    refine ⟨⟨?_, ?_, ?_, ?_, ?_, h.offered⟩, ?_⟩
    · rintro v ⟨⟩
      exact ⟨_, rfl, rfl, hfile⟩
    · rintro a' v ⟨⟩ ⟨⟩
      rfl
    · rintro a' ⟨⟩
      exact h.visible a ha
    · intro i hi
      obtain ⟨a', ha', hlt⟩ := h.filter i hi
      rw [ha] at ha'
      cases ha'
      exact ⟨_, rfl, hlt⟩
    · rintro a' ⟨⟩
      exact h.known a ha
    · rintro a' v ⟨⟩ ⟨⟩
      rfl

/-- A snapshot is installed, and its first file selected where it has one. -/
theorem install_cases (lower : String → String) (w : Diffz.Workbench) (o : Opened) :
    ∃ w' : Diffz.Workbench, (w' = (w.replaced o).filterFiles lower ∨
      ∃ id, w' = ((w.replaced o).filterFiles lower).selectFile id) ∧
      w.install lower o = w'.annotate.loadReleases := by
  unfold Workbench.install
  cases firstFile o with
  | none => exact ⟨_, .inl rfl, rfl⟩
  | some id => exact ⟨_, .inr ⟨id, rfl⟩, rfl⟩

theorem View.install (hn : Loaded o.snapshot) : View lower Loaded (w.install lower o) := by
  have hbase : View lower Loaded ((w.replaced o).filterFiles lower) := by
    refine ⟨⟨?_, ?_, ?_, ?_, ?_, ?_⟩, ?_⟩
    · rintro v ⟨⟩
    · rintro a v - ⟨⟩
    · rintro a ⟨⟩
      rfl
    · rintro i ⟨⟩
    · rintro a ⟨⟩
      exact .of_loaded hn
    · rintro o' ⟨⟩
    · rintro a v - ⟨⟩
  obtain ⟨w', hw', heq⟩ := install_cases lower w o
  have hfirst : View lower Loaded w' := by
    rcases hw' with rfl | ⟨id, rfl⟩
    · exact hbase
    · exact hbase.selectFile id
  rw [heq]
  exact hfirst.of_eq rfl rfl rfl rfl rfl rfl rfl

/-- The active snapshot is replaced by one with the same files. -/
theorem Base.swap (h : Base lower Loaded w) (ha : w.active = some a)
    (hs : Known Loaded (Opened.withoutBlame s)) (hp : s.patch = a.snapshot.snapshot.patch)
    (hfilter : w.releaseFilter = none) : Base lower Loaded (w.swap s) := by
  have hfile := file_eq (s := Opened.withoutBlame s) hp
  refine ⟨?_, ?_, ?_, ?_, ?_, h.offered⟩
  · intro v hv
    obtain ⟨v', hv', rfl⟩ := Option.map_eq_some_iff.1 hv
    obtain ⟨a', ha', -, hsome⟩ := h.shown v' hv'
    rw [ha] at ha'
    cases ha'
    refine ⟨{ a with snapshot := ⟨w.fresh, Opened.withoutBlame s⟩, blame := s.overview.blame },
      by simp only [Diffz.Workbench.swap, ha, Option.map_some], rfl, ?_⟩
    rw [← hsome, ← hfile]
  · intro a' v ha' hv
    obtain ⟨v', hv', rfl⟩ := Option.map_eq_some_iff.1 hv
    simp only [Diffz.Workbench.swap, ha, Option.map_some] at ha'
    cases ha'
    have hold := h.annotations a v' ha hv'
    exact hold.trans (annotationMarks_eq hp.symm _ _)
  · intro a' ha'
    simp only [Diffz.Workbench.swap, ha, Option.map_some] at ha'
    cases ha'
    have hold := h.visible a ha
    rw [hfilter] at hold
    show w.visibleFiles =
      Diffz.Workbench.visible lower (Opened.withoutBlame s) w.releaseFilter w.query
    rw [hold, hfilter]
    exact visible_eq (t := Opened.withoutBlame s) hp.symm _
  · intro i hi
    rw [show (w.swap s).releaseFilter = none from hfilter] at hi
    cases hi
  · intro a' ha'
    simp only [Diffz.Workbench.swap, ha, Option.map_some] at ha'
    cases ha'
    exact hs

/-! ## The steps -/

/-- `View` with what is known about the read of the releases. -/
structure Coherent (lower : String → String) (Loaded : Snapshot → Prop) (w : Diffz.Workbench) : Prop
    extends View lower Loaded w where
  pending : Pending w
  current : Current w

/-- A step that keeps the view, starts no read of releases and does not replace the snapshot. -/
theorem Coherent.frame (h : Coherent lower Loaded w) (hview : View lower Loaded w')
    (hcancelled : ∀ c ∈ w.cancelled, c ∈ w'.cancelled) (hfresh : w.fresh ≤ w'.fresh)
    (hpending : w'.releasesPending = w.releasesPending)
    (hactive : ∀ a, w.active = some a → ∃ a', w'.active = some a' ∧ a'.snapshot = a.snapshot)
    (htasks : (releasesOf w'.tasks).Sublist (releasesOf w.tasks)) : Coherent lower Loaded w' where
  toView := hview
  pending := h.pending.frame hcancelled hfresh hpending htasks
  current := h.current.frame hcancelled hactive htasks

theorem releasesOf_fetchBlame (w : Diffz.Workbench) :
    releasesOf w.fetchBlame.tasks = releasesOf w.tasks := by
  have hnone : releasesOf w.nextBlame.toList = [] := by
    unfold nextBlame
    cases w.active with
    | none => rfl
    | some a =>
      rw [Option.bind_some]
      split
      · rfl
      · rfl
  rw [fetchBlame, releasesOf_append, hnone, List.append_nil]

theorem releasesOf_highlight (w : Diffz.Workbench) (id : FileId) :
    releasesOf (w.highlight id).tasks = releasesOf w.tasks := by
  rw [highlight, releasesOf_append]
  cases w.active with
  | none => exact List.append_nil _
  | some a => exact List.append_nil _

theorem releasesOf_annotate (w : Diffz.Workbench) :
    releasesOf w.annotate.tasks = releasesOf w.tasks := by
  rw [annotate, releasesOf_append]
  cases w.active with
  | none => exact List.append_nil _
  | some a => exact List.append_nil _

theorem Coherent.fetchBlame (h : Coherent lower Loaded w) : Coherent lower Loaded w.fetchBlame :=
  h.frame (h.toView.of_eq rfl rfl rfl rfl rfl rfl rfl) (fun _ hc => hc) le_rfl rfl
    (fun a ha => ⟨a, ha, rfl⟩) (by rw [releasesOf_fetchBlame])

theorem selectFile_pending (w : Diffz.Workbench) (id : FileId) :
    (∀ c ∈ w.cancelled, c ∈ (w.selectFile id).cancelled) ∧ w.fresh ≤ (w.selectFile id).fresh ∧
      (w.selectFile id).releasesPending = w.releasesPending ∧
      (∀ a, w.active = some a → ∃ a', (w.selectFile id).active = some a' ∧
        a'.snapshot = a.snapshot) ∧
      releasesOf (w.selectFile id).tasks = releasesOf w.tasks := by
  rcases selectFile_cases w id with heq | ⟨a, ha, -, heq⟩
  · rw [heq]
    exact ⟨fun _ hc => hc, le_rfl, rfl, fun a ha => ⟨a, ha, rfl⟩, rfl⟩
  · rw [heq]
    refine ⟨fun _ hc => List.mem_cons_of_mem _ hc, Nat.le_succ _, rfl, ?_, ?_⟩
    · intro a' ha'
      rw [ha] at ha'
      cases ha'
      exact ⟨_, rfl, rfl⟩
    · rw [releasesOf_highlight, releasesOf_fetchBlame]
      rfl

theorem Coherent.selectFile (h : Coherent lower Loaded w) (id : FileId) :
    Coherent lower Loaded (w.selectFile id) := by
  obtain ⟨hcancelled, hfresh, hpending, hactive, htasks⟩ := selectFile_pending w id
  exact h.frame (h.toView.selectFile id) hcancelled hfresh hpending hactive (by rw [htasks])

theorem Pending.annotate (h : Pending w) : Pending w.annotate :=
  h.frame (fun _ hc => List.mem_cons_of_mem _ hc) (Nat.le_succ _) rfl (by rw [releasesOf_annotate])

theorem Coherent.install (h : Coherent lower Loaded w) (hn : Loaded o.snapshot) :
    Coherent lower Loaded (w.install lower o) := by
  have hreplaced : Pending ((w.replaced o).filterFiles lower) :=
    h.pending.frame (fun _ hc => hc) (Nat.le_succ _) rfl (List.Sublist.refl _)
  obtain ⟨w', hw', heq⟩ := install_cases lower w o
  have hfirst : Pending w' := by
    rcases hw' with rfl | ⟨id, rfl⟩
    · exact hreplaced
    · obtain ⟨hcancelled, hfresh, hpending, -, htasks⟩ :=
        selectFile_pending ((w.replaced o).filterFiles lower) id
      exact hreplaced.frame hcancelled hfresh hpending (by rw [htasks])
  obtain ⟨hpending, hcurrent⟩ := pending_loadReleases hfirst.annotate
  have hview : View lower Loaded (w.install lower o) := View.install hn
  rw [heq] at hview ⊢
  exact ⟨hview, hpending, hcurrent⟩

/-- What `Services::releases` returns has the id and the files of what it was asked about. -/
theorem releases_same {read : Except String (List Release × List String)} {cancelled : Bool}
    {stored : Except String Unit} (h : Compare.releases s read cancelled stored = .ok t) :
    t.id = s.id ∧ t.patch = s.patch := by
  unfold Compare.releases at h
  split at h
  · cases h
    exact ⟨rfl, rfl⟩
  · dsimp only at h
    split at h
    · cases h
    · obtain ⟨u, -, rfl⟩ := ok_of_map h
      exact ⟨rfl, rfl⟩

/-- The part of a refresh that computes what is on screen. -/
theorem Base.refreshed (h : Base lower Loaded w) (hn : Named Loaded) (hs : Loaded s)
    (hid : ∀ a, w.active = some a → s.id = a.snapshot.snapshot.id) :
    Base lower Loaded (((w.swap s).clearFilter).filterFiles lower) := by
  cases ha : w.active with
  | none =>
    -- There is nothing on screen that a refresh could replace.
    have hactive : (w.swap s).active = none := by rw [Diffz.Workbench.swap, ha, Option.map_none]
    have hshown : (w.swap s).shown = none := by
      cases hv : w.shown with
      | none => rw [Diffz.Workbench.swap, hv, Option.map_none]
      | some v =>
        obtain ⟨a, ha', -⟩ := h.shown v hv
        rw [ha] at ha'
        cases ha'
    refine ⟨?_, ?_, ?_, ?_, ?_, h.offered⟩
    · intro v hv
      cases hshown.symm.trans hv
    · intro a v ha' hv
      cases hactive.symm.trans ha'
    · intro a ha'
      cases hactive.symm.trans ha'
    · rintro i ⟨⟩
    · intro a ha'
      cases hactive.symm.trans ha'
  | some a =>
    have hp : s.patch = a.snapshot.snapshot.patch :=
      Known.patch_eq hn ⟨s, hs, rfl, rfl⟩ (h.known a ha) (hid a ha)
    have hunfiltered : Base lower Loaded (w.clearFilter.filterFiles lower) := by
      refine ⟨h.shown, h.annotations, ?_, ?_, h.known, h.offered⟩
      · intro a' ha'
        have ha'' : w.clearFilter.active = some a' := ha'
        simp only [filterFiles, ha'']
      · rintro i ⟨⟩
    have hswap := hunfiltered.swap (a := a) ha (.of_loaded hs) hp rfl
    refine ⟨hswap.shown, hswap.annotations, ?_, ?_, hswap.known, h.offered⟩
    · intro a' ha'
      have ha'' : (w.swap s).clearFilter.active = some a' := ha'
      simp only [filterFiles, ha'']
    · rintro i ⟨⟩

theorem Coherent.refreshed (h : Coherent lower Loaded w) (hn : Named Loaded) (hs : Loaded s)
    (hid : ∀ a, w.active = some a → s.id = a.snapshot.snapshot.id) :
    Coherent lower Loaded (w.refreshed lower s) := by
  have hbase := h.toBase.refreshed hn hs hid
  have hview : View lower Loaded (w.refreshed lower s) := by
    refine View.of_eq (w := (((w.swap s).clearFilter).filterFiles lower).markReleases)
      hbase.markReleases rfl rfl rfl rfl rfl rfl rfl
  obtain ⟨hpending, hcurrent⟩ := pending_loadReleases
    (w := ((w.swap s).clearFilter).filterFiles lower)
    (h.pending.frame (fun _ hc => hc) (Nat.le_succ _) rfl (List.Sublist.refl _))
  have htasks := releasesOf_fetchBlame
    (((((w.swap s).clearFilter).filterFiles lower).loadReleases).markReleases)
  have hsub : (releasesOf (w.refreshed lower s).tasks).Sublist
      (releasesOf (((w.swap s).clearFilter).filterFiles lower).loadReleases.tasks) := by
    rw [Diffz.Workbench.refreshed, htasks]
    exact List.Sublist.refl _
  exact ⟨hview, hpending.frame (fun _ hc => hc) le_rfl rfl hsub,
    hcurrent.frame (fun _ hc => hc) (fun a ha => ⟨a, ha, rfl⟩) hsub⟩

theorem Coherent.openPending (h : Coherent lower Loaded w) (request : Handoff.OpenRequest)
    (refresh : Bool) : Coherent lower Loaded (w.openPending request refresh) := by
  refine h.frame (h.toView.of_eq rfl rfl rfl rfl rfl rfl rfl)
    (fun _ hc => List.mem_cons_of_mem _ hc) (Nat.le_succ _) rfl (fun a ha => ⟨a, ha, rfl⟩) ?_
  rw [Diffz.Workbench.openPending, releasesOf_append]
  exact (List.append_nil _) ▸ List.Sublist.refl _

theorem Coherent.opened (h : Coherent lower Loaded w) (hn : Named Loaded) {generation : Nat}
    {request : Handoff.OpenRequest} {refresh : Bool} {result : Except String Opened}
    (hresult : ∀ o, result = .ok o → Loaded o.snapshot) :
    Coherent lower Loaded (w.opened lower generation request refresh result) := by
  unfold Diffz.Workbench.opened
  split
  · exact h
  · have hloaded : Coherent lower Loaded { w with loading := false } :=
      h.frame (h.toView.of_eq rfl rfl rfl rfl rfl rfl rfl) (fun _ hc => hc) le_rfl rfl
        (fun a ha => ⟨a, ha, rfl⟩) (List.Sublist.refl _)
    cases result with
    | error e => exact hloaded
    | ok o =>
      have ho := hresult o rfl
      dsimp only
      split
      · split
        · refine hloaded.frame ⟨⟨h.shown, h.annotations, h.visible, h.filter, h.known, ?_⟩,
            h.releases⟩ (fun _ hc => hc) le_rfl rfl (fun a ha => ⟨a, ha, rfl⟩)
            (List.Sublist.refl _)
          rintro o' ⟨⟩
          exact ho
        · rename_i hid
          refine hloaded.refreshed hn ho fun a ha => ?_
          by_contra hne
          exact hid ((Option.any_eq_true ..).2 ⟨a, ha, decide_eq_true fun e => hne e.symm⟩)
      · refine Coherent.install ?_ ho
        exact hloaded.frame (hloaded.toView.of_eq rfl rfl rfl rfl rfl rfl rfl) (fun _ hc => hc)
          le_rfl rfl (fun a ha => ⟨a, ha, rfl⟩) (List.Sublist.refl _)

theorem counts_spec {cancel : Nat} {source : Diffz.Shared} (h : w.counts cancel source = true) :
    cancel ∉ w.cancelled ∧ ∃ a, w.active = some a ∧
      a.snapshot.snapshot.id = source.snapshot.id := by
  simp only [counts, Bool.and_eq_true, Bool.not_eq_true', Option.any_eq_true, decide_eq_true_eq] at h
  exact ⟨by simpa using h.1, h.2⟩

/-- The annotations that came in are marked. -/
theorem Coherent.annotated (h : Coherent lower Loaded w) (cancel : Nat) (source : Diffz.Shared)
    (found : List Annotation) : Coherent lower Loaded (w.annotated cancel source found) := by
  unfold Diffz.Workbench.annotated
  split
  · rename_i hcounts
    obtain ⟨-, a, ha, -⟩ := counts_spec hcounts
    have hshown : ({ w with annotations := found } : Diffz.Workbench).markAnnotations.shown =
        w.shown.map fun v =>
          { v with annotations := annotationMarks a.snapshot.snapshot found v.file } := by
      simp only [markAnnotations, ha]
    refine h.frame ⟨⟨?_, ?_, h.visible, h.filter, h.known, h.offered⟩, ?_⟩ (fun _ hc => hc) le_rfl
      rfl (fun a ha => ⟨a, ha, rfl⟩) (List.Sublist.refl _)
    · intro v hv
      obtain ⟨v', hv', rfl⟩ := Option.map_eq_some_iff.1 (hshown ▸ hv)
      exact h.shown v' hv'
    · intro a' v ha' hv
      obtain ⟨v', hv', rfl⟩ := Option.map_eq_some_iff.1 (hshown ▸ hv)
      cases ha.symm.trans ha'
      rfl
    · intro a' v ha' hv
      obtain ⟨v', hv', rfl⟩ := Option.map_eq_some_iff.1 (hshown ▸ hv)
      exact h.releases a' v' ha' hv'
  · exact h

theorem Coherent.highlighted (h : Coherent lower Loaded w) (cancel : Nat) (source : Diffz.Shared)
    (file : FileId) (found : Decorations) :
    Coherent lower Loaded (w.highlighted cancel source file found) := by
  have hshown : ∀ v, (w.highlighted cancel source file found).shown = some v →
      ∃ v', w.shown = some v' ∧ v.snapshot = v'.snapshot ∧ v.file = v'.file ∧
        v.annotations = v'.annotations ∧ v.releases = v'.releases := by
    intro v hv
    obtain ⟨v', hv', heq⟩ := Option.map_eq_some_iff.1 hv
    refine ⟨v', hv', ?_⟩
    split at heq
    · cases heq
      exact ⟨rfl, rfl, rfl, rfl⟩
    · cases heq
      exact ⟨rfl, rfl, rfl, rfl⟩
  refine h.frame ⟨⟨?_, ?_, h.visible, h.filter, h.known, h.offered⟩, ?_⟩ (fun _ hc => hc) le_rfl
    rfl (fun a ha => ⟨a, ha, rfl⟩) (List.Sublist.refl _)
  · intro v hv
    obtain ⟨v', hv', hs, hf, -, -⟩ := hshown v hv
    rw [hs, hf]
    exact h.shown v' hv'
  · intro a v ha hv
    obtain ⟨v', hv', -, hf, hann, -⟩ := hshown v hv
    rw [hf, hann]
    exact h.annotations a v' ha hv'
  · intro a v ha hv
    obtain ⟨v', hv', -, hf, -, hrel⟩ := hshown v hv
    rw [hf, hrel]
    exact h.releases a v' ha hv'

/-- The result of a read of releases that still counts replaces the snapshot. -/
theorem Coherent.released (h : Coherent lower Loaded w) {cancel : Nat} {source : Diffz.Shared}
    {result : Except String Snapshot} (hfree : ∀ p ∈ releasesOf w.tasks, p.1 ≠ cancel)
    (hpending : cancel ∉ w.cancelled → w.releasesPending = some cancel)
    (hcurrent : cancel ∉ w.cancelled → ∃ a, w.active = some a ∧ a.snapshot = source ∧
      source.snapshot.overview.releases = [])
    (hresult : ∀ s, result = .ok s → s.id = source.snapshot.id ∧ s.patch = source.snapshot.patch) :
    Coherent lower Loaded (w.released cancel source result) := by
  unfold Diffz.Workbench.released
  split
  · rename_i hcounts
    obtain ⟨hlive, -⟩ := counts_spec hcounts
    obtain ⟨a, ha, rfl, hnone⟩ := hcurrent hlive
    -- The pending read was this one, so no other one is live.
    have hdead : ∀ p ∈ releasesOf w.tasks, p.1 ∈ w.cancelled := by
      intro p hp
      by_contra hc
      have hsame := (h.pending.live p hp hc).symm.trans (hpending hlive)
      exact hfree p hp (Option.some.inj hsame)
    have hidle : Coherent lower Loaded { w with releasesPending := none } :=
      ⟨h.toView.of_eq rfl rfl rfl rfl rfl rfl rfl,
        ⟨h.pending.bound, h.pending.nodup, fun p hp hc => absurd (hdead p hp) hc⟩,
        fun p hp hc => absurd (hdead p hp) hc⟩
    cases result with
    | error e => exact hidle
    | ok s =>
      obtain ⟨hid, hp⟩ := hresult s rfl
      have hfilter : w.releaseFilter = none := by
        cases hi : w.releaseFilter with
        | none => rfl
        | some i =>
          obtain ⟨a', ha', hlt⟩ := h.filter i hi
          cases ha.symm.trans ha'
          rw [hnone] at hlt
          cases hlt
      obtain ⟨t, ht, htid, htp⟩ := h.known a ha
      have hbase := Base.swap (s := s) hidle.toBase ha ⟨t, ht, hid.trans htid, hp.trans htp⟩ hp
        hfilter
      have htasks : releasesOf ((({ w with releasesPending := none } : Diffz.Workbench).swap
          s).markReleases).fetchBlame.tasks = releasesOf w.tasks := releasesOf_fetchBlame _
      refine ⟨hbase.markReleases.of_eq rfl rfl rfl rfl rfl rfl rfl, ⟨?_, ?_, ?_⟩, ?_⟩
      · intro p hp
        rw [htasks] at hp
        exact Nat.lt_succ_of_lt (h.pending.bound p hp)
      · rw [htasks]
        exact h.pending.nodup
      · intro p hp hc
        rw [htasks] at hp
        exact absurd (hdead p hp) hc
      · intro p hp hc
        rw [htasks] at hp
        exact absurd (hdead p hp) hc
  · exact h

theorem extendBlame_active (ha : w.active = some a) (found : BlameRead) :
    (w.extendBlame found).active = some { a with blame := a.blame.extend found } := by
  rw [extendBlame, ha, Option.map_some]

theorem Base.extendBlame (h : Base lower Loaded w) (found : BlameRead) :
    Base lower Loaded (w.extendBlame found) := by
  have hactive : ∀ a, (w.extendBlame found).active = some a → ∃ a', w.active = some a' ∧
      a.snapshot = a'.snapshot := by
    intro a ha
    obtain ⟨a', ha', rfl⟩ := Option.map_eq_some_iff.1 ha
    exact ⟨a', ha', rfl⟩
  refine ⟨?_, ?_, ?_, ?_, ?_, h.offered⟩
  · intro v hv
    obtain ⟨a, ha, hrest⟩ := h.shown v hv
    exact ⟨_, extendBlame_active ha found, hrest⟩
  · intro a v ha hv
    obtain ⟨a', ha', hs⟩ := hactive a ha
    rw [hs]
    exact h.annotations a' v ha' hv
  · intro a ha
    obtain ⟨a', ha', hs⟩ := hactive a ha
    rw [hs]
    exact h.visible a' ha'
  · intro i hi
    obtain ⟨a, ha, hlt⟩ := h.filter i hi
    exact ⟨_, extendBlame_active ha found, hlt⟩
  · intro a ha
    obtain ⟨a', ha', hs⟩ := hactive a ha
    rw [hs]
    exact h.known a' ha'

theorem Coherent.blamed (h : Coherent lower Loaded w) (cancel : Nat) (source : Diffz.Shared)
    (result : Except String BlameRead) :
    Coherent lower Loaded (w.blamed sha256 cancel source result) := by
  have hidle : Coherent lower Loaded { w with blameBusy := false } :=
    h.frame (h.toView.of_eq rfl rfl rfl rfl rfl rfl rfl) (fun _ hc => hc) le_rfl rfl
      (fun a ha => ⟨a, ha, rfl⟩) (List.Sublist.refl _)
  unfold Diffz.Workbench.blamed
  dsimp only
  split
  · rename_i found
    split
    · have hbase := Base.extendBlame hidle.toBase found
      refine Coherent.fetchBlame (hidle.frame (hbase.markReleases.of_eq rfl rfl rfl rfl rfl rfl rfl)
        (fun _ hc => hc) le_rfl rfl (fun a ha => ⟨_, extendBlame_active ha found, rfl⟩) ?_)
      rw [saveBlame, releasesOf_append]
      exact (List.append_nil _) ▸ List.Sublist.refl _
    · exact hidle.fetchBlame
  · split
    · exact hidle.fetchBlame
    · exact hidle

theorem Coherent.filterRelease (h : Coherent lower Loaded w) {index : Option Nat}
    (hindex : ∀ i, index = some i → ∃ a, w.active = some a ∧
      i < a.snapshot.snapshot.overview.releases.length) :
    Coherent lower Loaded (w.filterRelease lower index) := by
  have hbase : Base lower Loaded
      (({ w with releaseFilter := index } : Diffz.Workbench).filterFiles lower) := by
    refine ⟨h.shown, h.annotations, ?_, hindex, h.known, h.offered⟩
    intro a ha
    have ha' : w.active = some a := ha
    simp only [filterFiles, ha']
  have hmarked : Coherent lower Loaded ((({ w with releaseFilter := index } :
      Diffz.Workbench).filterFiles lower).markReleases) :=
    h.frame hbase.markReleases (fun _ hc => hc) le_rfl rfl (fun a ha => ⟨a, ha, rfl⟩)
      (List.Sublist.refl _)
  unfold Diffz.Workbench.filterRelease
  dsimp only
  split
  · exact hmarked.fetchBlame
  · exact hmarked.fetchBlame.selectFile _

theorem Coherent.erased (h : Coherent lower Loaded w) (k : Nat) :
    Coherent lower Loaded { w with tasks := w.tasks.eraseIdx k } :=
  h.frame (h.toView.of_eq rfl rfl rfl rfl rfl rfl rfl) (fun _ hc => hc) le_rfl rfl
    (fun a ha => ⟨a, ha, rfl⟩) ((List.eraseIdx_sublist _ _).filterMap _)

/-- A read that ends leaves no other read with its token. -/
theorem releasesOf_eraseIdx (h : Pending w) {k cancel : Nat} {source : Diffz.Shared}
    (hk : w.tasks[k]? = some (.releases cancel source)) :
    (cancel, source) ∈ releasesOf w.tasks ∧
      ∀ p ∈ releasesOf (w.tasks.eraseIdx k), p.1 ≠ cancel := by
  obtain ⟨hlt, hget⟩ := List.getElem?_eq_some_iff.1 hk
  have hperm := (List.getElem_cons_eraseIdx_perm hlt).filterMap fun t =>
    match t with
    | Task.releases cancel source => some (cancel, source)
    | _ => none
  rw [hget] at hperm
  have hperm' : ((cancel, source) :: releasesOf (w.tasks.eraseIdx k)).Perm (releasesOf w.tasks) :=
    hperm
  have hnodup := (hperm'.map (·.1)).nodup_iff.2 h.nodup
  rw [List.map_cons, List.nodup_cons] at hnodup
  exact ⟨hperm'.mem_iff.1 List.mem_cons_self,
    fun p hp heq => hnodup.1 (List.mem_map.2 ⟨p, hp, heq⟩)⟩

/-- What is asked of the background reads: a source that opens is one of the loaded snapshots. -/
def Loads (Loaded : Snapshot → Prop) (_ : Diffz.Workbench) : Workbench.Event → Prop
  | .answer _ (.opened (.ok o)) => Loaded o.snapshot
  | _ => True

theorem Coherent.step (hn : Named Loaded) {e : Workbench.Event} (hok : Loads Loaded w e)
    (hs : (system lower sha256).step w e = some w') (h : Coherent lower Loaded w) :
    Coherent lower Loaded w' := by
  cases e with
  | «open» request refresh blocked =>
    cases hs
    split
    · exact h
    · exact h.openPending request refresh
  | accept unsaved =>
    simp only [system, Diffz.Workbench.step] at hs
    split at hs
    · cases hs
      exact h
    · rename_i o ho
      cases hs
      split
      · exact h
      · refine Coherent.install ?_ (h.offered o ho)
        refine h.frame ⟨⟨h.shown, h.annotations, h.visible, h.filter, h.known, ?_⟩, h.releases⟩
          (fun _ hc => hc) le_rfl rfl (fun a ha => ⟨a, ha, rfl⟩) (List.Sublist.refl _)
        rintro o' ⟨⟩
  | select id =>
    cases hs
    exact h.selectFile id
  | filterRelease index =>
    simp only [system, Diffz.Workbench.step] at hs
    split at hs
    · rename_i hindex
      cases hs
      refine h.filterRelease fun i hi => ?_
      subst hi
      rw [Option.all_some, Option.any_eq_true] at hindex
      obtain ⟨a, ha, hlt⟩ := hindex
      exact ⟨a, ha, of_decide_eq_true hlt⟩
    · cases hs
  | filterText query =>
    cases hs
    refine h.frame ⟨⟨h.shown, h.annotations, ?_, h.filter, h.known, h.offered⟩, h.releases⟩
      (fun _ hc => hc) le_rfl rfl (fun a ha => ⟨a, ha, rfl⟩) (List.Sublist.refl _)
    intro a ha
    have ha' : w.active = some a := ha
    simp only [filterFiles, ha']
  | toggleNotes index =>
    cases hs
    exact h.frame (h.toView.of_eq rfl rfl rfl rfl rfl rfl rfl) (fun _ hc => hc) le_rfl rfl
      (fun a ha => ⟨a, ha, rfl⟩) (List.Sublist.refl _)
  | answer k answer =>
    obtain ⟨task, hk, hfinish⟩ := Option.bind_eq_some_iff.1 hs
    have herased := h.erased k
    cases task with
    | «open» generation request refresh =>
      cases answer <;> cases hfinish
      rename_i result
      refine herased.opened hn fun o ho => ?_
      rw [ho] at hok
      exact hok
    | annotate cancel source =>
      cases answer <;> cases hfinish
      exact herased.annotated _ _ _
    | highlight cancel source file =>
      cases answer <;> cases hfinish
      exact herased.highlighted _ _ _ _
    | releases cancel source =>
      cases answer with
      | released read cancelled stored =>
        simp only [finish] at hfinish
        split at hfinish
        · cases hfinish
        · cases hfinish
          obtain ⟨hmem, hfree⟩ := releasesOf_eraseIdx h.pending hk
          refine herased.released hfree (h.pending.live _ hmem) (h.current _ hmem) ?_
          exact fun s hs => releases_same hs
      | opened result => cases hfinish
      | annotated found => cases hfinish
      | highlighted found => cases hfinish
      | blamed permit provider cancelled => cases hfinish
      | saved => cases hfinish
    | blame cancel source paths =>
      cases answer with
      | blamed permit provider cancelled =>
        simp only [finish] at hfinish
        split at hfinish
        · cases hfinish
        · cases hfinish
          exact herased.blamed _ _ _
      | opened result => cases hfinish
      | annotated found => cases hfinish
      | highlighted found => cases hfinish
      | released read cancelled stored => cases hfinish
      | saved => cases hfinish
    | saveBlame id key found =>
      cases answer <;> cases hfinish
      exact herased

theorem coherent_start : Coherent lower Loaded start where
  shown := by rintro v ⟨⟩
  annotations := by rintro a v ⟨⟩
  visible := by rintro a ⟨⟩
  filter := by rintro i ⟨⟩
  known := by rintro a ⟨⟩
  offered := by rintro o ⟨⟩
  releases := by rintro a v ⟨⟩
  pending := ⟨by rintro p ⟨⟩, .nil, by rintro p ⟨⟩⟩
  current := by rintro p ⟨⟩

theorem run_coherent (hn : Named Loaded) {es : List Workbench.Event}
    (hrun : (system lower sha256).Steps (Loads Loaded) start es w) : Coherent lower Loaded w :=
  hrun.invariant (fun _ _ _ hok hs h => h.step hn hok hs) coherent_start

/-- **What is on screen is what the active snapshot gives now.** Whatever is opened, selected and
filtered, and in whichever order the background reads end, the marks of the shown file, the list of
files and the filter belong to the snapshot, the blame and the annotations that are there. -/
theorem run_shows_active (hn : Named Loaded) {es : List Workbench.Event}
    (hrun : (system lower sha256).Steps (Loads Loaded) start es w) : View lower Loaded w :=
  (run_coherent hn hrun).toView

theorem validPath_a : validPath (asBytes "a") = true := by decide

/-- A compare of one file with an added line, as it opens. -/
def compared : Snapshot where
  id := ⟨"s"⟩
  title := "v1...v3"
  origin := ""
  patch := ⟨[{
    id := ⟨"f"⟩, oldPath := none, newPath := some ⟨asBytes "a", validPath_a⟩, kind := .added
    content := .text, oldMode := none, newMode := none, oldOid := none, newOid := none
    hunks := [⟨0, 0, 1, 1, "", [⟨none, some 1, "x ", .lf, .added⟩]⟩], metadata := [] }]⟩
  remote := some {
    provider := .github, repository := ⟨"github.com", 1, "o", "r"⟩, account := "", pr := 0
    targetTip := "v1", comparisonBase := "v1", head := "v3", isOpen := true, draft := false
    merged := false, pendingReview := false, compare := some ⟨"v1", "v3", false⟩, entire := none }
  comments := []
  overview := .empty
  warnings := []

theorem compared_named : Named (· = compared) := by
  rintro s t rfl rfl -
  rfl

/-- The release of a tag, with its one commit. -/
def tagged (tag commit : String) : Release where
  tag := some tag
  commit := commit
  date := none
  commits := 1
  files := []
  notes := none
  url := none
  shas := [commit]

def blankView : SavedView := ⟨0, "", none, .null, .null, none⟩

/-- The window, where no hash matters. -/
def sampleSystem : Lts Diffz.Workbench Workbench.Event := system (fun s => s) fun _ => []

/-- It is opened twice; the first open fails late, and the syntax comes in after the releases. -/
def openedTwice : List Workbench.Event :=
  [.open (.fixture "s") false false, .open (.fixture "s") false false,
    .answer 1 (.opened (.ok ⟨compared, [], blankView⟩)), .answer 0 (.opened (.error "timeout")),
    .answer 2 (.released (.ok ([tagged "v2" "c2", tagged "v3" "c3"], [])) false (.ok ())),
    .answer 0 (.highlighted ∅)]

theorem openedTwice_view : ∃ w, sampleSystem.run start openedTwice = some w ∧
    View (fun s => s) (· = compared) w ∧
    (w.active.map fun a => a.snapshot.snapshot.overview.releases.length) = some 2 := by
  refine ⟨_, rfl, ?_, rfl⟩
  have hrun : sampleSystem.Steps (Loads (· = compared)) start openedTwice _ :=
    .cons trivial rfl (.cons trivial rfl (.cons rfl rfl (.cons trivial rfl
      (.cons trivial rfl (.cons trivial rfl .nil)))))
  exact run_shows_active compared_named hrun

end Workbench
end Proof
end Diffz
