import Diffz.Proof.Workbench.Marks

/-!
# Annotations and syntax are of the patch on screen

Both are read in the background and told by the id of the snapshot they were read from, and by a
token. Those on screen are of the patch on screen; those of a read that was cancelled, which may have
stopped anywhere, never get there (`run_answers_shown`).
-/

set_option autoImplicit false

namespace Diffz
namespace Proof
namespace Workbench

open Diffz.Workbench

variable {lower : String → String} {sha256 : Bytes → Bytes} {Loaded : Snapshot → Prop}
  {w w' : Diffz.Workbench} {a : Active} {v : Shown} {o : Opened} {s t : Snapshot} {id : FileId}

section

-- `findings` are the annotations of a patch, and `paint` is the syntax of one of its files.
variable {findings : PatchReport → List Annotation} {paint : PatchReport → FileId → Decorations}

/-- What is asked of the reads: the sources that open are loaded, and a read that was not cancelled
returns what there is to find. One that was cancelled may return anything. -/
def Honest (Loaded : Snapshot → Prop) (findings : PatchReport → List Annotation)
    (paint : PatchReport → FileId → Decorations) (w : Diffz.Workbench) (e : Workbench.Event) : Prop :=
  Loads Loaded w e ∧
    match e with
    | .answer k (.annotated found) => ∀ cancel source, w.tasks[k]? = some (.annotate cancel source) →
        cancel ∉ w.cancelled → found = findings source.snapshot.patch
    | .answer k (.highlighted found) => ∀ cancel source file,
        w.tasks[k]? = some (.highlight cancel source file) → cancel ∉ w.cancelled →
        found = paint source.snapshot.patch file
    | _ => True

/-- The snapshot a read of annotations or of syntax was started with. -/
def readFrom : Task → Option Diffz.Shared
  | .annotate _ source => some source
  | .highlight _ source _ => some source
  | _ => none

structure Answered (Loaded : Snapshot → Prop) (findings : PatchReport → List Annotation)
    (paint : PatchReport → FileId → Decorations) (w : Diffz.Workbench) : Prop where
  annotations : ∀ a, w.active = some a →
    w.annotations = [] ∨ w.annotations = findings a.snapshot.snapshot.patch
  decorations : ∀ v, w.shown = some v →
    v.decorations = ∅ ∨ v.decorations = paint v.snapshot.snapshot.patch v.file
  tasks : ∀ t ∈ w.tasks, ∀ source, readFrom t = some source → Known Loaded source.snapshot

/-- A step that leaves the patch, the annotations and the syntax. -/
theorem Answered.frame (h : Answered Loaded findings paint w)
    (hactive : ∀ a, w'.active = some a → ∃ a', w.active = some a' ∧
      a.snapshot.snapshot.patch = a'.snapshot.snapshot.patch)
    (hannotations : w'.annotations = w.annotations)
    (hshown : ∀ v, w'.shown = some v → ∃ v', w.shown = some v' ∧
      v.snapshot.snapshot.patch = v'.snapshot.snapshot.patch ∧ v.file = v'.file ∧
      v.decorations = v'.decorations)
    (htasks : ∀ t ∈ w'.tasks, t ∈ w.tasks ∨ ∀ source, readFrom t = some source →
      Known Loaded source.snapshot) : Answered Loaded findings paint w' where
  annotations a ha := by
    obtain ⟨a', ha', hp⟩ := hactive a ha
    rw [hannotations, hp]
    exact h.annotations a' ha'
  decorations v hv := by
    obtain ⟨v', hv', hp, hf, hd⟩ := hshown v hv
    rw [hp, hf, hd]
    exact h.decorations v' hv'
  tasks t ht source hsource := by
    rcases htasks t ht with ht | ht
    · exact h.tasks t ht source hsource
    · exact ht source hsource

theorem markReleases_same (hv : w.markReleases.shown = some v) : ∃ v', w.shown = some v' ∧
    v.snapshot = v'.snapshot ∧ v.file = v'.file ∧ v.decorations = v'.decorations := by
  cases ha : w.active with
  | none =>
    simp only [markReleases, ha] at hv
    exact ⟨v, hv, rfl, rfl, rfl⟩
  | some a =>
    obtain ⟨v', hv', rfl⟩ := markReleases_shown ha hv
    exact ⟨v', hv', rfl, rfl, rfl⟩

theorem Answered.markReleases (h : Answered Loaded findings paint w) :
    Answered Loaded findings paint w.markReleases := by
  refine h.frame (fun a ha => ⟨a, ha, rfl⟩) rfl (fun v hv => ?_) fun _ ht => .inl ht
  obtain ⟨v', hv', hs, hf, hd⟩ := markReleases_same hv
  exact ⟨v', hv', by rw [hs], hf, hd⟩

theorem readFrom_nextBlame {t : Task} (ht : w.nextBlame = some t) : readFrom t = none := by
  obtain ⟨a, -, hnext⟩ := Option.bind_eq_some_iff.1 ht
  split at hnext
  · cases hnext
  · cases hnext
    rfl

theorem Answered.fetchBlame (h : Answered Loaded findings paint w) :
    Answered Loaded findings paint w.fetchBlame := by
  refine h.frame (fun a ha => ⟨a, ha, rfl⟩) rfl (fun v hv => ⟨v, hv, rfl, rfl, rfl⟩) fun t ht => ?_
  rcases List.mem_append.1 ht with ht | ht
  · exact .inl ht
  · refine .inr fun source hsource => ?_
    rw [readFrom_nextBlame (Option.mem_toList.1 ht)] at hsource
    cases hsource

theorem Answered.loadReleases (h : Answered Loaded findings paint w) :
    Answered Loaded findings paint w.loadReleases := by
  refine h.frame (fun a ha => ⟨a, ha, rfl⟩) rfl (fun v hv => ⟨v, hv, rfl, rfl, rfl⟩) fun t ht => ?_
  rcases List.mem_append.1 ht with ht | ht
  · exact .inl ht
  · obtain ⟨a, -, rfl⟩ := Option.map_eq_some_iff.1 (Option.mem_toList.1 ht)
    exact .inr fun source hsource => by cases hsource

/-- A read of annotations or of syntax is of the active snapshot. -/
theorem Answered.started (h : Answered Loaded findings paint w)
    (hknown : ∀ a, w.active = some a → Known Loaded a.snapshot.snapshot)
    (hactive : w'.active = w.active) (hannotations : w'.annotations = w.annotations)
    (hshown : w'.shown = w.shown) {read : Active → Task}
    (hread : ∀ a, readFrom (read a) = some a.snapshot)
    (htasks : w'.tasks = w.tasks ++ (w.active.map read).toList) :
    Answered Loaded findings paint w' := by
  refine h.frame (fun a ha => ⟨a, hactive ▸ ha, rfl⟩) hannotations
    (fun v hv => ⟨v, hshown ▸ hv, rfl, rfl, rfl⟩) fun t ht => ?_
  rw [htasks] at ht
  rcases List.mem_append.1 ht with ht | ht
  · exact .inl ht
  · obtain ⟨a, ha, rfl⟩ := Option.map_eq_some_iff.1 (Option.mem_toList.1 ht)
    refine .inr fun source hsource => ?_
    cases (hread a).symm.trans hsource
    exact hknown a ha

theorem Answered.selectFile (h : Answered Loaded findings paint w)
    (hknown : ∀ a, w.active = some a → Known Loaded a.snapshot.snapshot) (id : FileId) :
    Answered Loaded findings paint (w.selectFile id) := by
  rcases selectFile_cases w id with heq | ⟨a, ha, -, heq⟩
  · rw [heq]
    exact h
  · rw [heq]
    have hshown : Answered Loaded findings paint
        (((w.showFile a id).markAnnotations).markReleases) := by
      refine ⟨?_, ?_, h.tasks⟩
      · rintro a' ⟨⟩
        exact h.annotations a ha
      · rintro v ⟨⟩
        exact .inl rfl
    refine hshown.fetchBlame.started ?_ rfl rfl rfl (fun _ => rfl) rfl
    rintro a' ⟨⟩
    exact hknown a ha

theorem Answered.install (h : Answered Loaded findings paint w) (ho : Loaded o.snapshot) :
    Answered Loaded findings paint (w.install lower o) := by
  have hreplaced : Answered Loaded findings paint ((w.replaced o).filterFiles lower) := by
    refine ⟨?_, ?_, h.tasks⟩
    · rintro a ⟨⟩
      exact .inl rfl
    · rintro v ⟨⟩
  have hknown : ∀ a, ((w.replaced o).filterFiles lower).active = some a →
      Known Loaded a.snapshot.snapshot := by
    rintro a ⟨⟩
    exact .of_loaded ho
  obtain ⟨w', hw', heq⟩ := install_cases lower w o
  have hfirst : Answered Loaded findings paint w'.annotate := by
    rcases hw' with rfl | ⟨id, rfl⟩
    · exact hreplaced.started hknown rfl rfl rfl (fun _ => rfl) rfl
    · refine (hreplaced.selectFile hknown id).started ?_ rfl rfl rfl (fun _ => rfl) rfl
      intro a ha
      rcases selectFile_cases ((w.replaced o).filterFiles lower) id with hsame | ⟨a', ha', -, hsame⟩
      · rw [hsame] at ha
        exact hknown a ha
      · rw [hsame] at ha
        cases ha
        exact hknown a' ha'
  rw [heq]
  exact hfirst.loadReleases

/-- A snapshot with the same files takes the place of the active one. -/
theorem Answered.swap (h : Answered Loaded findings paint w)
    (hp : ∀ a, w.active = some a → s.patch = a.snapshot.snapshot.patch)
    (hshown : ∀ v, w.shown = some v → s.patch = v.snapshot.snapshot.patch) :
    Answered Loaded findings paint (w.swap s) := by
  refine h.frame (fun a ha => ?_) rfl (fun v hv => ?_) fun _ ht => .inl ht
  · obtain ⟨a', ha', rfl⟩ := Option.map_eq_some_iff.1 ha
    exact ⟨a', ha', hp a' ha'⟩
  · obtain ⟨v', hv', rfl⟩ := Option.map_eq_some_iff.1 hv
    exact ⟨v', hv', hshown v' hv', rfl, rfl⟩

/-- With `Coherent`, what is shown is the active snapshot. -/
theorem Answered.swap_active (h : Answered Loaded findings paint w) (hc : Coherent lower Loaded w)
    (hp : ∀ a, w.active = some a → s.patch = a.snapshot.snapshot.patch) :
    Answered Loaded findings paint (w.swap s) := by
  refine h.swap hp fun v hv => ?_
  obtain ⟨a, ha, hs, -⟩ := hc.shown v hv
  rw [hs]
  exact hp a ha

theorem Answered.refreshed (h : Answered Loaded findings paint w) (hc : Coherent lower Loaded w)
    (hp : ∀ a, w.active = some a → s.patch = a.snapshot.snapshot.patch) :
    Answered Loaded findings paint (w.refreshed lower s) := by
  have hfiltered : Answered Loaded findings paint (((w.swap s).clearFilter).filterFiles lower) :=
    (h.swap_active hc hp).frame (fun a ha => ⟨a, ha, rfl⟩) rfl
      (fun v hv => ⟨v, hv, rfl, rfl, rfl⟩) fun _ ht => .inl ht
  exact hfiltered.loadReleases.markReleases.fetchBlame

theorem Answered.opened (h : Answered Loaded findings paint w) (hc : Coherent lower Loaded w)
    (hn : Named Loaded) {n : Nat} {request : Handoff.OpenRequest} {refresh : Bool}
    {result : Except String Opened} (hresult : ∀ o, result = .ok o → Loaded o.snapshot) :
    Answered Loaded findings paint (w.opened lower n request refresh result) := by
  have hidle : Answered Loaded findings paint { w with loading := false } :=
    h.frame (fun a ha => ⟨a, ha, rfl⟩) rfl (fun v hv => ⟨v, hv, rfl, rfl, rfl⟩) fun _ ht => .inl ht
  unfold Diffz.Workbench.opened
  split
  · exact h
  · cases result with
    | error e => exact hidle
    | ok o =>
      have ho := hresult o rfl
      dsimp only
      split
      · split
        · exact hidle.frame (fun a ha => ⟨a, ha, rfl⟩) rfl (fun v hv => ⟨v, hv, rfl, rfl, rfl⟩)
            fun _ ht => .inl ht
        · rename_i hsame
          have hcoherent : Coherent lower Loaded { w with loading := false } :=
            hc.frame (hc.toView.of_eq rfl rfl rfl rfl rfl rfl rfl) (fun _ hc => hc) le_rfl rfl
              (fun a ha => ⟨a, ha, rfl⟩) (List.Sublist.refl _)
          refine hidle.refreshed hcoherent fun a ha => ?_
          refine Known.patch_eq hn ⟨_, ho, rfl, rfl⟩ (hc.known a ha) ?_
          by_contra hne
          exact hsame ((Option.any_eq_true ..).2 ⟨a, ha, decide_eq_true fun e => hne e.symm⟩)
      · refine Answered.install ?_ ho
        exact hidle.frame (fun a ha => ⟨a, ha, rfl⟩) rfl (fun v hv => ⟨v, hv, rfl, rfl, rfl⟩)
          fun _ ht => .inl ht

/-- A result that counts is of the patch of the active snapshot. -/
theorem Answered.annotated (h : Answered Loaded findings paint w) (hc : Coherent lower Loaded w)
    (hn : Named Loaded) {cancel : Nat} {source : Diffz.Shared} {found : List Annotation}
    (hsource : Known Loaded source.snapshot)
    (hfound : cancel ∉ w.cancelled → found = findings source.snapshot.patch) :
    Answered Loaded findings paint (w.annotated cancel source found) := by
  unfold Diffz.Workbench.annotated
  split
  · rename_i hcounts
    obtain ⟨hlive, a, ha, hid⟩ := counts_spec hcounts
    have hp := Known.patch_eq hn (hc.known a ha) hsource hid
    have hshown : ∀ v, ({ w with annotations := found } : Diffz.Workbench).markAnnotations.shown =
        some v → ∃ v', w.shown = some v' ∧ v.snapshot = v'.snapshot ∧ v.file = v'.file ∧
          v.decorations = v'.decorations := by
      intro v hv
      simp only [markAnnotations, ha] at hv
      obtain ⟨v', hv', rfl⟩ := Option.map_eq_some_iff.1 hv
      exact ⟨v', hv', rfl, rfl, rfl⟩
    refine ⟨?_, ?_, h.tasks⟩
    · intro a' ha'
      cases ha.symm.trans ha'
      rw [hp]
      exact .inr (hfound hlive)
    · intro v hv
      obtain ⟨v', hv', hs, hf, hd⟩ := hshown v hv
      rw [hs, hf, hd]
      exact h.decorations v' hv'
  · exact h

theorem Answered.highlighted (h : Answered Loaded findings paint w) (hc : Coherent lower Loaded w)
    (hn : Named Loaded) {cancel : Nat} {source : Diffz.Shared} {file : FileId} {found : Decorations}
    (hsource : Known Loaded source.snapshot)
    (hfound : cancel ∉ w.cancelled → found = paint source.snapshot.patch file) :
    Answered Loaded findings paint (w.highlighted cancel source file found) := by
  refine ⟨h.annotations, ?_, h.tasks⟩
  intro v hv
  obtain ⟨v', hv', heq⟩ := Option.map_eq_some_iff.1 hv
  split at heq
  · rename_i hcounts
    simp only [Bool.and_eq_true, Bool.not_eq_true', decide_eq_true_eq] at hcounts
    obtain ⟨⟨hlive, hid⟩, hfile⟩ := hcounts
    obtain ⟨a, ha, hs, -⟩ := hc.shown v' hv'
    have hp := Known.patch_eq hn (hs ▸ hc.known a ha) hsource hid
    cases heq
    refine .inr ?_
    rw [hp, hfile]
    exact hfound (by simpa using hlive)
  · rw [← heq]
    exact h.decorations v' hv'

theorem Answered.released (h : Answered Loaded findings paint w) (hc : Coherent lower Loaded w)
    {cancel : Nat} {source : Diffz.Shared} {result : Except String Snapshot}
    (hcurrent : cancel ∉ w.cancelled → ∃ a, w.active = some a ∧ a.snapshot = source)
    (hresult : ∀ s, result = .ok s → s.patch = source.snapshot.patch) :
    Answered Loaded findings paint (w.released cancel source result) := by
  have hidle : Answered Loaded findings paint { w with releasesPending := none } :=
    h.frame (fun a ha => ⟨a, ha, rfl⟩) rfl (fun v hv => ⟨v, hv, rfl, rfl, rfl⟩) fun _ ht => .inl ht
  unfold Diffz.Workbench.released
  split
  · rename_i hcounts
    obtain ⟨a, ha, rfl⟩ := hcurrent (counts_spec hcounts).1
    cases result with
    | error e => exact hidle
    | ok s =>
      have hp : ∀ a', w.active = some a' → s.patch = a'.snapshot.snapshot.patch := by
        intro a' ha'
        cases ha.symm.trans ha'
        exact hresult s rfl
      refine Answered.fetchBlame (Answered.markReleases (hidle.swap hp fun v hv => ?_))
      obtain ⟨a', ha', hs, -⟩ := hc.shown v hv
      rw [hs]
      exact hp a' ha'
  · exact h

theorem Answered.blamed (h : Answered Loaded findings paint w) (cancel : Nat) (source : Diffz.Shared)
    (result : Except String BlameRead) :
    Answered Loaded findings paint (w.blamed sha256 cancel source result) := by
  have hidle : Answered Loaded findings paint { w with blameBusy := false } :=
    h.frame (fun a ha => ⟨a, ha, rfl⟩) rfl (fun v hv => ⟨v, hv, rfl, rfl, rfl⟩) fun _ ht => .inl ht
  unfold Diffz.Workbench.blamed
  dsimp only
  split
  · rename_i found
    split
    · have hextended : Answered Loaded findings paint
          (({ w with blameBusy := false } : Diffz.Workbench).extendBlame found) := by
        refine hidle.frame (fun a ha => ?_) rfl (fun v hv => ⟨v, hv, rfl, rfl, rfl⟩)
          fun _ ht => .inl ht
        obtain ⟨a', ha', rfl⟩ := Option.map_eq_some_iff.1 ha
        exact ⟨a', ha', rfl⟩
      refine Answered.fetchBlame (hextended.markReleases.frame (fun a ha => ⟨a, ha, rfl⟩) rfl
        (fun v hv => ⟨v, hv, rfl, rfl, rfl⟩) fun t ht => ?_)
      rcases List.mem_append.1 ht with ht | ht
      · exact .inl ht
      · rw [List.mem_singleton.1 ht]
        exact .inr fun source hsource => by cases hsource
    · exact hidle.fetchBlame
  · split
    · exact hidle.fetchBlame
    · exact hidle

theorem Answered.filterRelease (h : Answered Loaded findings paint w)
    (hknown : ∀ a, w.active = some a → Known Loaded a.snapshot.snapshot) (index : Option Nat) :
    Answered Loaded findings paint (w.filterRelease lower index) := by
  have hfiltered : Answered Loaded findings paint
      (({ w with releaseFilter := index } : Diffz.Workbench).filterFiles lower) :=
    h.frame (fun a ha => ⟨a, ha, rfl⟩) rfl (fun v hv => ⟨v, hv, rfl, rfl, rfl⟩) fun _ ht => .inl ht
  unfold Diffz.Workbench.filterRelease
  dsimp only
  split
  · exact hfiltered.markReleases.fetchBlame
  · exact hfiltered.markReleases.fetchBlame.selectFile hknown _

theorem Answered.step (hn : Named Loaded) {e : Workbench.Event} (hc : Coherent lower Loaded w)
    (hok : Honest Loaded findings paint w e) (hs : (system lower sha256).step w e = some w')
    (h : Answered Loaded findings paint w) : Answered Loaded findings paint w' := by
  cases e with
  | «open» request refresh blocked =>
    cases hs
    split
    · exact h
    · refine h.frame (fun a ha => ⟨a, ha, rfl⟩) rfl (fun v hv => ⟨v, hv, rfl, rfl, rfl⟩)
        fun t ht => ?_
      rcases List.mem_append.1 ht with ht | ht
      · exact .inl ht
      · rw [List.mem_singleton.1 ht]
        exact .inr fun source hsource => by cases hsource
  | accept unsaved =>
    simp only [system, Diffz.Workbench.step] at hs
    split at hs
    · cases hs
      exact h
    · rename_i o ho
      cases hs
      split
      · exact h
      · refine Answered.install ?_ (hc.offered o ho)
        exact h.frame (fun a ha => ⟨a, ha, rfl⟩) rfl (fun v hv => ⟨v, hv, rfl, rfl, rfl⟩)
          fun _ ht => .inl ht
  | select id =>
    cases hs
    exact h.selectFile hc.known id
  | filterRelease index =>
    simp only [system, Diffz.Workbench.step] at hs
    split at hs
    · cases hs
      exact h.filterRelease hc.known index
    · cases hs
  | filterText query =>
    cases hs
    exact h.frame (fun a ha => ⟨a, ha, rfl⟩) rfl (fun v hv => ⟨v, hv, rfl, rfl, rfl⟩)
      fun _ ht => .inl ht
  | toggleNotes index =>
    cases hs
    exact h.frame (fun a ha => ⟨a, ha, rfl⟩) rfl (fun v hv => ⟨v, hv, rfl, rfl, rfl⟩)
      fun _ ht => .inl ht
  | answer k answer =>
    obtain ⟨task, hk, hfinish⟩ := Option.bind_eq_some_iff.1 hs
    have hcoherent := hc.erased k
    have herased : Answered Loaded findings paint { w with tasks := w.tasks.eraseIdx k } :=
      h.frame (fun a ha => ⟨a, ha, rfl⟩) rfl (fun v hv => ⟨v, hv, rfl, rfl, rfl⟩)
        fun t ht => .inl (List.mem_of_mem_eraseIdx ht)
    have hsource := h.tasks task (List.mem_of_getElem? hk)
    cases task with
    | «open» generation request refresh =>
      cases answer <;> cases hfinish
      refine herased.opened hcoherent hn fun o ho => ?_
      have hload := hok.1
      rw [ho] at hload
      exact hload
    | annotate cancel source =>
      cases answer <;> cases hfinish
      exact herased.annotated hcoherent hn (hsource source rfl) (hok.2 cancel source hk)
    | highlight cancel source file =>
      cases answer <;> cases hfinish
      exact herased.highlighted hcoherent hn (hsource source rfl) (hok.2 cancel source file hk)
    | releases cancel source =>
      cases answer with
      | released read cancelled stored =>
        simp only [finish] at hfinish
        split at hfinish
        · cases hfinish
        · cases hfinish
          obtain ⟨hmem, -⟩ := releasesOf_eraseIdx hc.pending hk
          refine herased.released hcoherent (fun hlive => ?_) fun s hs => (releases_same hs).2
          obtain ⟨a, ha, hs, -⟩ := hc.current _ hmem hlive
          exact ⟨a, ha, hs⟩
      | opened result => cases hfinish
      | annotated found => cases hfinish
      | highlighted found => cases hfinish
      | blamed permit provider cancelled => cases hfinish
      | saved => cases hfinish
    | blame cancel source paths =>
      cases answer with
      | blamed permit provider cancelled =>
        simp only [finish] at hfinish
        split at hfinish
        · cases hfinish
        · cases hfinish
          exact herased.blamed _ _ _
      | opened result => cases hfinish
      | annotated found => cases hfinish
      | highlighted found => cases hfinish
      | released read cancelled stored => cases hfinish
      | saved => cases hfinish
    | saveBlame id key found =>
      cases answer <;> cases hfinish
      exact herased

theorem answered_start : Answered Loaded findings paint start where
  annotations := by rintro a ⟨⟩
  decorations := by rintro v ⟨⟩
  tasks := by rintro t ⟨⟩

/-- **Annotations and syntax on screen are of the patch on screen.** However the opens, the refreshes
and the selections overlap with the reads, the annotations are none or those of the patch of the
active snapshot, each shown on its line, and the syntax is none or that of the shown file. -/
theorem run_answers_shown (hn : Named Loaded) {es : List Workbench.Event}
    (hrun : (system lower sha256).Steps (Honest Loaded findings paint) start es w)
    (ha : w.active = some a) :
    (w.annotations = [] ∨ w.annotations = findings a.snapshot.snapshot.patch) ∧
      ∀ v, w.shown = some v → v.snapshot = a.snapshot ∧
        v.annotations = annotationMarks a.snapshot.snapshot w.annotations v.file ∧
        (v.decorations = ∅ ∨ v.decorations = paint a.snapshot.snapshot.patch v.file) := by
  have hboth : Coherent lower Loaded w ∧ Answered Loaded findings paint w :=
    hrun.invariant (P := fun w => Coherent lower Loaded w ∧ Answered Loaded findings paint w)
      (fun _ _ _ hok hs h => ⟨h.1.step hn hok.1 hs, h.2.step hn h.1 hok hs⟩)
      ⟨coherent_start, answered_start⟩
  obtain ⟨hc, h⟩ := hboth
  refine ⟨h.annotations a ha, fun v hv => ?_⟩
  obtain ⟨a', ha', hs, -⟩ := hc.shown v hv
  cases ha.symm.trans ha'
  exact ⟨hs, hc.annotations a v ha hv, hs ▸ h.decorations v hv⟩

end

/-- What the check of trailing blanks finds in a patch. -/
def sampleFindings (patch : PatchReport) : List Annotation :=
  ((DiffCheck.annotate { compared with patch } fun _ => false).toOption).getD []

/-- The source is opened again before its annotations are read. That cancels the first read, which
returns half of something; the second one is complete. -/
def annotatedTwice : List Workbench.Event :=
  [.open (.fixture "s") false false, .answer 0 (.opened (.ok ⟨compared, [], blankView⟩)),
    .open (.fixture "s") false false, .answer 3 (.opened (.ok ⟨compared, [], blankView⟩)),
    .answer 1 (.annotated [⟨.file "a", .error, "half", none, "check"⟩]),
    .answer 3 (.annotated (sampleFindings compared.patch))]

theorem annotatedTwice_shown : ∃ w a, sampleSystem.run start annotatedTwice = some w ∧
    w.active = some a ∧
    (w.annotations = [] ∨ w.annotations = sampleFindings a.snapshot.snapshot.patch) := by
  obtain ⟨w, hrun, a, ha⟩ : ∃ w, sampleSystem.Steps (Honest (· = compared) sampleFindings
      fun _ _ => ∅) start annotatedTwice w ∧ ∃ a, w.active = some a := by
    refine ⟨_, .cons ⟨trivial, trivial⟩ rfl (.cons ⟨rfl, trivial⟩ rfl (.cons ⟨trivial, trivial⟩ rfl
      (.cons ⟨rfl, trivial⟩ rfl (.cons ⟨trivial, ?_⟩ rfl (.cons ⟨trivial, ?_⟩ rfl .nil))))), _, rfl⟩
    · intro cancel source h hlive
      cases h
      exact absurd (by decide) hlive
    · intro cancel source h hlive
      cases h
      rfl
  exact ⟨w, a, hrun.run, ha, (run_answers_shown compared_named hrun ha).1⟩

end Workbench
end Proof
end Diffz
