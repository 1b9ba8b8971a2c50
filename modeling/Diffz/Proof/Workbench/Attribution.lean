import Diffz.Proof.Blame
import Diffz.Proof.Workbench.Marks

/-!
# Blame that is shown is for the releases that are shown

A blame range names its release by an index. The list it is an index into is replaced while blame is
read, by the releases of the compare, by a refresh, or with the whole source. What was read counts
only for the allocation it was read from (`blame_applies`), and no two allocations have one number;
so every range that is shown, and every one that is sent to the store, names a release of its own
list that has its commit (`run_attributed`).
-/

set_option autoImplicit false

namespace Diffz
namespace Proof
namespace Workbench

open Diffz.Workbench

variable {lower : String → String} {sha256 : Bytes → Bytes} {Loaded : Snapshot → Prop}
  {w w' : Diffz.Workbench} {a : Active} {o : Opened} {s t : Snapshot} {found : BlameRead}
  {releases : List Release}

/-- Every range names a release of the list that has its commit. -/
def Attributed (releases : List Release) (blame : BlameRead) : Prop :=
  ∀ path ranges, (path, some ranges) ∈ blame.entries → ∀ b ∈ ranges,
    ∃ r, releases[b.release]? = some r ∧ b.commit ∈ r.shas

theorem attributed_empty (releases : List Release) : Attributed releases .empty := by
  rintro path ranges ⟨⟩

theorem mem_foldl_insert {m : BlameRead} {l : List (String × Option (List Blamed))}
    {e : String × Option (List Blamed)}
    (h : e ∈ (l.foldl (fun m e => OrdMap.insert m e.1 e.2) m).entries) : e ∈ l ∨ e ∈ m.entries := by
  induction l generalizing m with
  | nil => exact .inr h
  | cons f l ih =>
    rcases ih h with hl | hm
    · exact .inl (List.mem_cons_of_mem _ hl)
    · rcases OrdMap.mem_insert hm with rfl | hm
      · exact .inl List.mem_cons_self
      · exact .inr hm

theorem Attributed.extend {blame : BlameRead} (h : Attributed releases blame)
    (hf : Attributed releases found) : Attributed releases (blame.extend found) := by
  intro path ranges hmem
  rcases mem_foldl_insert hmem with hmem | hmem
  · exact hf path ranges hmem
  · exact h path ranges hmem

/-- What `Services::blame` returns is attributed to the releases of the snapshot it is asked about. -/
theorem blame_attributed {paths : List String} {permit : Except String Unit}
    {provider : List (String × Nat × Nat) → Compare.BlameAnswer} {cancelled : Bool}
    (h : Compare.blame s paths permit provider cancelled = .ok found) :
    Attributed s.overview.releases found := by
  unfold Compare.blame at h
  split at h
  · cases h
  · obtain ⟨u, -, h⟩ := ok_of_bind h
    dsimp only at h
    split at h
    · cases h
    · cases h
      intro path ranges hmem b hb
      rcases mem_foldl_insert hmem with hmem | hmem
      · obtain ⟨e, -, heq⟩ := List.mem_map.1 hmem
        obtain ⟨r, -, hr⟩ := Option.map_eq_some_iff.1 (congrArg Prod.snd heq)
        rw [← hr] at hb
        exact Blame.shaReleases_some (Blame.mem_attributeRanges.1 hb).2
      · cases hmem

/-- What `Services::releases` returns has no blame where it was asked about a snapshot without. -/
theorem releases_blame {read : Except String (List Release × List String)} {cancelled : Bool}
    {stored : Except String Unit} (h : Compare.releases s read cancelled stored = .ok t)
    (hs : s.overview.blame = .empty) : t.overview.blame = .empty := by
  unfold Compare.releases at h
  split at h
  · cases h
    exact hs
  · dsimp only at h
    split at h
    · cases h
    · obtain ⟨u, -, rfl⟩ := ok_of_map h
      simp only [hs, ite_self]

/-! ## The invariant -/

/-- What is known of a read under way. -/
def TaskAttributed (sha256 : Bytes → Bytes) (w : Diffz.Workbench) : Task → Prop
  | .blame _ source _ => source.alloc < w.fresh ∧
      ∀ a, w.active = some a → a.snapshot.alloc = source.alloc → a.snapshot = source
  | .releases _ source => source.snapshot.overview.blame = .empty
  | .saveBlame id key found => ∃ s : Snapshot, s.id = id ∧
      key = releasesKey sha256 s.overview.releases ∧ Attributed s.overview.releases found
  | _ => True

structure Blames (sha256 : Bytes → Bytes) (Loaded : Snapshot → Prop) (w : Diffz.Workbench) :
    Prop where
  active : ∀ a, w.active = some a → Attributed a.snapshot.snapshot.overview.releases a.blame ∧
    a.snapshot.alloc < w.fresh ∧ a.snapshot.snapshot.overview.blame = .empty
  offered : ∀ o, w.offered = some o → Loaded o.snapshot
  tasks : ∀ t ∈ w.tasks, TaskAttributed sha256 w t

/-- A task stays as it was where the snapshot does, or where the new one is a new allocation. -/
theorem TaskAttributed.of_active {task : Task} (h : TaskAttributed sha256 w task)
    (hfresh : w.fresh ≤ w'.fresh)
    (hactive : ∀ a, w'.active = some a → (∃ a', w.active = some a' ∧ a.snapshot = a'.snapshot) ∨
      w.fresh ≤ a.snapshot.alloc) : TaskAttributed sha256 w' task := by
  cases task with
  | blame cancel source paths =>
    obtain ⟨hlt, hsame⟩ := h
    refine ⟨Nat.lt_of_lt_of_le hlt hfresh, fun a ha heq => ?_⟩
    rcases hactive a ha with ⟨a', ha', hs⟩ | hnew
    · rw [hs] at heq ⊢
      exact hsame a' ha' heq
    · omega
  | releases cancel source => exact h
  | saveBlame id key found => exact h
  | «open» generation request refresh => trivial
  | annotate cancel source => trivial
  | highlight cancel source file => trivial

/-- A step that starts no read and leaves the snapshot and its blame. -/
theorem Blames.frame (h : Blames sha256 Loaded w) (hfresh : w.fresh ≤ w'.fresh)
    (hactive : ∀ a, w'.active = some a → ∃ a', w.active = some a' ∧ a.snapshot = a'.snapshot ∧
      a.blame = a'.blame)
    (hoffered : ∀ o, w'.offered = some o → w.offered = some o)
    (htasks : ∀ t ∈ w'.tasks, t ∈ w.tasks ∨ TaskAttributed sha256 w' t) :
    Blames sha256 Loaded w' where
  active a ha := by
    obtain ⟨a', ha', hs, hb⟩ := hactive a ha
    obtain ⟨hattr, halloc, hblame⟩ := h.active a' ha'
    rw [hs, hb]
    exact ⟨hattr, Nat.lt_of_lt_of_le halloc hfresh, hblame⟩
  offered o ho := h.offered o (hoffered o ho)
  tasks t ht := by
    rcases htasks t ht with ht | ht
    · refine (h.tasks t ht).of_active hfresh fun a ha => .inl ?_
      obtain ⟨a', ha', hs, -⟩ := hactive a ha
      exact ⟨a', ha', hs⟩
    · exact ht

theorem Blames.fetchBlame (h : Blames sha256 Loaded w) : Blames sha256 Loaded w.fetchBlame := by
  refine h.frame le_rfl (fun a ha => ⟨a, ha, rfl, rfl⟩) (fun _ ho => ho) fun t ht => ?_
  rcases List.mem_append.1 ht with ht | ht
  · exact .inl ht
  · right
    obtain ⟨a, ha, hnext⟩ := Option.bind_eq_some_iff.1 (Option.mem_toList.1 ht)
    split at hnext
    · cases hnext
    · cases hnext
      refine ⟨(h.active a ha).2.1, fun a' ha' _ => ?_⟩
      cases ha.symm.trans ha'
      rfl

theorem Blames.highlight (h : Blames sha256 Loaded w) (id : FileId) :
    Blames sha256 Loaded (w.highlight id) := by
  refine h.frame (Nat.le_succ _) (fun a ha => ⟨a, ha, rfl, rfl⟩) (fun _ ho => ho) fun t ht => ?_
  rcases List.mem_append.1 ht with ht | ht
  · exact .inl ht
  · right
    obtain ⟨a, -, rfl⟩ := Option.map_eq_some_iff.1 (Option.mem_toList.1 ht)
    trivial

theorem Blames.annotate (h : Blames sha256 Loaded w) : Blames sha256 Loaded w.annotate := by
  refine h.frame (Nat.le_succ _) (fun a ha => ⟨a, ha, rfl, rfl⟩) (fun _ ho => ho) fun t ht => ?_
  rcases List.mem_append.1 ht with ht | ht
  · exact .inl ht
  · right
    obtain ⟨a, -, rfl⟩ := Option.map_eq_some_iff.1 (Option.mem_toList.1 ht)
    trivial

theorem Blames.loadReleases (h : Blames sha256 Loaded w) :
    Blames sha256 Loaded w.loadReleases := by
  refine h.frame (Nat.le_succ _) (fun a ha => ⟨a, ha, rfl, rfl⟩) (fun _ ho => ho) fun t ht => ?_
  rcases List.mem_append.1 ht with ht | ht
  · exact .inl ht
  · right
    obtain ⟨a, ha, rfl⟩ := Option.map_eq_some_iff.1 (Option.mem_toList.1 ht)
    exact (h.active a (Option.filter_eq_some_iff.1 ha).1).2.2

theorem Blames.selectFile (h : Blames sha256 Loaded w) (id : FileId) :
    Blames sha256 Loaded (w.selectFile id) := by
  rcases selectFile_cases w id with heq | ⟨a, ha, -, heq⟩
  · rw [heq]
    exact h
  · rw [heq]
    have hshown : Blames sha256 Loaded (((w.showFile a id).markAnnotations).markReleases) := by
      refine h.frame le_rfl ?_ (fun _ ho => ho) fun _ ht => .inl ht
      rintro a' ⟨⟩
      exact ⟨a, ha, rfl, rfl⟩
    exact hshown.fetchBlame.highlight id

/-- A new snapshot, with blame that is its own. -/
theorem Blames.swap (h : Blames sha256 Loaded w)
    (hs : Attributed s.overview.releases s.overview.blame) : Blames sha256 Loaded (w.swap s) := by
  refine ⟨?_, h.offered, ?_⟩
  · intro a ha
    obtain ⟨a', -, rfl⟩ := Option.map_eq_some_iff.1 ha
    exact ⟨hs, Nat.lt_succ_self _, rfl⟩
  · intro t ht
    refine (h.tasks t ht).of_active (Nat.le_succ _) fun a ha => .inr ?_
    obtain ⟨a', -, rfl⟩ := Option.map_eq_some_iff.1 ha
    exact le_rfl

theorem Blames.install (h : Blames sha256 Loaded w)
    (ho : Attributed o.snapshot.overview.releases o.snapshot.overview.blame) :
    Blames sha256 Loaded (w.install lower o) := by
  have hreplaced : Blames sha256 Loaded ((w.replaced o).filterFiles lower) := by
    refine ⟨?_, ?_, ?_⟩
    · rintro a ⟨⟩
      exact ⟨ho, Nat.lt_succ_self _, rfl⟩
    · rintro o' ⟨⟩
    · intro t ht
      refine (h.tasks t ht).of_active (Nat.le_succ _) fun a ha => .inr ?_
      cases ha
      exact le_rfl
  obtain ⟨w', hw', heq⟩ := install_cases lower w o
  have hfirst : Blames sha256 Loaded w' := by
    rcases hw' with rfl | ⟨id, rfl⟩
    · exact hreplaced
    · exact hreplaced.selectFile id
  rw [heq]
  exact hfirst.annotate.loadReleases

/-- What was read for the active snapshot is shown and saved. -/
theorem Blames.blameRead (h : Blames sha256 Loaded w) {source : Diffz.Shared} (ha : w.active = some a)
    (hs : a.snapshot = source) (hf : Attributed source.snapshot.overview.releases found) :
    Blames sha256 Loaded
      (((w.extendBlame found).markReleases).saveBlame sha256 source found) := by
  have hactive : (w.extendBlame found).active = some { a with blame := a.blame.extend found } :=
    extendBlame_active ha found
  refine ⟨?_, h.offered, ?_⟩
  · intro a' ha'
    cases hactive.symm.trans ha'
    obtain ⟨hattr, halloc, hblame⟩ := h.active a ha
    subst hs
    exact ⟨hattr.extend hf, halloc, hblame⟩
  · intro t ht
    rcases List.mem_append.1 ht with ht | ht
    · refine (h.tasks t ht).of_active le_rfl fun a' ha' => .inl ⟨a, ha, ?_⟩
      cases hactive.symm.trans ha'
      rfl
    · rw [List.mem_singleton.1 ht]
      exact ⟨source.snapshot, rfl, rfl, hf⟩

theorem Blames.blamed (h : Blames sha256 Loaded w) {cancel : Nat} {source : Diffz.Shared}
    {result : Except String BlameRead}
    (hsame : ∀ a, w.active = some a → a.snapshot.alloc = source.alloc → a.snapshot = source)
    (hresult : ∀ found, result = .ok found → Attributed source.snapshot.overview.releases found) :
    Blames sha256 Loaded (w.blamed sha256 cancel source result) := by
  have hidle : Blames sha256 Loaded { w with blameBusy := false } :=
    h.frame le_rfl (fun a ha => ⟨a, ha, rfl, rfl⟩) (fun _ ho => ho) fun _ ht => .inl ht
  unfold Diffz.Workbench.blamed
  dsimp only
  split
  · rename_i found
    split
    · rename_i happlies
      obtain ⟨a, ha, halloc⟩ := (Option.any_eq_true ..).1 happlies
      have hs := hsame a ha (of_decide_eq_true halloc)
      exact (hidle.blameRead (a := a) ha hs (hresult found rfl)).fetchBlame
    · exact hidle.fetchBlame
  · split
    · exact hidle.fetchBlame
    · exact hidle

theorem Blames.refreshed (h : Blames sha256 Loaded w)
    (hs : Attributed s.overview.releases s.overview.blame) :
    Blames sha256 Loaded (w.refreshed lower s) := by
  have hcleared : Blames sha256 Loaded (((w.swap s).clearFilter).filterFiles lower) :=
    (h.swap hs).frame le_rfl (fun a ha => ⟨a, ha, rfl, rfl⟩) (fun _ ho => ho) fun _ ht => .inl ht
  have hmarked : Blames sha256 Loaded
      (((((w.swap s).clearFilter).filterFiles lower).loadReleases).markReleases) :=
    hcleared.loadReleases.frame le_rfl (fun a ha => ⟨a, ha, rfl, rfl⟩) (fun _ ho => ho)
      fun _ ht => .inl ht
  exact hmarked.fetchBlame

theorem Blames.opened (h : Blames sha256 Loaded w)
    (hl : ∀ s, Loaded s → Attributed s.overview.releases s.overview.blame) {generation : Nat}
    {request : Handoff.OpenRequest} {refresh : Bool} {result : Except String Opened}
    (hresult : ∀ o, result = .ok o → Loaded o.snapshot) :
    Blames sha256 Loaded (w.opened lower generation request refresh result) := by
  have hsame : ∀ w' : Diffz.Workbench, w'.active = w.active → w'.tasks = w.tasks →
      w'.fresh = w.fresh → (∀ o, w'.offered = some o → Loaded o.snapshot) →
      Blames sha256 Loaded w' := by
    intro w' hactive htasks hfresh hoffered
    refine ⟨?_, hoffered, ?_⟩
    · rw [hactive, hfresh]
      exact h.active
    · intro t ht
      rw [htasks] at ht
      refine (h.tasks t ht).of_active (by rw [hfresh]) fun a ha => .inl ⟨a, ?_, rfl⟩
      rwa [hactive] at ha
  unfold Diffz.Workbench.opened
  split
  · exact h
  · cases result with
    | error e => exact hsame _ rfl rfl rfl h.offered
    | ok o =>
      have ho := hresult o rfl
      dsimp only
      split
      · split
        · refine hsame _ rfl rfl rfl ?_
          rintro o' ⟨⟩
          exact ho
        · exact Blames.refreshed (hsame _ rfl rfl rfl h.offered) (hl _ ho)
      · exact Blames.install (hsame _ rfl rfl rfl h.offered) (hl _ ho)

theorem Blames.released (h : Blames sha256 Loaded w) {cancel : Nat} {source : Diffz.Shared}
    {result : Except String Snapshot}
    (hresult : ∀ s, result = .ok s → s.overview.blame = .empty) :
    Blames sha256 Loaded (w.released cancel source result) := by
  unfold Diffz.Workbench.released
  split
  · have hidle : Blames sha256 Loaded { w with releasesPending := none } :=
      h.frame le_rfl (fun a ha => ⟨a, ha, rfl, rfl⟩) (fun _ ho => ho) fun _ ht => .inl ht
    cases result with
    | error e => exact hidle
    | ok s =>
      have hs := hresult s rfl
      have hswap : Blames sha256 Loaded
          (({ w with releasesPending := none } : Diffz.Workbench).swap s).markReleases := by
        refine (hidle.swap ?_).frame le_rfl (fun a ha => ⟨a, ha, rfl, rfl⟩) (fun _ ho => ho)
          fun _ ht => .inl ht
        rw [hs]
        exact attributed_empty _
      exact hswap.fetchBlame
  · exact h

theorem Blames.filterRelease (h : Blames sha256 Loaded w) (index : Option Nat) :
    Blames sha256 Loaded (w.filterRelease lower index) := by
  have hmarked : Blames sha256 Loaded ((({ w with releaseFilter := index } :
      Diffz.Workbench).filterFiles lower).markReleases) :=
    h.frame le_rfl (fun a ha => ⟨a, ha, rfl, rfl⟩) (fun _ ho => ho) fun _ ht => .inl ht
  unfold Diffz.Workbench.filterRelease
  dsimp only
  split
  · exact hmarked.fetchBlame
  · exact hmarked.fetchBlame.selectFile _

/-- What is asked of the sources that open: their blame is for their own releases. -/
theorem Blames.step (hl : ∀ s, Loaded s → Attributed s.overview.releases s.overview.blame)
    {e : Workbench.Event} (hok : Loads Loaded w e) (hs : (system lower sha256).step w e = some w')
    (h : Blames sha256 Loaded w) : Blames sha256 Loaded w' := by
  cases e with
  | «open» request refresh blocked =>
    cases hs
    split
    · exact h
    · refine h.frame (Nat.le_succ _) (fun a ha => ⟨a, ha, rfl, rfl⟩) (fun _ ho => ho) fun t ht => ?_
      rcases List.mem_append.1 ht with ht | ht
      · exact .inl ht
      · rw [List.mem_singleton.1 ht]
        exact .inr trivial
  | accept unsaved =>
    simp only [system, Diffz.Workbench.step] at hs
    split at hs
    · cases hs
      exact h
    · rename_i o ho
      cases hs
      split
      · exact h
      · refine Blames.install (h.frame le_rfl (fun a ha => ⟨a, ha, rfl, rfl⟩) ?_
          fun _ ht => .inl ht) (hl _ (h.offered o ho))
        rintro o' ⟨⟩
  | select id =>
    cases hs
    exact h.selectFile id
  | filterRelease index =>
    simp only [system, Diffz.Workbench.step] at hs
    split at hs
    · cases hs
      exact h.filterRelease index
    · cases hs
  | filterText query =>
    cases hs
    exact h.frame le_rfl (fun a ha => ⟨a, ha, rfl, rfl⟩) (fun _ ho => ho) fun _ ht => .inl ht
  | toggleNotes index =>
    cases hs
    exact h.frame le_rfl (fun a ha => ⟨a, ha, rfl, rfl⟩) (fun _ ho => ho) fun _ ht => .inl ht
  | answer k answer =>
    obtain ⟨task, hk, hfinish⟩ := Option.bind_eq_some_iff.1 hs
    have htask := h.tasks task (List.mem_of_getElem? hk)
    have herased : Blames sha256 Loaded { w with tasks := w.tasks.eraseIdx k } :=
      h.frame le_rfl (fun a ha => ⟨a, ha, rfl, rfl⟩) (fun _ ho => ho)
        fun t ht => .inl (List.mem_of_mem_eraseIdx ht)
    cases task with
    | «open» generation request refresh =>
      cases answer <;> cases hfinish
      refine herased.opened hl fun o ho => ?_
      rw [ho] at hok
      exact hok
    | annotate cancel source =>
      cases answer <;> cases hfinish
      unfold annotated
      split
      · exact herased.frame le_rfl (fun a ha => ⟨a, ha, rfl, rfl⟩) (fun _ ho => ho)
          fun _ ht => .inl ht
      · exact herased
    | highlight cancel source file =>
      cases answer <;> cases hfinish
      exact herased.frame le_rfl (fun a ha => ⟨a, ha, rfl, rfl⟩) (fun _ ho => ho)
        fun _ ht => .inl ht
    | releases cancel source =>
      cases answer with
      | released read cancelled stored =>
        simp only [finish] at hfinish
        split at hfinish
        · cases hfinish
        · cases hfinish
          exact herased.released fun s hs => releases_blame hs htask
      | opened result => cases hfinish
      | annotated found => cases hfinish
      | highlighted found => cases hfinish
      | blamed permit provider cancelled => cases hfinish
      | saved => cases hfinish
    | blame cancel source paths =>
      cases answer with
      | blamed permit provider cancelled =>
        simp only [finish] at hfinish
        split at hfinish
        · cases hfinish
        · cases hfinish
          exact herased.blamed htask.2 fun found hf => blame_attributed hf
      | opened result => cases hfinish
      | annotated found => cases hfinish
      | highlighted found => cases hfinish
      | released read cancelled stored => cases hfinish
      | saved => cases hfinish
    | saveBlame id key found =>
      cases answer <;> cases hfinish
      exact herased

theorem blames_start : Blames sha256 Loaded start where
  active := by rintro a ⟨⟩
  offered := by rintro o ⟨⟩
  tasks := by rintro t ⟨⟩

theorem run_blames (hl : ∀ s, Loaded s → Attributed s.overview.releases s.overview.blame)
    {es : List Workbench.Event} (hrun : (system lower sha256).Steps (Loads Loaded) start es w) :
    Blames sha256 Loaded w :=
  hrun.invariant (fun _ _ _ hok hs h => h.step hl hok hs) blames_start

/-! ## The marks -/

theorem mem_of_lookup {l : List (String × Option (List Blamed))} {path : String}
    {ranges : Option (List Blamed)} (h : l.lookup path = some ranges) : (path, ranges) ∈ l := by
  obtain ⟨l₁, l₂, rfl, -⟩ := List.lookup_eq_some_iff.1 h
  exact List.mem_append_right _ List.mem_cons_self

theorem blamed_attributed {blame : BlameRead} {path : String} {line : Nat} {b : Blamed}
    (h : Attributed releases blame) (hb : Diffz.blamed blame path line = some b) :
    ∃ r, releases[b.release]? = some r ∧ b.commit ∈ r.shas := by
  unfold Diffz.blamed at hb
  split at hb
  · rename_i ranges hget
    have hmem := List.mem_of_getElem? (Option.filter_eq_some_iff.1 hb).1
    exact h path ranges (mem_of_lookup hget) b hmem
  · cases hb

/-- The releases that a mark of an added line speaks of. -/
def Names (s : Snapshot) (m : ReleaseMark) : Prop :=
  ∃ i r commit, m.release = some i ∧ s.overview.releases[i]? = some r ∧ commit ∈ r.shas ∧
    m.label = "Changed in " ++
      r.name (((s.remote.bind (·.compare)).map (·.head)).getD "head") ++ " · " ++
      String.ofList (commit.toList.take 7)

theorem rowMark_names {blame : BlameRead} {focus : Option Nat} {path : String} {touched : List Nat}
    {row : PatchRow} {line : Nat} {m : ReleaseMark} (h : Attributed s.overview.releases blame)
    (hm : rowMark s blame focus path touched row = some ((.right, line), m)) : Names s m := by
  unfold rowMark at hm
  dsimp only at hm
  split at hm
  · obtain ⟨b, hb, hm⟩ := Option.bind_eq_some_iff.1 hm
    obtain ⟨r, hr, hm⟩ := Option.map_eq_some_iff.1 hm
    cases hm
    unfold rowRelease at hb
    split at hb
    · cases hb
    · obtain ⟨n, -, hb⟩ := Option.bind_eq_some_iff.1 hb
      obtain ⟨r', hr', hsha⟩ := blamed_attributed h hb
      cases hr.symm.trans hr'
      exact ⟨b.release, r, b.commit, rfl, hr, hsha, rfl⟩
  · cases hm
  · cases hm

theorem releaseMarks_names {blame : BlameRead} {focus : Option Nat} {file : FileId} {line : Nat}
    {m : ReleaseMark} (h : Attributed s.overview.releases blame)
    (hm : (releaseMarks s blame focus file).find (.right, line) = some m) : Names s m := by
  unfold releaseMarks at hm
  split at hm
  · rw [Table.find_empty] at hm
    cases hm
  · have hwritten := Table.find_foldl (P := fun e : (Side × Nat) × ReleaseMark =>
      e = ((.right, line), m)) (fun t e he => ?_) hm
    · rcases hwritten with hnone | ⟨e, he, rfl⟩
      · rw [Table.find_empty] at hnone
        cases hnone
      · obtain ⟨row, -, hrow⟩ := List.mem_filterMap.1 he
        exact rowMark_names h hrow
    · rw [Table.find_put] at he
      split at he
      · rename_i hkey
        cases he
        exact .inr (Prod.ext hkey.symm rfl)
      · exact .inl he

/-- **Blame that is shown is for the releases that are shown.** In every state of every run, each
range of the active blame, each range that goes to the store, and each mark of an added line names a
release of the list it stands with, and that release has its commit. -/
theorem run_attributed (hn : Named Loaded)
    (hl : ∀ s, Loaded s → Attributed s.overview.releases s.overview.blame) {es : List Workbench.Event}
    (hrun : (system lower sha256).Steps (Loads Loaded) start es w) :
    (∀ id key found, Task.saveBlame id key found ∈ w.tasks → ∃ s : Snapshot, s.id = id ∧
      key = releasesKey sha256 s.overview.releases ∧ Attributed s.overview.releases found) ∧
    ∀ a, w.active = some a → Attributed a.snapshot.snapshot.overview.releases a.blame ∧
      ∀ v, w.shown = some v → ∀ line m, v.releases.find (.right, line) = some m →
        Names a.snapshot.snapshot m := by
  have hblames := run_blames hl hrun
  refine ⟨fun id key found hmem => hblames.tasks _ hmem, fun a ha => ?_⟩
  have hattr := (hblames.active a ha).1
  refine ⟨hattr, fun v hv line m hm => ?_⟩
  rw [(run_coherent hn hrun).releases a v ha hv] at hm
  exact releaseMarks_names hattr hm

/-- The compare is opened, its releases come in, and after them the blame of the file. -/
def blamedLate : List Workbench.Event :=
  [.open (.fixture "s") false false, .answer 0 (.opened (.ok ⟨compared, [], blankView⟩)),
    .answer 2 (.released (.ok ([tagged "v2" "c2", tagged "v3" "c3"], [])) false (.ok ())),
    .answer 2 (.blamed (.ok ()) (fun _ => .ok [some [(1, 1, "c3")]]) false)]

theorem blamedLate_names : ∃ w a v m, sampleSystem.run start blamedLate = some w ∧
    w.active = some a ∧ w.shown = some v ∧ v.releases.find (.right, 1) = some m ∧
    Names a.snapshot.snapshot m := by
  have hsome : ((sampleSystem.run start blamedLate).bind fun w =>
      w.shown.bind fun v => v.releases.find (.right, 1)).isSome = true := by decide +kernel
  obtain ⟨m, hm⟩ := Option.isSome_iff_exists.1 hsome
  obtain ⟨w, hw, hm⟩ := Option.bind_eq_some_iff.1 hm
  obtain ⟨v, hv, hm⟩ := Option.bind_eq_some_iff.1 hm
  have hrun : sampleSystem.Steps (Loads (· = compared)) start blamedLate w := by
    refine (Lts.steps_of_run hw).of_mem fun _ e he => ?_
    simp only [blamedLate, List.mem_cons, List.not_mem_nil, or_false] at he
    rcases he with rfl | rfl | rfl | rfl
    · trivial
    · rfl
    · trivial
    · trivial
  obtain ⟨a, ha, -, -⟩ := (run_coherent compared_named hrun).shown v hv
  have hl : ∀ s, s = compared → Attributed s.overview.releases s.overview.blame := by
    rintro s rfl
    exact attributed_empty _
  exact ⟨w, a, v, m, hw, ha, hv, hm, ((run_attributed compared_named hl hrun).2 a ha).2 v hv 1 m hm⟩

end Workbench
end Proof
end Diffz
