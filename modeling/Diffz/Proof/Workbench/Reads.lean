import Mathlib.Data.List.Count
import Diffz.Proof.Workbench.Marks

/-!
# Which open counts

An open has a number, and only the newest one may put a source on screen. A blame read is alone: the
flag `blameBusy` is on exactly while one is under way. What a refresh brings is offered, unless it is
a newer state of the source that is shown (`run_newest_open`).
-/

set_option autoImplicit false

namespace Diffz
namespace Proof
namespace Workbench

open Diffz.Workbench

variable {lower : String → String} {sha256 : Bytes → Bytes} {Loaded : Snapshot → Prop}
  {w w' : Diffz.Workbench} {a : Active} {v : Shown} {o : Opened} {s t : Snapshot} {id : FileId}

/-! ## The numbers of the opens -/

def openNumber : Task → Option Nat
  | .open generation _ _ => some generation
  | _ => none

def isBlame : Task → Bool
  | .blame _ _ _ => true
  | _ => false

/-- The opens under way. -/
def openNumbers (w : Diffz.Workbench) : List Nat := w.tasks.filterMap openNumber

/-- How many blame reads are under way. -/
def blameReads (w : Diffz.Workbench) : Nat := w.tasks.countP isBlame

structure Serial (w : Diffz.Workbench) : Prop where
  bound : ∀ n ∈ openNumbers w, n ≤ w.openGeneration
  nodup : (openNumbers w).Nodup
  loading : w.loading = true ↔ w.openGeneration ∈ openNumbers w
  blame : blameReads w = if w.blameBusy then 1 else 0

/-- A step that starts and ends no open. -/
theorem Serial.frame (h : Serial w) (hgeneration : w'.openGeneration = w.openGeneration)
    (hloading : w'.loading = w.loading) (hopens : openNumbers w' = openNumbers w)
    (hblame : blameReads w' = if w'.blameBusy then 1 else 0) : Serial w' where
  bound := by rw [hopens, hgeneration]; exact h.bound
  nodup := by rw [hopens]; exact h.nodup
  loading := by rw [hopens, hgeneration, hloading]; exact h.loading
  blame := hblame

/-- A step that starts one read, which is neither an open nor of blame. -/
theorem Serial.started (h : Serial w) (hgeneration : w'.openGeneration = w.openGeneration)
    (hloading : w'.loading = w.loading) (hbusy : w'.blameBusy = w.blameBusy) {new : List Task}
    (htasks : w'.tasks = w.tasks ++ new)
    (hnew : ∀ t ∈ new, openNumber t = none ∧ isBlame t = false) : Serial w' := by
  refine h.frame hgeneration hloading ?_ ?_
  · have hnone : new.filterMap openNumber = [] :=
      List.filterMap_eq_nil_iff.2 fun t ht => (hnew t ht).1
    rw [openNumbers, htasks, List.filterMap_append, hnone, List.append_nil]
    rfl
  · have hzero : new.countP isBlame = 0 :=
      List.countP_eq_zero.2 fun t ht => by simp [(hnew t ht).2]
    rw [blameReads, htasks, List.countP_append, hzero, Nat.add_zero, hbusy]
    exact h.blame

theorem Serial.of_eq (h : Serial w) (hgeneration : w'.openGeneration = w.openGeneration)
    (hloading : w'.loading = w.loading) (hbusy : w'.blameBusy = w.blameBusy)
    (htasks : w'.tasks = w.tasks) : Serial w' :=
  h.started hgeneration hloading hbusy (htasks.trans (List.append_nil _).symm) (by simp)

theorem nextBlame_cases (w : Diffz.Workbench) : w.nextBlame = none ∨
    w.blameBusy = false ∧ ∃ cancel source paths, w.nextBlame = some (.blame cancel source paths) := by
  unfold nextBlame
  cases w.active with
  | none => exact .inl rfl
  | some a =>
    rw [Option.bind_some]
    split
    · exact .inl rfl
    · rename_i hidle
      simp only [Bool.or_eq_true, not_or, Bool.not_eq_true] at hidle
      exact .inr ⟨hidle.1, _, _, _, rfl⟩

theorem Serial.fetchBlame (h : Serial w) : Serial w.fetchBlame := by
  rcases nextBlame_cases w with hnone | ⟨hidle, cancel, source, paths, hnext⟩
  · refine h.of_eq rfl rfl ?_ ?_
    · simp [Diffz.Workbench.fetchBlame, hnone]
    · simp [Diffz.Workbench.fetchBlame, hnone]
  · have htasks : w.fetchBlame.tasks = w.tasks ++ [.blame cancel source paths] := by
      simp [Diffz.Workbench.fetchBlame, hnext]
    refine h.frame rfl rfl ?_ ?_
    · rw [openNumbers, htasks, List.filterMap_append]
      exact List.append_nil _
    · have hblame := h.blame
      rw [hidle] at hblame
      rw [blameReads, htasks, List.countP_append]
      simp only [blameReads, Bool.false_eq_true, if_false] at hblame
      simp [Diffz.Workbench.fetchBlame, hnext, hblame, isBlame]

theorem Serial.highlight (h : Serial w) (id : FileId) : Serial (w.highlight id) := by
  refine h.started rfl rfl rfl rfl fun t ht => ?_
  obtain ⟨a, -, rfl⟩ := Option.map_eq_some_iff.1 (Option.mem_toList.1 ht)
  exact ⟨rfl, rfl⟩

theorem Serial.annotate (h : Serial w) : Serial w.annotate := by
  refine h.started rfl rfl rfl rfl fun t ht => ?_
  obtain ⟨a, -, rfl⟩ := Option.map_eq_some_iff.1 (Option.mem_toList.1 ht)
  exact ⟨rfl, rfl⟩

theorem Serial.loadReleases (h : Serial w) : Serial w.loadReleases := by
  refine h.started rfl rfl rfl rfl fun t ht => ?_
  obtain ⟨a, -, rfl⟩ := Option.map_eq_some_iff.1 (Option.mem_toList.1 ht)
  exact ⟨rfl, rfl⟩

theorem Serial.selectFile (h : Serial w) (id : FileId) : Serial (w.selectFile id) := by
  rcases selectFile_cases w id with heq | ⟨a, -, -, heq⟩
  · rw [heq]
    exact h
  · rw [heq]
    have hshown : Serial (((w.showFile a id).markAnnotations).markReleases) := h.of_eq rfl rfl rfl rfl
    exact hshown.fetchBlame.highlight id

theorem Serial.install (h : Serial w) (o : Opened) : Serial (w.install lower o) := by
  have hreplaced : Serial ((w.replaced o).filterFiles lower) := h.of_eq rfl rfl rfl rfl
  obtain ⟨w', hw', heq⟩ := install_cases lower w o
  have hfirst : Serial w' := by
    rcases hw' with rfl | ⟨id, rfl⟩
    · exact hreplaced
    · exact hreplaced.selectFile id
  rw [heq]
  exact hfirst.annotate.loadReleases

theorem Serial.refreshed (h : Serial w) (s : Snapshot) : Serial (w.refreshed lower s) := by
  have hswap : Serial (((w.swap s).clearFilter).filterFiles lower) := h.of_eq rfl rfl rfl rfl
  have hmarked : Serial (((((w.swap s).clearFilter).filterFiles lower).loadReleases).markReleases) :=
    hswap.loadReleases.of_eq rfl rfl rfl rfl
  exact hmarked.fetchBlame

theorem Serial.openPending (h : Serial w) (request : Handoff.OpenRequest) (refresh : Bool) :
    Serial (w.openPending request refresh) := by
  have hopens : openNumbers (w.openPending request refresh) =
      openNumbers w ++ [w.openGeneration + 1] := List.filterMap_append
  refine ⟨?_, ?_, ?_, ?_⟩
  · intro n hn
    rw [hopens, List.mem_append, List.mem_singleton] at hn
    rcases hn with hn | rfl
    · exact Nat.le_succ_of_le (h.bound n hn)
    · exact le_rfl
  · rw [hopens, List.nodup_append']
    refine ⟨h.nodup, List.nodup_singleton _, ?_⟩
    intro n hn hn'
    have hle := h.bound n hn
    rw [List.mem_singleton.1 hn'] at hle
    omega
  · rw [hopens]
    exact ⟨fun _ => List.mem_append_right _ (List.mem_singleton_self _), fun _ => rfl⟩
  · have hcount : blameReads (w.openPending request refresh) = blameReads w :=
      List.countP_append
    rw [hcount]
    exact h.blame

theorem Serial.filterRelease (h : Serial w) (index : Option Nat) :
    Serial (w.filterRelease lower index) := by
  have hmarked : Serial ((({ w with releaseFilter := index } : Diffz.Workbench).filterFiles
      lower).markReleases) := h.of_eq rfl rfl rfl rfl
  unfold Diffz.Workbench.filterRelease
  dsimp only
  split
  · exact hmarked.fetchBlame
  · exact hmarked.fetchBlame.selectFile _

/-! ## A read ends -/

theorem exists_erased {l : List Task} {k : Nat} {task : Task} (h : l[k]? = some task) :
    ∃ l₁ l₂, l = l₁ ++ task :: l₂ ∧ l.eraseIdx k = l₁ ++ l₂ := by
  obtain ⟨hlt, rfl⟩ := List.getElem?_eq_some_iff.1 h
  refine ⟨l.take k, l.drop (k + 1), ?_, List.eraseIdx_eq_take_drop_succ ..⟩
  rw [List.getElem_cons_drop, List.take_append_drop]

variable {k : Nat} {task : Task}

theorem Serial.erased (h : Serial w) (hk : w.tasks[k]? = some task) (hopen : openNumber task = none)
    (hblame : isBlame task = false) : Serial { w with tasks := w.tasks.eraseIdx k } := by
  obtain ⟨l₁, l₂, hl, he⟩ := exists_erased hk
  have hopens : openNumbers { w with tasks := w.tasks.eraseIdx k } = openNumbers w := by
    rw [openNumbers, openNumbers, he, hl]
    simp only [List.filterMap_append, List.filterMap_cons, hopen]
  refine h.frame rfl rfl hopens ?_
  rw [blameReads, he, List.countP_append]
  have hcount := h.blame
  rw [blameReads, hl, List.countP_append, List.countP_cons_of_neg (by simp [hblame])] at hcount
  exact hcount

/-- The one blame read that is under way ends. -/
theorem Serial.erased_blame (h : Serial w) (hk : w.tasks[k]? = some task)
    (hblame : isBlame task = true) :
    Serial { w with tasks := w.tasks.eraseIdx k, blameBusy := false } := by
  obtain ⟨l₁, l₂, hl, he⟩ := exists_erased hk
  have hopen : openNumber task = none := by
    cases task with
    | blame cancel source paths => rfl
    | «open» generation request refresh => cases hblame
    | annotate cancel source => rfl
    | highlight cancel source file => rfl
    | releases cancel source => rfl
    | saveBlame id key found => rfl
  have hopens : openNumbers { w with tasks := w.tasks.eraseIdx k, blameBusy := false } =
      openNumbers w := by
    rw [openNumbers, openNumbers, he, hl]
    simp only [List.filterMap_append, List.filterMap_cons, hopen]
  refine h.frame rfl rfl hopens ?_
  have hcount := h.blame
  rw [blameReads, hl, List.countP_append, List.countP_cons_of_pos hblame] at hcount
  rw [blameReads, he, List.countP_append]
  simp only [Bool.false_eq_true, if_false]
  split at hcount
  · omega
  · omega

/-- An open ends; a newer one goes on loading. -/
theorem Serial.opened (h : Serial w) {n : Nat} {request : Handoff.OpenRequest} {refresh : Bool}
    (hk : w.tasks[k]? = some (.open n request refresh)) (result : Except String Opened) :
    Serial (({ w with tasks := w.tasks.eraseIdx k } : Diffz.Workbench).opened lower n request refresh
      result) := by
  obtain ⟨l₁, l₂, hl, he⟩ := exists_erased hk
  have hbefore : openNumbers w = l₁.filterMap openNumber ++ n :: l₂.filterMap openNumber := by
    rw [openNumbers, hl, List.filterMap_append]
    rfl
  have hafter : openNumbers { w with tasks := w.tasks.eraseIdx k } =
      l₁.filterMap openNumber ++ l₂.filterMap openNumber := by
    rw [openNumbers, he, List.filterMap_append]
  have hsub : (openNumbers { w with tasks := w.tasks.eraseIdx k }).Sublist (openNumbers w) := by
    rw [hbefore, hafter]
    exact (List.Sublist.refl _).append (List.sublist_cons_self _ _)
  have hcount : blameReads { w with tasks := w.tasks.eraseIdx k } = if w.blameBusy then 1 else 0 := by
    have hcount := h.blame
    rw [blameReads, hl, List.countP_append, List.countP_cons_of_neg (by simp [isBlame])] at hcount
    rw [blameReads, he, List.countP_append]
    exact hcount
  have hnodup := h.nodup.sublist hsub
  unfold Diffz.Workbench.opened
  split
  · rename_i hold
    refine ⟨fun m hm => h.bound m (hsub.subset hm), hnodup, ?_, hcount⟩
    refine h.loading.trans ⟨fun hmem => ?_, fun hmem => hsub.subset hmem⟩
    rw [hbefore, List.mem_append, List.mem_cons] at hmem
    rw [hafter, List.mem_append]
    rcases hmem with hmem | rfl | hmem
    · exact .inl hmem
    · exact absurd rfl hold
    · exact .inr hmem
  · rename_i hnewest
    obtain rfl : w.openGeneration = n := not_not.1 hnewest
    have hdone : Serial { w with tasks := w.tasks.eraseIdx k, loading := false } := by
      refine ⟨fun m hm => h.bound m (hsub.subset hm), hnodup, ?_, hcount⟩
      refine ⟨fun hloading => absurd hloading Bool.false_ne_true, fun hmem => ?_⟩
      have hall := h.nodup
      rw [hbefore] at hall
      have hnot := (List.nodup_middle.1 hall).notMem
      exact absurd (hafter ▸ hmem) hnot
    cases result with
    | error e => exact hdone
    | ok o =>
      dsimp only
      split
      · split
        · exact hdone.of_eq rfl rfl rfl rfl
        · exact hdone.refreshed _
      · refine Serial.install ?_ o
        exact hdone.of_eq rfl rfl rfl rfl

theorem Serial.released (h : Serial w) (cancel : Nat) (source : Diffz.Shared)
    (result : Except String Snapshot) : Serial (w.released cancel source result) := by
  unfold Diffz.Workbench.released
  split
  · cases result with
    | error e => exact h.of_eq rfl rfl rfl rfl
    | ok s =>
      have hswap : Serial ((({ w with releasesPending := none } : Diffz.Workbench).swap
          s).markReleases) := h.of_eq rfl rfl rfl rfl
      exact hswap.fetchBlame
  · exact h

theorem Serial.blamed {cancel : Nat} {source : Diffz.Shared} {result : Except String BlameRead}
    (h : Serial { w with blameBusy := false }) : Serial (w.blamed sha256 cancel source result) := by
  unfold Diffz.Workbench.blamed
  dsimp only
  split
  · rename_i found
    split
    · refine Serial.fetchBlame (h.started rfl rfl rfl rfl fun t ht => ?_)
      rw [List.mem_singleton.1 ht]
      exact ⟨rfl, rfl⟩
    · exact h.fetchBlame
  · split
    · exact h.fetchBlame
    · exact h

theorem Serial.step {e : Workbench.Event} (hs : (system lower sha256).step w e = some w') (h : Serial w) :
    Serial w' := by
  cases e with
  | «open» request refresh blocked =>
    cases hs
    split
    · exact h
    · exact h.openPending request refresh
  | accept unsaved =>
    simp only [system, Diffz.Workbench.step] at hs
    split at hs
    · cases hs
      exact h
    · rename_i o ho
      cases hs
      split
      · exact h
      · have hasked : Serial { w with offered := none } := h.of_eq rfl rfl rfl rfl
        exact hasked.install o
  | select id =>
    cases hs
    exact h.selectFile id
  | filterRelease index =>
    simp only [system, Diffz.Workbench.step] at hs
    split at hs
    · cases hs
      exact h.filterRelease index
    · cases hs
  | filterText query =>
    cases hs
    exact h.of_eq rfl rfl rfl rfl
  | toggleNotes index =>
    cases hs
    exact h.of_eq rfl rfl rfl rfl
  | answer k answer =>
    obtain ⟨task, hk, hfinish⟩ := Option.bind_eq_some_iff.1 hs
    cases task with
    | «open» generation request refresh =>
      cases answer <;> cases hfinish
      exact h.opened hk _
    | annotate cancel source =>
      cases answer <;> cases hfinish
      unfold annotated
      split
      · exact (h.erased hk rfl rfl).of_eq rfl rfl rfl rfl
      · exact h.erased hk rfl rfl
    | highlight cancel source file =>
      cases answer <;> cases hfinish
      exact (h.erased hk rfl rfl).of_eq rfl rfl rfl rfl
    | releases cancel source =>
      cases answer with
      | released read cancelled stored =>
        simp only [finish] at hfinish
        split at hfinish
        · cases hfinish
        · cases hfinish
          exact (h.erased hk rfl rfl).released _ _ _
      | opened result => cases hfinish
      | annotated found => cases hfinish
      | highlighted found => cases hfinish
      | blamed permit provider cancelled => cases hfinish
      | saved => cases hfinish
    | blame cancel source paths =>
      cases answer with
      | blamed permit provider cancelled =>
        simp only [finish] at hfinish
        split at hfinish
        · cases hfinish
        · cases hfinish
          exact Serial.blamed (h.erased_blame hk rfl)
      | opened result => cases hfinish
      | annotated found => cases hfinish
      | highlighted found => cases hfinish
      | released read cancelled stored => cases hfinish
      | saved => cases hfinish
    | saveBlame id key found =>
      cases answer <;> cases hfinish
      exact h.erased hk rfl rfl

theorem serial_start : Serial start where
  bound := by rintro n ⟨⟩
  nodup := .nil
  loading := ⟨fun h => absurd h Bool.false_ne_true, by rintro ⟨⟩⟩
  blame := rfl

/-! ## Which source is shown -/

def activeId (w : Diffz.Workbench) : Option SnapshotId :=
  w.active.map fun a => a.snapshot.snapshot.id

theorem activeId_eq (ha : w.active = some a) : activeId w = some a.snapshot.snapshot.id := by
  rw [activeId, ha, Option.map_some]

theorem activeId_selectFile (w : Diffz.Workbench) (id : FileId) :
    activeId (w.selectFile id) = activeId w ∧ (w.selectFile id).offered = w.offered := by
  rcases selectFile_cases w id with heq | ⟨a, ha, -, heq⟩
  · rw [heq]
    exact ⟨rfl, rfl⟩
  · rw [heq, activeId_eq ha]
    exact ⟨rfl, rfl⟩

theorem activeId_install (w : Diffz.Workbench) (o : Opened) :
    activeId (w.install lower o) = some o.snapshot.id ∧ (w.install lower o).offered = none := by
  obtain ⟨w', hw', heq⟩ := install_cases lower w o
  rw [heq]
  rcases hw' with rfl | ⟨id, rfl⟩
  · exact ⟨rfl, rfl⟩
  · exact activeId_selectFile ((w.replaced o).filterFiles lower) id

/-- A snapshot of the same id takes the place of the active one. -/
theorem activeId_swap (hs : activeId w = none ∨ activeId w = some s.id) :
    activeId (w.swap s) = activeId w := by
  cases ha : w.active with
  | none => simp only [activeId, swap, ha, Option.map_none]
  | some a =>
    rw [activeId_eq ha] at hs ⊢
    rcases hs with hs | hs
    · cases hs
    · rw [hs]
      simp only [activeId, swap, ha, Option.map_some]
      rfl

theorem activeId_released {cancel : Nat} {source : Diffz.Shared} {result : Except String Snapshot}
    (hresult : ∀ s, result = .ok s → s.id = source.snapshot.id) :
    activeId (w.released cancel source result) = activeId w ∧
      (w.released cancel source result).offered = w.offered := by
  unfold Diffz.Workbench.released
  split
  · rename_i hcounts
    obtain ⟨-, a, ha, hid⟩ := counts_spec hcounts
    cases result with
    | error e => exact ⟨rfl, rfl⟩
    | ok s =>
      have hswap := activeId_swap (s := s) (w := { w with releasesPending := none })
        (.inr ((activeId_eq ha).trans (congrArg some (hid.trans (hresult s rfl).symm))))
      exact ⟨hswap, rfl⟩
  · exact ⟨rfl, rfl⟩

theorem activeId_blamed (w : Diffz.Workbench) (cancel : Nat) (source : Diffz.Shared)
    (result : Except String BlameRead) :
    activeId (w.blamed sha256 cancel source result) = activeId w ∧
      (w.blamed sha256 cancel source result).offered = w.offered := by
  have hextend : ∀ found, activeId (w.extendBlame found) = activeId w := by
    intro found
    cases ha : w.active with
    | none => simp only [activeId, extendBlame, ha, Option.map_none]
    | some a => simp only [activeId, extendBlame, ha, Option.map_some]
  unfold Diffz.Workbench.blamed
  dsimp only
  split
  · rename_i found
    split
    · exact ⟨hextend found, rfl⟩
    · exact ⟨rfl, rfl⟩
  · split
    · exact ⟨rfl, rfl⟩
    · exact ⟨rfl, rfl⟩

theorem activeId_filterRelease (w : Diffz.Workbench) (index : Option Nat) :
    activeId (w.filterRelease lower index) = activeId w ∧
      (w.filterRelease lower index).offered = w.offered := by
  unfold Diffz.Workbench.filterRelease
  dsimp only
  split
  · exact ⟨rfl, rfl⟩
  · exact activeId_selectFile _ _

/-- The end of the newest open installs a source, or offers it, or it is the one shown. -/
theorem activeId_opened (w : Diffz.Workbench) (n : Nat) (request : Handoff.OpenRequest)
    (refresh : Bool) (result : Except String Opened) :
    activeId (w.opened lower n request refresh result) = activeId w ∧
        (w.opened lower n request refresh result).offered = w.offered ∨
      ∃ o, result = .ok o ∧ w.openGeneration = n ∧
        (refresh = false ∧ activeId (w.opened lower n request refresh result) = some o.snapshot.id ∧
            (w.opened lower n request refresh result).offered = none ∨
          activeId (w.opened lower n request refresh result) = activeId w ∧
            activeId w ≠ some o.snapshot.id ∧
            (w.opened lower n request refresh result).offered = some o) := by
  unfold Diffz.Workbench.opened
  split
  · exact .inl ⟨rfl, rfl⟩
  · rename_i hnewest
    have hn : w.openGeneration = n := not_not.1 hnewest
    cases result with
    | error e => exact .inl ⟨rfl, rfl⟩
    | ok o =>
      dsimp only
      split
      · split
        · rename_i hother
          obtain ⟨a, ha, hne⟩ := (Option.any_eq_true ..).1 hother
          have hid : activeId w ≠ some o.snapshot.id := by
            rw [activeId_eq ha]
            exact fun heq => of_decide_eq_true hne (Option.some.inj heq)
          exact .inr ⟨o, rfl, hn, .inr ⟨rfl, hid, rfl⟩⟩
        · rename_i hsame
          have hid : activeId w = none ∨ activeId w = some o.snapshot.id := by
            cases ha : w.active with
            | none => exact .inl (by rw [activeId, ha, Option.map_none])
            | some a =>
              rw [activeId_eq ha]
              refine .inr (congrArg some ?_)
              by_contra hne
              exact hsame ((Option.any_eq_true ..).2 ⟨a, ha, decide_eq_true hne⟩)
          exact .inl ⟨activeId_swap (w := { w with loading := false }) hid, rfl⟩
      · rename_i hrefresh
        obtain ⟨hid, hoffered⟩ := @activeId_install lower
          { w with loading := false, lastRequest := some request } o
        exact .inr ⟨o, rfl, hn, .inl ⟨by simpa using hrefresh, hid, hoffered⟩⟩

/-- The steps that put the source `o` on screen: its offer is accepted, or the newest open ends with
it, which was asked for as an open and not as a refresh. -/
def Replaces (w : Diffz.Workbench) (e : Workbench.Event) (o : Opened) : Prop :=
  w.offered = some o ∧ e = .accept false ∨
    ∃ k request, e = .answer k (.opened (.ok o)) ∧
      w.tasks[k]? = some (.open w.openGeneration request false)

theorem step_activeId {e : Workbench.Event} (hs : (system lower sha256).step w e = some w') :
    activeId w' = activeId w ∧ w'.offered = w.offered ∨
      ∃ o, Replaces w e o ∧ activeId w' = some o.snapshot.id ∧ w'.offered = none ∨
        activeId w' = activeId w ∧ activeId w ≠ some o.snapshot.id ∧ w'.offered = some o := by
  cases e with
  | «open» request refresh blocked =>
    cases hs
    split
    · exact .inl ⟨rfl, rfl⟩
    · exact .inl ⟨rfl, rfl⟩
  | accept unsaved =>
    simp only [system, Diffz.Workbench.step] at hs
    split at hs
    · cases hs
      exact .inl ⟨rfl, rfl⟩
    · rename_i o ho
      cases hs
      split
      · exact .inl ⟨rfl, rfl⟩
      · rename_i hsaved
        obtain rfl : unsaved = false := by simpa using hsaved
        exact .inr ⟨o, .inl ⟨.inl ⟨ho, rfl⟩, activeId_install _ o⟩⟩
  | select id =>
    cases hs
    exact .inl (activeId_selectFile w id)
  | filterRelease index =>
    simp only [system, Diffz.Workbench.step] at hs
    split at hs
    · cases hs
      exact .inl (activeId_filterRelease w index)
    · cases hs
  | filterText query =>
    cases hs
    exact .inl ⟨rfl, rfl⟩
  | toggleNotes index =>
    cases hs
    exact .inl ⟨rfl, rfl⟩
  | answer k answer =>
    obtain ⟨task, hk, hfinish⟩ := Option.bind_eq_some_iff.1 hs
    cases task with
    | «open» generation request refresh =>
      cases answer <;> cases hfinish
      rename_i result
      rcases @activeId_opened lower { w with tasks := w.tasks.eraseIdx k } generation request
        refresh result with hkept | ⟨o, rfl, rfl, ⟨rfl, hid, hoffered⟩ | ⟨hid, hne, hoffered⟩⟩
      · exact .inl hkept
      · exact .inr ⟨o, .inl ⟨.inr ⟨k, request, rfl, hk⟩, hid, hoffered⟩⟩
      · exact .inr ⟨o, .inr ⟨hid, hne, hoffered⟩⟩
    | annotate cancel source =>
      cases answer <;> cases hfinish
      unfold annotated
      split
      · exact .inl ⟨rfl, rfl⟩
      · exact .inl ⟨rfl, rfl⟩
    | highlight cancel source file =>
      cases answer <;> cases hfinish
      exact .inl ⟨rfl, rfl⟩
    | releases cancel source =>
      cases answer with
      | released read cancelled stored =>
        simp only [finish] at hfinish
        split at hfinish
        · cases hfinish
        · cases hfinish
          exact .inl (activeId_released fun s hs => (releases_same hs).1)
      | opened result => cases hfinish
      | annotated found => cases hfinish
      | highlighted found => cases hfinish
      | blamed permit provider cancelled => cases hfinish
      | saved => cases hfinish
    | blame cancel source paths =>
      cases answer with
      | blamed permit provider cancelled =>
        simp only [finish] at hfinish
        split at hfinish
        · cases hfinish
        · cases hfinish
          exact .inl (activeId_blamed _ _ _ _)
      | opened result => cases hfinish
      | annotated found => cases hfinish
      | highlighted found => cases hfinish
      | released read cancelled stored => cases hfinish
      | saved => cases hfinish
    | saveBlame id key found =>
      cases answer <;> cases hfinish
      exact .inl ⟨rfl, rfl⟩

/-- What is offered is another source than the one that is shown. -/
def OffersOther (w : Diffz.Workbench) : Prop :=
  ∀ o, w.offered = some o → activeId w ≠ some o.snapshot.id

theorem OffersOther.step {e : Workbench.Event} (hs : (system lower sha256).step w e = some w')
    (h : OffersOther w) : OffersOther w' := by
  rcases step_activeId hs with ⟨hid, hoffered⟩ | ⟨o, ⟨-, -, hoffered⟩ | ⟨hid, hne, hoffered⟩⟩
  · rw [OffersOther, hid, hoffered]
    exact h
  · rw [OffersOther, hoffered]
    rintro o' ⟨⟩
  · rw [OffersOther, hoffered, hid]
    rintro o' ⟨⟩
    exact hne

/-- **Only the newest open puts a source on screen.** In every state of every run the opens under way
have numbers of their own, none above the newest; `loading` is on exactly while the newest is under
way, and one blame read is while `blameBusy` is on; what is offered is not the source that is shown;
and no step replaces that source but the end of the newest open, or a user who accepts the offer. -/
theorem run_newest_open {es : List Workbench.Event}
    (hrun : (system lower sha256).Steps (fun _ _ => True) start es w) :
    Serial w ∧ OffersOther w ∧ ∀ e w', (system lower sha256).step w e = some w' →
      activeId w' = activeId w ∨ ∃ o, Replaces w e o ∧ activeId w' = some o.snapshot.id := by
  refine ⟨hrun.invariant (fun _ _ _ _ hs h => h.step hs) serial_start,
    hrun.invariant (fun _ _ _ _ hs h => h.step hs) (by rintro o ⟨⟩), fun e w' hs => ?_⟩
  rcases step_activeId hs with ⟨hid, -⟩ | ⟨o, ⟨hreplaces, hid, -⟩ | ⟨hid, -, -⟩⟩
  · exact .inl hid
  · exact .inr ⟨o, hreplaces, hid⟩
  · exact .inl hid

/-- Two opens are under way, and the second has ended. -/
def lateOpen : List Workbench.Event :=
  [.open (.fixture "s") false false, .open (.fixture "s") false false,
    .answer 1 (.opened (.ok ⟨compared, [], blankView⟩))]

theorem lateOpen_serial : ∃ w, sampleSystem.run start lateOpen = some w ∧ openNumbers w = [1] ∧
    w.loading = false ∧ ∀ e w', sampleSystem.step w e = some w' →
      activeId w' = activeId w ∨ ∃ o, Replaces w e o ∧ activeId w' = some o.snapshot.id := by
  have hrun : sampleSystem.Steps (fun _ _ => True) start lateOpen _ :=
    .cons trivial rfl (.cons trivial rfl (.cons trivial rfl .nil))
  exact ⟨_, hrun.run, rfl, rfl, (run_newest_open hrun).2.2⟩

end Workbench
end Proof
end Diffz
