import Diffz.Core.Threads
import Diffz.Lib.Fallible
import Diffz.Lib.Sha256
import Diffz.Proof.Patch.Paths

/-!
# Which comments are placed on their rows

A comment has the path of its file, and the file is looked up by the text its path is displayed as:
the first file of that text is found, whatever is in it. So a comment on a row of a file is placed
on that row where no other file stands in the way, which `Reached` says exactly
(`threadLocation_attached_iff`).
-/

set_option autoImplicit false

namespace Diffz
namespace Proof
namespace Threads

open Diffz.RepoPath
open Diffz.Proof.Patch (HunksInv parsePatch_hunksInv parsePatch_run)

variable {s : Snapshot} {c : ThreadComment} {f g : FileChange} {p : SourcePoint} {row : PatchRow}
  {side : Side} {n r : Nat} {roots : List Nat} {path : String}

/-! ## Files -/

/-- The file goes by this text. -/
def Named (f : FileChange) (t : String) : Prop := ∃ q, f.path = some q ∧ q.utf8 = .ok t

/-- `f` is the first file that is displayed as `path`. -/
def First (files : List FileChange) (path : String) (f : FileChange) : Prop :=
  ∃ before after, files = before ++ f :: after ∧
    (∀ g ∈ before, ∃ shown, g.displayPath = some shown ∧ shown ≠ path) ∧ f.displayPath = some path

theorem fileShownAs_eq_iff {files : List FileChange} :
    fileShownAs path files = some (some f) ↔ First files path f := by
  unfold First
  induction files with
  | nil => simp [fileShownAs]
  | cons g files ih =>
    rw [fileShownAs]
    constructor
    · intro h
      split at h
      · cases h
      rename_i shown hshown
      split at h
      · rename_i heq
        cases h
        exact ⟨[], files, rfl, by simp, heq ▸ hshown⟩
      · rename_i hne
        obtain ⟨before, after, rfl, hbefore, hf⟩ := ih.1 h
        refine ⟨g :: before, after, rfl, ?_, hf⟩
        intro g' hg'
        rcases List.mem_cons.1 hg' with rfl | hg'
        · exact ⟨shown, hshown, hne⟩
        · exact hbefore g' hg'
    · rintro ⟨before, after, hfiles, hbefore, hf⟩
      cases before with
      | nil =>
        obtain ⟨rfl, rfl⟩ := List.cons.inj hfiles
        rw [hf]
        simp
      | cons g' before =>
        obtain ⟨rfl, rfl⟩ := List.cons.inj hfiles
        obtain ⟨shown, hshown, hne⟩ := hbefore g (List.mem_cons_self ..)
        rw [hshown]
        simp only [if_neg hne]
        exact ih.2 ⟨before, after, rfl, fun g' hg' => hbefore g' (List.mem_cons_of_mem g hg'), hf⟩

theorem escapeDefault_length {x : Char} (h : isControl x = true) :
    2 ≤ (escapeDefault x).length := by
  unfold escapeDefault
  split
  · simp
  split
  · simp
  split
  · simp
  split
  · simp
  split
  · rename_i hprint
    simp only [isControl, Bool.or_eq_true, Bool.and_eq_true, decide_eq_true_eq] at h
    omega
  · simp only [List.length_append]
    have hopen : "\\u\x7b".toList.length = 3 := by decide
    omega

/-- The characters a path is displayed as. -/
def shownChars (l : List Char) : List Char :=
  l.flatMap fun x => if isControl x then escapeDefault x else [x]

theorem shownChars_length (l : List Char) : l.length ≤ (shownChars l).length := by
  induction l with
  | nil => simp
  | cons x l ih =>
    have hone : 1 ≤ (if isControl x then escapeDefault x else [x]).length := by
      split
      · exact (Nat.le_succ 1).trans (escapeDefault_length ‹_›)
      · simp
    simp only [shownChars, List.flatMap_cons, List.length_append, List.length_cons] at ih ⊢
    omega

/-- Only a text without control characters is displayed as it is. -/
theorem shownChars_eq_iff (l : List Char) :
    shownChars l = l ↔ l.all (fun x => !isControl x) = true := by
  induction l with
  | nil => simp [shownChars]
  | cons x l ih =>
    have hcons : shownChars (x :: l) =
        (if isControl x then escapeDefault x else [x]) ++ shownChars l := by
      simp [shownChars]
    rw [hcons]
    cases hx : isControl x with
    | true =>
      have hlen := shownChars_length l
      have hescape := escapeDefault_length hx
      refine iff_of_false (fun heq => ?_) (by simp [hx])
      have := congrArg List.length heq
      simp only [if_true, List.length_append, List.length_cons] at this
      omega
    | false => simpa [hx] using ih

theorem displayPath_of_named {t : String} (h : Named f t) :
    f.displayPath = some (String.ofList (shownChars t.toList)) := by
  obtain ⟨q, hq, ht⟩ := h
  unfold RepoPath.utf8 at ht
  split at ht
  · rename_i u hu
    cases ht
    rw [FileChange.displayPath, hq, Option.map_some, display, hu]
    rfl
  · cases ht

theorem displayPath_eq_iff {t : String} (h : Named f t) :
    f.displayPath = some t ↔ t.toList.all (fun x => !isControl x) = true := by
  rw [displayPath_of_named h, Option.some.injEq, ← shownChars_eq_iff]
  constructor
  · intro heq
    have hlist := congrArg String.toList heq
    rwa [String.toList_ofList] at hlist
  · intro heq
    rw [heq, String.ofList_toList]

/-- A file is found by its identity, which it shares with no other. -/
theorem file_of_mem (hids : (s.patch.files.map (·.id)).Nodup) (hf : f ∈ s.patch.files) :
    s.file f.id = some f := by
  obtain ⟨before, after, hfiles⟩ := List.append_of_mem hf
  rw [hfiles, List.map_append, List.map_cons] at hids
  rw [Snapshot.file, List.find?_eq_some_iff_append]
  refine ⟨by simp, before, after, hfiles, fun g hg => ?_⟩
  have hne := (List.nodup_append.1 hids).2.2 g.id (List.mem_map_of_mem hg) f.id
    (List.mem_cons_self ..)
  simpa using hne

theorem First.mem {files : List FileChange} (h : First files path f) : f ∈ files := by
  obtain ⟨before, after, rfl, -⟩ := h
  simp

/-! ## Places -/

theorem validatePoint_isOk (s : Snapshot) (id : FileId) (side : Side) (n : Nat) :
    (s.validatePoint ⟨s.id, id, side, n, 0⟩).isOk = true ↔
      ∃ f, s.file id = some f ∧ (f.line side n).isSome = true := by
  unfold Snapshot.validatePoint
  cases hf : s.file id with
  | none => simp [Except.isOk, Except.toBool]
  | some f =>
    cases hrow : f.line side n with
    | none => simp [hrow, Except.isOk, Except.toBool]
    | some row =>
      simp [hrow, isCharBoundary_zero, Except.isOk, Except.toBool]

/-- **Which comments have a line.** -/
theorem threadLocation_line (hids : (s.patch.files.map (·.id)).Nodup) :
    threadLocation s c = some (.line p) ↔ ∃ f, First s.patch.files c.path f ∧
      c.fileLevel ≠ some true ∧ c.side = some p.side ∧ c.line = some p.line ∧
      (f.line p.side p.line).isSome = true ∧ p = ⟨s.id, f.id, p.side, p.line, 0⟩ := by
  rw [threadLocation, Option.map_eq_some_iff]
  constructor
  · rintro ⟨file, hfile, h⟩
    split at h
    · rename_i f side hside
      have hfirst := fileShownAs_eq_iff.1 hfile
      unfold locationIn at h
      split at h
      · rename_i n hn
        obtain ⟨hline, hlevel⟩ := Option.filter_eq_some_iff.1 hn
        dsimp only at h
        split at h
        · rename_i hok
          cases h
          obtain ⟨g, hg, hrow⟩ := (validatePoint_isOk s f.id side n).1 hok
          obtain rfl := Option.some.inj ((file_of_mem hids hfirst.mem).symm.trans hg)
          exact ⟨f, hfirst, by simpa using hlevel, hside, hline, hrow, rfl⟩
        · cases h
      · split at h <;> cases h
    · cases h
  · rintro ⟨f, hfirst, hlevel, hside, hline, hrow, hp⟩
    refine ⟨some f, fileShownAs_eq_iff.2 hfirst, ?_⟩
    have hok := (validatePoint_isOk s f.id p.side p.line).2
      ⟨f, file_of_mem hids hfirst.mem, hrow⟩
    simp only [hside, locationIn, hline, Option.filter_some, hlevel, ne_eq, not_false_eq_true,
      decide_true, if_true, hok]
    rw [← hp]

/-! ## Comments of a file -/

/-- The file has this path, and the row is loaded. -/
def Carries (path : String) (side : Side) (n : Nat) (f : FileChange) : Prop :=
  Named f path ∧ (f.line side n).isSome = true

/-- The path has no control characters, and a file that has no path, or is displayed as this one,
does not come before every file that has the path and the row. -/
structure Reached (files : List FileChange) (path : String) (side : Side) (n : Nat) : Prop where
  plain : path.toList.all (fun x => !isControl x) = true
  ahead : ∀ before g after, files = before ++ g :: after →
    g.path = none ∨ g.displayPath = some path → ∃ h ∈ before ++ [g], Carries path side n h

/-- The comment is placed on its row, in a file of its path. -/
def Attached (s : Snapshot) (c : ThreadComment) : Prop :=
  ∃ p f, threadLocation s c = some (.line p) ∧ s.file p.file = some f ∧ Named f c.path ∧
    c.side = some p.side ∧ c.line = some p.line ∧ (f.line p.side p.line).isSome = true

theorem Named.path_ne_none {t : String} (h : Named f t) : f.path ≠ none := by
  obtain ⟨q, hq, -⟩ := h
  rw [hq]
  exact Option.some_ne_none q

theorem displayPath_ne_none (h : f.path ≠ none) : ∃ shown, f.displayPath = some shown := by
  obtain ⟨q, hq⟩ := Option.ne_none_iff_exists'.1 h
  exact ⟨_, by rw [FileChange.displayPath, hq]; rfl⟩

/-- **Which paths are looked up well.** -/
theorem reached_iff {files : List FileChange} (hf : f ∈ files) (hc : Carries path side n f) :
    Reached files path side n ↔ ∃ g, First files path g ∧ Carries path side n g := by
  constructor
  · intro h
    have hplain : ∀ {h' : FileChange}, Named h' path → h'.displayPath = some path :=
      fun hn => (displayPath_eq_iff hn).2 h.plain
    let stops : FileChange → Bool := fun g => decide (g.path = none ∨ g.displayPath = some path)
    have hstops : stops f = true := decide_eq_true (Or.inr (hplain hc.1))
    obtain ⟨g, hg⟩ := Option.isSome_iff_exists.1 (List.find?_isSome.2 ⟨f, hf, hstops⟩)
    obtain ⟨hgs, before, after, hfiles, hbefore⟩ := List.find?_eq_some_iff_append.1 hg
    -- What carries the row is displayed as the path, so it is not before the first such file.
    have hfirst : ∀ h' ∈ before, h'.path ≠ none ∧ h'.displayPath ≠ some path := by
      intro h' hh'
      have hno := hbefore h' hh'
      rw [Bool.not_eq_true', decide_eq_false_iff_not, not_or] at hno
      exact hno
    obtain ⟨h', hmem, hcarries⟩ := h.ahead before g after hfiles (of_decide_eq_true hgs)
    rcases List.mem_append.1 hmem with hmem | hmem
    · exact absurd (hplain hcarries.1) (hfirst h' hmem).2
    · obtain rfl := List.mem_singleton.1 hmem
      refine ⟨h', ⟨before, after, hfiles, fun g' hg' => ?_, hplain hcarries.1⟩, hcarries⟩
      obtain ⟨hpath, hne⟩ := hfirst g' hg'
      obtain ⟨shown, hshown⟩ := displayPath_ne_none hpath
      exact ⟨shown, hshown, fun heq => hne (heq ▸ hshown)⟩
  · rintro ⟨g, ⟨before, after, hfiles, hbefore, hshown⟩, hcarries⟩
    refine ⟨(displayPath_eq_iff hcarries.1).1 hshown, fun before' g' after' hfiles' hstop => ?_⟩
    refine ⟨g, ?_, hcarries⟩
    rcases List.append_eq_append_iff.1 (hfiles.symm.trans hfiles') with ⟨m, rfl, hm⟩ | ⟨m, rfl, hm⟩
    · cases m with
      | nil =>
        obtain ⟨rfl, -⟩ := List.cons.inj hm
        simp
      | cons x m =>
        obtain ⟨rfl, -⟩ := List.cons.inj hm
        simp
    · cases m with
      | nil =>
        obtain ⟨rfl, -⟩ := List.cons.inj hm
        simp
      | cons x m =>
        obtain ⟨rfl, -⟩ := List.cons.inj hm
        -- Before the first file displayed as the path there is none such.
        obtain ⟨shown, hother, hne⟩ := hbefore g' (List.mem_append_right before' List.mem_cons_self)
        rcases hstop with hnone | hsame
        · rw [FileChange.displayPath, hnone] at hother
          cases hother
        · exact absurd (Option.some.inj (hother.symm.trans hsame)) hne

theorem attached_iff_first (hids : (s.patch.files.map (·.id)).Nodup)
    (hlevel : c.fileLevel ≠ some true) (hside : c.side = some side) (hline : c.line = some n) :
    Attached s c ↔ ∃ g, First s.patch.files c.path g ∧ Carries c.path side n g := by
  constructor
  · rintro ⟨p, f, hloc, hfile, hnamed, hs, hn, hrow⟩
    obtain ⟨g, hfirst, -, -, -, -, hp⟩ := (threadLocation_line hids).1 hloc
    obtain rfl : side = p.side := Option.some.inj (hside.symm.trans hs)
    obtain rfl : n = p.line := Option.some.inj (hline.symm.trans hn)
    have hfg : s.file p.file = some g := by
      rw [hp]
      exact file_of_mem hids hfirst.mem
    obtain rfl : f = g := Option.some.inj (hfile.symm.trans hfg)
    exact ⟨f, hfirst, hnamed, hrow⟩
  · rintro ⟨g, hfirst, hnamed, hrow⟩
    exact ⟨⟨s.id, g.id, side, n, 0⟩, g,
      (threadLocation_line hids).2 ⟨g, hfirst, hlevel, hside, hline, hrow, rfl⟩,
      file_of_mem hids hfirst.mem, hnamed, hside, hline, hrow⟩

theorem nodup_of_parsePatch {sha256 : Bytes → Bytes} {bytes : Bytes} {limits : ParseLimits}
    (h : parsePatch sha256 bytes limits = .ok s.patch) : (s.patch.files.map (·.id)).Nodup :=
  (Patch.parsePatch_run h).seen_nodup List.nodup_nil

/-- **Which comments are placed on their rows.** -/
theorem threadLocation_attached_iff {sha256 : Bytes → Bytes} {bytes : Bytes} {limits : ParseLimits}
    (hparsed : parsePatch sha256 bytes limits = .ok s.patch) (hlevel : c.fileLevel ≠ some true)
    (hf : f ∈ s.patch.files) (hnamed : Named f c.path) (hside : c.side = some side)
    (hline : c.line = some n) (hrow : (f.line side n).isSome = true) :
    Attached s c ↔ Reached s.patch.files c.path side n := by
  rw [attached_iff_first (nodup_of_parsePatch hparsed) hlevel hside hline,
    reached_iff hf ⟨hnamed, hrow⟩]

/-- A link that becomes a file: it is deleted and added under one path. -/
def linkToFile : Bytes :=
  asBytes ("diff --git a/x b/x\ndeleted file mode 120000\n--- a/x\n+++ /dev/null\n" ++
    "@@ -1 +0,0 @@\n-a\n" ++
    "diff --git a/x b/x\nnew file mode 100644\n--- /dev/null\n+++ b/x\n@@ -0,0 +1 @@\n+b\n")

/-- A comment on the first line of the new file. -/
def onNewLine : ThreadComment where
  id := 1
  rootId := 1
  path := "x"
  side := some .right
  line := some 1
  startLine := none
  fileLevel := some false
  body := "b"
  author := "a"
  commitId := "c"
  createdAt := none

/-- A snapshot of a patch. -/
def snapshotOf (patch : PatchReport) (comments : List ThreadComment) : Snapshot where
  id := ⟨"s"⟩
  title := ""
  origin := ""
  patch := patch
  remote := none
  comments := comments
  overview := .empty
  warnings := []

/-- The second file of the patch has the row, and the first one is found. -/
theorem linkToFile_second : ∃ (r : PatchReport) (f : FileChange),
    parsePatch Sha256.sha256 linkToFile .default = .ok r ∧ f ∈ r.files ∧ Named f "x" ∧
      (f.line .right 1).isSome = true ∧
      threadLocation (snapshotOf r []) onNewLine = some .outdated := by
  have hchecks : (parsePatch Sha256.sha256 linkToFile .default).map (fun r =>
      (r.files.any fun f => decide (f.path.map RepoPath.utf8 = some (.ok "x")) &&
        (f.line .right 1).isSome) &&
      decide (threadLocation (snapshotOf r []) onNewLine = some .outdated)) = .ok true := by
    decide +kernel
  obtain ⟨r, hparsed, hr⟩ := ok_of_map hchecks
  obtain ⟨hfile, hloc⟩ := Bool.and_eq_true_iff.1 hr
  obtain ⟨f, hf, hline⟩ := List.any_eq_true.1 hfile
  obtain ⟨hpath, hrow⟩ := Bool.and_eq_true_iff.1 hline
  obtain ⟨q, hq, hname⟩ := Option.map_eq_some_iff.1 (of_decide_eq_true hpath)
  exact ⟨r, f, hparsed, hf, ⟨q, hq, hname⟩, hrow, of_decide_eq_true hloc⟩

/-- So the comment is not placed on its row. -/
theorem onNewLine_unattached : ∃ (s : Snapshot) (f : FileChange),
    parsePatch Sha256.sha256 linkToFile .default = .ok s.patch ∧ f ∈ s.patch.files ∧
      Named f onNewLine.path ∧ (f.line .right 1).isSome = true ∧ ¬ Attached s onNewLine := by
  obtain ⟨r, f, hparsed, hf, hnamed, hrow, hloc⟩ := linkToFile_second
  refine ⟨snapshotOf r [], f, hparsed, hf, hnamed, hrow, fun h => ?_⟩
  obtain ⟨p, -, hline, -⟩ := h
  rw [hloc] at hline
  cases hline

theorem onNewLine_attached_iff : ∃ s : Snapshot,
    parsePatch Sha256.sha256 linkToFile .default = .ok s.patch ∧
      (Attached s onNewLine ↔ Reached s.patch.files "x" .right 1) := by
  obtain ⟨r, f, hparsed, hf, hnamed, hrow, -⟩ := linkToFile_second
  exact ⟨snapshotOf r [], hparsed, @threadLocation_attached_iff (snapshotOf r []) onNewLine f
    .right 1 _ _ _ hparsed (by decide) hf hnamed rfl rfl hrow⟩

end Threads
end Proof
end Diffz
