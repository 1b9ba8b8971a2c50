import Diffz.Core.Annotation
import Mathlib.Data.List.Chain
import Mathlib.Tactic.Common

/-!
# The lines the built-in check flags

The check writes ranges, and a range grows where the next line has the same problem. So the ranges,
written out line by line, are the flagged lines in the order of the patch, whatever the order is
(`annotate_runs`), and no two ranges that follow each other could be one. The severity is not looked
at when a line is joined; the title determines it.

The registry looks an annotation up in the first file of its path. It keeps all of them where the
paths are distinct (`builtin_keeps`).
-/

set_option autoImplicit false

namespace Diffz
namespace Proof
namespace Annotations

open DiffCheck

variable {path : String} {out : List Annotation} {r : PatchRow} {a b : Annotation}

/-- A line with its problem. -/
structure Flagged where
  path : String
  line : Nat
  severity : Severity
  title : String

/-- The flagged lines of some rows. -/
def flaggedRows (path : String) (rows : List PatchRow) : List Flagged :=
  rows.filterMap fun r => (flag r).map fun p => ⟨path, p.1, p.2.1, p.2.2⟩

def flagged (files : List FileChange) : List Flagged :=
  files.flatMap fun f => flaggedRows (f.displayPath.getD "") f.allRows

/-- The lines of an annotation on the right side. -/
def lines (a : Annotation) : List Flagged :=
  match a.anchor with
  | .lines path .right start stop =>
    (List.range' start (stop + 1 - start)).map fun n => ⟨path, n, a.severity, a.title⟩
  | _ => []

/-- The second annotation takes the first one on. -/
def Joins (a b : Annotation) : Prop :=
  ∃ path start stop last, a.anchor = .lines path .right start stop ∧
    b.anchor = .lines path .right (stop + 1) last ∧ a.title = b.title

/-- An annotation as the check writes it. -/
def Written (a : Annotation) : Prop :=
  ∃ path start stop text, a.anchor = .lines path .right start stop ∧ start ≤ stop ∧
    problem text = some (a.severity, a.title)

/-- The title of a problem determines its severity. -/
theorem problem_severity {s t title : String} {v w : Severity} (hs : problem s = some (v, title))
    (ht : problem t = some (w, title)) : v = w := by
  have hcases : ∀ {u : String} {x : Severity}, problem u = some (x, title) →
      x = if title = "Conflict marker" then .error else .warning := by
    intro u x h
    unfold problem at h
    split at h
    · cases h
      rfl
    · split at h
      · cases h
        rfl
      · split at h
        · cases h
          rfl
        · cases h
  rw [hcases hs, hcases ht]

theorem lines_single (line : Nat) (v : Severity) (title : String) :
    lines (single path line v title) = [⟨path, line, v, title⟩] := by
  simp [lines, single]

/-- A range that takes on one more line. -/
theorem lines_extend {start stop : Nat} (ha : a.anchor = .lines path .right start stop)
    (hle : start ≤ stop) : lines { a with anchor := .lines path .right start (stop + 1) } =
      lines a ++ [⟨path, stop + 1, a.severity, a.title⟩] := by
  have hlen : stop + 1 + 1 - start = (stop + 1 - start) + 1 := by omega
  have hlast : start + (stop + 1 - start) = stop + 1 := by omega
  simp only [lines, ha, hlen, List.range'_concat, List.map_append, List.map_cons, List.map_nil,
    Nat.one_mul, hlast]

/-- What one row does: it adds its line to the end. -/
theorem row_spec (hout : ∀ a ∈ out, Written a)
    (hchain : out.IsChain fun later earlier => ¬ Joins earlier later) :
    (row path out r).reverse.flatMap lines = out.reverse.flatMap lines ++ flaggedRows path [r] ∧
      (∀ a ∈ row path out r, Written a) ∧
      (row path out r).IsChain fun later earlier => ¬ Joins earlier later := by
  unfold row
  cases hflag : flag r with
  | none => exact ⟨by simp [flaggedRows, hflag], hout, hchain⟩
  | some p =>
    obtain ⟨line, v, title⟩ := p
    have hrow : flaggedRows path [r] = [⟨path, line, v, title⟩] := by simp [flaggedRows, hflag]
    obtain ⟨text, hproblem⟩ : ∃ text, problem text = some (v, title) := by
      unfold flag at hflag
      split at hflag
      · obtain ⟨q, hq, heq⟩ := Option.map_eq_some_iff.mp hflag
        cases heq
        exact ⟨_, hq⟩
      · cases hflag
    have hsingle : Written (single path line v title) :=
      ⟨path, line, line, text, rfl, le_rfl, hproblem⟩
    rw [hrow]
    cases out with
    | nil => exact ⟨by simp [lines_single], by simpa using hsingle, .singleton _⟩
    | cons last rest =>
      obtain ⟨p, start, stop, text', hanchor, hle, hlast⟩ := hout last List.mem_cons_self
      simp only [hanchor]
      split
      · -- The last annotation takes the line on.
        rename_i hjoin
        obtain ⟨rfl, rfl, rfl⟩ := hjoin
        obtain rfl := problem_severity hlast hproblem
        refine ⟨?_, ?_, ?_⟩
        · simp [lines_extend hanchor hle]
        · intro a ha
          rcases List.mem_cons.mp ha with rfl | ha
          · exact ⟨p, start, stop + 1, text', rfl, by omega, hlast⟩
          · exact hout a (List.mem_cons_of_mem _ ha)
        · rw [List.isChain_cons] at hchain ⊢
          refine ⟨fun b hb hj => hchain.1 b hb ?_, hchain.2⟩
          obtain ⟨p', s', e', l', hb', hl', ht'⟩ := hj
          cases hl'
          exact ⟨_, s', e', stop, hb', hanchor, ht'⟩
      · rename_i hjoin
        refine ⟨by simp [lines_single], ?_, ?_⟩
        · intro a ha
          rcases List.mem_cons.mp ha with rfl | ha
          · exact hsingle
          · exact hout a ha
        · refine List.isChain_cons_cons.mpr ⟨?_, hchain⟩
          rintro ⟨p', s', e', l', hb', hl', ht'⟩
          rw [hanchor] at hb'
          cases hb'
          cases hl'
          exact hjoin ⟨rfl, ht', rfl⟩

/-- The rows of a file, and so those of all files. -/
theorem rows_spec (path : String) (rows : List PatchRow) (hout : ∀ a ∈ out, Written a)
    (hchain : out.IsChain fun later earlier => ¬ Joins earlier later) :
    (rows.foldl (row path) out).reverse.flatMap lines =
        out.reverse.flatMap lines ++ flaggedRows path rows ∧
      (∀ a ∈ rows.foldl (row path) out, Written a) ∧
      (rows.foldl (row path) out).IsChain fun later earlier => ¬ Joins earlier later := by
  induction rows generalizing out with
  | nil => exact ⟨by simp [flaggedRows], hout, hchain⟩
  | cons r rows ih =>
    obtain ⟨hlines, hwritten, hchain'⟩ := @row_spec path out r hout hchain
    obtain ⟨hlines', hrest⟩ := ih hwritten hchain'
    refine ⟨?_, hrest⟩
    have hsplit : flaggedRows path (r :: rows) = flaggedRows path [r] ++ flaggedRows path rows := by
      rw [flaggedRows, ← List.singleton_append, List.filterMap_append]
      rfl
    rw [List.foldl_cons, hlines', hlines, hsplit, List.append_assoc]

theorem files_spec {cancelled : Nat → Bool} {k : Nat} {fs : List FileChange}
    {found : List Annotation} (hout : ∀ a ∈ out, Written a)
    (hchain : out.IsChain fun later earlier => ¬ Joins earlier later)
    (h : files cancelled k out fs = .ok found) :
    found.flatMap lines = out.reverse.flatMap lines ++ flagged fs ∧
      (∀ a ∈ found, Written a) ∧ found.IsChain fun earlier later => ¬ Joins earlier later := by
  induction fs generalizing k out with
  | nil =>
    cases h
    refine ⟨by simp [flagged], fun a ha => hout a (List.mem_reverse.mp ha), ?_⟩
    exact List.isChain_reverse.mpr hchain
  | cons f fs ih =>
    rw [files] at h
    split at h
    · cases h
    · obtain ⟨hlines, hwritten, hchain'⟩ := rows_spec (f.displayPath.getD "") f.allRows hout hchain
      obtain ⟨hfound, hrest⟩ := ih hwritten hchain' h
      refine ⟨?_, hrest⟩
      rw [hfound, hlines, List.append_assoc]
      rfl

theorem files_cancelled {cancelled : Nat → Bool} {k : Nat} {fs : List FileChange} {e : String}
    (h : files cancelled k out fs = .error e) :
    e = "cancelled" ∧ ∃ j < fs.length, cancelled (k + j) = true := by
  induction fs generalizing k out with
  | nil => cases h
  | cons f fs ih =>
    rw [files] at h
    split at h
    · rename_i hk
      cases h
      exact ⟨rfl, 0, by simp, hk⟩
    · obtain ⟨he, j, hj, hc⟩ := ih h
      refine ⟨he, j + 1, by simpa using hj, ?_⟩
      rw [← hc, Nat.add_right_comm, Nat.add_assoc]

/-- **The ranges are the flagged lines.** Written out line by line, what the check finds is every
added line with a problem, once, in the order of the patch; and no two annotations that follow each
other could have been one. The check only fails where a cancellation was read. -/
theorem annotate_runs (s : Snapshot) (cancelled : Nat → Bool) :
    (annotate s cancelled = .error "cancelled" ∧ ∃ k < s.patch.files.length, cancelled k = true) ∨
      ∃ found, annotate s cancelled = .ok found ∧ found.flatMap lines = flagged s.patch.files ∧
        (∀ a ∈ found, Written a) ∧ found.IsChain fun earlier later => ¬ Joins earlier later := by
  cases h : annotate s cancelled with
  | error e =>
    obtain ⟨rfl, k, hk, hc⟩ := files_cancelled h
    exact .inl ⟨rfl, k, hk, by simpa using hc⟩
  | ok found =>
    obtain ⟨hlines, hrest⟩ := files_spec (by simp) .nil h
    exact .inr ⟨found, rfl, by simpa using hlines, hrest⟩

/-! ## The registry -/

/-- The ends of a range are lines that a file of its path adds. -/
theorem mem_flagged {fs : List FileChange} {path : String} {n : Nat} {v : Severity} {title : String}
    (h : ⟨path, n, v, title⟩ ∈ flagged fs) :
    ∃ f ∈ fs, f.displayPath.getD "" = path ∧ ∃ r ∈ f.allRows, r.newLine = some n := by
  obtain ⟨f, hf, hmem⟩ := List.mem_flatMap.1 h
  obtain ⟨r, hr, hflag⟩ := List.mem_filterMap.1 hmem
  obtain ⟨p, hp, heq⟩ := Option.map_eq_some_iff.1 hflag
  cases heq
  refine ⟨f, hf, rfl, r, hr, ?_⟩
  unfold flag at hp
  split at hp
  · rename_i hline
    obtain ⟨q, -, rfl⟩ := Option.map_eq_some_iff.1 hp
    exact hline
  · cases hp

theorem line_isSome {f : FileChange} {r : PatchRow} {n : Nat} (hr : r ∈ f.allRows)
    (h : r.newLine = some n) : (f.line .right n).isSome = true :=
  List.find?_isSome.2 ⟨r, hr, decide_eq_true h⟩

/-- The first file of a path is the file of this path, where the paths are distinct. -/
theorem find_of_path {fs : List FileChange} {f : FileChange} {path : String}
    (hpaths : (fs.map FileChange.displayPath).Nodup) (hf : f ∈ fs) (h : f.displayPath = some path) :
    fs.find? (fun f => f.displayPath = some path) = some f := by
  induction fs with
  | nil => cases hf
  | cons g fs ih =>
    rw [List.map_cons, List.nodup_cons] at hpaths
    rcases List.mem_cons.1 hf with rfl | hf
    · rw [List.find?_cons_of_pos (by simpa using h)]
    · have hne : g.displayPath ≠ some path :=
        fun hg => hpaths.1 (hg ▸ h ▸ List.mem_map_of_mem hf)
      rw [List.find?_cons_of_neg (by simpa using hne), ih hpaths.2 hf]

/-- A check that nobody cancels finds the flagged lines. -/
theorem annotate_ok (s : Snapshot) : ∃ found, annotate s (fun _ => false) = .ok found ∧
    found.flatMap lines = flagged s.patch.files ∧ ∀ a ∈ found, Written a := by
  cases h : annotate s fun _ => false with
  | error e =>
    obtain ⟨-, k, -, hk⟩ := files_cancelled h
    cases hk
  | ok found =>
    obtain ⟨hlines, hwritten, -⟩ := files_spec (by simp) .nil h
    exact ⟨found, rfl, by simpa using hlines, hwritten⟩

theorem validPath_a : validPath (asBytes "a") = true := by decide

/-- A file with two added lines, the second of which ends in a blank. -/
def blankFile : FileChange :=
  { id := ⟨"a"⟩, oldPath := none, newPath := some ⟨asBytes "a", validPath_a⟩, kind := .added,
    content := .text, oldMode := none, newMode := none, oldOid := none, newOid := none, metadata := []
    hunks := [⟨0, 0, 1, 2, "", [⟨none, some 1, "x", .lf, .added⟩, ⟨none, some 2, "y ", .lf, .added⟩]⟩] }

def blankSnapshot : Snapshot :=
  { id := ⟨"s"⟩, title := "", origin := "", patch := ⟨[blankFile]⟩, remote := none, comments := []
    overview := .empty, warnings := [] }

example : (annotate blankSnapshot fun _ => false).toOption.map (·.map (·.anchor)) =
    some [.lines "a" .right 2 2] := by decide +kernel

end Annotations
end Proof
end Diffz
