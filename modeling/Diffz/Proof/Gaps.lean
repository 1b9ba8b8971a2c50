import Diffz.Lib.Sha256
import Diffz.Proof.Rich

/-!
# The gaps of the rich diff

Where a hunk has no line on a side, its header names the line before it there. The loop of the rich
diff reads the start on the new side as if it were the first line of the hunk, and it does not move
the end of a side that has no line. Both show in patches without context only.
-/

set_option autoImplicit false

namespace Diffz
namespace Proof
namespace Rich

open Diffz.Rich
open Diffz.Proof.Patch (HunkInv HunksInv Fits)

/-! ## Documents -/

/-- The lines of a hunk on a side, with their ends. -/
def sideText (h : Hunk) (side : Side) : List (String × LineEnding) :=
  (h.rows.filter fun r => (r.number side).isSome).map fun r => (r.text, r.ending)

/-- How many lines of a side come before a hunk. -/
def linesBefore (h : Hunk) (side : Side) : Nat :=
  if h.count side = 0 then h.start side else h.start side - 1

/-- How many lines of a side come before the end of a hunk. -/
def linesThrough (h : Hunk) (side : Side) : Nat := linesBefore h side + h.count side

/-- The hunks come from two documents, of which `docs` is what follows the first `p side` lines on
a side: outside of the hunks the two have the same lines. -/
inductive FromDocuments : (Side → Nat) → List Hunk → (Side → List (String × LineEnding)) → Prop
  | done {p : Side → Nat} (common : List (String × LineEnding)) :
      FromDocuments p [] fun _ => common
  | hunk {p : Side → Nat} {h : Hunk} {hs : List Hunk} {docs : Side → List (String × LineEnding)}
      (common : List (String × LineEnding))
      (hbefore : ∀ side, linesBefore h side = p side + common.length)
      (rest : FromDocuments (linesThrough h) hs docs) :
      FromDocuments p (h :: hs) fun side => common ++ sideText h side ++ docs side

/-- The lines that are left out before each of the hunks. -/
def omitted : (Side → Nat) → List Hunk → List (Option Gap)
  | _, [] => []
  | p, h :: hs =>
    (if p .right < linesBefore h .right then
      some { oldLine := p .left + 1, newLine := p .right + 1
             count := linesBefore h .right - p .right }
    else none) :: omitted (linesThrough h) hs

/-- The gaps that the loop emits, before each of the hunks. -/
def gaps : Nat → Nat → List Hunk → List (Option Gap)
  | _, _, [] => []
  | o, n, h :: hs => gapBefore h o n :: gaps (lastLine h .left o) (lastLine h .right n) hs

/-- The items of the rich diff. -/
def weave (gs : List (Option Gap)) (blocks : List (List RichBlock)) : List RichItem :=
  (List.zipWith (fun g bs => g.toList.map .gap ++ bs.map .block) gs blocks).flatten

theorem richLoop_weave (o n : Nat) (hs : List Hunk) :
    richLoop o n hs = (hs.mapM emitHunk).map (weave (gaps o n hs)) := by
  induction hs generalizing o n with
  | nil => rfl
  | cons h hs ih =>
    rw [richLoop, List.mapM_cons, ih]
    cases emitHunk h with
    | none => rfl
    | some bs =>
      cases hs.mapM emitHunk with
      | none => rfl
      | some rest => simp [weave, gaps]

theorem mapM_emitHunk {hs : List Hunk} (hi : ∀ h ∈ hs, HunkInv h) :
    ∃ bs, hs.mapM emitHunk = some bs := by
  induction hs with
  | nil => exact ⟨[], rfl⟩
  | cons h hs ih =>
    obtain ⟨items, hitems, _⟩ := emitHunk_shows (hi h (List.mem_cons_self ..))
    obtain ⟨bs, hbs⟩ := ih fun g hg => hi g (List.mem_cons_of_mem h hg)
    exact ⟨items :: bs, by simp [hitems, hbs]⟩

/-! ## Tiling -/

/-- The lines of a gap on a side. -/
def Gap.lines (g : Gap) : Side → List Nat
  | .left => List.range' g.oldLine g.count
  | .right => List.range' g.newLine g.count

/-- The lines of a side that the gaps and the hunks show, in order. -/
def shownLines (gs : List (Option Gap)) (hs : List Hunk) (side : Side) : List Nat :=
  (List.zipWith (fun g h => g.toList.flatMap (Gap.lines · side) ++
    h.rows.filterMap (·.number side)) gs hs).flatten

/-- How many lines of a side come before the end of the last hunk. -/
def lastThrough : (Side → Nat) → List Hunk → Side → Nat
  | p, [] => p
  | _, h :: hs => lastThrough (linesThrough h) hs

/-- The gaps are those of the documents, and gaps and hunks tile the lines of both sides. -/
def GapsExact (hs : List Hunk) : Prop :=
  gaps 0 0 hs = omitted (fun _ => 0) hs ∧
    ∀ side, shownLines (gaps 0 0 hs) hs side = List.range' 1 (lastThrough (fun _ => 0) hs side)

section Documents

variable {h : Hunk} {hs : List Hunk} {p : Side → Nat} {docs : Side → List (String × LineEnding)}

theorem numbers_eq (hi : HunkInv h) (hpos : ∀ side, 0 < h.count side → 0 < h.start side)
    (side : Side) :
    h.rows.filterMap (·.number side) = List.range' (linesBefore h side + 1) (h.count side) := by
  rw [hi.numbers side, linesBefore]
  by_cases hzero : h.count side = 0
  · simp [hzero]
  · have := hpos side (Nat.pos_of_ne_zero hzero)
    rw [if_neg hzero, Nat.sub_add_cancel this]

theorem lastThrough_ge (hd : FromDocuments p hs docs) (side : Side) :
    p side ≤ lastThrough p hs side := by
  induction hd with
  | done common => exact le_refl _
  | hunk common hbefore rest ih =>
    have := hbefore side
    simp only [linesThrough] at ih
    simp only [lastThrough]
    omega

theorem omitted_tiles (hd : FromDocuments p hs docs) (hi : HunksInv hs) (side : Side) :
    shownLines (omitted p hs) hs side =
      List.range' (p side + 1) (lastThrough p hs side - p side) := by
  induction hd with
  | done common => simp [shownLines, omitted, lastThrough]
  | @hunk p h hs docs common hbefore rest ih =>
    have hrest := ih hi.tail
    have hend := lastThrough_ge rest side
    have hright := hbefore .right
    have hside := hbefore side
    have hrows := numbers_eq (hi.inv h (List.mem_cons_self ..)) (hi.pos h (List.mem_cons_self ..))
      side
    simp only [linesThrough] at hrest hend
    have hgap : (if p .right < linesBefore h .right then
        some { oldLine := p .left + 1, newLine := p .right + 1
               count := linesBefore h .right - p .right : Gap }
        else none).toList.flatMap (Gap.lines · side) = List.range' (p side + 1) common.length := by
      split
      · cases side <;> simp [Gap.lines, hright]
      · have hnone : common.length = 0 := by omega
        simp [hnone]
    have hjoin : shownLines (omitted p (h :: hs)) (h :: hs) side =
        List.range' (p side + 1) common.length ++
          List.range' (linesBefore h side + 1) (h.count side) ++
          shownLines (omitted (linesThrough h) hs) hs side := by
      rw [← hgap, ← hrows]
      simp only [shownLines, omitted, List.zipWith_cons_cons, List.flatten_cons]
    rw [hjoin, hrest, lastThrough, hside]
    have hrange := range'_join (i := p side + 1) (j := p side + common.length + 1)
      (k := p side + common.length + h.count side + 1) (by omega) (by omega)
    have hlast := range'_join (i := p side + 1) (j := p side + common.length + h.count side + 1)
      (k := lastThrough (linesThrough h) hs side + 1) (by omega) (by omega)
    simp only [Nat.add_sub_add_right, Nat.add_sub_cancel_left] at hrange hlast
    rw [← hlast, ← hrange]

/-! ## The loop -/

/-- The end of a hunk on a side, as the loop takes it. -/
theorem lastLine_eq (hi : HunkInv h) (hpos : ∀ side, 0 < h.count side → 0 < h.start side)
    (side : Side) (prev : Nat) :
    lastLine h side prev = if h.count side = 0 then prev else linesThrough h side := by
  rw [lastLine, numbers_eq hi hpos, linesThrough]
  by_cases hzero : h.count side = 0
  · simp [hzero]
  · have hmax : (List.range' (linesBefore h side + 1) (h.count side)).max? =
        some (linesBefore h side + h.count side) := by
      refine List.max?_eq_some_iff.mpr ⟨?_, fun n hn => ?_⟩
      · rw [List.mem_range'_1]
        omega
      · rw [List.mem_range'_1] at hn
        omega
    rw [hmax, if_neg hzero]
    rfl

/-- A hunk before which lines are left out has a line on the new side, and wherever lines were left
out, an old line is shown before lines are left out again. `stale` says that none was shown since;
`j` is the number of new lines before. -/
def Told : Bool → Nat → List Hunk → Prop
  | _, _, [] => True
  | stale, j, h :: hs =>
    (j < linesBefore h .right → 0 < h.newCount ∧ stale = false) ∧
      Told (decide (h.oldCount = 0) && (stale || decide (j < linesBefore h .right)))
        (linesThrough h .right) hs

/-- The loop emits the gap before a hunk where nothing is left out, or where the hunk has a new line
and the loop knows the end of the old side. -/
theorem gapBefore_eq_iff {c o : Nat} (hpos : 0 < h.newCount → 0 < h.newStart)
    (hbefore : ∀ side, linesBefore h side = p side + c) (ho : o ≤ p .left)
    (hmax : o < u32Max ∧ p .right < u32Max) :
    gapBefore h o (p .right) = (if p .right < linesBefore h .right then
        some { oldLine := p .left + 1, newLine := p .right + 1
               count := linesBefore h .right - p .right }
      else none) ↔
      (p .right < linesBefore h .right → 0 < h.newCount ∧ decide (o < p .left) = false) := by
  have hright := hbefore .right
  rw [gapBefore, wrappingAdd_eq hmax.2, wrappingAdd_eq hmax.1, hright]
  by_cases hzero : h.newCount = 0
  · -- The start is the line before the hunk, so the loop counts one line less.
    have hstart : h.newStart = p .right + c := by
      rwa [linesBefore, if_pos (show h.count .right = 0 from hzero)] at hright
    by_cases hc : c = 0
    · simp [hstart, hc]
    · have hlt : p .right < p .right + c := by omega
      simp only [hstart, hzero, hlt, if_true]
      refine iff_of_false (fun heq => ?_) (by simp)
      split at heq
      · have hcount := congrArg Gap.count (Option.some.inj heq)
        dsimp only at hcount
        omega
      · cases heq
  · have hstart : h.newStart = p .right + c + 1 := by
      have := hpos (Nat.pos_of_ne_zero hzero)
      rw [linesBefore, if_neg (show ¬ h.count .right = 0 from hzero), Hunk.start] at hright
      omega
    by_cases hc : c = 0
    · simp [hstart, hc]
    · have hgt : p .right + c + 1 > p .right + 1 := by omega
      have hlt : p .right < p .right + c := by omega
      have hcount : p .right + c + 1 - p .right - 1 = p .right + c - p .right := by omega
      rw [hstart, if_pos hgt, if_pos hlt, hcount]
      simp only [Option.some.injEq, Gap.mk.injEq, and_true, hlt, true_imp_iff,
        decide_eq_false_iff_not, Nat.pos_of_ne_zero hzero, true_and]
      omega

theorem gaps_eq_iff (hd : FromDocuments p hs docs) (hi : HunksInv hs) {o : Nat}
    (ho : o ≤ p .left) (hmax : o < u32Max ∧ p .right < u32Max) :
    gaps o (p .right) hs = omitted p hs ↔ Told (decide (o < p .left)) (p .right) hs := by
  induction hd generalizing o with
  | done common => simp [gaps, omitted, Told]
  | @hunk p h hs docs common hbefore rest ih =>
    have hhead := List.mem_cons_self (a := h) (l := hs)
    have hpos := hi.pos h hhead
    have hthrough : ∀ side, 0 < h.count side → linesThrough h side < u32Max := by
      intro side hcount
      have := hi.fits h hhead side
      have := hpos side hcount
      rw [linesThrough, linesBefore, if_neg (by omega)]
      omega
    rw [gaps, omitted, List.cons.injEq, Told,
      gapBefore_eq_iff (hpos .right) hbefore ho hmax]
    refine and_congr_right fun htold => ?_
    -- What the loop takes for the ends of the hunk.
    have hleft := hbefore .left
    have hright := hbefore .right
    have hold := lastLine_eq (hi.inv h hhead) hpos .left o
    have hnew : lastLine h .right (p .right) = linesThrough h .right := by
      rw [lastLine_eq (hi.inv h hhead) hpos]
      split
      case isFalse => rfl
      case isTrue hzero =>
        have hnone : ¬ p .right < linesBefore h .right := fun hlt => by
          have := (htold hlt).1
          simp only [Hunk.count] at hzero
          omega
        rw [linesThrough, hzero]
        omega
    have hstale : (decide (h.oldCount = 0) && (decide (o < p .left) ||
        decide (p .right < linesBefore h .right))) =
        decide (lastLine h .left o < linesThrough h .left) := by
      rw [hold]
      by_cases hzero : h.count .left = 0
      · have hzero' : h.oldCount = 0 := hzero
        rw [if_pos hzero, linesThrough, Bool.eq_iff_iff]
        simp only [hzero, hzero', decide_true, Bool.true_and, Bool.or_eq_true, decide_eq_true_eq]
        omega
      · have hzero' : ¬ h.oldCount = 0 := hzero
        simp [hzero, hzero']
    have hle : lastLine h .left o ≤ linesThrough h .left := by
      rw [hold]
      split
      · simp only [linesThrough]
        omega
      · exact le_refl _
    rw [hnew, hstale]
    refine ih hi.tail hle ⟨?_, ?_⟩
    · rw [hold]
      split
      · exact hmax.1
      · exact hthrough .left (by omega)
    · by_cases hzero : h.count .right = 0
      · rw [lastLine_eq (hi.inv h hhead) hpos, if_pos hzero] at hnew
        exact hnew ▸ hmax.2
      · exact hthrough .right (by omega)

end Documents

/-- **When the gaps of the rich diff are exact.** The items of a file are the gaps before its hunks
and the blocks of these. For a file of a patch that is made from two documents, the gaps are the
lines left out, and gaps and hunks tile both sides, exactly where no hunk that follows a gap lacks a
new line, and no gap follows another without an old line between them. -/
theorem richDiff_gaps_iff {sha256 : Bytes → Bytes} {bytes : Bytes} {limits : ParseLimits}
    {report : PatchReport} (hp : parsePatch sha256 bytes limits = .ok report) {f : FileChange}
    (hf : f ∈ report.files) {docs : Side → List (String × LineEnding)}
    (hd : FromDocuments (fun _ => 0) f.hunks docs) :
    (∃ bs, f.hunks.mapM emitHunk = some bs ∧ richDiff f = some (weave (gaps 0 0 f.hunks) bs)) ∧
      (GapsExact f.hunks ↔ Told false 0 f.hunks) := by
  have hi := Diffz.Proof.Patch.parsePatch_hunksInv hp f hf
  have hiff : gaps 0 0 f.hunks = omitted (fun _ => 0) f.hunks ↔ Told false 0 f.hunks :=
    gaps_eq_iff hd hi (le_refl 0) ⟨by decide, by decide⟩
  constructor
  · obtain ⟨bs, hbs⟩ := mapM_emitHunk hi.inv
    exact ⟨bs, hbs, by rw [richDiff, richLoop_weave, hbs]; rfl⟩
  · rw [← hiff]
    refine ⟨fun h => h.1, fun h => ⟨h, fun side => ?_⟩⟩
    rw [h]
    exact omitted_tiles hd hi side

/-- Ten lines are the same between two hunks. -/
def spaced : Bytes :=
  asBytes "diff --git a/f.md b/f.md\n--- a/f.md\n+++ b/f.md\n@@ -1,2 +1,2 @@\n # Doc\n-old\n+new\n@@ -13 +13 @@\n-x\n+y\n"

def spacedHunks : List Hunk :=
  [{ oldStart := 1, oldCount := 2, newStart := 1, newCount := 2, sectionText := ""
     rows :=
      [{ oldLine := some 1, newLine := some 1, text := "# Doc", ending := .lf, kind := .context },
       { oldLine := some 2, newLine := none, text := "old", ending := .lf, kind := .removed },
       { oldLine := none, newLine := some 2, text := "new", ending := .lf, kind := .added }] },
   { oldStart := 13, oldCount := 1, newStart := 13, newCount := 1, sectionText := ""
     rows :=
      [{ oldLine := some 13, newLine := none, text := "x", ending := .lf, kind := .removed },
       { oldLine := none, newLine := some 13, text := "y", ending := .lf, kind := .added }] }]

theorem file_of_hunks {bytes : Bytes} {hs : List Hunk}
    (h : (parsePatch Sha256.sha256 bytes .default).map (fun r => r.files.map (·.hunks)) =
      .ok [hs]) :
    ∃ report f, parsePatch Sha256.sha256 bytes .default = .ok report ∧ f ∈ report.files ∧
      f.hunks = hs := by
  obtain ⟨report, hp, hfiles⟩ := ok_of_map h
  obtain ⟨f, rest, hreport, hhunks, _⟩ := List.map_eq_cons_iff.mp hfiles
  exact ⟨report, f, hp, hreport ▸ List.mem_cons_self .., hhunks⟩

theorem spaced_gaps : ∃ report f docs, parsePatch Sha256.sha256 spaced .default = .ok report ∧
    f ∈ report.files ∧ FromDocuments (fun _ => 0) f.hunks docs ∧
    (∃ bs, f.hunks.mapM emitHunk = some bs ∧ richDiff f = some (weave (gaps 0 0 f.hunks) bs)) ∧
    (GapsExact f.hunks ↔ Told false 0 f.hunks) ∧ Told false 0 f.hunks := by
  obtain ⟨report, f, hp, hf, hhunks⟩ := @file_of_hunks spaced spacedHunks
    (by decide +kernel)
  have hd : ∃ docs, FromDocuments (fun _ => 0) f.hunks docs := by
    rw [hhunks]
    refine ⟨_, .hunk [] (fun side => ?_) (.hunk (List.replicate 10 ("z", .lf)) (fun side => ?_)
      (.done []))⟩
    · cases side <;> rfl
    · cases side <;> rfl
  obtain ⟨docs, hd⟩ := hd
  have hgaps := richDiff_gaps_iff hp hf hd
  refine ⟨report, f, docs, hp, hf, hd, hgaps.1, hgaps.2, ?_⟩
  rw [hhunks]
  simp [Told, spacedHunks, linesBefore, linesThrough, Hunk.start, Hunk.count]

/-- The second of three lines is removed, without context. -/
def dropped : Bytes :=
  asBytes "diff --git a/f.md b/f.md\n--- a/f.md\n+++ b/f.md\n@@ -2 +1,0 @@\n-b\n"

def droppedHunk : Hunk where
  oldStart := 2
  oldCount := 1
  newStart := 1
  newCount := 0
  sectionText := ""
  rows :=
    [{ oldLine := some 2, newLine := none, text := "b", ending := .lf, kind := .removed }]

def droppedDocs : Side → List (String × LineEnding)
  | .left => [("a", .lf), ("b", .lf), ("c", .lf)]
  | .right => [("a", .lf), ("c", .lf)]

/-- The first line is left out, and the rich diff has no gap. -/
theorem dropped_no_gap : ∃ report f, parsePatch Sha256.sha256 dropped .default = .ok report ∧
    f ∈ report.files ∧ FromDocuments (fun _ => 0) f.hunks droppedDocs ∧
    omitted (fun _ => 0) f.hunks = [some { oldLine := 1, newLine := 1, count := 1 }] ∧
    gaps 0 0 f.hunks = [none] ∧ ¬ GapsExact f.hunks := by
  obtain ⟨report, f, hp, hf, hhunks⟩ := @file_of_hunks dropped [droppedHunk]
    (by decide +kernel)
  have hd : FromDocuments (fun _ => 0) f.hunks droppedDocs := by
    have hdocs : droppedDocs = fun side => [("a", .lf)] ++ sideText droppedHunk side ++
        [("c", .lf)] := by
      funext side
      cases side <;> rfl
    rw [hhunks, hdocs]
    refine .hunk [("a", .lf)] (fun side => ?_) (.done [("c", .lf)])
    cases side <;> rfl
  refine ⟨report, f, hp, hf, hd, ?_, ?_, fun hexact => ?_⟩
  · rw [hhunks]
    rfl
  · rw [hhunks]
    rfl
  · rw [hhunks] at hexact
    exact absurd hexact.1 (by decide)

end Rich
end Proof
end Diffz
