import Mathlib.Data.List.Forall2
import Diffz.Lib.Sha256
import Diffz.Proof.Patch.Numbers

/-!
# Which files a patch lists, and which the parser reads

Every `diff --git` line of a patch announces a file. The parser reads the files in order, but the
trailer of a mailed patch, a line `-- ` after a counted hunk, moves its cursor past the last line:
whatever follows is neither read nor refused. Anywhere else that line is harmless (a removed row, a
header line, a line before the first file), so telling the two apart takes the position in the
patch. `Zone` is that position, computed from the lines alone.
-/

set_option autoImplicit false

namespace Diffz
namespace Proof
namespace Patch

/-! ## Positions in a patch -/

/-- Where a line stands: before the first file, in a file's header, in a counted hunk that still
wants `old` and `new` rows, or after a counted hunk. -/
inductive Zone
  | preamble
  | header
  | rows (old new : Nat)
  | tail
deriving DecidableEq, Repr

/-- A hunk that wants no more rows has ended. -/
def rowsLeft (old new : Nat) : Zone := if old = 0 ∧ new = 0 then .tail else .rows old new

/-- The zone after a line of a file's header or after its hunks. -/
def betweenHunks (z : Zone) (l : Bytes) : Zone :=
  if diffGit.isPrefixOf l then .header
  else if hunkStart.isPrefixOf l then
    match hunkHeader l 0 with
    | .ok h => rowsLeft h.oldCount h.newCount
    | .error _ => z
  else z

def zoneStep : Zone → Bytes → Zone
  | .preamble, l => if diffGit.isPrefixOf l then .header else .preamble
  | .header, l => betweenHunks .header l
  | .tail, l => betweenHunks .tail l
  | .rows old new, l =>
    if l = eofMarker then .rows old new
    else match l.head?.bind rowKind with
      | some .context => rowsLeft (old - 1) (new - 1)
      | some .added => rowsLeft old (new - 1)
      | some .removed => rowsLeft (old - 1) new
      | none => .rows old new

/-- What follows each `diff --git` line, that line included. -/
def headerTails : List Bytes → List (List Bytes)
  | [] => []
  | l :: rest => (if diffGit.isPrefixOf l then [l :: rest] else []) ++ headerTails rest

/-- The same up to the mail trailer. -/
def readTails : Zone → List Bytes → List (List Bytes)
  | _, [] => []
  | z, l :: rest =>
    if z = .tail ∧ l = mailTrailer then []
    else (if diffGit.isPrefixOf l then [l :: rest] else []) ++ readTails (zoneStep z l) rest

/-- The lines after the mail trailer. -/
def afterTrailer : Zone → List Bytes → List Bytes
  | _, [] => []
  | z, l :: rest =>
    if z = .tail ∧ l = mailTrailer then rest else afterTrailer (zoneStep z l) rest

theorem headerTails_eq (z : Zone) (lines : List Bytes) :
    headerTails lines = readTails z lines ++ headerTails (afterTrailer z lines) := by
  induction lines generalizing z with
  | nil => rfl
  | cons l rest ih =>
    rw [readTails, afterTrailer]
    split
    · rename_i h
      have hl : diffGit.isPrefixOf l = false := h.2 ▸ by decide
      simp [headerTails, hl]
    · rw [headerTails, ih (zoneStep z l), List.append_assoc]

theorem headerTails_eq_nil {lines : List Bytes} :
    headerTails lines = [] ↔ ∀ l ∈ lines, diffGit.isPrefixOf l = false := by
  induction lines with
  | nil => simp [headerTails]
  | cons l rest ih =>
    rw [headerTails, List.append_eq_nil_iff, ih, List.forall_mem_cons]
    cases hl : diffGit.isPrefixOf l <;> simp

/-! ## The zones of an accepted section -/

/-- A line that neither begins a file nor is the trailer only moves the zone. -/
theorem readTails_step {z : Zone} {l : Bytes} {rest : List Bytes}
    (hl : diffGit.isPrefixOf l = false) (ht : z ≠ .tail ∨ l ≠ mailTrailer) :
    readTails z (l :: rest) = readTails (zoneStep z l) rest := by
  have hn : ¬ (z = .tail ∧ l = mailTrailer) := fun h => ht.elim (· h.1) (· h.2)
  rw [readTails, if_neg hn, hl]
  rfl

theorem rowsLeft_of_due {old new : Nat} (h : 0 < old ∨ 0 < new) :
    rowsLeft old new = .rows old new :=
  if_neg (by omega)

/-- The bytes that begin a row begin no file. -/
theorem diffGit_not_isPrefixOf_row {first : UInt8} {text : Bytes} {kind : RowKind}
    (hk : rowKind first = some kind) : diffGit.isPrefixOf (first :: text) = false := by
  have hd : diffGit = 100 :: diffGit.tail := by decide
  have hf : first ≠ 100 := by
    rintro rfl
    exact absurd hk (by simp [rowKind])
  rw [hd, List.isPrefixOf_cons_cons]
  simp [Ne.symm hf]

/-- A row takes from what each side still wants. -/
theorem SideStep.left {on : Prop} {start count taken taken₁ : Nat} {number : Option Nat}
    (hs : SideStep on start count taken number taken₁) (hf : start + count ≤ u32Max) :
    (on → count - taken₁ = count - taken - 1) ∧ (¬ on → count - taken₁ = count - taken) := by
  rcases hs with ⟨hon, hlt, rfl, _⟩ | ⟨hoff, _, rfl⟩
  · rw [wrappingAdd_eq (by omega)]
    exact ⟨fun _ => by omega, fun h => absurd hon h⟩
  · exact ⟨fun h => absurd h hoff, fun _ => rfl⟩

theorem RowOf.zoneStep {h : Hunk} {old new old₁ new₁ : Nat} {l : Bytes} {row : PatchRow}
    (hf : Fits h) (hr : RowOf h old new l row old₁ new₁) (hl : l ≠ eofMarker) :
    zoneStep (.rows (h.oldCount - old) (h.newCount - new)) l =
      rowsLeft (h.oldCount - old₁) (h.newCount - new₁) := by
  obtain ⟨first, text, rfl, hk, _, _⟩ := hr.kind
  have ho := hr.oldSide.left (hf .left)
  have hn := hr.newSide.left (hf .right)
  rw [Patch.zoneStep, if_neg hl]
  simp only [List.head?_cons, Option.bind_some, hk]
  cases hkind : row.kind with
  | context => simp only [ho.1 (by simp [hkind]), hn.1 (by simp [hkind])]
  | added => simp only [ho.2 (by simp [hkind]), hn.1 (by simp [hkind])]
  | removed => simp only [ho.1 (by simp [hkind]), hn.2 (by simp [hkind])]

theorem RowRun.readTails {limits : ParseLimits} {h h' : Hunk} {old new : Nat} {c c' : Cursor}
    (hr : RowRun limits h old new c h' c') (hf : Fits h) :
    readTails (rowsLeft (h.oldCount - old) (h.newCount - new)) c.rest =
      readTails .tail c'.rest := by
  induction hr with
  | done hd =>
    unfold Due at hd
    rw [rowsLeft, if_pos (by omega)]
  | @marker h h₁ h' old new totalRows i rest c' hd hm _ ih =>
    have hs := markLast_sameRange hm
    have ho := (hs .left).2
    have hn := (hs .right).2
    simp only [Hunk.count] at ho hn
    unfold Due at hd
    rw [← ih (hs.fits hf), ho, hn, rowsLeft_of_due (by omega),
      readTails_step (by decide) (.inl (by simp)), zoneStep, if_pos rfl]
  | @row h h' old new old₁ new₁ totalRows i l rest row c' hd hl hw _ ih =>
    have hr := (hunkRow_ok hw).1
    obtain ⟨first, text, rfl, hk, _⟩ := hr.kind
    unfold Due at hd
    rw [rowsLeft_of_due (by omega), readTails_step (diffGit_not_isPrefixOf_row hk) (.inl (by simp)),
      hr.zoneStep hf hl]
    exact ih ((pushRow_sameRange h row).fits hf)

/-- Only error messages read the line number. -/
theorem utf8_line {v : Bytes} {i j : Nat} {s : String} (h : utf8 v i = .ok s) :
    utf8 v j = .ok s := by
  unfold utf8 at h ⊢
  split at h
  · exact h
  · cases h

theorem pair_line {s : List Char} {i j : Nat} {r : Nat × Nat} (h : pair s i = .ok r) :
    pair s j = .ok r := by
  unfold pair at h ⊢
  dsimp only at h ⊢
  split at h
  · cases h
  · split at h
    · cases h
    · split at h
      · cases h
      · rename_i hc
        rw [if_neg hc]
        exact h

theorem hunkHeader_line {l : Bytes} {i j : Nat} {h : Hunk} (hh : hunkHeader l i = .ok h) :
    hunkHeader l j = .ok h := by
  unfold hunkHeader at hh ⊢
  obtain ⟨s, hs, hh⟩ := ok_of_bind hh
  rw [utf8_line hs]
  simp only [bind, Except.bind]
  split at hh
  · cases hh
  · split at hh
    · cases hh
    · split at hh
      · cases hh
      · obtain ⟨o, ho, hh⟩ := ok_of_bind hh
        obtain ⟨n, hn, hh⟩ := ok_of_bind hh
        rw [pair_line ho, pair_line hn]
        exact hh

theorem betweenHunks_of_header {z : Zone} {l : Bytes} {i : Nat} {h : Hunk}
    (hl : diffGit.isPrefixOf l = false) (hl' : hunkStart.isPrefixOf l = true)
    (hh : hunkHeader l i = .ok h) :
    betweenHunks z l = rowsLeft h.oldCount h.newCount := by
  simp only [betweenHunks, hl, hl', hunkHeader_line (j := 0) hh, if_true, Bool.false_eq_true,
    if_false]

theorem HunkRun.readTails {limits : ParseLimits} {hunks : List Hunk} {totalRows i : Nat}
    {l : Bytes} {rest : List Bytes} {h : Hunk} {c : Cursor} {z : Zone}
    (hh : HunkRun limits hunks totalRows i l rest h c) (hl : diffGit.isPrefixOf l = false)
    (hl' : hunkStart.isPrefixOf l = true) (hz : zoneStep z l = betweenHunks z l) :
    readTails z (l :: rest) = readTails .tail c.rest := by
  obtain ⟨h₀, h₁, c₁, hhead, _, hrows, hmark⟩ := hh.run
  have ht : l ≠ mailTrailer := by
    rintro rfl
    exact absurd hl' (by decide)
  rw [readTails_step hl (.inr ht), hz, betweenHunks_of_header hl hl' hhead]
  have hr := hrows.readTails (hunkHeader_ok hhead).1
  simp only [Nat.sub_zero] at hr
  rw [hr]
  cases hmark with
  | absent _ => rfl
  | present _ =>
    rw [readTails_step (by decide) (.inr (by decide))]
    rfl

/-- The zone of a section that has these hunks so far. -/
def sectionZone (hunks : List Hunk) : Zone := if hunks = [] then .header else .tail

theorem zoneStep_sectionZone (hunks : List Hunk) (l : Bytes) :
    zoneStep (sectionZone hunks) l = betweenHunks (sectionZone hunks) l := by
  unfold sectionZone
  split <;> rfl

theorem sectionZone_of_ne_nil {hunks : List Hunk} (h : hunks ≠ []) : sectionZone hunks = .tail :=
  if_neg h

/-- A section reads its lines without passing over a file: what it leaves holds the files that
were still to be read. -/
theorem SectionRun.readTails {limits : ParseLimits} {f f' : FileChange} {c c' : Cursor}
    (h : SectionRun limits f c f' c') :
    ∃ hunks, readTails (sectionZone f.hunks) c.rest = readTails (sectionZone hunks) c'.rest := by
  induction h with
  | stop _ => exact ⟨_, rfl⟩
  | @hunk f f' totalRows i l rest h c c' hl hl' hh _ ih =>
    obtain ⟨hunks, ih⟩ := ih
    refine ⟨hunks, ?_⟩
    rw [hh.readTails hl hl' (zoneStep_sectionZone _ _), ← ih,
      sectionZone_of_ne_nil (by simp [pushHunk])]
  | blank hf _ ih =>
    obtain ⟨hunks, ih⟩ := ih
    refine ⟨hunks, ?_⟩
    rw [sectionZone_of_ne_nil hf] at ih ⊢
    rw [readTails_step (by decide) (.inr (by decide)), ← ih]
    rfl
  | trailer hf =>
    refine ⟨[], ?_⟩
    rw [sectionZone_of_ne_nil hf]
    exact if_pos ⟨rfl, rfl⟩
  | @header f f₁ f' totalRows i l rest c' hl hl' hf ha _ ih =>
    obtain ⟨hunks, ih⟩ := ih
    refine ⟨hunks, ?_⟩
    have hz : sectionZone f.hunks = .header := if_pos hf
    rw [applyHeader_hunks ha, hz] at ih
    rw [hz, readTails_step hl (.inl (by simp)), ← ih]
    simp [zoneStep, betweenHunks, hl, hl']

/-! ## Entries -/

/-- `f` is what the parser makes of the file whose lines these are. -/
def EntryFor (sha256 : Bytes → Bytes) (limits : ParseLimits) (tail : List Bytes)
    (f : FileChange) : Prop :=
  ∃ l rest totalRows i c, tail = l :: rest ∧
    fileSection sha256 limits totalRows i l rest = .ok (f, c)

/-- The files read are the files before the trailer, one entry each and in their order. -/
theorem FilesRun.entries {sha256 : Bytes → Bytes} {limits : ParseLimits}
    {files out : List FileChange} {totalRows i : Nat} {lines : List Bytes}
    (h : FilesRun sha256 limits files totalRows i lines out) {z : Zone}
    (hz : (files = [] ∧ z = .preamble) ∨ (∃ hunks, z = sectionZone hunks) ∧ AtEnd lines) :
    ∃ new, out = files ++ new ∧
      List.Forall₂ (EntryFor sha256 limits) (readTails z lines) new := by
  induction h generalizing z with
  | nil => exact ⟨[], by simp, .nil⟩
  | preamble hl _ ih =>
    rcases hz with ⟨_, rfl⟩ | ⟨_, hend⟩
    · obtain ⟨new, hout, hnew⟩ := ih (.inl ⟨rfl, rfl⟩)
      refine ⟨new, hout, ?_⟩
      rw [readTails_step hl (.inl (by simp))]
      simpa only [zoneStep, hl, Bool.false_eq_true, if_false] using hnew
    · rcases hend with hnil | ⟨l, rest, hcons, hd⟩
      · cases hnil
      · cases hcons
        exact absurd hd (by simp [hl])
  | between hf hl _ _ =>
    -- A section stops at the next file or at the end, so the source's second treatment of trailing
    -- lines is never reached.
    rcases hz with ⟨hnil, _⟩ | ⟨_, hend⟩
    · exact absurd hnil hf
    · rcases hend with hnil | ⟨l, rest, hcons, hd⟩
      · cases hnil
      · cases hcons
        exact absurd hd (by simp [hl])
  | @file files totalRows i l rest f c out hl _ hs _ _ ih =>
    obtain ⟨old, new, f₁, _, hsec, _⟩ := (fileSection_run hs).run
    obtain ⟨hunks, hread⟩ := hsec.readTails
    obtain ⟨new, hout, hnew⟩ := ih (.inr ⟨⟨hunks, rfl⟩, hsec.atEnd⟩)
    refine ⟨f :: new, by simp [hout], ?_⟩
    have ht : l ≠ mailTrailer := by
      rintro rfl
      exact absurd hl (by decide)
    have hstep : zoneStep z l = .header := by
      rcases hz with ⟨_, rfl⟩ | ⟨⟨hunks, rfl⟩, _⟩
      · simp [zoneStep, hl]
      · simp [zoneStep_sectionZone, betweenHunks, hl]
    rw [readTails, if_neg (fun h => ht h.2), hstep, hl]
    have hread' : readTails .header rest = readTails (sectionZone hunks) c.rest := hread
    rw [hread']
    exact .cons ⟨l, rest, totalRows, i, c, rfl, hs⟩ hnew

theorem parsePatch_entries {sha256 : Bytes → Bytes} {bytes : Bytes} {limits : ParseLimits}
    {report : PatchReport} (h : parsePatch sha256 bytes limits = .ok report) :
    List.Forall₂ (EntryFor sha256 limits) (readTails .preamble (splitLines bytes))
      report.files := by
  obtain ⟨new, hout, hnew⟩ := (parsePatch_run h).entries (.inl ⟨rfl, rfl⟩)
  rw [hout]
  exact hnew

/-- **Which patches lose files.** An accepted report has one entry for each `diff --git` line, in
order, exactly when no such line follows the mail trailer. -/
theorem parsePatch_lists_every_file {sha256 : Bytes → Bytes} {bytes : Bytes}
    {limits : ParseLimits} {report : PatchReport}
    (h : parsePatch sha256 bytes limits = .ok report) :
    List.Forall₂ (EntryFor sha256 limits) (headerTails (splitLines bytes)) report.files ↔
      ∀ l ∈ afterTrailer .preamble (splitLines bytes), diffGit.isPrefixOf l = false := by
  have hread := parsePatch_entries h
  rw [← headerTails_eq_nil, headerTails_eq .preamble (splitLines bytes)]
  constructor
  · intro hall
    have hlen := hall.length_eq
    rw [List.length_append, hread.length_eq] at hlen
    exact List.eq_nil_of_length_eq_zero (by omega)
  · intro hnil
    rw [hnil, List.append_nil]
    exact hread

/-- A mailed patch of two files, with its trailer at the end. -/
def mailedPatch : Bytes :=
  asBytes "From: a\ndiff --git a/x b/x\n@@ -1 +1 @@\n-a\n+b\ndiff --git a/y b/y\n@@ -1 +1 @@\n-- \n+b\n-- \n2.40\n"

theorem mailedPatch_lists_every_file :
    ∃ report, parsePatch Sha256.sha256 mailedPatch .default = .ok report ∧
      List.Forall₂ (EntryFor Sha256.sha256 .default) (headerTails (splitLines mailedPatch))
        report.files := by
  obtain ⟨report, h⟩ := ok_of_isOk (x := parsePatch Sha256.sha256 mailedPatch .default)
    (by decide +kernel)
  exact ⟨report, h, (parsePatch_lists_every_file h).mpr (by decide +kernel)⟩

/-- The same trailer between two files. -/
def trailerThenFile : Bytes :=
  asBytes "diff --git a/x b/x\n@@ -1 +1 @@\n-a\n+b\n-- \n2.40\n\ndiff --git a/y b/y\n@@ -1 +1 @@\n-a\n+b\n"

/-- The second file is dropped without an error. -/
theorem trailerThenFile_drops_a_file :
    ∃ report, parsePatch Sha256.sha256 trailerThenFile .default = .ok report ∧
      report.files.length = 1 ∧ (headerTails (splitLines trailerThenFile)).length = 2 ∧
      ¬ List.Forall₂ (EntryFor Sha256.sha256 .default) (headerTails (splitLines trailerThenFile))
        report.files := by
  have hfiles : (parsePatch Sha256.sha256 trailerThenFile .default).map (·.files.length) =
      .ok 1 := by decide +kernel
  have htails : (headerTails (splitLines trailerThenFile)).length = 2 := by decide +kernel
  obtain ⟨report, h, hlen⟩ := ok_of_map hfiles
  refine ⟨report, h, hlen, htails, fun hall => ?_⟩
  have hlens := hall.length_eq
  omega

end Patch
end Proof
end Diffz
