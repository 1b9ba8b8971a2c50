import Diffz.Proof.Patch.Quote

/-!
# Patches written section by section

A section is the `diff --git` line, header lines of the kinds the rebuilding functions write, and
hunks. What the parser makes of it is decided by what the `diff --git` line names and by what the
header lines say after it; the hunks are read by `sectionLoop_hunkTexts`.
-/

set_option autoImplicit false

namespace Diffz
namespace Proof
namespace Patch

open Diffz.Github (plainByte quotePath)

/-! ## Header lines -/

/-- A header line of a rebuilt patch. -/
inductive HeadLine
  | newFileMode (mode : String)
  | deletedFileMode (mode : String)
  | oldMode (mode : String)
  | newMode (mode : String)
  | renameFrom (p : RepoPath)
  | renameTo (p : RepoPath)
  | copyFrom (p : RepoPath)
  | copyTo (p : RepoPath)
  | oldMarker (p : Option RepoPath)
  | newMarker (p : Option RepoPath)
  /-- a remark, which the parser keeps as it is -/
  | note (text : String)

/-- A marker's path, with `/dev/null` for none. -/
def markerToken (side : Bytes) (p : Option RepoPath) : Bytes :=
  (p.map fun p => quotePath side p.bytes).getD devNull

namespace HeadLine

def bytes : HeadLine → Bytes
  | newFileMode mode => asBytes "new file mode " ++ asBytes mode
  | deletedFileMode mode => asBytes "deleted file mode " ++ asBytes mode
  | oldMode mode => asBytes "old mode " ++ asBytes mode
  | newMode mode => asBytes "new mode " ++ asBytes mode
  | renameFrom p => asBytes "rename from " ++ quotePath [] p.bytes
  | renameTo p => asBytes "rename to " ++ quotePath [] p.bytes
  | copyFrom p => asBytes "copy from " ++ quotePath [] p.bytes
  | copyTo p => asBytes "copy to " ++ quotePath [] p.bytes
  | oldMarker p => asBytes "--- " ++ markerToken (asBytes "a/") p
  | newMarker p => asBytes "+++ " ++ markerToken (asBytes "b/") p
  | note text => asBytes text

/-- What the line says about a file. -/
def apply : HeadLine → FileChange → FileChange
  | newFileMode mode, f => { f with newMode := some mode, kind := .added, oldPath := none }
  | deletedFileMode mode, f => { f with oldMode := some mode, kind := .deleted, newPath := none }
  | oldMode mode, f => { f with oldMode := some mode }
  | newMode mode, f => { f with newMode := some mode }
  | renameFrom p, f => { f with oldPath := some p, kind := .renamed }
  | renameTo p, f => { f with newPath := some p, kind := .renamed }
  | copyFrom p, f => { f with oldPath := some p, kind := .copied }
  | copyTo p, f => { f with newPath := some p, kind := .copied }
  | oldMarker p, f => { f with oldPath := p }
  | newMarker p, f => { f with newPath := p }
  | note text, f => { f with metadata := f.metadata ++ [text] }

/-- A remark is no line of another kind, and nothing has a line feed in it. -/
def Fine : HeadLine → Prop
  | newFileMode mode | deletedFileMode mode | oldMode mode | newMode mode => '\n' ∉ mode.toList
  | note text => '\n' ∉ text.toList ∧ text ≠ "" ∧ headerLine (asBytes text) = .other ∧
      diffGit.isPrefixOf (asBytes text) = false ∧ hunkStart.isPrefixOf (asBytes text) = false ∧
      (asBytes "diff --cc ").isPrefixOf (asBytes text) = false ∧
      (asBytes "diff --combined ").isPrefixOf (asBytes text) = false ∧
      (asBytes "@@@ ").isPrefixOf (asBytes text) = false
  | _ => True

end HeadLine

theorem markerPath_token {side : Bytes} (hside : side = asBytes "a/" ∨ side = asBytes "b/")
    (p : Option RepoPath) (i : Nat) : markerPath (markerToken side p) i = .ok p := by
  cases p with
  | none => rfl
  | some p =>
    have hpath := rebuilding.markerPath_token hside p (.inl rfl) i
    rwa [List.append_nil] at hpath

theorem utf8_asBytes (s : String) (i : Nat) : utf8 (asBytes s) i = .ok s := by
  simp [utf8]

theorem applyHeader_headLine {l : HeadLine} (hl : l.Fine) (f : FileChange) (i : Nat) :
    applyHeader f i l.bytes = .ok (l.apply f) := by
  cases l with
  | newFileMode mode =>
    have hline : headerLine (HeadLine.newFileMode mode).bytes = .newFileMode (asBytes mode) := rfl
    simp only [applyHeader, hline, utf8_asBytes]
    rfl
  | deletedFileMode mode =>
    have hline : headerLine (HeadLine.deletedFileMode mode).bytes = .deletedFileMode (asBytes mode) :=
      rfl
    simp only [applyHeader, hline, utf8_asBytes]
    rfl
  | oldMode mode =>
    have hline : headerLine (HeadLine.oldMode mode).bytes = .oldMode (asBytes mode) := rfl
    simp only [applyHeader, hline, utf8_asBytes]
    rfl
  | newMode mode =>
    have hline : headerLine (HeadLine.newMode mode).bytes = .newMode (asBytes mode) := rfl
    simp only [applyHeader, hline, utf8_asBytes]
    rfl
  | renameFrom p =>
    have hline : headerLine (HeadLine.renameFrom p).bytes = .renameFrom (quotePath [] p.bytes) := rfl
    simp only [applyHeader, hline, path_quotePath_nil]
    rfl
  | renameTo p =>
    have hline : headerLine (HeadLine.renameTo p).bytes = .renameTo (quotePath [] p.bytes) := rfl
    simp only [applyHeader, hline, path_quotePath_nil]
    rfl
  | copyFrom p =>
    have hline : headerLine (HeadLine.copyFrom p).bytes = .copyFrom (quotePath [] p.bytes) := rfl
    simp only [applyHeader, hline, path_quotePath_nil]
    rfl
  | copyTo p =>
    have hline : headerLine (HeadLine.copyTo p).bytes = .copyTo (quotePath [] p.bytes) := rfl
    simp only [applyHeader, hline, path_quotePath_nil]
    rfl
  | oldMarker p =>
    have hline : headerLine (HeadLine.oldMarker p).bytes =
        .oldFile (markerToken (asBytes "a/") p) := rfl
    simp only [applyHeader, hline, markerPath_token (.inl rfl)]
    rfl
  | newMarker p =>
    have hline : headerLine (HeadLine.newMarker p).bytes =
        .newFile (markerToken (asBytes "b/") p) := rfl
    simp only [applyHeader, hline, markerPath_token (.inr rfl)]
    rfl
  | note text =>
    obtain ⟨-, hne, hother, -⟩ := hl
    have hbytes : asBytes text ≠ [] := by
      intro h
      exact hne (by simpa using congrArg fromUtf8 (h.trans (show [] = asBytes "" by decide)))
    simp only [applyHeader, HeadLine.bytes, hother, if_neg hbytes, utf8_asBytes]
    rfl

theorem headLine_begins {l : HeadLine} (hl : l.Fine) :
    diffGit.isPrefixOf l.bytes = false ∧ hunkStart.isPrefixOf l.bytes = false ∧
      ¬Combined l.bytes := by
  cases l with
  | note text =>
    obtain ⟨-, -, -, hdiff, hhunk, hcc, hcombined, hat⟩ := hl
    exact ⟨hdiff, hhunk, by simp [Combined, HeadLine.bytes, hcc, hcombined, hat]⟩
  | _ => exact ⟨rfl, rfl, by rintro (h | h | h) <;> cases h⟩

theorem lf_not_mem_quotePath {side p : Bytes} (hside : side.all plainByte) :
    10 ∉ quotePath side p := by
  intro h
  exact absurd (le_of_mem_quotePath hside h) (by decide)

theorem lf_not_mem_markerToken {side : Bytes} (hside : side.all plainByte) (p : Option RepoPath) :
    10 ∉ markerToken side p := by
  cases p with
  | none => exact (by decide : (10 : UInt8) ∉ devNull)
  | some p => exact lf_not_mem_quotePath hside

theorem lf_not_mem_headLine {l : HeadLine} (hl : l.Fine) : 10 ∉ l.bytes := by
  have hmode : ∀ {mode : String}, '\n' ∉ mode.toList → 10 ∉ asBytes mode := lf_not_mem_asBytes
  cases l with
  | newFileMode mode | deletedFileMode mode | oldMode mode | newMode mode =>
    rw [HeadLine.bytes, List.mem_append, not_or]
    exact ⟨by decide, hmode hl⟩
  | renameFrom p | renameTo p | copyFrom p | copyTo p =>
    rw [HeadLine.bytes, List.mem_append, not_or]
    exact ⟨by decide, lf_not_mem_quotePath rfl⟩
  | oldMarker p | newMarker p =>
    rw [HeadLine.bytes, List.mem_append, not_or]
    exact ⟨by decide, lf_not_mem_markerToken (by decide) p⟩
  | note text => exact hmode hl.1

@[simp] theorem apply_hunks (l : HeadLine) (f : FileChange) : (l.apply f).hunks = f.hunks := by
  cases l <;> rfl

/-! ## Sections -/

/-- A file of a rebuilt patch. -/
structure Written where
  prev : RepoPath
  name : RepoPath
  heads : List HeadLine
  texts : List HunkText

namespace Written

def lines (w : Written) : List Bytes :=
  (diffGit ++ headText w.prev w.name) ::
    (w.heads.map HeadLine.bytes ++ w.texts.flatMap HunkText.lines)

def hunks (w : Written) : List Hunk := w.texts.map (·.hunk)

/-- The file as it stands before it is finished, from what the `diff --git` line names. -/
def read (w : Written) (old new : Option RepoPath) : FileChange :=
  { w.heads.foldl (fun f l => l.apply f) (newFile old new) with hunks := w.hunks }

/-- What the lines need for being read as they were written. -/
structure Fine (w : Written) : Prop where
  heads : ∀ l ∈ w.heads, l.Fine
  inv : HunksInv w.hunks
  texts : ∀ t ∈ w.texts, t.Fine

end Written

theorem sectionLoop_heads {limits : ParseLimits} {heads : List HeadLine} {f : FileChange}
    {totalRows i : Nat} {rest : List Bytes} (hheads : ∀ l ∈ heads, l.Fine) (hf : f.hunks = []) :
    sectionLoop limits f totalRows i (heads.map HeadLine.bytes ++ rest) =
      sectionLoop limits (heads.foldl (fun f l => l.apply f) f) totalRows (i + heads.length)
        rest := by
  induction heads generalizing f i with
  | nil => rfl
  | cons l heads ih =>
    have hl := hheads l List.mem_cons_self
    obtain ⟨hdiff, hhunk, -⟩ := headLine_begins hl
    rw [List.map_cons, List.cons_append, sectionLoop_header hdiff hhunk hf (applyHeader_headLine hl f i),
      ih (fun k hk => hheads k (List.mem_cons_of_mem l hk)) ((apply_hunks l f).trans hf),
      List.foldl_cons, List.length_cons]
    congr 1
    omega

theorem foldl_apply_hunks (heads : List HeadLine) (f : FileChange) :
    (heads.foldl (fun f l => l.apply f) f).hunks = f.hunks := by
  induction heads generalizing f with
  | nil => rfl
  | cons l heads ih => rw [List.foldl_cons, ih, apply_hunks]

/-- Where the reading of a section ends. -/
def Written.stop (w : Written) (totalRows i : Nat) (rest : List Bytes) : Cursor :=
  ⟨totalRows + (w.texts.flatMap (·.hunk.rows)).length,
    i + 1 + w.heads.length + (w.texts.flatMap HunkText.lines).length, rest⟩

theorem sectionLoop_written {limits : ParseLimits} {w : Written} {totalRows i : Nat}
    {rest : List Bytes} (hw : w.Fine)
    (hlim : totalRows + (w.texts.flatMap (·.hunk.rows)).length ≤ limits.maxRows) (hrest : AtEnd rest)
    (old new : Option RepoPath) :
    sectionLoop limits (newFile old new) totalRows (i + 1)
      (w.heads.map HeadLine.bytes ++ w.texts.flatMap HunkText.lines ++ rest) =
      .ok (w.read old new, w.stop totalRows i rest) := by
  have hnil := foldl_apply_hunks w.heads (newFile old new)
  have hhunks := sectionLoop_hunkTexts (f := w.heads.foldl (fun f l => l.apply f) (newFile old new))
    (i := i + 1 + w.heads.length) (by rw [hnil]; exact hw.inv) hw.texts hlim hrest
  rw [List.append_assoc, sectionLoop_heads hw.heads rfl, hhunks, hnil]
  rfl

/-! ## Files -/

section Files

variable {sha256 : Bytes → Bytes} {limits : ParseLimits}

/-- The section is read as this file. -/
def Parses (sha256 : Bytes → Bytes) (w : Written) (f : FileChange) : Prop :=
  ∀ i, ∃ old new, headerPaths (headText w.prev w.name) i = .ok (old, new) ∧
    ∀ j, finishFile sha256 (w.read old new) j = .ok f

/-- The section is refused: by its `diff --git` line, or because no line names a path. -/
def Refused (w : Written) : Prop :=
  ∀ i, (∃ e, headerPaths (headText w.prev w.name) i = .error e) ∨
    ∃ old new, headerPaths (headText w.prev w.name) i = .ok (old, new) ∧
      (w.read old new).oldPath = none ∧ (w.read old new).newPath = none

theorem drop_diffGit (v : Bytes) : (diffGit ++ v).drop 11 = v := List.drop_left' (by decide)

theorem fileSection_parses {w : Written} {f : FileChange} {totalRows : Nat} (i : Nat)
    {rest : List Bytes} (hw : w.Fine) (hf : Parses sha256 w f)
    (hlim : totalRows + (w.texts.flatMap (·.hunk.rows)).length ≤ limits.maxRows) (hrest : AtEnd rest) :
    fileSection sha256 limits totalRows i (diffGit ++ headText w.prev w.name)
      (w.heads.map HeadLine.bytes ++ w.texts.flatMap HunkText.lines ++ rest) =
      .ok (f, w.stop totalRows i rest) := by
  obtain ⟨old, new, hpaths, hfinish⟩ := hf i
  unfold fileSection
  rw [drop_diffGit, hpaths]
  dsimp only
  rw [sectionLoop_written hw hlim hrest]
  dsimp only
  rw [hfinish]

theorem fileSection_refused {w : Written} {totalRows : Nat} (i : Nat) {rest : List Bytes}
    (hw : w.Fine) (hr : Refused w)
    (hlim : totalRows + (w.texts.flatMap (·.hunk.rows)).length ≤ limits.maxRows) (hrest : AtEnd rest) :
    ∃ e, fileSection sha256 limits totalRows i (diffGit ++ headText w.prev w.name)
      (w.heads.map HeadLine.bytes ++ w.texts.flatMap HunkText.lines ++ rest) = .error e := by
  unfold fileSection
  rw [drop_diffGit]
  rcases hr i with ⟨e, he⟩ | ⟨old, new, hpaths, hnone⟩
  · rw [he]
    exact ⟨e, rfl⟩
  · rw [hpaths]
    dsimp only
    rw [sectionLoop_written hw hlim hrest]
    dsimp only
    rw [finishFile, if_pos hnone]
    exact ⟨_, rfl⟩

def writtenLines (ws : List Written) : List Bytes := ws.flatMap Written.lines

theorem atEnd_writtenLines (ws : List Written) : AtEnd (writtenLines ws) := by
  cases ws with
  | nil => exact .inl rfl
  | cons w ws => exact .inr ⟨_, _, rfl, by simp⟩

theorem writtenLines_cons (w : Written) (ws : List Written) :
    writtenLines (w :: ws) = (diffGit ++ headText w.prev w.name) ::
      (w.heads.map HeadLine.bytes ++ w.texts.flatMap HunkText.lines ++ writtenLines ws) := by
  simp [writtenLines, Written.lines]

/-- How many rows sections have. -/
def rowCount (ws : List Written) : Nat := (ws.flatMap fun w => w.texts.flatMap (·.hunk.rows)).length

theorem rowCount_cons (w : Written) (ws : List Written) :
    rowCount (w :: ws) = (w.texts.flatMap (·.hunk.rows)).length + rowCount ws := by
  simp [rowCount]

theorem fileLoop_parses {ws : List Written} {file : Written → FileChange} {acc : List FileChange}
    {totalRows i : Nat} (hw : ∀ w ∈ ws, w.Fine) (hf : ∀ w ∈ ws, Parses sha256 w (file w))
    (hids : (seen (acc ++ ws.map file)).Nodup) (hfiles : acc.length + ws.length ≤ limits.maxFiles)
    (hrows : totalRows + rowCount ws ≤ limits.maxRows) :
    fileLoop sha256 limits acc totalRows i (writtenLines ws) = .ok (acc ++ ws.map file) := by
  induction ws generalizing acc totalRows i with
  | nil => simp [writtenLines, fileLoop]
  | cons w ws ih =>
    rw [rowCount_cons] at hrows
    rw [List.length_cons] at hfiles
    have hids' : (seen ((acc ++ [file w]) ++ ws.map file)).Nodup := by simpa using hids
    have hnew : (file w).id ∉ seen acc := by
      intro hmem
      unfold seen at hids hmem
      rw [List.map_cons, List.map_append, List.nodup_append] at hids
      exact hids.2.2 _ hmem _ (by simp) rfl
    have hroom : totalRows + (w.texts.flatMap (·.hunk.rows)).length ≤ limits.maxRows := by omega
    have hsec := fileSection_parses i (hw w List.mem_cons_self) (hf w List.mem_cons_self) hroom
      (atEnd_writtenLines ws)
    rw [writtenLines_cons, fileLoop, if_neg (by simp), if_neg (by omega)]
    split
    · rename_i he
      rw [hsec] at he
      cases he
    · rename_i g c he
      rw [hsec] at he
      cases he
      rw [if_neg hnew, Written.stop, ih (fun x hx => hw x (List.mem_cons_of_mem w hx))
        (fun x hx => hf x (List.mem_cons_of_mem w hx)) hids' (by simp; omega) (by dsimp only; omega)]
      simp

theorem fileLoop_refused {ws : List Written} {acc : List FileChange} {totalRows i : Nat}
    (hw : ∀ w ∈ ws, w.Fine) (hf : ∀ w ∈ ws, (∃ f, Parses sha256 w f) ∨ Refused w)
    (hr : ∃ w ∈ ws, Refused w) (hrows : totalRows + rowCount ws ≤ limits.maxRows) :
    ∃ e, fileLoop sha256 limits acc totalRows i (writtenLines ws) = .error e := by
  induction ws generalizing acc totalRows i with
  | nil =>
    obtain ⟨w, hw, -⟩ := hr
    cases hw
  | cons w ws ih =>
    rw [rowCount_cons] at hrows
    have hfine := hw w List.mem_cons_self
    have hroom : totalRows + (w.texts.flatMap (·.hunk.rows)).length ≤ limits.maxRows := by omega
    rw [writtenLines_cons, fileLoop, if_neg (by simp)]
    split
    · exact ⟨_, rfl⟩
    by_cases href : Refused w
    · -- The sections before were read; this one is where the loop stops.
      obtain ⟨e, he⟩ := fileSection_refused i hfine href hroom (atEnd_writtenLines ws)
      split
      · exact ⟨_, rfl⟩
      · rename_i hok
        rw [he] at hok
        cases hok
    · obtain ⟨f, hparse⟩ := (hf w List.mem_cons_self).resolve_right href
      have hsec := fileSection_parses i hfine hparse hroom (atEnd_writtenLines ws)
      have hrest : ∃ x ∈ ws, Refused x := by
        obtain ⟨x, hx, hxr⟩ := hr
        rcases List.mem_cons.mp hx with rfl | hx
        · exact absurd hxr href
        · exact ⟨x, hx, hxr⟩
      split
      · exact ⟨_, rfl⟩
      · rename_i g c hok
        rw [hsec] at hok
        cases hok
        split
        · exact ⟨_, rfl⟩
        · exact ih (fun x hx => hw x (List.mem_cons_of_mem w hx))
            (fun x hx => hf x (List.mem_cons_of_mem w hx)) hrest
            (by dsimp only [Written.stop]; omega)

/-! ## The patch -/

/-- The bytes of the sections. -/
def written (ws : List Written) : Bytes := (writtenLines ws).flatMap (· ++ [10])

structure FitsWritten (limits : ParseLimits) (ws : List Written) : Prop where
  bytes : (written ws).length ≤ limits.maxBytes
  count : ws.length ≤ limits.maxFiles
  rows : rowCount ws ≤ limits.maxRows
  lines : ∀ l ∈ writtenLines ws, l.length ≤ limits.maxLineBytes

theorem forall_writtenLines {P : Bytes → Prop} {ws : List Written} (hw : ∀ w ∈ ws, w.Fine)
    (hhead : ∀ w ∈ ws, P (diffGit ++ headText w.prev w.name))
    (hline : ∀ l : HeadLine, l.Fine → P l.bytes) (hhunk : ∀ t : HunkText, t.Fine → P t.line)
    (hrow : ∀ r, PlainRow r → ∀ l ∈ rowLines r, P l) : ∀ l ∈ writtenLines ws, P l := by
  intro l hl
  obtain ⟨w, hmem, hl⟩ := List.mem_flatMap.mp hl
  have hfine := hw w hmem
  rw [Written.lines, List.mem_cons, List.mem_append] at hl
  rcases hl with rfl | hl | hl
  · exact hhead w hmem
  · obtain ⟨k, hk, rfl⟩ := List.mem_map.mp hl
    exact hline k (hfine.heads k hk)
  · obtain ⟨t, ht, hl⟩ := List.mem_flatMap.mp hl
    rw [HunkText.lines, List.mem_cons] at hl
    rcases hl with rfl | hl
    · exact hhunk t (hfine.texts t ht)
    · obtain ⟨r, hr, hl⟩ := List.mem_flatMap.mp hl
      exact hrow r ((hfine.texts t ht).rows r hr) l hl

theorem lf_not_mem_writtenLines {ws : List Written} (hw : ∀ w ∈ ws, w.Fine) :
    ∀ l ∈ writtenLines ws, 10 ∉ l := by
  refine forall_writtenLines hw ?_ (fun l hl => lf_not_mem_headLine hl)
    (fun t ht => ht.header.lf_not_mem) (fun r hr l hl => lf_not_mem_rowLines hr hl)
  intro w _
  simp only [headText, List.mem_append, not_or]
  exact ⟨by decide, ⟨lf_not_mem_quotePath (by decide), by decide⟩, lf_not_mem_quotePath (by decide)⟩

theorem not_combined_writtenLines {ws : List Written} (hw : ∀ w ∈ ws, w.Fine) :
    ∀ l ∈ writtenLines ws, ¬Combined l :=
  forall_writtenLines hw (fun _ _ => (Opens.file _).not_combined)
    (fun _ hl => (headLine_begins hl).2.2) (fun _ ht => ht.header.opens.not_combined)
    (fun _ _ _ hl => (opens_rowLines hl).not_combined)

/-- The parser's answer is that of its loop over the sections. -/
theorem parsePatch_written {ws : List Written} (hw : ∀ w ∈ ws, w.Fine)
    (hfit : FitsWritten limits ws) :
    parsePatch sha256 (written ws) limits =
      match fileLoop sha256 limits [] 0 0 (writtenLines ws) with
      | .error e => .error e
      | .ok files =>
        if files = [] ∧ ¬ (written ws).all isAsciiWhitespace then
          .error (.unsupported "Git unified file headers are missing")
        else .ok ⟨files⟩ := by
  have hlines : splitLines (written ws) = writtenLines ws :=
    splitLines_flatMap_lf (lf_not_mem_writtenLines hw)
  have hcheck : checkLines limits 0 (writtenLines ws) = .ok () :=
    checkLines_ok hfit.lines (not_combined_writtenLines hw)
  have heq := Eq.refl (parsePatch sha256 (written ws) limits)
  conv_rhs at heq => rw [parsePatch, if_neg (Nat.not_lt.mpr hfit.bytes), hlines, hcheck]
  exact heq

/-- **Sections that are read are read in order.** -/
theorem parsePatch_parses {ws : List Written} {file : Written → FileChange}
    (hw : ∀ w ∈ ws, w.Fine) (hfit : FitsWritten limits ws)
    (hf : ∀ w ∈ ws, Parses sha256 w (file w)) (hids : (seen (ws.map file)).Nodup) :
    parsePatch sha256 (written ws) limits = .ok ⟨ws.map file⟩ := by
  have hloop : fileLoop sha256 limits [] 0 0 (writtenLines ws) = .ok ([] ++ ws.map file) :=
    fileLoop_parses hw hf hids (by simpa using hfit.count) (by simpa using hfit.rows)
  have hempty : ¬(ws.map file = [] ∧ ¬ (written ws).all isAsciiWhitespace = true) := by
    rintro ⟨hnil, hne⟩
    rw [List.map_eq_nil_iff] at hnil
    subst hnil
    exact hne rfl
  rw [parsePatch_written hw hfit, hloop]
  exact if_neg hempty

/-- **One section that is refused is the end of the patch.** -/
theorem parsePatch_refused {ws : List Written} (hw : ∀ w ∈ ws, w.Fine)
    (hfit : FitsWritten limits ws) (hf : ∀ w ∈ ws, (∃ f, Parses sha256 w f) ∨ Refused w)
    (hr : ∃ w ∈ ws, Refused w) : ∃ e, parsePatch sha256 (written ws) limits = .error e := by
  obtain ⟨e, he⟩ : ∃ e, fileLoop sha256 limits [] 0 0 (writtenLines ws) = .error e :=
    fileLoop_refused hw hf hr (by simpa using hfit.rows)
  rw [parsePatch_written hw hfit, he]
  exact ⟨e, rfl⟩

end Files

end Patch
end Proof
end Diffz
