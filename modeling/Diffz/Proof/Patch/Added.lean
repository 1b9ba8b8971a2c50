import Diffz.Proof.Patch.Quote

/-!
# The diff of an added file

What Git writes for a file that is new: the `diff --git` line with the path twice, the mode, the
`index` line, and, unless the file is empty, the two markers and one hunk from line 1 on. The parser
takes the path from the `+++` line. An empty file has none, so there the path must be read off the
`diff --git` line, which is uncertain for some.
-/

set_option autoImplicit false

namespace Diffz
namespace Proof
namespace Patch

open Diffz.Github (plainByte)

/-! ## Git's quoting -/

/-- A byte Git leaves as it is; `quoteHigh` is `core.quotePath`. -/
def gitPlain (quoteHigh : Bool) (b : UInt8) : Bool :=
  32 ≤ b && b != 34 && b != 92 && b != 127 && (b < 128 || !quoteHigh)

/-- A byte between Git's quotes. -/
def gitSpell (quoteHigh : Bool) (b : UInt8) : Bytes :=
  if gitPlain quoteHigh b then [b]
  else if b = 7 then [92, 97]
  else if b = 8 then [92, 98]
  else if b = 9 then [92, 116]
  else if b = 10 then [92, 110]
  else if b = 11 then [92, 118]
  else if b = 12 then [92, 102]
  else if b = 13 then [92, 114]
  else if b = 34 then [92, 34]
  else if b = 92 then [92, 92]
  else [92, .ofNat (48 + b.toNat / 64), .ofNat (48 + b.toNat / 8 % 8), .ofNat (48 + b.toNat % 8)]

theorem gitPlain_text {quoteHigh : Bool} {b : UInt8} (h : gitPlain quoteHigh b) :
    32 ≤ b ∧ b ≠ 34 ∧ b ≠ 92 := by
  simp only [gitPlain, Bool.and_eq_true, decide_eq_true_eq, bne_iff_ne] at h
  exact ⟨h.1.1.1.1, h.1.1.1.2, h.1.1.2⟩

theorem gitSpell_spelled (quoteHigh : Bool) (b : UInt8) : Spelled b (gitSpell quoteHigh b) := by
  have letter : ∀ {c : UInt8}, RepoPath.isOctal c = false → RepoPath.escape c = .ok b →
      Spelled b [92, c] := fun hoct hesc => .inl ⟨_, rfl, hoct, hesc⟩
  unfold gitSpell
  split
  · rename_i h
    obtain ⟨hle, h34, h92⟩ := gitPlain_text h
    exact .inr (.inl ⟨rfl, h34, h92, hle⟩)
  split
  · rename_i h
    subst h
    exact letter rfl rfl
  split
  · rename_i h
    subst h
    exact letter rfl rfl
  split
  · rename_i h
    subst h
    exact letter rfl rfl
  split
  · rename_i h
    subst h
    exact letter rfl rfl
  split
  · rename_i h
    subst h
    exact letter rfl rfl
  split
  · rename_i h
    subst h
    exact letter rfl rfl
  split
  · rename_i h
    subst h
    exact letter rfl rfl
  split
  · rename_i h
    subst h
    exact letter rfl rfl
  split
  · rename_i h
    subst h
    exact letter rfl rfl
  · exact spelled_octal b

def gitQuoting (quoteHigh : Bool) : Quoting where
  plain := gitPlain quoteHigh
  spell := gitSpell quoteHigh
  plain_text _ h := ⟨(gitPlain_text h).1, (gitPlain_text h).2.1⟩
  spelled := gitSpell_spelled quoteHigh

/-! ## The diff -/

/-- The name of a blob, as the `index` line has it. -/
structure ObjectName where
  text : String
  hex : ∀ c ∈ text.toList, c ∈ "0123456789abcdef".toList

/-- A file that is added. -/
structure AddedFile where
  path : RepoPath
  content : Bytes
  executable : Bool
  oldBlob : ObjectName
  newBlob : ObjectName
  quoteHigh : Bool

/-- `@@ -0,0 +1,n @@`; Git leaves out a count of one. -/
def addedHeader (n : Nat) : Bytes :=
  asBytes "@@ -0,0 +1" ++ (if n = 1 then [] else asBytes ("," ++ toString n)) ++ asBytes " @@"

/-- The rows of the hunk, with the marker of a last line without a line feed. -/
def addedLines (content : Bytes) : List Bytes :=
  (splitLines content).map (43 :: ·) ++
    if content.getLast?.all fun b => b = 10 then [] else [eofMarker]

namespace AddedFile

def quoting (f : AddedFile) : Quoting := gitQuoting f.quoteHigh

/-- The name behind `+++`; a name with a space in it is followed by a tab. -/
def label (f : AddedFile) : Bytes :=
  let token := f.quoting.token (asBytes "b/") f.path.bytes
  token ++ if 32 ∈ token then [9] else []

def modeText (f : AddedFile) : String := if f.executable then "100755" else "100644"

def blobs (f : AddedFile) : String := f.oldBlob.text ++ ".." ++ f.newBlob.text

def head (f : AddedFile) : Bytes := diffGit ++ f.quoting.headText f.path f.path

def body (f : AddedFile) : List Bytes :=
  [asBytes "new file mode " ++ asBytes f.modeText, asBytes "index " ++ asBytes f.blobs] ++
    if f.content = [] then []
    else [asBytes "--- /dev/null", asBytes "+++ " ++ f.label,
      addedHeader (splitLines f.content).length] ++ addedLines f.content

def lines (f : AddedFile) : List Bytes := f.head :: f.body

/-- What Git writes. -/
def diff (f : AddedFile) : Bytes := f.lines.flatMap (· ++ [10])

end AddedFile

/-! ## Header lines -/

section Header

variable {f : AddedFile}

theorem splitWhitespace_tail {s : String} (h : ∀ c ∈ s.toList, isWhitespace c = false) :
    (splitWhitespace s).tail = [] := by
  rw [splitWhitespace, List.splitOnP_eq_singleton h]
  by_cases hs : s.toList = []
  · simp [hs]
  · simp [hs]

theorem blobs_chars : ∀ c ∈ f.blobs.toList, c ∈ "0123456789abcdef".toList ∨ c = '.' := by
  intro c hc
  simp only [AddedFile.blobs, String.toList_append, List.mem_append] at hc
  rcases hc with (hc | hc) | hc
  · exact .inl (f.oldBlob.hex c hc)
  · refine .inr ?_
    have hdots : c ∈ ['.', '.'] := hc
    simpa using hdots
  · exact .inl (f.newBlob.hex c hc)

/-- The line names the blobs and nothing else. -/
theorem indexLine_blobs (g : FileChange) :
    ∃ old new, indexLine g f.blobs = { g with oldOid := old, newOid := new } := by
  have hblank : ∀ c ∈ f.blobs.toList, isWhitespace c = false := by
    intro c hc
    have hhex : ("0123456789abcdef".toList.all fun c => !isWhitespace c) = true := by decide
    rcases blobs_chars c hc with h | rfl
    · simpa using List.all_eq_true.mp hhex c h
    · decide
  unfold indexLine
  dsimp only
  rw [splitWhitespace_tail hblank, List.head?_nil]
  dsimp only
  split
  · exact ⟨_, _, rfl⟩
  · exact ⟨g.oldOid, g.newOid, rfl⟩

theorem applyHeader_mode (g : FileChange) (i : Nat) :
    applyHeader g i (asBytes "new file mode " ++ asBytes f.modeText) =
      .ok { g with newMode := some f.modeText, kind := .added, oldPath := none } := by
  have hline : headerLine (asBytes "new file mode " ++ asBytes f.modeText) =
      .newFileMode (asBytes f.modeText) := rfl
  simp only [applyHeader, hline, utf8, fromUtf8_asBytes]
  rfl

theorem applyHeader_blobs (g : FileChange) (i : Nat) :
    applyHeader g i (asBytes "index " ++ asBytes f.blobs) = .ok (indexLine g f.blobs) := by
  have hline : headerLine (asBytes "index " ++ asBytes f.blobs) = .index (asBytes f.blobs) := rfl
  simp only [applyHeader, hline, utf8, fromUtf8_asBytes]
  rfl

theorem applyHeader_oldNull (g : FileChange) (i : Nat) :
    applyHeader g i (asBytes "--- /dev/null") = .ok { g with oldPath := none } := rfl

theorem applyHeader_label (g : FileChange) (i : Nat) :
    applyHeader g i (asBytes "+++ " ++ f.label) = .ok { g with newPath := some f.path } := by
  have hline : headerLine (asBytes "+++ " ++ f.label) = .newFile f.label := rfl
  have hmarker : markerPath f.label i = .ok (some f.path) := by
    refine f.quoting.markerPath_token (.inr rfl) f.path ?_ i
    split
    · exact .inr ⟨[], rfl⟩
    · exact .inl rfl
  simp only [applyHeader, hline, hmarker]
  rfl

end Header

/-! ## What the parser makes of it -/

/-- The rows of the hunk are written as the diff has them. -/
structure Renders (f : AddedFile) (h : Hunk) : Prop where
  header : headerBytes h = addedHeader (splitLines f.content).length
  rows : h.rows.flatMap rowLines = addedLines f.content
  count : h.rows.length = (splitLines f.content).length
  plain : PlainHunk h
  inv : HunksInv [h]

/-- The hunks of the diff: none for an empty file, else one. -/
def Reads (f : AddedFile) (hunks : List Hunk) : Prop :=
  (f.content = [] ∧ hunks = []) ∨ (f.content ≠ [] ∧ ∃ h, hunks = [h] ∧ Renders f h)

/-- No line but the first names the path, and that one is uncertain. -/
def AddedFile.Unnamed (f : AddedFile) : Prop :=
  f.content = [] ∧ f.path.bytes.all f.quoting.plain = true ∧ hasSideMark f.path.bytes = true

instance (f : AddedFile) : Decidable f.Unnamed :=
  inferInstanceAs (Decidable (_ ∧ _ ∧ _))

/-- The file before it is finished. -/
def AddedFile.read (f : AddedFile) (hunks : List Hunk) (named : Option RepoPath)
    (old new : Option String) : FileChange :=
  { newFile none named with
    kind := .added, newMode := some f.modeText, oldOid := old, newOid := new, hunks }

section Section

variable {f : AddedFile} {hunks : List Hunk} {limits : ParseLimits} {sha256 : Bytes → Bytes}

theorem sectionLoop_added (hr : Reads f hunks)
    (hlim : (splitLines f.content).length ≤ limits.maxRows) (i : Nat) (old new : Option RepoPath) :
    ∃ o n c, sectionLoop limits (newFile old new) 0 i f.body =
      .ok (f.read hunks (if f.content = [] then new else some f.path) o n, c) ∧ c.rest = [] := by
  unfold AddedFile.body
  rw [List.cons_append, sectionLoop_header rfl rfl rfl (applyHeader_mode _ i), List.cons_append,
    sectionLoop_header rfl rfl rfl (applyHeader_blobs _ _)]
  obtain ⟨o, n, hindex⟩ := @indexLine_blobs f
    { newFile old new with newMode := some f.modeText, kind := .added, oldPath := none }
  rw [hindex, List.nil_append]
  rcases hr with ⟨hnil, rfl⟩ | ⟨hne, h, rfl, hr⟩
  · rw [if_pos hnil, if_pos hnil]
    exact ⟨o, n, _, sectionLoop_atEnd (.inl rfl), rfl⟩
  · have hread := @sectionLoop_hunks limits [h]
      { newFile none (some f.path) with
        kind := .added, newMode := some f.modeText, oldOid := o, newOid := n }
      0 (i + 1 + 1 + 1 + 1) [] hr.inv (by simpa using hr.plain) (by simpa [hr.count] using hlim)
      (.inl rfl)
    have hlines : [h].flatMap hunkLines ++ [] =
        addedHeader (splitLines f.content).length :: addedLines f.content := by
      rw [List.append_nil, List.flatMap_singleton, hunkLines, hr.header, hr.rows]
    rw [hlines] at hread
    rw [if_neg hne, if_neg hne, List.cons_append,
      sectionLoop_header rfl rfl rfl (applyHeader_oldNull _ _), List.cons_append,
      sectionLoop_header rfl rfl rfl (applyHeader_label _ _), List.cons_append, List.nil_append]
    exact ⟨o, n, _, hread, rfl⟩

theorem drop_head : f.head.drop 11 = f.quoting.headText f.path f.path :=
  List.drop_left' (by decide)

/-- The file that is read. -/
def AddedFile.parsed (f : AddedFile) (sha256 : Bytes → Bytes) (hunks : List Hunk)
    (old new : Option String) : FileChange :=
  { f.read hunks (some f.path) old new with
    id := ⟨digest sha256 [asBytes "file-v1", [], f.path.bytes]⟩ }

theorem finishFile_read {o n : Option String} (i : Nat) :
    finishFile sha256 (f.read hunks (some f.path) o n) i = .ok (f.parsed sha256 hunks o n) := by
  have hmode : f.modeText ≠ "160000" := by
    unfold AddedFile.modeText
    split <;> decide
  simp [finishFile, AddedFile.read, AddedFile.parsed, newFile, hmode]

theorem fileSection_named (hr : Reads f hunks) (hnamed : ¬f.Unnamed)
    (hlim : (splitLines f.content).length ≤ limits.maxRows) (i : Nat) :
    ∃ o n c, fileSection sha256 limits 0 i f.head f.body = .ok (f.parsed sha256 hunks o n, c) ∧
      c.rest = [] := by
  have key : ∀ old new, headerPaths (f.quoting.headText f.path f.path) i = .ok (old, new) →
      (if f.content = [] then new else some f.path) = some f.path →
      ∃ o n c, fileSection sha256 limits 0 i f.head f.body = .ok (f.parsed sha256 hunks o n, c) ∧
        c.rest = [] := by
    intro old new hpaths hnew
    obtain ⟨o, n, c, hloop, hrest⟩ := sectionLoop_added hr hlim (i + 1) old new
    rw [hnew] at hloop
    refine ⟨o, n, c, ?_, hrest⟩
    unfold fileSection
    rw [drop_head, hpaths]
    dsimp only
    rw [hloop]
    dsimp only
    rw [finishFile_read]
  have htwice := f.quoting.headerPaths_twice f.path i
  split at htwice
  · rename_i hmark
    rw [Bool.and_eq_true] at hmark
    exact key _ _ htwice (if_neg fun hnil => hnamed ⟨hnil, hmark⟩)
  · exact key _ _ htwice (ite_self _)

theorem fileSection_unnamed (hr : Reads f hunks) (hunnamed : f.Unnamed)
    (hlim : (splitLines f.content).length ≤ limits.maxRows) (i : Nat) :
    ∃ line, fileSection sha256 limits 0 i f.head f.body =
      .error (.malformed line "file has no unambiguous path") := by
  obtain ⟨hnil, hmark⟩ := hunnamed
  have htwice := f.quoting.headerPaths_twice f.path i
  rw [if_pos (by simp [hmark])] at htwice
  obtain ⟨o, n, c, hloop, -⟩ := sectionLoop_added hr hlim (i + 1) none none
  rw [if_pos hnil] at hloop
  refine ⟨c.i + 1, ?_⟩
  unfold fileSection
  rw [drop_head, htwice]
  dsimp only
  rw [hloop]
  rfl

/-! ### The whole patch -/

theorem lf_not_mem_head : 10 ∉ f.head := by
  have htoken : ∀ {side : Bytes}, side.all plainByte → 10 ∉ f.quoting.token side f.path.bytes := by
    intro side hside h
    exact absurd (f.quoting.le_of_mem_token hside h) (by decide)
  simp only [AddedFile.head, Quoting.headText, List.mem_append, not_or]
  exact ⟨by decide, ⟨htoken (by decide), by decide⟩, htoken (by decide)⟩

theorem lf_not_mem_label : 10 ∉ f.label := by
  have htoken : 10 ∉ f.quoting.token (asBytes "b/") f.path.bytes := by
    intro h
    exact absurd (f.quoting.le_of_mem_token (by decide) h) (by decide)
  simp only [AddedFile.label, List.mem_append, not_or]
  refine ⟨htoken, ?_⟩
  split <;> decide

theorem lf_not_mem_blobs : 10 ∉ asBytes f.blobs := by
  refine lf_not_mem_asBytes ?_
  intro h
  rcases blobs_chars _ h with h | h
  · exact absurd h (by decide)
  · cases h

/-- What holds of every line of the diff. -/
theorem forall_lines {P : Bytes → Prop} (hr : Reads f hunks) (hhead : P f.head)
    (hmode : P (asBytes "new file mode " ++ asBytes f.modeText))
    (hblobs : P (asBytes "index " ++ asBytes f.blobs)) (hold : P (asBytes "--- /dev/null"))
    (hnew : P (asBytes "+++ " ++ f.label)) (hheader : ∀ h, PlainHunk h → P (headerBytes h))
    (hrow : ∀ r, PlainRow r → ∀ l ∈ rowLines r, P l) : ∀ l ∈ f.lines, P l := by
  intro l hl
  simp only [AddedFile.lines, AddedFile.body, List.mem_cons, List.mem_append, List.not_mem_nil,
    or_false] at hl
  rcases hl with rfl | (rfl | rfl) | hl
  · exact hhead
  · exact hmode
  · exact hblobs
  rcases hr with ⟨hnil, -⟩ | ⟨hne, h, -, hr⟩
  · rw [if_pos hnil] at hl
    cases hl
  · rw [if_neg hne] at hl
    simp only [List.mem_cons, List.mem_append, List.not_mem_nil, or_false] at hl
    rcases hl with (rfl | rfl | rfl) | hl
    · exact hold
    · exact hnew
    · rw [← hr.header]
      exact hheader h hr.plain
    · rw [← hr.rows] at hl
      obtain ⟨r, hmem, hl⟩ := List.mem_flatMap.mp hl
      exact hrow r (hr.plain.rows r hmem) l hl

theorem lf_not_mem_lines (hr : Reads f hunks) : ∀ l ∈ f.lines, 10 ∉ l := by
  refine forall_lines hr lf_not_mem_head ?_ ?_ (by decide) ?_ (fun _ hp => hp.isHeader.lf_not_mem)
    (fun r hp l hl => lf_not_mem_rowLines hp hl)
  · rw [List.mem_append, not_or, AddedFile.modeText]
    refine ⟨by decide, ?_⟩
    split <;> decide
  · rw [List.mem_append, not_or]
    exact ⟨by decide, lf_not_mem_blobs⟩
  · rw [List.mem_append, not_or]
    exact ⟨by decide, lf_not_mem_label⟩

theorem not_combined_lines (hr : Reads f hunks) : ∀ l ∈ f.lines, ¬Combined l := by
  refine forall_lines hr (Opens.file _).not_combined ?_ ?_ (Opens.oldMarker _).not_combined
    (Opens.newMarker _).not_combined (fun _ hp => hp.isHeader.opens.not_combined)
    (fun _ _ _ hl => (opens_rowLines hl).not_combined)
  · rintro (h | h | h) <;> cases h
  · rintro (h | h | h) <;> cases h

/-- The diff is within the limits of the parser. -/
structure FitsAdded (limits : ParseLimits) (f : AddedFile) : Prop where
  bytes : f.diff.length ≤ limits.maxBytes
  lines : ∀ l ∈ f.lines, l.length ≤ limits.maxLineBytes
  rows : (splitLines f.content).length ≤ limits.maxRows
  files : 0 < limits.maxFiles

theorem diffGit_head : diffGit.isPrefixOf f.head = true := by
  rw [List.isPrefixOf_iff_prefix]
  exact List.prefix_append ..

theorem fileLoop_one {g : FileChange} {c : Cursor} (hfiles : 0 < limits.maxFiles)
    (hsec : fileSection sha256 limits 0 0 f.head f.body = .ok (g, c)) (hrest : c.rest = []) :
    fileLoop sha256 limits [] 0 0 f.lines = .ok [g] := by
  have hroom : ¬([] : List FileChange).length ≥ limits.maxFiles := Nat.not_le.mpr hfiles
  rw [AddedFile.lines, fileLoop, if_neg (by simp [diffGit_head]), if_neg hroom]
  split
  · rename_i he
    rw [hsec] at he
    cases he
  · rename_i he
    rw [hsec] at he
    cases he
    have hnew : g.id ∉ seen [] := List.not_mem_nil
    rw [if_neg hnew, hrest, fileLoop]
    rfl

theorem fileLoop_none {e : PatchError} (hfiles : 0 < limits.maxFiles)
    (hsec : fileSection sha256 limits 0 0 f.head f.body = .error e) :
    fileLoop sha256 limits [] 0 0 f.lines = .error e := by
  have hroom : ¬([] : List FileChange).length ≥ limits.maxFiles := Nat.not_le.mpr hfiles
  rw [AddedFile.lines, fileLoop, if_neg (by simp [diffGit_head]), if_neg hroom]
  split
  · rename_i he
    rw [hsec] at he
    cases he
    rfl
  · rename_i he
    rw [hsec] at he
    cases he

/-- The parser's answer is that of its loop. -/
theorem parsePatch_diff (hr : Reads f hunks) (hfit : FitsAdded limits f) :
    parsePatch sha256 f.diff limits =
      match fileLoop sha256 limits [] 0 0 f.lines with
      | .error e => .error e
      | .ok files =>
        if files = [] ∧ ¬f.diff.all isAsciiWhitespace then
          .error (.unsupported "Git unified file headers are missing")
        else .ok ⟨files⟩ := by
  have hlines : splitLines f.diff = f.lines := splitLines_flatMap_lf (lf_not_mem_lines hr)
  have hcheck : checkLines limits 0 f.lines = .ok () :=
    checkLines_ok hfit.lines (not_combined_lines hr)
  cases hloop : fileLoop sha256 limits [] 0 0 f.lines with
  | error e =>
    rw [parsePatch, if_neg (Nat.not_lt.mpr hfit.bytes), hlines, hcheck]
    simp only [hloop]
  | ok files =>
    rw [parsePatch, if_neg (Nat.not_lt.mpr hfit.bytes), hlines, hcheck]
    simp only [hloop]

/-- **The diff of an added file is read as that file**, unless no line names its path. -/
theorem parsePatch_named (hr : Reads f hunks) (hfit : FitsAdded limits f) (hnamed : ¬f.Unnamed) :
    ∃ o n, parsePatch sha256 f.diff limits = .ok ⟨[f.parsed sha256 hunks o n]⟩ := by
  obtain ⟨o, n, c, hsec, hrest⟩ := @fileSection_named f hunks limits sha256 hr hnamed hfit.rows 0
  refine ⟨o, n, ?_⟩
  rw [parsePatch_diff hr hfit, fileLoop_one hfit.files hsec hrest]
  exact if_neg fun h => List.cons_ne_nil _ _ h.1

theorem parsePatch_unnamed (hr : Reads f hunks) (hfit : FitsAdded limits f) (hunnamed : f.Unnamed) :
    ∃ line, parsePatch sha256 f.diff limits =
      .error (.malformed line "file has no unambiguous path") := by
  obtain ⟨line, hsec⟩ := @fileSection_unnamed f hunks limits sha256 hr hunnamed hfit.rows 0
  refine ⟨line, ?_⟩
  rw [parsePatch_diff hr hfit, fileLoop_none hfit.files hsec]

end Section

end Patch
end Proof
end Diffz
