import Diffz.Adapters.LocalGit
import Diffz.Proof.Copy
import Diffz.Proof.Patch.Added

/-!
# An untracked file is built as its diff is read

`from_utf8` cuts a file into lines, and `untracked` makes a row of each; the diff Git writes has the
same lines, which the parser takes apart again. The two agree on every ending: a carriage return
before a line feed is part of it, and one at the end of a file without a line feed is text, which the
parser learns from the EOF marker.
-/

set_option autoImplicit false

namespace Diffz
namespace Proof
namespace LocalGit

open Diffz.LocalGit
open Diffz.SourceDocument (lineLoop finish)
open Diffz.Proof.Copy
open Diffz.Proof.Patch

/-! ## Lines as bytes -/

theorem splitLines_line {l : Bytes} (h : 10 ∉ l) (rest : Bytes) :
    splitLines (l ++ 10 :: rest) = l :: splitLines rest := by
  have hne : rest.splitOn 10 ≠ [] := List.splitOn_ne_nil 10 rest
  simp only [splitLines, List.splitOn_append_cons_self_of_not_mem h,
    List.getLast?_cons_of_ne_nil hne, List.dropLast_cons_of_ne_nil hne]
  split <;> rfl

theorem splitLines_last {l : Bytes} (h : 10 ∉ l) (hne : l ≠ []) : splitLines l = [l] := by
  rw [splitLines, List.splitOn_eq_singleton h]
  simp [hne]

theorem addedLines_line {l : Bytes} (h : 10 ∉ l) (rest : Bytes) :
    addedLines (l ++ 10 :: rest) = (43 :: l) :: addedLines rest := by
  have hlast : (l ++ 10 :: rest).getLast?.all (fun b => b = 10) =
      rest.getLast?.all fun b => b = 10 := by
    rw [List.getLast?_append_cons, List.getLast?_cons]
    cases rest.getLast? <;> simp
  rw [addedLines, addedLines, splitLines_line h, hlast]
  rfl

theorem addedLines_last {l : Bytes} (h : 10 ∉ l) (hne : l ≠ []) :
    addedLines l = [43 :: l, eofMarker] := by
  have hlast : (l.getLast?.all fun b => b = 10) = false := by
    rw [List.getLast?_eq_some_getLast hne, Option.all_some, decide_eq_false_iff_not]
    exact fun heq => h (heq ▸ List.getLast_mem hne)
  rw [addedLines, splitLines_last h hne, hlast]
  rfl

theorem asBytes_ofList_append (s t : List Char) :
    asBytes (String.ofList (s ++ t)) = asBytes (String.ofList s) ++ asBytes (String.ofList t) := by
  rw [String.ofList_append, asBytes_append]

/-! ## Rows -/

/-- The row of a line of a text. -/
def lineRow (raw : List Char) (l : SourceLine × Nat) : PatchRow :=
  { oldLine := none, newLine := some (l.2 + 1), text := String.ofList ((slice raw l.1.content).getD []),
    ending := l.1.ending, kind := .added }

theorem addedRows_eq (d : SourceDocument) :
    addedRows d = d.lines.zipIdx.map (lineRow d.raw.toList) := by
  refine List.map_congr_left ?_
  rintro ⟨l, i⟩ hl
  have hget : d.lines[i]? = some l := (List.mk_mem_zipIdx_iff_getElem?).mp hl
  have htext : d.lineText (i + 1) = (slice d.raw.toList l.content).map String.ofList := by
    simp [SourceDocument.lineText, hget]
  simp only [lineRow, htext]
  cases slice d.raw.toList l.content <;> rfl

/-- The lines of a text are written as its diff has them. -/
structure AsDiff (t : List Char) (rows : List PatchRow) : Prop where
  lines : rows.flatMap rowLines = addedLines (asBytes (String.ofList t))
  plain : ∀ r ∈ rows, PlainRow r
  count : rows.length = (splitLines (asBytes (String.ofList t))).length

theorem lineRow_eq {raw t : List Char} {r : Span} (h : slice raw r = some t) (e : LineEnding)
    (n : Nat) : lineRow raw (⟨r, e⟩, n) =
      { oldLine := none, newLine := some (n + 1), text := String.ofList t, ending := e,
        kind := .added } := by
  simp [lineRow, h]

theorem lf_not_mem_bytes {t : List Char} (h : '\n' ∉ t) : 10 ∉ asBytes (String.ofList t) :=
  lf_not_mem_asBytes (by rwa [String.toList_ofList])

/-- The line of a row, the ending with it. -/
theorem bytes_line (t rest : List Char) {e : LineEnding} (he : e ≠ .none) :
    asBytes (String.ofList (t ++ (endingText e ++ rest))) =
      (asBytes (String.ofList t) ++ if e = .crLf then [13] else []) ++
        10 :: asBytes (String.ofList rest) := by
  rw [asBytes_ofList_append, asBytes_ofList_append]
  cases e with
  | none => exact absurd rfl he
  | lf =>
    rw [endingText_eq.1]
    simp [show asBytes (String.ofList ['\n']) = [10] by decide]
  | crLf =>
    rw [endingText_eq.2.1]
    simp [show asBytes (String.ofList ['\r', '\n']) = [13, 10] by decide]

theorem Cut.written {raw x t : List Char} {p : Nat} {ls : List SourceLine} (h : Cut p t ls)
    (hraw : raw = x ++ t) (hx : byteLen x = p) (n : Nat) :
    AsDiff t ((ls.zipIdx n).map (lineRow raw)) := by
  induction h generalizing x n with
  | nil p => exact ⟨rfl, by simp, rfl⟩
  | @last p t hne hlf =>
    have hslice : slice raw ⟨p, p + byteLen t⟩ = some t :=
      slice_eq_some_iff.mpr ⟨x, [], by simp [hraw], hx, by dsimp only; omega⟩
    have hbytes : asBytes (String.ofList t) ≠ [] := by
      intro hnil
      have hlen := length_asBytes t
      have hpos := byteLen_pos hne
      rw [hnil, List.length_nil] at hlen
      omega
    rw [List.zipIdx_singleton, List.map_singleton, lineRow_eq hslice]
    refine ⟨?_, ?_, ?_⟩
    · rw [addedLines_last (lf_not_mem_bytes hlf) hbytes, List.flatMap_singleton]
      simp [rowLines, rowLine, rowPrefix]
    · intro r hr
      obtain rfl := List.mem_singleton.mp hr
      exact ⟨by rwa [String.toList_ofList], fun hend => by cases hend⟩
    · rw [splitLines_last (lf_not_mem_bytes hlf) hbytes]
      rfl
  | @line p t rest ls e he hlf hcr hrest ih =>
    have hslice : slice raw ⟨p, p + byteLen t⟩ = some t :=
      slice_eq_some_iff.mpr ⟨x, endingText e ++ rest, by simp [hraw], hx, by dsimp only; omega⟩
    have hline : 10 ∉ asBytes (String.ofList t) ++ if e = .crLf then [13] else [] := by
      rw [List.mem_append, not_or]
      refine ⟨lf_not_mem_bytes hlf, ?_⟩
      split <;> decide
    have hrec := @ih (x ++ t ++ endingText e) (by rw [hraw]; simp)
      (by rw [byteLen_append, byteLen_append, hx]) (n + 1)
    rw [List.zipIdx_cons, List.map_cons, lineRow_eq hslice]
    refine ⟨?_, ?_, ?_⟩
    · rw [bytes_line t rest he, addedLines_line hline, List.flatMap_cons, hrec.lines]
      simp [rowLines, rowLine, rowPrefix, he]
    · intro r hr
      rcases List.mem_cons.mp hr with rfl | hr
      · refine ⟨by rwa [String.toList_ofList], fun hend u hu => hcr hend u.toList ?_⟩
        have htext := congrArg String.toList hu
        rwa [String.toList_ofList, String.toList_append] at htext
      · exact hrec.plain r hr
    · rw [bytes_line t rest he, splitLines_line hline, List.length_cons, List.length_cons, hrec.count]

/-! ## Hunks -/

theorem zipIdx_numbers (ls : List SourceLine) (raw : List Char) :
    (ls.zipIdx.map (lineRow raw)).filterMap (·.newLine) = List.range' 1 ls.length := by
  have hsome : (ls.zipIdx.map (lineRow raw)).filterMap (·.newLine) =
      (ls.zipIdx.map Prod.snd).map (1 + ·) := by
    rw [List.filterMap_map, List.map_map, ← List.filterMap_eq_map]
    congr 1
    funext l
    simp [lineRow, Nat.add_comm]
  rw [hsome, List.zipIdx_map_snd, List.map_add_range']

theorem zipIdx_old (ls : List SourceLine) (raw : List Char) :
    (ls.zipIdx.map (lineRow raw)).filterMap (·.oldLine) = [] := by
  rw [List.filterMap_eq_nil_iff]
  intro r hr
  obtain ⟨l, -, rfl⟩ := List.mem_map.mp hr
  rfl

/-- The hunk of a document that is not empty. -/
def addedHunk (d : SourceDocument) : Hunk :=
  { oldStart := 0, oldCount := 0, newStart := 1, newCount := d.lines.length, sectionText := "",
    rows := addedRows d }

theorem addedHunk_inv {d : SourceDocument} (hcap : d.lines.length ≤ rowCap) :
    HunksInv [addedHunk d] := by
  have hinv : HunkInv (addedHunk d) := by
    refine ⟨?_, ?_⟩
    · rintro (_ | _)
      · show (addedRows d).filterMap (·.oldLine) = List.range' 0 0
        rw [addedRows_eq, zipIdx_old]
        rfl
      · show (addedRows d).filterMap (·.newLine) = List.range' 1 d.lines.length
        rw [addedRows_eq, zipIdx_numbers]
    · intro r hr side
      rw [addedHunk, addedRows] at hr
      obtain ⟨l, -, rfl⟩ := List.mem_map.mp hr
      cases side <;> simp [PatchRow.number, RowKind.on]
  have hfits : Fits (addedHunk d) := by
    rintro (_ | _)
    · exact Nat.zero_le _
    · show 1 + d.lines.length ≤ u32Max
      simp only [rowCap, u32Max] at *
      omega
  refine ⟨by simpa using hinv, by simpa using hfits, ?_, List.pairwise_singleton _ _⟩
  intro h hh side hpos
  obtain rfl := List.mem_singleton.mp hh
  cases side with
  | left => cases hpos
  | right => exact Nat.one_pos

theorem addedHunk_header (d : SourceDocument) :
    headerBytes (addedHunk d) = addedHeader d.lines.length := by
  have htext : headerText (addedHunk d) = "@@ -0,0 +1".toList ++
      ((if d.lines.length = 1 then [] else ',' :: Nat.toDigits 10 d.lines.length) ++
        " @@".toList) := by
    have hold : Patch.rangeText 0 0 = "0,0".toList := by decide
    have hone : Nat.toDigits 10 1 = ['1'] := by decide
    show "@@ -".toList ++ (Patch.rangeText 0 0 ++ (" +".toList ++ (Patch.rangeText 1 d.lines.length ++
      (" @@".toList ++ sectionSuffix "")))) = _
    rw [hold, Patch.rangeText, hone]
    rfl
  rw [headerBytes, htext, addedHeader, asBytes_ofList_append, asBytes_ofList_append,
    String.ofList_toList, String.ofList_toList, List.append_assoc]
  congr 2
  split
  · rfl
  · rw [← String.ofList_toList (s := "," ++ toString d.lines.length), String.toList_append,
      Nat.toString_eq_repr, Nat.toList_repr]
    rfl

theorem addedHunk_plain {d : SourceDocument} (h : ∀ r ∈ addedRows d, PlainRow r) :
    PlainHunk (addedHunk d) := ⟨h, List.not_mem_nil, (by decide : trimStart "" = "")⟩

/-- The lines of a document, as bytes. -/
theorem document_lines {content : Bytes} {d : SourceDocument}
    (h : SourceDocument.ofUtf8 content = .ok d) : AsDiff d.raw.toList (addedRows d) ∧
      asBytes (String.ofList d.raw.toList) = content := by
  obtain ⟨hraw, hcut⟩ := ofUtf8_cut h
  have hdiff : AsDiff d.raw.toList (d.lines.zipIdx.map (lineRow d.raw.toList)) :=
    Cut.written (x := []) hcut rfl rfl 0
  rw [← addedRows_eq] at hdiff
  exact ⟨hdiff, by rw [String.ofList_toList, asBytes_of_fromUtf8 hraw]⟩

/-- The hunks of a document are those of its diff. -/
theorem addedHunks_reads {f : AddedFile} {d : SourceDocument}
    (hdoc : SourceDocument.ofUtf8 f.content = .ok d) (hcap : d.lines.length ≤ rowCap) :
    Reads f (addedHunks d) := by
  obtain ⟨hwritten, hcontent⟩ := document_lines hdoc
  have hcut := (ofUtf8_cut hdoc).2
  have hlines := hwritten.lines
  have hcount := hwritten.count
  rw [hcontent] at hlines hcount
  have hrows : (addedRows d).length = d.lines.length := by simp [addedRows]
  by_cases hnil : d.lines = []
  · refine .inl ⟨?_, if_pos hnil⟩
    rw [hnil] at hcut
    generalize htext : d.raw.toList = t at hcut
    cases hcut
    rw [← hcontent, htext]
    rfl
  · refine .inr ⟨?_, addedHunk d, if_neg hnil, ?_, hlines, hcount,
      addedHunk_plain hwritten.plain, addedHunk_inv hcap⟩
    · intro hempty
      rw [hempty, hrows] at hcount
      exact hnil (List.eq_nil_of_length_eq_zero hcount)
    · rw [addedHunk_header, ← hrows, hcount]

/-! ## Files -/

theorem lineLoop_error {raw : Bytes} {start i : Nat} {lines : List SourceLine} {rest : Bytes}
    {e : SourceError} (h : lineLoop raw start i lines rest = .error e) : e = .tooManyLines := by
  induction rest generalizing start i lines with
  | nil => cases h
  | cons b rest ih =>
    rw [lineLoop] at h
    split at h
    · dsimp only at h
      split at h
      · cases h
        rfl
      · exact ih h
    · exact ih h

theorem fromUtf8_of_invalid {bytes : Bytes}
    (h : SourceDocument.ofUtf8 bytes = .error .invalidUtf8) : fromUtf8 bytes = none := by
  unfold SourceDocument.ofUtf8 at h
  split at h
  · cases h
  split at h
  · assumption
  split at h
  · rename_i hloop
    cases h
    cases lineLoop_error hloop
  · dsimp only at h
    split at h <;> cases h

/-- A text file is captured with the hunks of its document. -/
theorem captureFile_text {sha256 : Bytes → Bytes} {totals totals' : Totals} {path : RepoPath}
    {executable : Bool} {content : Bytes} {text : String} {f : FileChange}
    (hutf8 : fromUtf8 content = some text) (hnul : 0 ∉ content)
    (h : captureFile sha256 totals path executable content = .ok (f, totals')) :
    ∃ d, SourceDocument.ofUtf8 content = .ok d ∧ d.lines.length ≤ rowCap ∧
      f = { LocalGit.newFile sha256 path executable .text with hunks := addedHunks d } := by
  unfold captureFile at h
  dsimp only at h
  split at h
  · cases h
  rename_i hlen
  have htake : content.take (byteCap + 1) = content := by
    rw [List.length_take] at hlen
    exact List.take_of_length_le (by omega)
  rw [htake] at h
  split at h
  · cases h
  split at h
  · cases h
  split at h
  · cases h
  · rename_i hnone
    rw [document, if_neg hnul] at hnone
    split at hnone
    · cases hnone
    · rename_i hinvalid
      rw [fromUtf8_of_invalid hinvalid] at hutf8
      cases hutf8
    · cases hnone
  · rename_i d hsome
    rw [document, if_neg hnul] at hsome
    split at hsome
    · rename_i d' hd
      cases hsome
      split at h
      · cases h
      rename_i hrows
      split at h
      · cases h
      cases h
      exact ⟨d, hd, by omega, rfl⟩
    · cases hsome
    · cases hsome

/-- What an untracked file and a parsed one have in common. -/
structure SameFile (f g : FileChange) : Prop where
  id : f.id = g.id
  paths : f.oldPath = g.oldPath ∧ f.newPath = g.newPath
  kind : f.kind = g.kind
  content : f.content = g.content
  hunks : f.hunks = g.hunks

/-- **An untracked file looks like the parsed one.** The diff is read as the file that was captured;
where it is that of an empty file whose name leaves its one line uncertain, it is refused. -/
theorem untracked_like_parsed (sha256 : Bytes → Bytes) {limits : ParseLimits}
    {totals totals' : Totals} {f : AddedFile} {text : String} {g : FileChange}
    (hutf8 : fromUtf8 f.content = some text) (hnul : 0 ∉ f.content)
    (hcapture : captureFile sha256 totals f.path f.executable f.content = .ok (g, totals'))
    (hfit : FitsAdded limits f) :
    (¬f.Unnamed → ∃ h, parsePatch sha256 f.diff limits = .ok ⟨[h]⟩ ∧ SameFile g h) ∧
      (f.Unnamed → ∃ line, parsePatch sha256 f.diff limits =
        .error (.malformed line "file has no unambiguous path")) := by
  obtain ⟨d, hdoc, hcap, rfl⟩ := captureFile_text hutf8 hnul hcapture
  have hreads := addedHunks_reads hdoc hcap
  refine ⟨fun hnamed => ?_, parsePatch_unnamed hreads hfit⟩
  obtain ⟨o, n, hparse⟩ := @parsePatch_named f (addedHunks d) limits sha256 hreads hfit hnamed
  exact ⟨_, hparse, rfl, ⟨rfl, rfl⟩, rfl, rfl, rfl⟩

/-! ## Within the caps -/

theorem count_le_splitLines (bytes : Bytes) : bytes.count 10 ≤ (splitLines bytes).length := by
  induction hlen : bytes.length using Nat.strong_induction_on generalizing bytes with
  | _ n ih =>
    by_cases h : 10 ∈ bytes
    · obtain ⟨l, rest, rfl, hl⟩ := List.eq_append_cons_of_mem h
      have hrest := ih rest.length (by rw [← hlen]; simp; omega) rest rfl
      rw [splitLines_line hl, List.count_append, List.count_cons_self,
        List.count_eq_zero_of_not_mem hl, List.length_cons]
      omega
    · rw [List.count_eq_zero_of_not_mem h]
      exact Nat.zero_le _

theorem lineLoop_ok {raw : Bytes} {start i : Nat} {lines : List SourceLine} {rest : Bytes}
    (h : lines.length + rest.count 10 ≤ 1000000) :
    ∃ out, lineLoop raw start i lines rest = .ok out := by
  induction rest generalizing start i lines with
  | nil => exact ⟨_, rfl⟩
  | cons b rest ih =>
    rw [lineLoop]
    by_cases hb : b = 10
    · subst hb
      rw [List.count_cons_self] at h
      rw [if_pos rfl]
      dsimp only
      rw [if_neg (by omega)]
      exact ih (by simp only [List.length_append, List.length_singleton]; omega)
    · rw [List.count_cons_of_ne hb] at h
      rw [if_neg hb]
      exact ih h

/-- What the caps ask of a file: its bytes and rows beside those of the others, and its lines. -/
structure WithinCaps (totals : Totals) (content : Bytes) : Prop where
  bytes : totals.bytes + content.length ≤ byteCap
  rows : totals.rows + (splitLines content).length ≤ rowCap
  lines : ∀ l ∈ splitLines content, l.length ≤ lineCap

theorem ofUtf8_ok {content : Bytes} {text : String} (hutf8 : fromUtf8 content = some text)
    (hlen : content.length ≤ byteCap) (hrows : (splitLines content).length ≤ rowCap) :
    ∃ d, SourceDocument.ofUtf8 content = .ok d := by
  have hraw := asBytes_of_fromUtf8 hutf8
  have hcount := count_le_splitLines content
  simp only [byteCap, rowCap] at hlen hrows
  obtain ⟨out, hloop⟩ : ∃ out, lineLoop (asBytes text) 0 0 [] (asBytes text) = .ok out := by
    refine lineLoop_ok ?_
    rw [hraw, List.length_nil]
    omega
  obtain ⟨ls, hls, hcut⟩ := @lineLoop_cut (asBytes text) [] [] [] text.toList out
    List.not_mem_nil (by rw [List.nil_append, List.nil_append, String.ofList_toList])
    (by rw [String.ofList_toList]; exact hloop)
  have hlines : ls.length = (splitLines content).length := by
    have hdiff : AsDiff text.toList (ls.zipIdx.map (lineRow text.toList)) :=
      Cut.written (x := []) hcut rfl rfl 0
    have hrows := hdiff.count
    rw [String.ofList_toList, hraw] at hrows
    simpa using hrows
  refine ⟨⟨text, finish (asBytes text) out⟩, ?_⟩
  unfold SourceDocument.ofUtf8
  rw [if_neg (by omega), hutf8]
  dsimp only
  rw [hloop]
  dsimp only
  rw [hls, List.nil_append, if_neg (by omega)]

/-- No line of the document is longer than the line of the file it is cut from. -/
theorem line_le {content : Bytes} {d : SourceDocument}
    (hdoc : SourceDocument.ofUtf8 content = .ok d) (hlines : ∀ l ∈ splitLines content, l.length ≤ lineCap) :
    ∀ l ∈ d.lines, l.content.len ≤ lineCap := by
  intro l hl
  obtain ⟨hdiff, hcontent⟩ := document_lines hdoc
  obtain ⟨k, hk⟩ := List.getElem?_of_mem hl
  obtain ⟨t, ht⟩ : ∃ t, slice d.raw.toList l.content = some t :=
    ((ofUtf8_lined hdoc).2.slices (x := []) rfl rfl hk).1
  have htext : (lineRow d.raw.toList (l, k)).text = String.ofList t := by
    simp [lineRow, ht]
  have hrow : lineRow d.raw.toList (l, k) ∈ addedRows d := by
    rw [addedRows_eq]
    exact List.mem_map_of_mem (List.mk_mem_zipIdx_iff_getElem?.mpr hk)
  have hwritten : rowLine (lineRow d.raw.toList (l, k)) ∈ addedLines content := by
    rw [← hcontent, ← hdiff.lines]
    exact List.mem_flatMap.mpr ⟨_, hrow, List.mem_cons_self⟩
  rw [addedLines, List.mem_append] at hwritten
  rcases hwritten with hwritten | hwritten
  · obtain ⟨line, hline, heq⟩ := List.mem_map.mp hwritten
    have hle := hlines line hline
    rw [(List.cons.inj heq).2, List.length_append, htext, length_asBytes] at hle
    have hlen := slice_stop ht
    rw [Span.len]
    omega
  · split at hwritten
    · cases hwritten
    · exact absurd (List.mem_singleton.mp hwritten) (rowLine_ne_eofMarker _)

/-- **A text within the caps is captured.** -/
theorem captureFile_ok (sha256 : Bytes → Bytes) {totals : Totals} {content : Bytes} {text : String}
    (hutf8 : fromUtf8 content = some text) (hnul : 0 ∉ content) (h : WithinCaps totals content)
    (path : RepoPath) (executable : Bool) :
    ∃ f totals', captureFile sha256 totals path executable content = .ok (f, totals') := by
  obtain ⟨hbytes, hrows, hlines⟩ := h
  obtain ⟨d, hdoc⟩ := ofUtf8_ok hutf8 (by omega) (by omega)
  have htake : content.take (byteCap + 1) = content := List.take_of_length_le (by omega)
  have hdocument : document content = .ok (some d) := by
    rw [document, if_neg hnul, hdoc]
  have hcount : d.lines.length = (splitLines content).length := by
    obtain ⟨hdiff, hcontent⟩ := document_lines hdoc
    have hcount := hdiff.count
    rw [hcontent] at hcount
    rw [← hcount, addedRows_eq]
    simp
  have hshort : (d.lines.any fun l => l.content.len > lineCap) = false := by
    rw [List.any_eq_false]
    intro l hl
    simpa using line_le hdoc hlines l hl
  have hcap : ¬totals.bytes + content.length > u64Max := by
    simp only [byteCap, u64Max] at *
    omega
  refine ⟨{ LocalGit.newFile sha256 path executable .text with hunks := addedHunks d },
    ⟨totals.bytes + content.length, totals.rows + d.lines.length⟩, ?_⟩
  unfold captureFile
  dsimp only
  rw [htake, if_neg (by omega), if_neg hcap, if_neg (by omega), hdocument]
  dsimp only
  rw [if_neg (by omega), hshort]
  rfl

/-! ## Examples -/

/-- A name of an object, in hexadecimal. -/
def sampleBlob : ObjectName where
  text := "e69de29"
  hex := by
    have hall : ("e69de29".toList.all fun c => decide (c ∈ "0123456789abcdef".toList)) = true := by
      decide
    intro c hc
    exact of_decide_eq_true (List.all_eq_true.mp hall c hc)

/-- A file whose last line has a carriage return and no line feed. -/
def crFile : AddedFile :=
  { path := ⟨asBytes "x y", by decide⟩, content := asBytes "a\r\nb\r", executable := false,
    oldBlob := sampleBlob, newBlob := sampleBlob, quoteHigh := true }

theorem crFile_fits : FitsAdded .default crFile :=
  ⟨by decide +kernel, by decide +kernel, by decide +kernel, by decide⟩

theorem crFile_like_parsed : ∃ g totals', captureFile id ⟨0, 0⟩ crFile.path crFile.executable
    crFile.content = .ok (g, totals') ∧
    (¬crFile.Unnamed → ∃ h, parsePatch id crFile.diff .default = .ok ⟨[h]⟩ ∧ SameFile g h) ∧
      (crFile.Unnamed → ∃ line, parsePatch id crFile.diff .default =
        .error (.malformed line "file has no unambiguous path")) := by
  have hutf8 : fromUtf8 crFile.content = some "a\r\nb\r" := fromUtf8_asBytes _
  have hnul : 0 ∉ crFile.content := by decide +kernel
  have hcaps : WithinCaps ⟨0, 0⟩ crFile.content :=
    ⟨by decide +kernel, by decide +kernel, by decide +kernel⟩
  obtain ⟨g, totals', hcapture⟩ :=
    captureFile_ok id hutf8 hnul hcaps crFile.path crFile.executable
  exact ⟨g, totals', hcapture, untracked_like_parsed id hutf8 hnul hcapture crFile_fits⟩

/-- An empty file below a folder whose name ends in ` b`. -/
def emptyFile : AddedFile :=
  { path := ⟨asBytes "x b/y", by decide⟩, content := [], executable := false,
    oldBlob := sampleBlob, newBlob := sampleBlob, quoteHigh := true }

/-- The file is captured, and its diff is refused. -/
theorem emptyFile_unlike_parsed :
    ¬∀ (totals totals' : Totals) (f : AddedFile) (text : String) (g : FileChange),
      fromUtf8 f.content = some text → 0 ∉ f.content →
      captureFile id totals f.path f.executable f.content = .ok (g, totals') →
      FitsAdded .default f →
      ∃ h, parsePatch id f.diff .default = .ok ⟨[h]⟩ ∧ SameFile g h := by
  intro hclaim
  have hutf8 : fromUtf8 emptyFile.content = some "" := fromUtf8_asBytes ""
  have hnul : 0 ∉ emptyFile.content := List.not_mem_nil
  have hfits : FitsAdded .default emptyFile :=
    ⟨by decide +kernel, by decide +kernel, by decide +kernel, by decide⟩
  obtain ⟨g, totals', hcapture⟩ := captureFile_ok id hutf8 hnul
    (⟨by decide, by decide, by decide⟩ : WithinCaps ⟨0, 0⟩ emptyFile.content) emptyFile.path
    emptyFile.executable
  obtain ⟨h, hparse, -⟩ := hclaim _ _ emptyFile "" g hutf8 hnul hcapture hfits
  have hunnamed : emptyFile.Unnamed := by decide +kernel
  obtain ⟨line, herror⟩ := @parsePatch_unnamed emptyFile [] .default id (.inl ⟨rfl, rfl⟩) hfits hunnamed
  rw [herror] at hparse
  cases hparse

end LocalGit
end Proof
end Diffz
