import Diffz.Proof.Patch.Numbers

/-!
# Rendering a patch, and reading the rows of a hunk back

`render` writes files as Git does for modified ones: the two marker lines, then each hunk as its
header and its rows, a carriage return kept on the line and the EOF marker after a row without a
line ending. This module has the rendering and the inner half of the round trip, up to one hunk;
`RoundTrip` has the rest.

The rows are read by two pieces of the source, the counted loop and the marker check behind it. A
marker is taken by the one or the other depending on whether rows are still due, so the induction
is over both together (`readRows`).
-/

set_option autoImplicit false

namespace Diffz
namespace Proof
namespace Patch

/-! ## Rendering -/

def rowPrefix : RowKind → UInt8
  | .context => 32
  | .added => 43
  | .removed => 45

/-- The line of a row, without its line feed. -/
def rowLine (r : PatchRow) : Bytes :=
  rowPrefix r.kind :: (asBytes r.text ++ if r.ending = .crLf then [13] else [])

/-- The row, and the EOF marker if the row has no ending. -/
def rowLines (r : PatchRow) : List Bytes :=
  rowLine r :: if r.ending = .none then [eofMarker] else []

/-- A range of a hunk header; Git leaves out a count of one. -/
def rangeText (start count : Nat) : List Char :=
  Nat.toDigits 10 start ++ if count = 1 then [] else ',' :: Nat.toDigits 10 count

def sectionSuffix (s : String) : List Char := if s = "" then [] else ' ' :: s.toList

def headerText (h : Hunk) : List Char :=
  "@@ -".toList ++ (rangeText h.oldStart h.oldCount ++ (" +".toList ++
    (rangeText h.newStart h.newCount ++ (" @@".toList ++ sectionSuffix h.sectionText))))

def headerBytes (h : Hunk) : Bytes := asBytes (String.ofList (headerText h))

def hunkLines (h : Hunk) : List Bytes := headerBytes h :: h.rows.flatMap rowLines

/-- A modified file: its path and its hunks. -/
structure Rendered where
  path : RepoPath
  hunks : List Hunk
deriving DecidableEq

def fileLines (f : Rendered) : List Bytes :=
  (diffGit ++ (asBytes "a/" ++ f.path.bytes ++ asBytes " b/" ++ f.path.bytes)) ::
  (asBytes "--- " ++ (asBytes "a/" ++ f.path.bytes)) ::
  (asBytes "+++ " ++ (asBytes "b/" ++ f.path.bytes)) ::
  f.hunks.flatMap hunkLines

def renderLines (files : List Rendered) : List Bytes := files.flatMap fileLines

/-- The patch: every line with a line feed. -/
def render (files : List Rendered) : Bytes := (renderLines files).flatMap (· ++ [10])

/-! ## What can be rendered -/

/-- A text without a line feed; a row that ends in LF does not end in CR before it. -/
structure PlainRow (r : PatchRow) : Prop where
  text : '\n' ∉ r.text.toList
  lf : r.ending = .lf → ∀ t, r.text ≠ t ++ "\r"

/-- Rows that can be rendered, and a section text as the parser keeps it: on one line and without
leading white space. -/
structure PlainHunk (h : Hunk) : Prop where
  rows : ∀ r ∈ h.rows, PlainRow r
  text : '\n' ∉ h.sectionText.toList
  trimmed : trimStart h.sectionText = h.sectionText

/-! ## Other spellings of a hunk -/

/-- A range as a header may have it: a count of one may be left out. -/
def IsRange (start count : Nat) (text : List Char) : Prop :=
  text = Nat.toDigits 10 start ++ ',' :: Nat.toDigits 10 count ∨
    (count = 1 ∧ text = Nat.toDigits 10 start)

/-- A header line of the hunk, with any white space before the section text. -/
def IsHeader (h : Hunk) (line : Bytes) : Prop :=
  ∃ old new suffix, IsRange h.oldStart h.oldCount old ∧ IsRange h.newStart h.newCount new ∧
    '\n' ∉ suffix ∧ trimStart (String.ofList suffix) = h.sectionText ∧
    line = asBytes (String.ofList ("@@ -".toList ++ (old ++ (" +".toList ++ (new ++
      (" @@".toList ++ suffix))))))

/-- A hunk with the line that is its header. -/
structure HunkText where
  line : Bytes
  hunk : Hunk
deriving DecidableEq

namespace HunkText

def lines (t : HunkText) : List Bytes := t.line :: t.hunk.rows.flatMap rowLines

structure Fine (t : HunkText) : Prop where
  header : IsHeader t.hunk t.line
  rows : ∀ r ∈ t.hunk.rows, PlainRow r

end HunkText

/-- The hunk as Git writes it. -/
def asWritten (h : Hunk) : HunkText := ⟨headerBytes h, h⟩

theorem isRange_rangeText (start count : Nat) : IsRange start count (rangeText start count) := by
  unfold rangeText
  split
  · rename_i h
    exact .inr ⟨h, List.append_nil _⟩
  · exact .inl rfl

theorem trimStart_sectionSuffix {s : String} (h : trimStart s = s) :
    trimStart (String.ofList (sectionSuffix s)) = s := by
  unfold sectionSuffix
  split
  · rename_i hs
    subst hs
    decide
  · unfold trimStart at h ⊢
    rw [String.toList_ofList, List.dropWhile_cons_of_pos (by decide)]
    exact h

theorem PlainHunk.isHeader {h : Hunk} (hp : PlainHunk h) : IsHeader h (headerBytes h) := by
  refine ⟨_, _, sectionSuffix h.sectionText, isRange_rangeText _ _, isRange_rangeText _ _, ?_,
    trimStart_sectionSuffix hp.trimmed, rfl⟩
  unfold sectionSuffix
  split
  · simp
  · simpa using hp.text

theorem PlainHunk.fine {h : Hunk} (hp : PlainHunk h) : (asWritten h).Fine :=
  ⟨hp.isHeader, hp.rows⟩

/-! ## Text and endings -/

theorem ends_in_cr {s : String} (h : (asBytes s).getLast? = some 13) : ∃ t, s = t ++ "\r" :=
  eq_append_of_getLast?_ascii (c := '\r') (by decide) (by decide) h

theorem splitEnding_cr (t : Bytes) : splitEnding (t ++ [13]) = (t, .crLf) := by
  simp [splitEnding]

theorem splitEnding_of_not_cr {s : String} (h : ∀ t, s ≠ t ++ "\r") :
    splitEnding (asBytes s) = (asBytes s, .lf) := by
  unfold splitEnding
  rw [if_neg]
  intro hl
  obtain ⟨t, ht⟩ := ends_in_cr hl
  exact h t ht

/-- A row as it stands before its EOF marker has been read. -/
def unmarked (r : PatchRow) (text : String) (ending : LineEnding) : PatchRow :=
  { r with text, ending }

/-- The text and ending read from a row's line are the row's own, or the marker makes them so. -/
theorem splitEnding_rowLine {r : PatchRow} (hr : PlainRow r) :
    ∃ text ending,
      splitEnding (asBytes r.text ++ if r.ending = .crLf then [13] else []) =
        (asBytes text, ending) ∧
      (r.ending ≠ .none → unmarked r text ending = r) ∧
      (r.ending = .none → ∀ line, markNoFinalNewline (unmarked r text ending) line = .ok r) := by
  cases he : r.ending with
  | lf =>
    refine ⟨r.text, .lf, ?_, fun _ => by simp [unmarked, ← he], fun h => by cases h⟩
    simpa using splitEnding_of_not_cr (hr.lf he)
  | crLf =>
    refine ⟨r.text, .crLf, ?_, fun _ => by simp [unmarked, ← he], fun h => by cases h⟩
    simpa using splitEnding_cr (asBytes r.text)
  | none =>
    -- A final bare CR is read as half of a CRLF; the marker gives it back to the text.
    by_cases hcr : ∃ t, r.text = t ++ "\r"
    · obtain ⟨t, ht⟩ := hcr
      refine ⟨t, .crLf, ?_, fun h => absurd rfl h, fun _ line => ?_⟩
      · rw [ht, asBytes_append, show asBytes "\r" = [13] by decide]
        simpa using splitEnding_cr (asBytes t)
      · simp only [markNoFinalNewline, unmarked, ← ht, ← he]
    · refine ⟨r.text, .lf, ?_, fun h => absurd rfl h, fun _ line => ?_⟩
      · simpa using splitEnding_of_not_cr fun t ht => hcr ⟨t, ht⟩
      · simp only [markNoFinalNewline, unmarked, ← he]

/-! ## Numbers -/

/-- What a side has left after a row. -/
def afterRow (number : Option Nat) (taken : Nat) : Nat :=
  if number.isSome then taken + 1 else taken

/-- The numbers still to come on one side: the rest of the range. -/
def Ahead (start count taken : Nat) (numbers : List Nat) : Prop :=
  taken ≤ count ∧ numbers = List.range' (start + taken) (count - taken)

theorem Ahead.row {start count taken : Nat} {number : Option Nat} {numbers : List Nat}
    (h : Ahead start count taken (number.toList ++ numbers)) :
    (∀ n, number = some n → taken < count ∧ n = start + taken) ∧
      Ahead start count (afterRow number taken) numbers := by
  obtain ⟨hle, heq⟩ := h
  cases number with
  | none => exact ⟨fun n hn => (nomatch hn), hle, by simpa [afterRow] using heq⟩
  | some m =>
    have hlt : taken < count := by
      by_contra hge
      rw [Nat.sub_eq_zero_of_le (Nat.le_of_not_lt hge)] at heq
      cases heq
    obtain ⟨k, hk⟩ : ∃ k, count - taken = k + 1 := ⟨count - taken - 1, by omega⟩
    rw [hk, List.range'_succ] at heq
    simp only [Option.toList_some, List.singleton_append, List.cons.injEq] at heq
    refine ⟨fun n hn => ⟨hlt, by cases hn; exact heq.1⟩, by simp [afterRow]; omega, ?_⟩
    rw [heq.2]
    congr 1
    simp only [afterRow, Option.isSome_some, if_true]
    omega

theorem takeNumber_render {on : Bool} {start count taken line : Nat} {number : Option Nat}
    {numbers : List Nat} {msg : String} (hf : start + count ≤ u32Max)
    (h : Ahead start count taken (number.toList ++ numbers)) (hon : number.isSome = on) :
    takeNumber on start count taken line msg = .ok (number, afterRow number taken) := by
  subst hon
  cases number with
  | none => rfl
  | some n =>
    obtain ⟨hlt, rfl⟩ := h.row.1 n rfl
    have hadd : checkedAdd start taken = some (start + taken) := checkedAdd_eq_some (by omega)
    have hone : wrappingAdd taken 1 = taken + 1 := wrappingAdd_eq (by omega)
    simp [takeNumber, afterRow, hadd, hone, Nat.not_le.mpr hlt]

/-! ## Rows -/

theorem rowKind_rowPrefix (k : RowKind) : rowKind (rowPrefix k) = some k := by
  cases k <;> rfl

theorem rowLine_ne_eofMarker (r : PatchRow) : rowLine r ≠ eofMarker := by
  have he : eofMarker = 92 :: eofMarker.tail := by decide
  rw [he]
  intro h
  have hp : rowPrefix r.kind = 92 := (List.cons.inj h).1
  cases hk : r.kind <;> rw [hk] at hp <;> exact absurd hp (by decide)

/-- The counted loop with the marker check behind it. -/
def readRows (limits : ParseLimits) (h : Hunk) (old new totalRows i : Nat) (lines : List Bytes) :
    Except PatchError (Hunk × Cursor) := do
  let r ← rowLoop limits h old new totalRows i lines
  trailingMarker r.1 r.2

theorem readRows_done {limits : ParseLimits} {h : Hunk} {old new totalRows i : Nat}
    {lines : List Bytes} (hd : ¬ Due h old new) (hl : lines.head? ≠ some eofMarker) :
    readRows limits h old new totalRows i lines = .ok (h, ⟨totalRows, i, lines⟩) := by
  unfold Due at hd
  cases lines with
  | nil =>
    rw [readRows, rowLoop, if_neg hd]
    rfl
  | cons l rest =>
    have hne : l ≠ eofMarker := by simpa using hl
    rw [readRows, rowLoop, if_neg hd]
    show trailingMarker h ⟨totalRows, i, l :: rest⟩ = _
    simp [trailingMarker, hne]

/-- Whether rows are due or not, a marker is taken for the last row. -/
theorem readRows_marker {limits : ParseLimits} {h h' : Hunk} {old new totalRows i : Nat}
    {lines : List Bytes} (hm : markLast h i = .ok h') (hl : lines.head? ≠ some eofMarker) :
    readRows limits h old new totalRows i (eofMarker :: lines) =
      readRows limits h' old new totalRows (i + 1) lines := by
  have hs := markLast_sameRange hm
  by_cases hd : old < h.oldCount ∨ new < h.newCount
  · rw [readRows, rowLoop, if_pos hd, if_pos rfl, hm]
    rfl
  · have hd' : ¬ Due h' old new := by
      have ho := (hs .left).2
      have hn := (hs .right).2
      simp only [Hunk.count] at ho hn
      unfold Due
      rw [ho, hn]
      exact hd
    rw [readRows_done hd' hl, readRows, rowLoop, if_neg hd]
    show trailingMarker h ⟨totalRows, i, eofMarker :: lines⟩ = _
    simp [trailingMarker, hm]

theorem readRows_row {limits : ParseLimits} {h : Hunk} {old new old₁ new₁ totalRows i : Nat}
    {l : Bytes} {lines : List Bytes} {row : PatchRow} (hd : Due h old new) (hl : l ≠ eofMarker)
    (hw : hunkRow limits h old new totalRows i l = .ok (row, old₁, new₁)) :
    readRows limits h old new totalRows i (l :: lines) =
      readRows limits (pushRow h row) old₁ new₁ (totalRows + 1) (i + 1) lines := by
  unfold Due at hd
  rw [readRows, rowLoop, if_pos hd, if_neg hl, hw]
  rfl

theorem head?_rowLines_append (rs : List PatchRow) {rest : List Bytes}
    (hrest : rest.head? ≠ some eofMarker) :
    (rs.flatMap rowLines ++ rest).head? ≠ some eofMarker := by
  cases rs with
  | nil => exact hrest
  | cons r rs => simpa [rowLines] using rowLine_ne_eofMarker r

/-- Both sides of the rows that are still to come. -/
def RowsAhead (h : Hunk) (old new : Nat) (rs : List PatchRow) : Prop :=
  Ahead h.oldStart h.oldCount old (rs.filterMap (·.oldLine)) ∧
    Ahead h.newStart h.newCount new (rs.filterMap (·.newLine))

theorem filterMap_cons_toList {α β : Type} (f : α → Option β) (a : α) (l : List α) :
    (a :: l).filterMap f = (f a).toList ++ l.filterMap f := by
  cases h : f a <;> simp [h]

theorem RowsAhead.row {h : Hunk} {old new : Nat} {r : PatchRow} {rs : List PatchRow}
    (ha : RowsAhead h old new (r :: rs)) :
    RowsAhead h (afterRow r.oldLine old) (afterRow r.newLine new) rs := by
  obtain ⟨ho, hn⟩ := ha
  rw [filterMap_cons_toList] at ho hn
  exact ⟨ho.row.2, hn.row.2⟩

/-- Every row is on some side, so a row to come is a row due. -/
theorem RowsAhead.due {h : Hunk} {old new : Nat} {r : PatchRow} {rs : List PatchRow}
    (ha : RowsAhead h old new (r :: rs))
    (hs : ∀ side, (r.number side).isSome ↔ r.kind.on side) : Due h old new := by
  obtain ⟨ho, hn⟩ := ha
  rw [filterMap_cons_toList] at ho hn
  cases hk : r.kind with
  | removed =>
    have h1 : (r.oldLine).isSome := (hs .left).mpr (by simp [hk, RowKind.on])
    obtain ⟨n, hn'⟩ := Option.isSome_iff_exists.mp h1
    exact .inl (ho.row.1 n hn').1
  | added =>
    have h1 : (r.newLine).isSome := (hs .right).mpr (by simp [hk, RowKind.on])
    obtain ⟨n, hn'⟩ := Option.isSome_iff_exists.mp h1
    exact .inr (hn.row.1 n hn').1
  | context =>
    have h1 : (r.oldLine).isSome := (hs .left).mpr (by simp [hk, RowKind.on])
    obtain ⟨n, hn'⟩ := Option.isSome_iff_exists.mp h1
    exact .inl (ho.row.1 n hn').1

/-- A row's line is read as the row, but for the work of its marker. -/
theorem hunkRow_render {limits : ParseLimits} {h : Hunk} {old new totalRows i : Nat} {r : PatchRow}
    {rs : List PatchRow} (hf : Fits h) (hr : PlainRow r)
    (hs : ∀ side, (r.number side).isSome ↔ r.kind.on side) (ha : RowsAhead h old new (r :: rs))
    (hlim : totalRows + 1 ≤ limits.maxRows) :
    ∃ text ending,
      hunkRow limits h old new totalRows i (rowLine r) =
        .ok (unmarked r text ending, afterRow r.oldLine old, afterRow r.newLine new) ∧
      (r.ending ≠ .none → unmarked r text ending = r) ∧
      (r.ending = .none → ∀ line, markNoFinalNewline (unmarked r text ending) line = .ok r) := by
  obtain ⟨text, ending, hsplit, hsame, hmark⟩ := splitEnding_rowLine hr
  refine ⟨text, ending, ?_, hsame, hmark⟩
  obtain ⟨ho, hn⟩ := ha
  rw [filterMap_cons_toList] at ho hn
  have hold : r.oldLine.isSome = decide (r.kind ≠ .added) := by
    rw [Bool.eq_iff_iff, decide_eq_true_iff]
    exact (hs .left).trans (by cases r.kind <;> simp [RowKind.on])
  have hnew : r.newLine.isSome = decide (r.kind ≠ .removed) := by
    rw [Bool.eq_iff_iff, decide_eq_true_iff]
    exact (hs .right).trans (by cases r.kind <;> simp [RowKind.on])
  have hfo : h.oldStart + h.oldCount ≤ u32Max := hf .left
  have hfn : h.newStart + h.newCount ≤ u32Max := hf .right
  unfold hunkRow rowLine
  simp only [rowKind_rowPrefix, bind, Except.bind, hsplit, takeNumber_render hfo ho hold,
    takeNumber_render hfn hn hnew]
  rw [if_neg (by omega)]
  simp [utf8, pure, Except.pure, unmarked]

theorem markLast_pushRow {h : Hunk} {row row' : PatchRow} {i : Nat}
    (hm : markNoFinalNewline row i = .ok row') : markLast (pushRow h row) i = .ok (pushRow h row') := by
  simp [markLast, pushRow, hm]

/-- **Rows read back.** The rendered rows of a hunk are read as those rows, and the lines after
them are left. -/
theorem readRows_render {limits : ParseLimits} {h : Hunk} (hf : Fits h) {rs : List PatchRow}
    {rest : List Bytes} (hrest : rest.head? ≠ some eofMarker) (pre : List PatchRow)
    {old new totalRows i : Nat} (hplain : ∀ r ∈ rs, PlainRow r)
    (hshape : ∀ r ∈ rs, ∀ side, (r.number side).isSome ↔ r.kind.on side)
    (ha : RowsAhead h old new rs) (hlim : totalRows + rs.length ≤ limits.maxRows) :
    readRows limits { h with rows := pre } old new totalRows i (rs.flatMap rowLines ++ rest) =
      .ok ({ h with rows := pre ++ rs },
        ⟨totalRows + rs.length, i + (rs.flatMap rowLines).length, rest⟩) := by
  induction rs generalizing pre old new totalRows i with
  | nil =>
    obtain ⟨⟨hol, ho⟩, ⟨hnl, hn⟩⟩ := ha
    have hd : ¬ Due { h with rows := pre } old new := by
      unfold Due
      have ho' := congrArg List.length ho
      have hn' := congrArg List.length hn
      simp only [List.filterMap_nil, List.length_nil, List.length_range'] at ho' hn'
      dsimp only
      omega
    simpa using readRows_done hd hrest
  | cons r rs ih =>
    have hfits : Fits { h with rows := pre } := fun side => by
      have := hf side
      cases side <;> exact this
    have hs := hshape r (by simp)
    simp only [List.length_cons] at hlim
    have hroom : totalRows + 1 ≤ limits.maxRows := by omega
    obtain ⟨text, ending, hw, hsame, hmark⟩ :=
      hunkRow_render (i := i) (h := { h with rows := pre }) hfits (hplain r (by simp)) hs ha hroom
    have hdue : Due { h with rows := pre } old new := ha.due hs
    have ih' := fun (j : Nat) => @ih (pre ++ [r]) (afterRow r.oldLine old)
      (afterRow r.newLine new) (totalRows + 1) j (fun r' hr' => hplain r' (by simp [hr']))
      (fun r' hr' => hshape r' (by simp [hr'])) ha.row (by omega)
    rw [List.flatMap_cons, rowLines, List.cons_append, List.cons_append,
      readRows_row hdue (rowLine_ne_eofMarker r) hw]
    by_cases he : r.ending = .none
    · rw [if_pos he, List.singleton_append, List.cons_append,
        readRows_marker (markLast_pushRow (hmark he (i + 1))) (head?_rowLines_append rs hrest)]
      show readRows limits { h with rows := pre ++ [r] } _ _ _ _ _ = _
      rw [ih']
      simp only [List.append_assoc, List.singleton_append, List.length_cons, Except.ok.injEq,
        Prod.mk.injEq, Cursor.mk.injEq, true_and, and_true]
      omega
    · rw [if_neg he, hsame he, List.nil_append]
      show readRows limits { h with rows := pre ++ [r] } _ _ _ _ _ = _
      rw [ih']
      simp only [List.append_assoc, List.singleton_append, List.length_cons, Except.ok.injEq,
        Prod.mk.injEq, Cursor.mk.injEq, true_and, and_true]
      omega

end Patch
end Proof
end Diffz
