import Diffz.Core.Domain

/-!
# The patch parser (`crates/core/src/patch.rs`)

`parse_patch` is three loops that share one cursor into the lines of the patch: over the files,
over the lines of one file, and over the rows of one counted hunk. Each loop is one function here
(`fileLoop`, `sectionLoop`, `rowLoop`). The cursor is the number `i` of the next line, which only
error messages read, with the lines from there on; `i = lines.len()` is the empty rest.

`u32` values are naturals; every `+` on them in the source is `checkedAdd`, `saturatingAdd` or
`wrappingAdd` here, so an addition that wraps would show.
-/

set_option autoImplicit false

namespace Diffz

structure ParseLimits where
  maxBytes : Nat
  maxFiles : Nat
  maxRows : Nat
  maxLineBytes : Nat
deriving DecidableEq, Repr

def ParseLimits.default : ParseLimits :=
  { maxBytes := 32 * 1024 * 1024, maxFiles := 10000, maxRows := 500000,
    maxLineBytes := 1024 * 1024 }

inductive PatchError
  | malformed (line : Nat) (message : String)
  | unsupported (what : String)
  | limit (what : String)
deriving DecidableEq, Repr

inductive ChangeKind
  | added
  | deleted
  | modified
  | renamed
  | copied
deriving DecidableEq, Repr

inductive ContentKind
  | text
  | binary
  | submodule
deriving DecidableEq, Repr

inductive RowKind
  | context
  | added
  | removed
deriving DecidableEq, Repr

structure PatchRow where
  oldLine : Option Nat
  newLine : Option Nat
  text : String
  ending : LineEnding
  kind : RowKind
deriving DecidableEq, Repr

def PatchRow.number (r : PatchRow) : Side → Option Nat
  | .left => r.oldLine
  | .right => r.newLine

structure Hunk where
  oldStart : Nat
  oldCount : Nat
  newStart : Nat
  newCount : Nat
  sectionText : String
  rows : List PatchRow
deriving DecidableEq, Repr

structure FileChange where
  id : FileId
  oldPath : Option RepoPath
  newPath : Option RepoPath
  kind : ChangeKind
  content : ContentKind
  oldMode : Option String
  newMode : Option String
  oldOid : Option String
  newOid : Option String
  hunks : List Hunk
  metadata : List String
deriving DecidableEq

namespace FileChange

/-- `FileChange::path`; `none` is where its `expect` would fire. -/
def path (f : FileChange) : Option RepoPath := f.newPath.or f.oldPath

def displayPath (f : FileChange) : Option String := f.path.map RepoPath.display

def allRows (f : FileChange) : List PatchRow := f.hunks.flatMap (·.rows)

def line (f : FileChange) (side : Side) (n : Nat) : Option PatchRow :=
  f.allRows.find? fun r => r.number side = some n

def eligible (f : FileChange) (side : Side) (start last : Nat) : Bool :=
  decide (f.content = .text) && decide (0 < start) && decide (start ≤ last) &&
    decide (last - start ≤ 10000) &&
    f.hunks.any fun h =>
      (List.range' start (last + 1 - start)).all fun n => h.rows.any fun r => r.number side = some n

end FileChange

structure PatchReport where
  files : List FileChange
deriving DecidableEq

def bad (line : Nat) (msg : String) : PatchError := .malformed (line + 1) msg

/-! ## Literals of the format -/

def diffGit : Bytes := asBytes "diff --git "
def hunkStart : Bytes := asBytes "@@ "
def eofMarker : Bytes := asBytes "\\ No newline at end of file"
def mailTrailer : Bytes := asBytes "-- "
def devNull : Bytes := asBytes "/dev/null"

/-! ## Header paths -/

def utf8 (v : Bytes) (line : Nat) : Except PatchError String :=
  match fromUtf8 v with
  | some s => .ok s
  | none => .error
      (bad line "source bytes are invalid UTF-8; this patch cannot render safely")

def path (v : Bytes) (line : Nat) (strip : Bool) : Except PatchError RepoPath :=
  match RepoPath.fromGitToken v with
  | .error e => .error (bad line e)
  | .ok p =>
    if strip then
      match p.withoutSide with
      | .error e => .error (bad line e)
      | .ok q => .ok q
    else .ok p

/-- The index of the quote that closes the one at index 0; `i` is the index of the first byte. -/
def closingQuote : Bool → Nat → Bytes → Option Nat
  | _, _, [] => none
  | true, i, _ :: rest => closingQuote false (i + 1) rest
  | false, i, b :: rest =>
    if b = 92 then closingQuote true (i + 1) rest
    else if b = 34 then some i
    else closingQuote false (i + 1) rest

/-- The indices at which `p` occurs; `i` is the index of the first byte. -/
def occurrences (p : Bytes) : Nat → Bytes → List Nat
  | _, [] => []
  | i, x :: l => (if p.isPrefixOf (x :: l) then [i] else []) ++ occurrences p (i + 1) l

/-- Marker and rename paths decide; uncertain headers remain unresolved. -/
def headerPaths (v : Bytes) (line : Nat) :
    Except PatchError (Option RepoPath × Option RepoPath) :=
  if v.head? = some 34 then
    match closingQuote false 1 v.tail with
    | some e =>
      if (v.drop (e + 1)).head? = some 32 then do
        let old ← path (v.take (e + 1)) line true
        let new ← path (v.drop (e + 2)) line true
        return (some old, some new)
      else .error (bad line "invalid quoted diff header")
    | none => .error (bad line "invalid quoted diff header")
  else
    match occurrences (asBytes " b/") 0 v with
    | [i] => do
      let old ← path (v.take i) line true
      let new ← path (v.drop (i + 1)) line true
      return (some old, some new)
    | _ => .ok (none, none)

/-! ## Hunk headers -/

def pair (s : List Char) (line : Nat) : Except PatchError (Nat × Nat) :=
  let ab := (splitOnce [','] s).getD (s, ['1'])
  match parseU32 ab.1 with
  | none => .error (bad line "invalid hunk start")
  | some start =>
    match parseU32 ab.2 with
    | none => .error (bad line "invalid hunk count")
    | some count =>
      if 0 < count ∧ (start = 0 ∨ checkedAdd start count = none) then
        .error (bad line "invalid or overflowing hunk range")
      else .ok (start, count)

def hunkHeader (v : Bytes) (line : Nat) : Except PatchError Hunk := do
  let s ← utf8 v line
  match stripPrefix "@@ -".toList s.toList with
  | none => .error (bad line "invalid hunk header")
  | some rest =>
    match splitOnce " +".toList rest with
    | none => .error (bad line "missing new range")
    | some (old, rest) =>
      match splitOnce " @@".toList rest with
      | none => .error (bad line "unclosed hunk header")
      | some (new, sec) => do
        let o ← pair old line
        let n ← pair new line
        return { oldStart := o.1, oldCount := o.2, newStart := n.1, newCount := n.2,
                 sectionText := trimStart (String.ofList sec), rows := [] }

/-! ## Rows -/

/-- Git adds an LF before the EOF marker, even when the source ends in a bare CR. That CR moves
back into the text before the synthetic line ending is discarded. -/
def markNoFinalNewline (row : PatchRow) (line : Nat) : Except PatchError PatchRow :=
  match row.ending with
  | .none => .error (bad line "duplicate EOF marker")
  | .crLf => .ok { row with text := row.text ++ "\r", ending := .none }
  | .lf => .ok { row with ending := .none }

/-- The EOF marker speaks of the last row read. -/
def markLast (h : Hunk) (line : Nat) : Except PatchError Hunk :=
  match h.rows.getLast? with
  | none => .error (bad line "orphan EOF marker")
  | some last =>
    match markNoFinalNewline last line with
    | .error e => .error e
    | .ok row => .ok { h with rows := h.rows.dropLast ++ [row] }

def rowKind : UInt8 → Option RowKind
  | 32 => some .context
  | 43 => some .added
  | 45 => some .removed
  | _ => none

/-- The number a row takes on a side, if it is on that side, and how many rows the side then
has. -/
def takeNumber (on : Bool) (start count taken : Nat) (line : Nat) (tooMany : String) :
    Except PatchError (Option Nat × Nat) :=
  if on then
    if taken ≥ count then .error (bad line tooMany)
    else match checkedAdd start taken with
      | none => .error (bad line "line overflow")
      | some n => .ok (some n, wrappingAdd taken 1)
  else .ok (none, taken)

/-- A row's text and ending. -/
def splitEnding (text : Bytes) : Bytes × LineEnding :=
  if text.getLast? = some 13 then (text.dropLast, .crLf) else (text, .lf)

/-- One counted row: the row and how many old and new rows have been read with it. -/
def hunkRow (limits : ParseLimits) (h : Hunk) (old new totalRows i : Nat) (l : Bytes) :
    Except PatchError (PatchRow × Nat × Nat) := do
  match l with
  | [] => .error (bad i "unprefixed empty hunk row")
  | first :: text =>
    match rowKind first with
    | none => .error (bad i "unexpected hunk row; count mismatch")
    | some kind => do
      let o ← takeNumber (kind ≠ .added) h.oldStart h.oldCount old i "too many old-side lines"
      let n ← takeNumber (kind ≠ .removed) h.newStart h.newCount new i "too many new-side lines"
      let te := splitEnding text
      if totalRows + 1 > limits.maxRows then .error (.limit "source row count")
      else do
        let text ← utf8 te.1 i
        return ({ oldLine := o.1, newLine := n.1, text, ending := te.2, kind }, o.2, n.2)

/-- Where a loop stopped: how many rows the patch has so far, and the cursor. -/
structure Cursor where
  totalRows : Nat
  i : Nat
  rest : List Bytes
deriving DecidableEq, Repr

/-- The loop over the rows of a counted hunk. -/
def rowLoop (limits : ParseLimits) (h : Hunk) (old new totalRows i : Nat) :
    List Bytes → Except PatchError (Hunk × Cursor)
  | [] =>
    if old < h.oldCount ∨ new < h.newCount then .error (bad i "truncated counted hunk")
    else .ok (h, ⟨totalRows, i, []⟩)
  | l :: rest =>
    if old < h.oldCount ∨ new < h.newCount then
      if l = eofMarker then
        match markLast h i with
        | .error e => .error e
        | .ok h => rowLoop limits h old new totalRows (i + 1) rest
      else
        match hunkRow limits h old new totalRows i l with
        | .error e => .error e
        | .ok (row, old, new) =>
          rowLoop limits { h with rows := h.rows ++ [row] } old new (totalRows + 1) (i + 1) rest
    else .ok (h, ⟨totalRows, i, l :: rest⟩)

/-- The EOF marker after the last counted row. -/
def trailingMarker (h : Hunk) (c : Cursor) : Except PatchError (Hunk × Cursor) :=
  match c.rest with
  | [] => .ok (h, c)
  | l :: rest =>
    if l = eofMarker then
      match markLast h c.i with
      | .error e => .error e
      | .ok h => .ok (h, { c with i := c.i + 1, rest })
    else .ok (h, c)

/-- Whether a hunk starts before the previous one of its file ends. -/
def overlaps (prev h : Hunk) : Bool :=
  h.oldStart < saturatingAdd prev.oldStart prev.oldCount ||
    h.newStart < saturatingAdd prev.newStart prev.newCount

/-- One hunk: its header line `l`, its rows, and an EOF marker after them. -/
def hunk (limits : ParseLimits) (hunks : List Hunk) (totalRows i : Nat) (l : Bytes)
    (rest : List Bytes) : Except PatchError (Hunk × Cursor) := do
  let h ← hunkHeader l i
  if (hunks.getLast?.any fun prev => overlaps prev h) = true then
    .error (bad (i + 1) "overlapping/out-of-order hunks")
  else do
    let r ← rowLoop limits h 0 0 totalRows (i + 1) rest
    trailingMarker r.1 r.2

/-! ## The header of a file -/

/-- The header lines the parser knows, with what follows their keyword. -/
inductive HeaderLine
  | oldFile (v : Bytes)
  | newFile (v : Bytes)
  | renameFrom (v : Bytes)
  | renameTo (v : Bytes)
  | copyFrom (v : Bytes)
  | copyTo (v : Bytes)
  | newFileMode (v : Bytes)
  | deletedFileMode (v : Bytes)
  | oldMode (v : Bytes)
  | newMode (v : Bytes)
  | binary
  | index (v : Bytes)
  | other
deriving DecidableEq, Repr

def headerLine (l : Bytes) : HeaderLine :=
  if let some v := stripPrefix (asBytes "--- ") l then .oldFile v
  else if let some v := stripPrefix (asBytes "+++ ") l then .newFile v
  else if let some v := stripPrefix (asBytes "rename from ") l then .renameFrom v
  else if let some v := stripPrefix (asBytes "rename to ") l then .renameTo v
  else if let some v := stripPrefix (asBytes "copy from ") l then .copyFrom v
  else if let some v := stripPrefix (asBytes "copy to ") l then .copyTo v
  else if let some v := stripPrefix (asBytes "new file mode ") l then .newFileMode v
  else if let some v := stripPrefix (asBytes "deleted file mode ") l then .deletedFileMode v
  else if let some v := stripPrefix (asBytes "old mode ") l then .oldMode v
  else if let some v := stripPrefix (asBytes "new mode ") l then .newMode v
  else if (asBytes "Binary files ").isPrefixOf l ∨ l = asBytes "GIT binary patch" then .binary
  else if let some v := stripPrefix (asBytes "index ") l then .index v
  else .other

/-- The path of a `---` or `+++` line: up to a tab, and none for `/dev/null`. -/
def markerPath (v : Bytes) (i : Nat) : Except PatchError (Option RepoPath) :=
  let v := (v.splitOn 9).headD v
  if v = devNull then .ok none
  else match path v i true with
    | .error e => .error e
    | .ok p => .ok (some p)

/-- `index <old>..<new> <mode>`. -/
def indexLine (f : FileChange) (s : String) : FileChange :=
  let words := splitWhitespace s
  let f := match words.head?.bind fun p => splitOnce "..".toList p.toList with
    | some (a, b) => { f with oldOid := some (String.ofList a), newOid := some (String.ofList b) }
    | none => f
  match words.tail.head? with
  | some mode => { f with oldMode := some mode, newMode := some mode }
  | none => f

/-- One line before the first hunk of a file. -/
def applyHeader (f : FileChange) (i : Nat) (l : Bytes) : Except PatchError FileChange := do
  match headerLine l with
  | .oldFile v => do
    let p ← markerPath v i
    return { f with oldPath := p }
  | .newFile v => do
    let p ← markerPath v i
    return { f with newPath := p }
  | .renameFrom v => do
    let p ← path v i false
    return { f with oldPath := some p, kind := .renamed }
  | .renameTo v => do
    let p ← path v i false
    return { f with newPath := some p, kind := .renamed }
  | .copyFrom v => do
    let p ← path v i false
    return { f with oldPath := some p, kind := .copied }
  | .copyTo v => do
    let p ← path v i false
    return { f with newPath := some p, kind := .copied }
  | .newFileMode v => do
    let m ← utf8 v i
    return { f with newMode := some m, kind := .added, oldPath := none }
  | .deletedFileMode v => do
    let m ← utf8 v i
    return { f with oldMode := some m, kind := .deleted, newPath := none }
  | .oldMode v => do
    let m ← utf8 v i
    return { f with oldMode := some m }
  | .newMode v => do
    let m ← utf8 v i
    return { f with newMode := some m }
  | .binary => return { f with content := .binary }
  | .index v => do
    let s ← utf8 v i
    return indexLine f s
  | .other =>
    if l = [] then return f
    else do
      let s ← utf8 l i
      return { f with metadata := f.metadata ++ [s] }

/-! ## The loops over lines and files -/

/-- Every loop leaves a suffix of the lines it was given. -/
theorem rowLoop_rest_le {limits : ParseLimits} {h h' : Hunk} {old new totalRows i : Nat}
    {rest : List Bytes} {c : Cursor}
    (hr : rowLoop limits h old new totalRows i rest = .ok (h', c)) :
    c.rest.length ≤ rest.length := by
  induction rest generalizing h old new totalRows i with
  | nil =>
    rw [rowLoop] at hr
    split at hr
    · cases hr
    · cases hr; simp
  | cons l rest ih =>
    rw [rowLoop] at hr
    split at hr
    · split at hr
      · split at hr
        · cases hr
        · exact Nat.le_succ_of_le (ih hr)
      · split at hr
        · cases hr
        · exact Nat.le_succ_of_le (ih hr)
    · cases hr; simp

theorem trailingMarker_rest_le {h h' : Hunk} {c c' : Cursor}
    (hm : trailingMarker h c = .ok (h', c')) : c'.rest.length ≤ c.rest.length := by
  unfold trailingMarker at hm
  split at hm
  · cases hm; exact Nat.le_refl _
  · rename_i l rest hrest
    split at hm
    · split at hm
      · cases hm
      · cases hm; simp [hrest]
    · cases hm; exact Nat.le_refl _

theorem hunk_rest_le {limits : ParseLimits} {hunks : List Hunk} {totalRows i : Nat} {l : Bytes}
    {rest : List Bytes} {h : Hunk} {c : Cursor}
    (hh : hunk limits hunks totalRows i l rest = .ok (h, c)) : c.rest.length ≤ rest.length := by
  unfold hunk at hh
  cases hd : hunkHeader l i with
  | error e => rw [hd] at hh; cases hh
  | ok h₀ =>
    rw [hd] at hh
    simp only [bind, Except.bind] at hh
    split at hh
    · cases hh
    · cases hr : rowLoop limits h₀ 0 0 totalRows (i + 1) rest with
      | error e => rw [hr] at hh; cases hh
      | ok r =>
        rw [hr] at hh
        exact Nat.le_trans (trailingMarker_rest_le hh) (rowLoop_rest_le hr)

/-- The loop over the lines of one file, up to the next `diff --git` line. After a hunk only blank
lines may follow, or the trailer of a mailed patch, which ends the whole patch. -/
def sectionLoop (limits : ParseLimits) (f : FileChange) (totalRows i : Nat)
    (lines : List Bytes) : Except PatchError (FileChange × Cursor) :=
  match lines with
  | [] => .ok (f, ⟨totalRows, i, []⟩)
  | l :: rest =>
    if diffGit.isPrefixOf l then .ok (f, ⟨totalRows, i, l :: rest⟩)
    else if hunkStart.isPrefixOf l then
      match _hh : hunk limits f.hunks totalRows i l rest with
      | .error e => .error e
      | .ok (h, c) => sectionLoop limits { f with hunks := f.hunks ++ [h] } c.totalRows c.i c.rest
    else if f.hunks ≠ [] then
      if l = [] then sectionLoop limits f totalRows (i + 1) rest
      else if l = mailTrailer then .ok (f, ⟨totalRows, i + (l :: rest).length, []⟩)
      else .error (bad i "unexpected text after counted hunk")
    else
      match applyHeader f i l with
      | .error e => .error e
      | .ok f => sectionLoop limits f totalRows (i + 1) rest
termination_by lines.length
decreasing_by
  · exact Nat.lt_succ_of_le (hunk_rest_le _hh)
  · simp
  · simp

def newFile (old new : Option RepoPath) : FileChange :=
  { id := ⟨""⟩, oldPath := old, newPath := new, kind := .modified, content := .text,
    oldMode := none, newMode := none, oldOid := none, newOid := none, hunks := [],
    metadata := [] }

/-- What follows the section loop: the presence check, then the content and path fix-ups and the
identity. -/
def finishFile (sha256 : Bytes → Bytes) (f : FileChange) (i : Nat) :
    Except PatchError FileChange :=
  if f.oldPath = none ∧ f.newPath = none then .error (bad i "file has no unambiguous path")
  else
    let f := if f.oldMode = some "160000" ∨ f.newMode = some "160000" then
      { f with content := .submodule } else f
    let f := if f.kind = .added then { f with oldPath := none } else f
    let f := if f.kind = .deleted then { f with newPath := none } else f
    let a := (f.oldPath.map (·.bytes)).getD []
    let b := (f.newPath.map (·.bytes)).getD []
    .ok { f with id := ⟨digest sha256 [asBytes "file-v1", a, b]⟩ }

/-- One file of the patch, from its `diff --git` line `l` on. -/
def fileSection (sha256 : Bytes → Bytes) (limits : ParseLimits) (totalRows i : Nat) (l : Bytes)
    (rest : List Bytes) : Except PatchError (FileChange × Cursor) :=
  match headerPaths (l.drop 11) i with
  | .error e => .error e
  | .ok (old, new) =>
    match sectionLoop limits (newFile old new) totalRows (i + 1) rest with
    | .error e => .error e
    | .ok (f, c) =>
      match finishFile sha256 f c.i with
      | .error e => .error e
      | .ok f => .ok (f, c)

theorem sectionLoop_rest_le {limits : ParseLimits} {f f' : FileChange} {totalRows i : Nat}
    {lines : List Bytes} {c : Cursor}
    (hs : sectionLoop limits f totalRows i lines = .ok (f', c)) :
    c.rest.length ≤ lines.length := by
  fun_induction sectionLoop limits f totalRows i lines with
  | case1 => cases hs; simp
  | case2 => cases hs; simp
  | case3 => cases hs
  | case4 f totalRows i l rest _ _ h c hh ih =>
    exact Nat.le_succ_of_le (Nat.le_trans (ih hs) (hunk_rest_le hh))
  | case5 _ _ _ _ _ _ _ ih => exact Nat.le_succ_of_le (ih hs)
  | case6 => cases hs; simp
  | case7 => cases hs
  | case8 => cases hs
  | case9 _ _ _ _ _ _ _ _ _ _ ih => exact Nat.le_succ_of_le (ih hs)

theorem fileSection_rest_le {sha256 : Bytes → Bytes} {limits : ParseLimits} {totalRows i : Nat}
    {l : Bytes} {rest : List Bytes} {f : FileChange} {c : Cursor}
    (hf : fileSection sha256 limits totalRows i l rest = .ok (f, c)) :
    c.rest.length ≤ rest.length := by
  unfold fileSection at hf
  split at hf
  · cases hf
  · split at hf
    · cases hf
    · rename_i hs
      split at hf
      · cases hf
      · cases hf
        exact sectionLoop_rest_le hs

/-- The set of ids the source keeps beside its list of files. -/
def seen (files : List FileChange) : List FileId := files.map (·.id)

/-- The loop over the files. -/
def fileLoop (sha256 : Bytes → Bytes) (limits : ParseLimits) (files : List FileChange)
    (totalRows i : Nat) (lines : List Bytes) : Except PatchError (List FileChange) :=
  match lines with
  | [] => .ok files
  | l :: rest =>
    if ¬ diffGit.isPrefixOf l then
      if files = [] then fileLoop sha256 limits files totalRows (i + 1) rest
      else if l = [] ∨ l = mailTrailer then fileLoop sha256 limits files totalRows (i + 1) rest
      else .error (bad i "unexpected patch trailer")
    else if files.length ≥ limits.maxFiles then .error (.limit "file count")
    else
      match _hf : fileSection sha256 limits totalRows i l rest with
      | .error e => .error e
      | .ok (f, c) =>
        if f.id ∈ seen files then .error (bad c.i "duplicate file change")
        else fileLoop sha256 limits (files ++ [f]) c.totalRows c.i c.rest
termination_by lines.length
decreasing_by
  · simp
  · simp
  · exact Nat.lt_succ_of_le (fileSection_rest_le _hf)

/-- The lines of the patch; a final newline ends the last one. -/
def splitLines (bytes : Bytes) : List Bytes :=
  let lines := bytes.splitOn 10
  if lines.getLast? = some [] then lines.dropLast else lines

/-- The check of every line before parsing starts. -/
def checkLines (limits : ParseLimits) : Nat → List Bytes → Except PatchError Unit
  | _, [] => .ok ()
  | i, l :: rest =>
    if l.length > limits.maxLineBytes then .error (.limit s!"line {i + 1} length")
    else if (asBytes "diff --cc ").isPrefixOf l ∨ (asBytes "diff --combined ").isPrefixOf l ∨
        (asBytes "@@@ ").isPrefixOf l then
      .error (.unsupported "combined merge diff")
    else checkLines limits (i + 1) rest

def parsePatch (sha256 : Bytes → Bytes) (bytes : Bytes) (limits : ParseLimits) :
    Except PatchError PatchReport :=
  if bytes.length > limits.maxBytes then .error (.limit "bytes")
  else
    match checkLines limits 0 (splitLines bytes) with
    | .error e => .error e
    | .ok () =>
      match fileLoop sha256 limits [] 0 0 (splitLines bytes) with
      | .error e => .error e
      | .ok files =>
        if files = [] ∧ ¬ bytes.all isAsciiWhitespace then
          .error (.unsupported "Git unified file headers are missing")
        else .ok ⟨files⟩

end Diffz
