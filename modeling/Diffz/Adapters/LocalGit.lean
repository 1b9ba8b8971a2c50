import Diffz.Core.Patch
import Diffz.Core.Source

/-!
# Untracked files (`crates/adapters/src/local_git.rs`)

Git shows no diff of a file it does not follow, so `untracked` reads such a file and puts it into the
patch of the worktree itself, as one added hunk. `captureFile` is the part of its loop that is about
one file.

What the file system has below the root is a function from names to `Item`s. The caps keep the
counts far below 2^32, so the casts to `u32` are left out.
-/

set_option autoImplicit false

namespace Diffz
namespace LocalGit

/-- What stands at a name. -/
inductive Item
  /-- `symlink_metadata`, `open` or a read failed -/
  | failed (error : String)
  | notFile
  | file (executable : Bool) (content : Bytes)
deriving DecidableEq, Repr

/-- What the caps count: the bytes of all untracked files, the rows of the whole patch. -/
structure Totals where
  bytes : Nat
  rows : Nat
deriving DecidableEq, Repr

def byteCap : Nat := 32 * 1024 * 1024
def rowCap : Nat := 500000
def lineCap : Nat := 1024 * 1024

/-- The document of a file's bytes; none for a binary file. -/
def document (bytes : Bytes) : Except String (Option SourceDocument) :=
  if 0 ∈ bytes then .ok none
  else match SourceDocument.ofUtf8 bytes with
    | .ok d => .ok (some d)
    | .error .invalidUtf8 => .ok none
    | .error e => .error e.message

def addedRows (d : SourceDocument) : List PatchRow :=
  d.lines.zipIdx.map fun l =>
    { oldLine := none, newLine := some (l.2 + 1), text := (d.lineText (l.2 + 1)).getD "",
      ending := l.1.ending, kind := .added }

/-- The one hunk of a document that is not empty. -/
def addedHunks (d : SourceDocument) : List Hunk :=
  if d.lines = [] then []
  else [{ oldStart := 0, oldCount := 0, newStart := 1, newCount := d.lines.length, sectionText := "",
          rows := addedRows d }]

def mode (executable : Bool) : String := if executable then "100755" else "100644"

/-- The file before its rows. -/
def newFile (sha256 : Bytes → Bytes) (path : RepoPath) (executable : Bool) (content : ContentKind) :
    FileChange :=
  { id := ⟨digest sha256 [asBytes "file-v1", [], path.bytes]⟩
    oldPath := none
    newPath := some path
    kind := .added
    content
    oldMode := none
    newMode := some (mode executable)
    oldOid := none
    newOid := none
    hunks := []
    metadata := ["untracked file; the worktree was left unchanged"] }

/-- One untracked file, after `totals` of the others. -/
def captureFile (sha256 : Bytes → Bytes) (totals : Totals) (path : RepoPath) (executable : Bool)
    (content : Bytes) : Except String (FileChange × Totals) :=
  let bytes := content.take (byteCap + 1)
  if bytes.length > byteCap then
    .error "an untracked file exceeds 32 MiB; it was kept out explicitly"
  else if totals.bytes + bytes.length > u64Max then .error "untracked byte count overflow"
  else if totals.bytes + bytes.length > byteCap then
    .error "all untracked content is over the 32 MiB cap"
  else match document bytes with
    | .error e => .error e
    | .ok none =>
      let f := newFile sha256 path executable .binary
      .ok ({ f with metadata := f.metadata ++
              ["untracked binary content digest: " ++
                digest sha256 [asBytes "untracked-binary-v1", bytes]] },
        { totals with bytes := totals.bytes + bytes.length })
    | .ok (some d) =>
      if totals.rows + d.lines.length > rowCap then
        .error "the local patch total is above 500,000 rows"
      else if d.lines.any fun l => l.content.len > lineCap then
        .error "an untracked source line is over 1 MiB"
      else
        .ok ({ newFile sha256 path executable .text with hunks := addedHunks d },
          ⟨totals.bytes + bytes.length, totals.rows + d.lines.length⟩)

/-- One name of the listing. -/
def captureName (sha256 : Bytes → Bytes) (item : Bytes → Item) (out : List FileChange × Totals)
    (name : Bytes) : Except String (List FileChange × Totals) :=
  match RepoPath.new name with
  | .error e => .error e
  | .ok path =>
    match item name with
    | .failed e => .error e
    | .notFile => .error ("untracked item " ++ path.display ++
        " is not a regular file; stage or exclude it before snapshotting")
    | .file executable content =>
      (captureFile sha256 out.2 path executable content).map fun f => (out.1 ++ [f.1], f.2)

/-- `names` is what `git ls-files --others -z` lists. -/
def untracked (sha256 : Bytes → Bytes) (item : Bytes → Item) (patch : PatchReport) (names : Bytes) :
    Except String PatchReport :=
  let paths := (names.splitOn 0).filter fun name => name ≠ []
  if paths.length > 200 then
    .error "over 200 files are untracked; use staged mode or narrow the set first"
  else
    let rows := ((patch.files.flatMap (·.hunks)).map fun h => h.rows.length).sum
    (paths.foldlM (captureName sha256 item) (patch.files, ⟨0, rows⟩)).map fun out => ⟨out.1⟩

end LocalGit
end Diffz
