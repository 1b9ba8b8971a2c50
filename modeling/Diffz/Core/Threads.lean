import Diffz.Core.Source

/-!
# Where a thread is shown (`crates/core/src/review_details.rs`)

A comment of a review thread is resolved to a place of the snapshot (`threadLocation`), and a place
of the snapshot has the threads that are shown there (`threadRootsAt`). The file of a comment is
looked up by the text its path is displayed as, and the first file of that text is the one found.

`none` is where `FileChange::path` panics.
-/

set_option autoImplicit false

namespace Diffz

/-- A root goes to the end, once. -/
def pushNew (roots : List Nat) (root : Nat) : List Nat :=
  if root ∈ roots then roots else roots ++ [root]

namespace ThreadComment

/-- `(c.start_line.unwrap_or(end)..=end).contains(&line)`, where the comment has lines. -/
def covers (c : ThreadComment) (line : Nat) : Bool :=
  c.line.any fun stop => decide (c.startLine.getD stop ≤ line) && decide (line ≤ stop)

end ThreadComment

def threadsAt (comments : List ThreadComment) (path : String) (side : Side) (line : Nat) :
    List Nat :=
  comments.foldl (fun roots c =>
    if c.path = path ∧ c.side = some side ∧ c.covers line then pushNew roots c.rootId
    else roots) []

inductive ThreadLocation
  | line (p : SourcePoint)
  | file (p : SourcePoint)
  | outdated
deriving DecidableEq, Repr

/-- The first file that is displayed as `path`. -/
def fileShownAs (path : String) : List FileChange → Option (Option FileChange)
  | [] => some none
  | f :: files =>
    match f.displayPath with
    | none => none
    | some shown => if shown = path then some (some f) else fileShownAs path files

/-- `thread_location` once the file is found. -/
def locationIn (s : Snapshot) (c : ThreadComment) (file : FileChange) (side : Side) :
    ThreadLocation :=
  match c.line.filter fun _ => c.fileLevel ≠ some true with
  | some line =>
    let point : SourcePoint := { snapshot := s.id, file := file.id, side, line, byteColumn := 0 }
    if (s.validatePoint point).isOk then .line point else .outdated
  | none =>
    if side ≠ .right ∨ c.fileLevel.getD c.line.isNone = false ∨
        s.remote.any (fun remote => c.commitId ≠ remote.head) then
      .outdated
    else .file { snapshot := s.id, file := file.id, side, line := 0, byteColumn := 0 }

def threadLocation (s : Snapshot) (c : ThreadComment) : Option ThreadLocation :=
  (fileShownAs c.path s.patch.files).map fun file =>
    match file, c.side with
    | some file, some side => locationIn s c file side
    | _, _ => .outdated

/-- The roots of the comments on a whole file, which is displayed as `path`. -/
def fileRoots (s : Snapshot) (path : String) : List Nat → List ThreadComment → Option (List Nat)
  | roots, [] => some roots
  | roots, c :: comments =>
    if c.path = path then
      match threadLocation s c with
      | none => none
      | some (.file _) => fileRoots s path (pushNew roots c.rootId) comments
      | some _ => fileRoots s path roots comments
    else fileRoots s path roots comments

/-- The line of a context row on the side that is not the point's. -/
def otherLine (row : PatchRow) : Side → Option (Side × Nat)
  | .left => row.newLine.map fun n => (.right, n)
  | .right => row.oldLine.map fun n => (.left, n)

def threadRootsAt (s : Snapshot) (p : SourcePoint) : Option (List Nat) :=
  match s.file p.file with
  | none => some []
  | some file =>
    match file.displayPath with
    | none => none
    | some path =>
      if p.side = .right ∧ p.line = 0 then fileRoots s path [] s.comments
      else
        let roots := threadsAt s.comments path p.side p.line
        let row := (file.line p.side p.line).filter fun r => r.kind = .context
        match row.bind fun row => otherLine row p.side with
        | none => some roots
        | some (side, line) =>
          some ((threadsAt s.comments path side line).foldl pushNew roots)

end Diffz
