import Mathlib.Data.List.Destutter
import Diffz.Core.ReviewDetails
import Diffz.Lib.Table

/-!
# The releases that touched a file (`crates/core/src/review_details.rs`)

A file that a release renamed is found under its head path in the releases before it.
`releasesByPath` reads the releases from the newest to the oldest and keeps a map from earlier names
to the names at the head, which it extends file by file.
-/

set_option autoImplicit false

namespace Diffz

/-- What has been found: the releases of each head path, and the head paths of earlier names. -/
structure Followed where
  paths : Table String (List Nat)
  renamed : Table String String

namespace Followed

def start : Followed := { paths := ∅, renamed := ∅ }

/-- The name that a file of this path has at the head. -/
def head (s : Followed) (path : String) : String := (s.renamed.find path).getD path

/-- One file of the release `i`. -/
def file (i : Nat) (s : Followed) (f : ReleaseFile) : Followed :=
  { paths := s.paths.put (s.head f.path) ((s.paths.find (s.head f.path)).getD [] ++ [i])
    renamed :=
      match f.previous with
      | some previous => s.renamed.put previous (s.head f.path)
      | none => s.renamed }

/-- All files of a release, in the order they are listed in. -/
def release (i : Nat) (s : Followed) (r : Release) : Followed := r.files.foldl (file i) s

end Followed

/-- The releases from the newest to the oldest, the first of which has the index `k`. -/
def followed (k : Nat) (releases : List Release) : Followed :=
  (releases.zipIdx k).foldr (fun e s => s.release e.2 e.1) .start

/-- `touched.sort_unstable(); touched.dedup()`. -/
def ascending (touched : List Nat) : List Nat := touched.mergeSort.destutter (· ≠ ·)

/-- `releases_by_path`: for each path at the head, the indexes of the releases that touched it,
oldest first. -/
def releasesByPath (releases : List Release) : Table String (List Nat) :=
  (followed 0 releases).paths.mapRows ascending

/-! ## What is said of a line -/

/-- `Release::name`. -/
def Release.name (r : Release) (head : String) : String := r.tag.getD head

/-- `removed_in`, from the names of the releases that touched the file. -/
def removedIn : List String → String
  | [] => "Removed in this range"
  | [one] => "Removed in " ++ one
  | first :: second :: rest =>
    let names := first :: second :: rest
    if 4 < names.length then
      "Removed in one of " ++ toString names.length ++ " releases, " ++ first ++ " to " ++
        (names.getLast?.getD first)
    else "Removed in one of: " ++ ", ".intercalate names

/-- `blame_span`: the head lines around the added lines of a file whose blame is still to be read. -/
def blameSpan (o : Overview) (f : FileChange) : Option (Nat × Nat) :=
  if o.releases.length < 2 ∨ o.releases.all (·.shas.isEmpty) = true ∨
      (o.blame.get (f.displayPath.getD "")).isSome = true then none
  else
    ((f.allRows.filter (·.kind = .added)).filterMap (·.newLine)).foldl (fun span n =>
      match span with
      | none => some (n, n)
      | some (first, last) => some (min first n, max last n)) none

end Diffz
