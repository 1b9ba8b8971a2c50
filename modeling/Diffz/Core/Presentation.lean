import Diffz.Core.Patch

/-!
# Presentation rows (`crates/core/src/presentation.rs`)

The rows a file is displayed as: its notices, then for every hunk a header and the hunk's lines, one
below the other or side by side. The changed words of their cells are in `Core.Decoration`.
-/

set_option autoImplicit false

namespace Diffz

structure Cell where
  number : Nat
  text : String
  ending : LineEnding
  kind : RowKind
deriving DecidableEq, Repr

/-- `Cell::from`. -/
def Cell.ofRow (r : PatchRow) (side : Side) : Option Cell :=
  (r.number side).map fun number => { number, text := r.text, ending := r.ending, kind := r.kind }

inductive DisplayRow
  | hunk (label : String) (sourceLine : Nat) (side : Side)
  | line (left right : Option Cell) (unified : Bool) (oldNumber : Option Nat)
  | notice (text : String)
deriving DecidableEq, Repr

namespace DisplayRow

def cell : DisplayRow → Side → Option Cell
  | line left _ _ _, .left => left
  | line _ right _ _, .right => right
  | _, _ => none

def isHunk : DisplayRow → Bool
  | hunk _ _ _ => true
  | _ => false

/-- The line number that stands in the gutter of a side; a unified row has both gutters before its
one cell. -/
def number : DisplayRow → Side → Option Nat
  | line left _ unified oldNumber, .left => if unified then oldNumber else left.map Cell.number
  | line _ right _ _, .right => right.map Cell.number
  | _, _ => none

end DisplayRow

namespace Presentation

/-- The `Debug` form, which the notices are made of. -/
def contentName : ContentKind → String
  | .text => "Text"
  | .binary => "Binary"
  | .submodule => "Submodule"

def kindName : ChangeKind → String
  | .added => "Added"
  | .deleted => "Deleted"
  | .modified => "Modified"
  | .renamed => "Renamed"
  | .copied => "Copied"

def modeLabel (f : FileChange) : String :=
  match f.kind with
  | .added => if f.newMode = some "100755" then "Added executable file" else "Added file"
  | .deleted => "Deleted file"
  | _ =>
    match f.oldMode, f.newMode with
    | some "100644", some "100755" => "Executable permission added"
    | some "100755", some "100644" => "Executable permission removed"
    | old, new =>
      "File mode: " ++ old.getD "not recorded" ++ " → " ++ new.getD "not recorded"

def notices (f : FileChange) : List DisplayRow :=
  (if f.content ≠ .text then
    [.notice (contentName f.content ++ " change — executable and binary content are not opened")]
  else []) ++
  (if f.oldMode ≠ f.newMode then [.notice (modeLabel f)] else []) ++
  if f.hunks.isEmpty then [.notice (kindName f.kind ++ ": metadata-only change")] else []

def headerRow (h : Hunk) : DisplayRow :=
  .hunk s!"@@ -{h.oldStart},{h.oldCount} +{h.newStart},{h.newCount} @@ {h.sectionText}"
    (if 0 < h.newCount then h.newStart else h.oldStart) (if 0 < h.newCount then .right else .left)

def unifiedLine (r : PatchRow) : DisplayRow :=
  .line (if r.kind = .removed then Cell.ofRow r .left else none)
    (if r.kind ≠ .removed then Cell.ofRow r .right else none) true r.oldLine

/-- Removed lines beside the added lines that follow them. -/
def pairLines (removed added : List PatchRow) : List DisplayRow :=
  (List.range (max removed.length added.length)).map fun p =>
    .line (removed[p]?.bind (Cell.ofRow · .left)) (added[p]?.bind (Cell.ofRow · .right)) false none

def isRemoved (r : PatchRow) : Bool := r.kind = .removed

def isAdded (r : PatchRow) : Bool := r.kind = .added

/-- The loop over the rows of a hunk; every turn takes one row at least. -/
def splitFrom : Nat → List PatchRow → List DisplayRow
  | 0, _ => []
  | _, [] => []
  | fuel + 1, r :: rest =>
    if isRemoved r then
      let mid := rest.dropWhile isRemoved
      pairLines (r :: rest.takeWhile isRemoved) (mid.takeWhile isAdded) ++
        splitFrom fuel (mid.dropWhile isAdded)
    else
      .line (Cell.ofRow r .left) (Cell.ofRow r .right) false none :: splitFrom fuel rest

def splitLines (rows : List PatchRow) : List DisplayRow := splitFrom rows.length rows

def hunkLines (split : Bool) (h : Hunk) : List DisplayRow :=
  if split then splitLines h.rows else h.rows.map unifiedLine

def rows (f : FileChange) (split : Bool) : List DisplayRow :=
  notices f ++ f.hunks.flatMap fun h => headerRow h :: hunkLines split h

end Presentation
end Diffz
