import Mathlib.Data.Prod.Lex
import Mathlib.Data.String.Basic
import Diffz.Core.Domain
import Diffz.Lib.OrdMap

/-!
# The file tree (`crates/core/src/file_tree.rs`)

The paths of the files make a tree of directories; its rows are listed from the top, folders before
files. A chain of directories with nothing else in them is one row, and a folder with a single file
is folded into the file's row.

`str::to_lowercase` is `lower`, since the tables behind it are Unicode's. The set of collapsed paths
is a list; the map of old paths is a function.
-/

set_option autoImplicit false

namespace Diffz
namespace FileTree

structure TreeRow where
  path : String
  label : String
  /-- the dimmed folder path before the label, where a folder is folded into its file's row -/
  pathPrefix : String
  depth : Nat
  file : Option FileId
  expanded : Bool
  oldPath : Option String
deriving DecidableEq

/-- The directories by name, in the order of the names, and the files by name and identity. -/
inductive Directory
  | mk (dirs : List (String × Directory)) (files : OrdMap (String ×ₗ String) String)

namespace Directory

def dirs : Directory → List (String × Directory)
  | mk dirs _ => dirs

def files : Directory → OrdMap (String ×ₗ String) String
  | mk _ files => files

def empty : Directory := mk [] OrdMap.empty

/-- The loop over the parts of a path, of which there is always one. -/
def insert (id : FileId) (path : String) : List String → Directory → Directory
  | [], dir => dir
  | [part], dir => mk dir.dirs (dir.files.insert (toLex (part, id.val)) path)
  | part :: parts, dir =>
    mk (OrdMap.insertEntry part (insert id path parts ((dir.dirs.lookup part).getD empty)) dir.dirs)
      dir.files

end Directory

/-- `path.split('/')`. -/
def parts (path : String) : List String := (path.toList.splitOn '/').map String.ofList

/-- What `flatten` hands on unchanged. -/
structure View where
  collapsed : List String
  filtering : Bool
  old : FileId → Option String

def View.isExpanded (v : View) (path : String) : Bool := v.filtering || !v.collapsed.contains path

/-- The row of a file. -/
def fileRow (v : View) (pathPrefix : String) (depth : Nat) (f : (String ×ₗ String) × String) :
    TreeRow :=
  { path := f.2, label := (ofLex f.1).1, pathPrefix, depth, file := some ⟨(ofLex f.1).2⟩,
    expanded := false, oldPath := v.old ⟨(ofLex f.1).2⟩ }

def dirRow (v : View) (label path : String) (depth : Nat) : TreeRow :=
  { path, label, pathPrefix := "", depth, file := none, expanded := v.isExpanded path,
    oldPath := none }

/-- The path of a directory below `parent`. -/
def below (parent name : String) : String := if parent = "" then name else parent ++ "/" ++ name

mutual

/-- One turn of the loop over the directories, at a directory that has come to be called `label` and
`path`. The first case is a turn of the `while` loop. -/
def flattenDir (v : View) (label path : String) (depth : Nat) : Directory → List TreeRow
  | .mk dirs files =>
    match dirs, files.entries with
    | [(name, child)], [] =>
      flattenDir v (label ++ "/" ++ name) (path ++ "/" ++ name) depth child
    | [], [f] => [fileRow v (label ++ "/") depth f]
    | dirs, entries =>
      dirRow v label path depth ::
        if v.isExpanded path then
          flattenDirs v path (depth + 1) dirs ++ entries.map (fileRow v "" (depth + 1))
        else []

def flattenDirs (v : View) (parent : String) (depth : Nat) :
    List (String × Directory) → List TreeRow
  | [] => []
  | d :: dirs => flattenEntry v parent depth d ++ flattenDirs v parent depth dirs

def flattenEntry (v : View) (parent : String) (depth : Nat) : String × Directory → List TreeRow
  | (name, child) => flattenDir v name (below parent name) depth child

end

def flatten (v : View) (parent : String) (depth : Nat) (dir : Directory) : List TreeRow :=
  flattenDirs v parent depth dir.dirs ++ dir.files.entries.map (fileRow v "" depth)

end FileTree

structure FileTree where
  entries : List (FileId × String)
  oldPaths : FileId → Option String

namespace FileTree

/-- The paths a filter keeps; `query` is in lower case. -/
def matchesQuery (lower : String → String) (t : FileTree) (query : String) (e : FileId × String) :
    Bool :=
  decide (query.toList <:+: (lower e.2).toList) ||
    (t.oldPaths e.1).any fun old => decide (query.toList <:+: (lower old).toList)

/-- The tree of the entries that match. -/
def root (lower : String → String) (t : FileTree) (query : String) : Directory :=
  t.entries.foldl (fun root e =>
    if t.matchesQuery lower query e then root.insert e.1 e.2 (parts e.2) else root) .empty

def rows (lower : String → String) (t : FileTree) (collapsed : List String) (query : String) :
    List TreeRow :=
  flatten ⟨collapsed, lower query ≠ "", t.oldPaths⟩ "" 0 (t.root lower (lower query))

end FileTree
end Diffz
