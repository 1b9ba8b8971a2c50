import Diffz.Core.Patch
import Diffz.Lib.Search
import Diffz.Lib.Utf8

/-!
# Move labels (`crates/core/src/patch.rs`)

A moved file's two paths with what they share folded away. The paths are compared byte by byte from
either end, and cut at byte offsets; a result is `none` where a slice would panic, or a length would
go below zero.
-/

set_option autoImplicit false

namespace Diffz

/-- `crates/ui/src/{panels.rs → panels/mod.rs}`: the field `prefix` is `pathPrefix` here. -/
structure MoveLabel where
  pathPrefix : List Char
  old : List Char
  new : List Char
  suffix : List Char
deriving DecidableEq, Repr

/-- `usize` subtraction. -/
def checkedSub (a b : Nat) : Option Nat := if b ≤ a then some (a - b) else none

/-- `&bytes[..n]`. -/
def bytesUpTo (bytes : Bytes) (n : Nat) : Option Bytes :=
  if n ≤ bytes.length then some (bytes.take n) else none

/-- `&bytes[n..]`. -/
def bytesSince (bytes : Bytes) (n : Nat) : Option Bytes :=
  if n ≤ bytes.length then some (bytes.drop n) else none

/-- `MoveLabel::new`. -/
def MoveLabel.ofPaths (old new : List Char) : Option MoveLabel := do
  -- Share only whole folders, so a name is never split mid-word.
  let common := sharedLength (textBytes old) (textBytes new)
  let head ← bytesUpTo (textBytes old) common
  let cut := ((rposition (· == 47) head).map (· + 1)).getD 0
  let (pathPrefix, oldRest) ← splitBytes cut old
  let (_, newRest) ← splitBytes cut new
  let shared := sharedLength (textBytes oldRest).reverse (textBytes newRest).reverse
  let tail ← bytesSince (textBytes oldRest) (← checkedSub (byteLen oldRest) shared)
  -- The shared tail starts at its first `/`; a bare shared file name is not folded.
  let keep ← match tail.findIdx? (· == 47) with
    | none => some 0
    | some i => checkedSub shared i
  let (oldPart, suffix) ← splitBytes (← checkedSub (byteLen oldRest) keep) oldRest
  let (newPart, _) ← splitBytes (← checkedSub (byteLen newRest) keep) newRest
  some { pathPrefix, old := oldPart, new := newPart, suffix }

/-- The path this file came from, when it was renamed or copied. -/
def FileChange.movedFrom (f : FileChange) : Option RepoPath :=
  match f.kind with
  | .renamed | .copied => f.oldPath
  | _ => none

/-- The folded path pair for a renamed or copied file, or `none` where `new` would panic. -/
def FileChange.moveLabel (f : FileChange) : Option (Option MoveLabel) :=
  match f.movedFrom, f.newPath with
  | some old, some new =>
    if old.display ≠ new.display then
      (MoveLabel.ofPaths old.display.toList new.display.toList).map some
    else some none
  | _, _ => some none

end Diffz
