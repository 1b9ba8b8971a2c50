import Diffz.Core.Inline
import Diffz.Core.Presentation
import Diffz.Lib.Table

/-!
# The changed words of presentation rows (`crates/core/src/presentation.rs`)

The last part of `rows`: the word marks of all replaced lines are collected under side and line
number, and each cell takes its marks out. `diff` is `inline::word_diff`.
-/

set_option autoImplicit false

namespace Diffz

structure MarkedCell extends Cell where
  intra : Inline.Ranges
deriving DecidableEq, Repr

inductive MarkedRow
  | hunk (label : String) (sourceLine : Nat) (side : Side)
  | line (left right : Option MarkedCell) (unified : Bool) (oldNumber : Option Nat)
  | notice (text : String)
deriving DecidableEq, Repr

def MarkedRow.cell : MarkedRow → Side → Option MarkedCell
  | line left _ _ _, .left => left
  | line _ right _ _, .right => right
  | _, _ => none

namespace Presentation

/-- `HashMap<(Side, u32), Vec<Range<usize>>>`. -/
abbrev Words := Table (Side × Nat) Inline.Ranges

section Words

variable (diff : String → String → Inline.Ranges × Inline.Ranges)

/-- The marks of a line and the one it is replaced by. -/
def insertWords (words : Words) (pair : PatchRow × PatchRow) : Words :=
  let marks := diff pair.1.text pair.2.text
  let words := match pair.1.oldLine with
    | some n => words.put (.left, n) marks.1
    | none => words
  match pair.2.newLine with
  | some n => words.put (.right, n) marks.2
  | none => words

/-- The loop over the rows of a hunk. Runs of different lengths and long ones have no marks. -/
def wordsFrom : Nat → Words → List PatchRow → Words
  | 0, words, _ => words
  | _, words, [] => words
  | fuel + 1, words, r :: rest =>
    if isRemoved r then
      let removed := r :: rest.takeWhile isRemoved
      let mid := rest.dropWhile isRemoved
      let added := mid.takeWhile isAdded
      wordsFrom fuel
        (if removed.length ≠ added.length ∨ removed.length > 32 then words
        else (removed.zip added).foldl (insertWords diff) words)
        (mid.dropWhile isAdded)
    else wordsFrom fuel words rest

def words (f : FileChange) : Words :=
  f.hunks.foldl (fun words h => wordsFrom diff h.rows.length words h.rows) ∅

end Words

/-- The marks of a cell, and what is left without them. -/
def takeWords (words : Words) (side : Side) : Option Cell → Option MarkedCell × Words
  | none => (none, words)
  | some c =>
    (some { c with intra := (words.find (side, c.number)).getD [] },
      AList.erase (side, c.number) words)

def decorate : Words → List DisplayRow → List MarkedRow
  | _, [] => []
  | words, .hunk label sourceLine side :: rows =>
    .hunk label sourceLine side :: decorate words rows
  | words, .line left right unified oldNumber :: rows =>
    let l := takeWords words .left left
    let r := takeWords l.2 .right right
    .line l.1 r.1 unified oldNumber :: decorate r.2 rows
  | words, .notice text :: rows => .notice text :: decorate words rows

/-- `rows`, with the word marks of its cells. -/
def markedRows (diff : String → String → Inline.Ranges × Inline.Ranges) (f : FileChange)
    (split : Bool) : List MarkedRow :=
  decorate (words diff f) (rows f split)

end Presentation
end Diffz
