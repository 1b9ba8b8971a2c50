import Diffz.Core.Layout
import Diffz.Core.Source
import Diffz.Ui.Viewport

/-!
# The caret (`crates/ui/src/viewport/navigation.rs`, `viewport.rs`)

The end of the selection is a caret, which the keys move over the lines of its side that are shown. A
unified row of context has one cell and belongs to both sides.

Where a point of the window is, and whether the caret is in sight, are not here: any selection may be
made with the mouse, by a search or from a thread, and any place may be scrolled to.
-/

set_option autoImplicit false

namespace Diffz

inductive Motion
  | up
  | down
  | left
  | right
  | home
  | stop
  | first
  | last
deriving DecidableEq, Repr

/-- The cell that shows a line of a side, with the number it has on that side. -/
def DisplayRow.caretCell (side : Side) : DisplayRow → Option (Nat × Cell)
  | .line left right unified oldNumber =>
    match side with
    | .left =>
      match left with
      | some cell => some (cell.number, cell)
      | none =>
        -- Unified context paints one right cell but belongs to both sides.
        match right with
        | some cell =>
          if unified && decide (cell.kind = .context) then oldNumber.map fun n => (n, cell) else none
        | none => none
    | .right => right.map fun cell => (cell.number, cell)
  | _ => none

/-- The lines of a side a caret can be in. -/
def caretLines (side : Side) (rows : List DisplayRow) : List (Nat × List Char) :=
  (rows.filterMap (DisplayRow.caretCell side)).map fun x => (x.1, x.2.text.toList)

section Lines

variable (lines : List (Nat × List Char))

def numberAt (i : Nat) : Nat := (lines[i]?.map fun l => l.1).getD 0

def textAt (i : Nat) : List Char := (lines[i]?.map fun l => l.2).getD []

def lengthAt (i : Nat) : Nat := byteLen (textAt lines i)

end Lines

/-- The match of `move_selection`: the line and the column a motion goes to, before the column is
snapped. -/
def Motion.go (g : Clusters) (lines : List (Nat × List Char)) (i column : Nat) : Motion → Nat × Nat
  | .up => (i - 1, column)
  | .down => (min (i + 1) (lines.length - 1), column)
  | .home => (i, 0)
  | .stop => (i, lengthAt lines i)
  | .first => (0, 0)
  | .last => (lines.length - 1, lengthAt lines (lines.length - 1))
  | .left =>
    if column = 0 ∧ 0 < i then (i - 1, lengthAt lines (i - 1))
    else (i, (((g.starts (textAt lines i)).takeWhile fun k => decide (k < column)).getLast?).getD 0)
  | .right =>
    if lengthAt lines i ≤ column ∧ i + 1 < lines.length then (i + 1, 0)
    else
      (i, ((g.starts (textAt lines i)).find? fun k => decide (column < k)).getD (lengthAt lines i))

/-- The reader, with what is selected in its viewport and the point its anchor is at. -/
structure Pane where
  reader : Reader
  selection : Option SourceSelection
  anchor : Option SourcePoint

namespace Pane

def new (snapshot : Snapshot) (file : FileId) (split : Bool) (anchor : Option SourcePoint) : Pane :=
  { reader := .new snapshot file split, selection := none, anchor }

def viewport (p : Pane) : Viewport := p.reader.viewport

def current (p : Pane) : Option SourcePoint := (p.selection.map SourceSelection.stop).or p.anchor

def side (p : Pane) : Side := (p.current.map SourcePoint.side).getD .right

def lines (p : Pane) : List (Nat × List Char) := caretLines p.side p.viewport.rows

/-- The line of the caret among those of its side; the first one where it is not shown. -/
def row (p : Pane) : Nat :=
  (p.current.bind fun c => p.lines.findIdx? fun l => decide (l.1 = c.line)).getD 0

def column (p : Pane) : Nat :=
  min ((p.current.map SourcePoint.byteColumn).getD 0) (lengthAt p.lines p.row)

/-- The end of the selection after a motion. -/
def target (g : Clusters) (p : Pane) (motion : Motion) : SourcePoint :=
  let place := motion.go g p.lines p.row p.column
  { snapshot := p.viewport.snapshot.id, file := p.viewport.file, side := p.side
    line := numberAt p.lines place.1, byteColumn := snapGrapheme g (textAt p.lines place.1) place.2 }

/-- `move_selection`. A caret out of sight is revealed, which puts the anchor there. -/
def moveSelection (g : Clusters) (p : Pane) (motion : Motion) (extend visible : Bool) : Pane :=
  if p.lines.isEmpty then p
  else
    let stop := p.target g motion
    let start :=
      if extend then ((p.selection.map SourceSelection.start).or p.current).getD stop else stop
    { p with
      selection := some { start, stop }
      anchor := if visible then p.anchor else some stop }

/-- `selection_range`: what is painted as selected of a cell. -/
def selectionRange (p : Pane) (side : Side) (cell : Cell) (unified : Bool) (oldNumber : Option Nat) :
    Option Span :=
  match p.selection with
  | none => none
  | some s =>
    if s.start.snapshot ≠ p.viewport.snapshot.id ∨ s.start.file ≠ p.viewport.file then none
    else
      let line :=
        if s.start.side = side then some cell.number
        else if unified && decide (s.start.side = .left) && decide (cell.kind = .context) then oldNumber
        else none
      let ab := if Snapshot.atOrBefore s.start s.stop then (s.start, s.stop) else (s.stop, s.start)
      line.bind fun n =>
        if n < ab.1.line ∨ ab.2.line < n then none
        else
          let lo := if n = ab.1.line then ab.1.byteColumn else 0
          let hi := if n = ab.2.line then ab.2.byteColumn else byteLen cell.text.toList
          if lo < hi then some ⟨lo, hi⟩ else none

/-- The text that is painted as selected in the cells of a row. -/
def painted (p : Pane) : DisplayRow → List Char
  | .line left right unified oldNumber =>
    [(Side.left, left), (Side.right, right)].flatMap fun x =>
      ((x.2.bind fun cell =>
        (p.selectionRange x.1 cell unified oldNumber).bind (slice cell.text.toList))).getD []
  | _ => []

end Pane

inductive PaneEvent
  | reader (e : ReaderEvent)
  | select (selection : Option SourceSelection)
  | scroll (anchor : Option SourcePoint)
  | move (motion : Motion) (extend visible : Bool)
deriving DecidableEq, Repr

namespace Pane

def step (g : Clusters) (src : Sources) (p : Pane) : PaneEvent → Option Pane
  | .reader e => (Reader.step src p.reader e).map fun reader => { p with reader }
  | .select selection => some { p with selection }
  | .scroll anchor => some { p with anchor }
  | .move motion extend visible => some (p.moveSelection g motion extend visible)

/-- The reader of one file with its caret. -/
def system (g : Clusters) (src : Sources) : Lts Pane PaneEvent := ⟨step g src⟩

end Pane
end Diffz
