import Diffz.Core.Presentation
import Diffz.Core.Snapshot
import Diffz.Lib.Lts
import Diffz.Lib.Positions
import Diffz.Lib.Table

/-!
# Context expansion (`crates/ui/src/viewport.rs`, `viewport/navigation.rs`, `reader.rs`)

The reader shows the hunks of one file, and on request some of the unchanged lines around them. A
request is planned from the hunks and the lines already shown, the lines are read in the background,
and the plan is carried out when they arrive; until then no other request starts, but the display may
be switched between split and unified, which drops every expansion.

Scrolling and layout are not here: a request names the row it is made on. The lines come from the two
documents of the file (`Sources`); a read may fail for reasons of its own.
-/

set_option autoImplicit false

namespace Diffz

inductive ContextRequest
  | above
  | below
  | all
deriving DecidableEq, Repr

/-- `ContextRequest::above`. -/
def ContextRequest.isAbove : ContextRequest → Bool
  | .below => false
  | _ => true

def contextStep : Nat := 10

def contextBudget : Nat := 1000

/-- The hunk, the first line on each side, and the number of lines. -/
structure ContextPlan where
  hunk : Nat
  old : Nat
  new : Nat
  count : Nat
deriving DecidableEq, Repr

/-- A subtraction of `u32` that would go below zero. -/
inductive Underflow
  | underflow
deriving DecidableEq, Repr

def subU32 (a b : Nat) : Except Underflow Nat := if b ≤ a then .ok (a - b) else .error .underflow

structure Viewport where
  snapshot : Snapshot
  file : FileId
  rows : List DisplayRow
  split : Bool
  /-- by hunk, how many lines are shown above and below it -/
  expanded : Table Nat (Nat × Nat)
  /-- the positions of the hunk headers among the rows -/
  hunkRows : List Nat

namespace Viewport

/-- `hunk_rows`. -/
def hunkRowsOf (rows : List DisplayRow) : List Nat := positions DisplayRow.isHunk rows

def change (v : Viewport) : Option FileChange := v.snapshot.file v.file

def presented (snapshot : Snapshot) (file : FileId) (split : Bool) : List DisplayRow :=
  ((snapshot.file file).map fun f => Presentation.rows f split).getD []

def new (snapshot : Snapshot) (file : FileId) (split : Bool) : Viewport :=
  let rows := presented snapshot file split
  { snapshot, file, rows, split, expanded := ∅, hunkRows := hunkRowsOf rows }

/-- `configure`, as far as the rows depend on it. -/
def configure (v : Viewport) (split : Bool) : Viewport :=
  if split = v.split then v
  else
    let rows := presented v.snapshot v.file split
    { v with split, rows, expanded := ∅, hunkRows := hunkRowsOf rows }

/-- The lines shown above and below a hunk. -/
def expansion (v : Viewport) (h : Nat) : Nat × Nat := (v.expanded.find h).getD (0, 0)

/-- The hunk a row belongs to. -/
def hunkAt (v : Viewport) (row : Nat) : Nat :=
  (v.hunkRows.takeWhile fun header => header ≤ row).length - 1

/-- Where the hidden lines above hunk `h` begin, by the hunk before it. -/
def previousEnd (v : Viewport) (hunks : List Hunk) (h : Nat) : Nat :=
  if h = 0 then 1
  else
    match hunks[h - 1]? with
    | some p => p.oldStart + p.oldCount + (v.expansion (h - 1)).2
    | none => 1

/-- How many lines a request for more above asks for; `none` where nothing is offered. -/
def countAbove (request : ContextRequest) (gap used : Nat) : Except Underflow (Option Nat) :=
  match request with
  | .all =>
    if gap ≤ contextStep then .ok none
    else do
      let left ← subU32 contextBudget used
      return if left < gap then none else some gap
  | _ => .ok (some (min gap contextStep))

def planAbove (v : Viewport) (hunks : List Hunk) (h : Nat) (current : Hunk) (used : Nat)
    (request : ContextRequest) : Except Underflow (Option ContextPlan) :=
  let before := (v.expansion h).1
  -- The two checked subtractions.
  if current.oldStart < before ∨ current.newStart < before then .ok none
  else do
    let old := current.oldStart - before
    let new := current.newStart - before
    let gap := min (old - v.previousEnd hunks h) (new - 1)
    let count ← countAbove request gap used
    match count with
    | none => return none
    | some count =>
      if 0 < count then
        let oldFrom ← subU32 old count
        let newFrom ← subU32 new count
        return some ⟨h, oldFrom, newFrom, count⟩
      else return none

/-- How many lines from `old` on a request for more below asks for. -/
def countBelow (v : Viewport) (hunks : List Hunk) (h old : Nat) : Nat :=
  match hunks[h + 1]? with
  | some next => min (next.oldStart - (v.expansion (h + 1)).1 - old) contextStep
  | none => contextStep

def planBelow (v : Viewport) (hunks : List Hunk) (h : Nat) (current : Hunk) : Option ContextPlan :=
  let after := (v.expansion h).2
  let old := current.oldStart + current.oldCount + after
  let new := current.newStart + current.newCount + after
  let count := v.countBelow hunks h old
  if 0 < count then some ⟨h, old, new, count⟩ else none

/-- `plan_for_row`. -/
def planForRow (v : Viewport) (row : Nat) (request : ContextRequest) :
    Except Underflow (Option ContextPlan) :=
  let used := (v.expanded.rows.map fun x => x.1 + x.2).sum
  if contextBudget ≤ used then .ok none
  else
    let h := v.hunkAt row
    match v.change with
    | none => .ok none
    | some file =>
      match file.hunks[h]? with
      | none => .ok none
      | some current =>
        if current.oldCount = 0 ∨ current.newCount = 0 then .ok none
        else if request.isAbove then v.planAbove file.hunks h current used request
        else .ok (v.planBelow file.hunks h current)

/-- The row of a line that is the same on both sides. -/
def contextRow (split : Bool) (old new : Nat) (text : String) : DisplayRow :=
  let cell (number : Nat) : Cell := { number, text, ending := .lf, kind := .context }
  .line (if split then some (cell old) else none) (some (cell new)) (!split) (some old)

/-- The rows of consecutive lines, numbered from `old` and `new`. -/
def contextRows (split : Bool) : Nat → Nat → List String → List DisplayRow
  | _, _, [] => []
  | old, new, text :: lines => contextRow split old new text :: contextRows split (old + 1) (new + 1) lines

/-- `insert_context`. -/
def insertContext (v : Viewport) (hunk : Nat) (above : Bool) (old new : Nat) (lines : List String) :
    Viewport :=
  match v.hunkRows[hunk]? with
  | none => v
  | some header =>
    let index := if above then header + 1 else (v.hunkRows[hunk + 1]?).getD v.rows.length
    let count := lines.length
    let x := v.expansion hunk
    { v with
      rows := v.rows.take index ++ contextRows v.split old new lines ++ v.rows.drop index
      hunkRows := v.hunkRows.take (hunk + 1) ++ (v.hunkRows.drop (hunk + 1)).map (· + count)
      expanded := v.expanded.put hunk (if above then (x.1 + count, x.2) else (x.1, x.2 + count)) }

end Viewport

/-! ## The reader -/

/-- The lines of the two documents of a file. -/
structure Sources where
  old : List String
  new : List String

/-- `source_lines`, when the document can be read. -/
def sourceLines (doc : List String) (start count : Nat) : Except String (List String) :=
  if start = 0 ∨ 1000 < count then .error "Invalid context request"
  else .ok ((doc.drop (start - 1)).take count)

/-- Both sides of a plan, which have to agree. -/
def Sources.read (src : Sources) (plan : ContextPlan) : Except String (List String) := do
  let left ← sourceLines src.old plan.old plan.count
  let right ← sourceLines src.new plan.new plan.count
  if left ≠ right then
    throw "The skipped source text differs between revisions, so no context lines were inserted."
  return right

structure Reader where
  viewport : Viewport
  contextBusy : Bool
  /-- the read in the background, with the request it is for -/
  task : Option (ContextRequest × ContextPlan)
  status : String

inductive ReaderEvent
  | expandContext (row : Nat) (request : ContextRequest)
  | readDone
  | readFailed (message : String)
  | configure (split : Bool)
deriving DecidableEq, Repr

namespace Reader

def new (snapshot : Snapshot) (file : FileId) (split : Bool) : Reader :=
  { viewport := .new snapshot file split, contextBusy := false, task := none, status := "" }

/-- The path of a file on both sides, where they are text. -/
def sourcePaths (f : FileChange) : Option (String × String) :=
  match f.oldPath, f.newPath with
  | some a, some b => (fromUtf8 a.bytes).bind fun a => (fromUtf8 b.bytes).map fun b => (a, b)
  | _, _ => none

/-- `expand_context`, up to the read. -/
def expandContext (r : Reader) (row : Nat) (request : ContextRequest) : Except Underflow Reader :=
  if r.contextBusy then .ok r
  else do
    let plan ← r.viewport.planForRow row request
    match plan with
    | none => return { r with status := "There is no additional hidden context in that direction" }
    | some plan =>
      if r.viewport.snapshot.remote.isNone then
        return { r with status := "Context expansion needs a saved hosted review; standalone patches have no omitted source" }
      else if (r.viewport.change.bind sourcePaths).isNone then return r
      else
        return { r with
          contextBusy := true
          task := some (request, plan)
          status := s!"Fetching {plan.count} lines of context pinned to the revision…" }

/-- What the read is followed by. -/
def finish (r : Reader) (request : ContextRequest) (plan : ContextPlan)
    (result : Except String (List String)) : Reader :=
  match result with
  | .ok lines =>
    { r with
      contextBusy := false
      task := none
      viewport := r.viewport.insertContext plan.hunk request.isAbove plan.old plan.new lines
      status := s!"Added {lines.length} unchanged lines · the extra context does not accept comments or draft selections" }
  | .error e => { r with contextBusy := false, task := none, status := e }

def step (src : Sources) (r : Reader) : ReaderEvent → Option Reader
  | .expandContext row request => (r.expandContext row request).toOption
  | .readDone => r.task.map fun t => r.finish t.1 t.2 (src.read t.2)
  | .readFailed message => r.task.map fun t => r.finish t.1 t.2 (.error message)
  | .configure split => some { r with viewport := r.viewport.configure split }

/-- The reader of one file; a step that underflowed would be none. -/
def system (src : Sources) : Lts Reader ReaderEvent := ⟨step src⟩

end Reader
end Diffz
