import Diffz.Adapters.Compare
import Diffz.Adapters.Handoff
import Diffz.Adapters.Store
import Diffz.Core.Annotation
import Diffz.Core.FileTree
import Diffz.Core.MoveLabel
import Diffz.Core.Syntax
import Diffz.Lib.Lts

/-!
# The open source (`crates/ui/src/app/source.rs`)

The window shows one snapshot and reads what belongs to it in the background: the releases of a
compare, the blame of the files in view, annotations and syntax. It is asked for another one while
such reads are under way, and their results come in any order; a result is told by the token, the
generation or the snapshot its read was started with.

A snapshot that is shared has the number of its allocation, which is what `Arc::ptr_eq` compares. A
token is a number as well, and stays cancelled; a read may have seen only what was cancelled by then.
What a background read returns comes with the event that ends it. Left out is what is shown beside
the source: the panels, the composer, scroll positions, and the lines of text for the status.
-/

set_option autoImplicit false

namespace Diffz

open Handoff (OpenRequest)

/-- A snapshot behind an `Arc`. -/
structure Shared where
  alloc : Nat
  snapshot : Snapshot

/-- `blame_applies`. -/
def blameApplies (current source : Shared) : Bool := current.alloc = source.alloc

/-- `Opened`. -/
structure Opened where
  snapshot : Snapshot
  drafts : List Draft
  view : SavedView

/-- The snapshot without its blame, which `mem::take` leaves behind. -/
def Opened.withoutBlame (s : Snapshot) : Snapshot :=
  { s with overview := { s.overview with blame := .empty } }

/-- `extend`. -/
def BlameRead.extend (b found : BlameRead) : BlameRead :=
  found.entries.foldl (fun b e => b.insert e.1 e.2) b

namespace Workbench

/-! ## Marks -/

structure ReleaseMark where
  release : Option Nat
  label : String
  dim : Bool

/-- The path a file is shown under; every file of a patch has one. -/
def shownPath (f : FileChange) : String := f.displayPath.getD ""

/-- The mark of a row, in a file that the releases `touched` have touched. A commit is cut to its
first seven characters. -/
def rowMark (s : Snapshot) (blame : BlameRead) (focus : Option Nat) (path : String)
    (touched : List Nat) (row : PatchRow) : Option ((Side × Nat) × ReleaseMark) :=
  let releases := s.overview.releases
  let head := ((s.remote.bind (·.compare)).map (·.head)).getD "head"
  match row.kind, row.oldLine, row.newLine with
  | .added, _, some line =>
    (rowRelease blame path row).bind fun b =>
      releases[b.release]?.map fun release => ((.right, line),
        { release := some b.release
          label := "Changed in " ++ release.name head ++ " · " ++
            String.ofList (b.commit.toList.take 7)
          dim := focus.any (· ≠ b.release) })
  | .removed, some line, _ => some ((.left, line),
      { release := if touched.length = 1 then touched.head? else none
        label := removedIn (touched.filterMap fun i => releases[i]?.map (·.name head))
        dim := focus.any fun f => !touched.contains f })
  | _, _, _ => none

/-- `mark_releases`: the marks of the shown file. -/
def releaseMarks (s : Snapshot) (blame : BlameRead) (focus : Option Nat) (file : FileId) :
    Table (Side × Nat) ReleaseMark :=
  match (s.file file).filter fun _ => 2 ≤ s.overview.releases.length with
  | none => ∅
  | some f =>
    let touched := ((releasesByPath s.overview.releases).find (shownPath f)).getD []
    (f.allRows.filterMap (rowMark s blame focus (shownPath f) touched)).foldl
      (fun marks m => marks.put m.1 m.2) ∅

/-- One annotation: the worst one of a line is kept. -/
def annotationMark (path : String) (marks : Table (Side × Nat) Severity) (n : Annotation) :
    Table (Side × Nat) Severity :=
  match n.anchor with
  | .file _ => marks
  | .lines p side start stop =>
    if p = path then
      (List.range' start (stop + 1 - start)).foldl (fun marks line =>
        marks.put (side, line) (((marks.find (side, line)).getD n.severity).max n.severity)) marks
    else marks

/-- `mark_annotations`: the marks of the shown file. -/
def annotationMarks (s : Snapshot) (annotations : List Annotation) (file : FileId) :
    Table (Side × Nat) Severity :=
  annotations.foldl (annotationMark (((s.file file).map shownPath).getD "")) ∅

/-! ## The window -/

/-- `HashMap<(Side, u32), Vec<Span>>`. -/
abbrev Decorations := Table (Side × Nat) (List Syntax.Span)

/-- `Viewport`. -/
structure Shown where
  snapshot : Shared
  file : FileId
  decorations : Decorations
  annotations : Table (Side × Nat) Severity
  releases : Table (Side × Nat) ReleaseMark

/-- `Active`. -/
structure Active where
  snapshot : Shared
  blame : BlameRead
  drafts : List Draft
  view : SavedView
  viewAck : Nat

/-- What runs in the background. -/
inductive Task
  | open (generation : Nat) (request : OpenRequest) (refresh : Bool)
  | annotate (cancel : Nat) (source : Shared)
  | highlight (cancel : Nat) (source : Shared) (file : FileId)
  | releases (cancel : Nat) (source : Shared)
  | blame (cancel : Nat) (source : Shared) (paths : List String)
  | saveBlame (id : SnapshotId) (releasesKey : String) (found : BlameRead)

end Workbench

open Workbench in
structure Workbench where
  active : Option Active
  shown : Option Shown
  visibleFiles : List FileId
  query : String
  releaseFilter : Option Nat
  releaseNotes : List Nat
  annotations : List Annotation
  verdict : Verdict
  offered : Option Opened
  lastRequest : Option OpenRequest
  loading : Bool
  openGeneration : Nat
  openCancel : Nat
  annotateCancel : Nat
  highlightCancel : Nat
  releasesPending : Option Nat
  blameBusy : Bool
  /-- the tokens that were cancelled -/
  cancelled : List Nat
  /-- the next number for an allocation or a token -/
  fresh : Nat
  tasks : List Workbench.Task

namespace Workbench

/-- What the filter leaves of the files, in the order of the tree. -/
def visible (lower : String → String) (s : Snapshot) (releaseFilter : Option Nat) (query : String) :
    List FileId :=
  let touched := releasesByPath s.overview.releases
  let entries := (s.patch.files.map fun f => (f.id, shownPath f)).filter fun e =>
    releaseFilter.all fun i => ((touched.find e.2).getD []).contains i
  let oldPaths : FileId → Option String := fun id =>
    (s.patch.files.reverse.filterMap fun f =>
      f.movedFrom.map fun old => (f.id, old.display)).lookup id
  ((FileTree.mk entries oldPaths).rows lower [] (lower query)).filterMap (·.file)

/-- `filter_files`. -/
def filterFiles (lower : String → String) (w : Workbench) : Workbench :=
  { w with
    visibleFiles := match w.active with
      | none => []
      | some a => visible lower a.snapshot.snapshot w.releaseFilter w.query }

def markReleases (w : Workbench) : Workbench :=
  { w with
    shown := match w.active with
      | none => w.shown
      | some a => w.shown.map fun v =>
        { v with releases := releaseMarks a.snapshot.snapshot a.blame w.releaseFilter v.file } }

def markAnnotations (w : Workbench) : Workbench :=
  { w with
    shown := match w.active with
      | none => w.shown
      | some a => w.shown.map fun v =>
        { v with annotations := annotationMarks a.snapshot.snapshot w.annotations v.file } }

/-! ## Background reads -/

/-- `AHEAD`: the shown file and this many after it are read together. -/
def ahead : Nat := 3

/-- The files in view whose blame is still to be read. -/
def unread (w : Workbench) (a : Active) : List String :=
  let start := ((w.shown.map (·.file)).bind fun id => w.visibleFiles.findIdx? (· = id)).getD 0
  let files := ((w.visibleFiles.drop start).take (ahead + 1)).filterMap a.snapshot.snapshot.file
  ((files.filter fun f => (a.blame.get (shownPath f)).isNone).filter fun f =>
    (blameSpan a.snapshot.snapshot.overview f).isSome).map shownPath

/-- The read that `fetch_blame` starts, if it starts one. -/
def nextBlame (w : Workbench) : Option Task :=
  w.active.bind fun a =>
    if w.blameBusy || (w.unread a).isEmpty then none
    else some (.blame w.openCancel a.snapshot (w.unread a))

/-- `fetch_blame`. One read runs at a time. -/
def fetchBlame (w : Workbench) : Workbench :=
  { w with
    blameBusy := w.blameBusy || w.nextBlame.isSome
    tasks := w.tasks ++ w.nextBlame.toList }

/-- `highlight`. -/
def highlight (w : Workbench) (file : FileId) : Workbench :=
  { w with
    cancelled := w.highlightCancel :: w.cancelled
    highlightCancel := w.fresh
    fresh := w.fresh + 1
    tasks := w.tasks ++ (w.active.map fun a => .highlight w.fresh a.snapshot file).toList }

/-- `annotate`. -/
def annotate (w : Workbench) : Workbench :=
  { w with
    cancelled := w.annotateCancel :: w.cancelled
    annotateCancel := w.fresh
    fresh := w.fresh + 1
    tasks := w.tasks ++ (w.active.map fun a => .annotate w.fresh a.snapshot).toList }

/-- Whether the releases of the snapshot are read: it is a compare that has saved none. -/
def listsReleases (a : Active) : Bool :=
  (a.snapshot.snapshot.remote.bind (·.compare)).isSome &&
    a.snapshot.snapshot.overview.releases.isEmpty

/-- `load_releases`. -/
def loadReleases (w : Workbench) : Workbench :=
  let source := w.active.filter listsReleases
  { w with
    cancelled := w.releasesPending.toList ++ w.cancelled
    releasesPending := source.map fun _ => w.fresh
    fresh := w.fresh + 1
    tasks := w.tasks ++ (source.map fun a => .releases w.fresh a.snapshot).toList }

/-! ## The source on screen -/

/-- `select_file`, of a file that is there. -/
def showFile (w : Workbench) (a : Active) (id : FileId) : Workbench :=
  { w with
    active := some { a with view := { a.view with selectedFile := some id } }
    shown := some
      { snapshot := a.snapshot, file := id, decorations := ∅, annotations := ∅, releases := ∅ } }

/-- `select_file`. -/
def selectFile (w : Workbench) (id : FileId) : Workbench :=
  match w.active.filter fun a => (a.snapshot.snapshot.file id).isSome with
  | none => w
  | some a =>
    ((((w.showFile a id).markAnnotations).markReleases).fetchBlame).highlight id

/-- The fields that `install` sets. -/
def replaced (w : Workbench) (o : Opened) : Workbench :=
  { w with
    verdict := o.view.reviewVerdict.getD .comment
    active := some
      { snapshot := ⟨w.fresh, Opened.withoutBlame o.snapshot⟩, blame := o.snapshot.overview.blame
        drafts := o.drafts, view := o.view, viewAck := o.view.revision }
    fresh := w.fresh + 1
    shown := none
    releaseFilter := none
    releaseNotes := []
    offered := none
    annotations := [] }

/-- The file that is shown first. -/
def firstFile (o : Opened) : Option FileId :=
  (o.view.selectedFile.filter fun id => (o.snapshot.file id).isSome).or
    (o.snapshot.patch.files.head?.map (·.id))

def install (lower : String → String) (w : Workbench) (o : Opened) : Workbench :=
  let w := (w.replaced o).filterFiles lower
  let w := match firstFile o with
    | none => w
    | some id => w.selectFile id
  w.annotate.loadReleases

/-- Another snapshot takes the place of the active one, and the view stays. -/
def swap (w : Workbench) (s : Snapshot) : Workbench :=
  { w with
    active := w.active.map fun a =>
      { a with snapshot := ⟨w.fresh, Opened.withoutBlame s⟩, blame := s.overview.blame }
    shown := w.shown.map fun v => { v with snapshot := ⟨w.fresh, Opened.withoutBlame s⟩ }
    fresh := w.fresh + 1 }

/-- Indexes into an old list of releases do not hold any more. -/
def clearFilter (w : Workbench) : Workbench := { w with releaseFilter := none, releaseNotes := [] }

/-- What a refresh does with a snapshot of the same id. -/
def refreshed (lower : String → String) (w : Workbench) (s : Snapshot) : Workbench :=
  (((((w.swap s).clearFilter).filterFiles lower).loadReleases).markReleases).fetchBlame

/-- `open_pending`, where nothing is unsaved and nothing is busy. -/
def openPending (w : Workbench) (request : OpenRequest) (refresh : Bool) : Workbench :=
  { w with
    cancelled := w.openCancel :: w.cancelled
    openCancel := w.fresh
    fresh := w.fresh + 1
    openGeneration := w.openGeneration + 1
    loading := true
    tasks := w.tasks ++ [.open (w.openGeneration + 1) request refresh] }

/-- The end of an open; one that is not the newest changes nothing. -/
def opened (lower : String → String) (w : Workbench) (generation : Nat) (request : OpenRequest)
    (refresh : Bool) (result : Except String Opened) : Workbench :=
  if w.openGeneration ≠ generation then w
  else
    let w := { w with loading := false }
    match result with
    | .error _ => w
    | .ok o =>
      if refresh then
        if w.active.any fun a => a.snapshot.snapshot.id ≠ o.snapshot.id then
          { w with offered := some o }
        else w.refreshed lower o.snapshot
      else ({ w with lastRequest := some request } : Workbench).install lower o

/-- Whether a read that started with this token and snapshot still counts. -/
def counts (w : Workbench) (cancel : Nat) (source : Shared) : Bool :=
  !w.cancelled.contains cancel &&
    w.active.any fun a => a.snapshot.snapshot.id = source.snapshot.id

/-- The end of `annotate`. -/
def annotated (w : Workbench) (cancel : Nat) (source : Shared) (found : List Annotation) :
    Workbench :=
  if w.counts cancel source then ({ w with annotations := found } : Workbench).markAnnotations
  else w

/-- The end of `highlight`. -/
def highlighted (w : Workbench) (cancel : Nat) (source : Shared) (file : FileId)
    (found : Decorations) : Workbench :=
  { w with
    shown := w.shown.map fun v =>
      if !w.cancelled.contains cancel && v.snapshot.snapshot.id = source.snapshot.id &&
          v.file = file then
        { v with decorations := found }
      else v }

/-- The end of `load_releases`. -/
def released (w : Workbench) (cancel : Nat) (source : Shared) (result : Except String Snapshot) :
    Workbench :=
  if w.counts cancel source then
    let w := { w with releasesPending := none }
    match result with
    | .error _ => w
    | .ok s => (w.swap s).markReleases.fetchBlame
  else w

def extendBlame (w : Workbench) (found : BlameRead) : Workbench :=
  { w with active := w.active.map fun a => { a with blame := a.blame.extend found } }

def saveBlame (sha256 : Bytes → Bytes) (w : Workbench) (source : Shared) (found : BlameRead) :
    Workbench :=
  { w with
    tasks := w.tasks ++ [.saveBlame source.snapshot.id
      (releasesKey sha256 source.snapshot.overview.releases) found] }

/-- The end of `fetch_blame`, which reads on unless the read failed on its own. -/
def blamed (sha256 : Bytes → Bytes) (w : Workbench) (cancel : Nat) (source : Shared)
    (result : Except String BlameRead) : Workbench :=
  let w := { w with blameBusy := false }
  match result with
  | .ok found =>
    if w.active.any fun a => blameApplies a.snapshot source then
      (((w.extendBlame found).markReleases).saveBlame sha256 source found).fetchBlame
    else w.fetchBlame
  | .error _ => if w.cancelled.contains cancel then w.fetchBlame else w

/-! ## Runs -/

/-- What a background read ends with. -/
inductive Answer
  | opened (result : Except String Opened)
  | annotated (found : List Annotation)
  | highlighted (found : Decorations)
  | released (read : Except String (List Release × List String)) (cancelled : Bool)
      (stored : Except String Unit)
  | blamed (permit : Except String Unit)
      (provider : List (String × Nat × Nat) → Compare.BlameAnswer) (cancelled : Bool)
  | saved

inductive Event
  /-- `blocked` is whether changes are unsaved or a write runs -/
  | open (request : OpenRequest) (refresh blocked : Bool)
  /-- `accept_offer` -/
  | accept (unsaved : Bool)
  | select (id : FileId)
  /-- `filter_release`; the releases are chosen from the list on screen -/
  | filterRelease (index : Option Nat)
  | filterText (query : String)
  | toggleNotes (index : Nat)
  /-- the background read `k` ends -/
  | answer (k : Nat) (answer : Answer)

/-- The file that is shown after the filter changed, if another one is. -/
def leftFile (w : Workbench) : Option FileId :=
  w.visibleFiles.head?.filter fun _ =>
    (w.shown.map (·.file)).all fun id => !w.visibleFiles.contains id

def filterRelease (lower : String → String) (w : Workbench) (index : Option Nat) : Workbench :=
  let w := ((({ w with releaseFilter := index } : Workbench).filterFiles
    lower).markReleases).fetchBlame
  match w.leftFile with
  | none => w
  | some id => w.selectFile id

/-- A read ends. What it saw as cancelled was cancelled. -/
def finish (lower : String → String) (sha256 : Bytes → Bytes) (w : Workbench) :
    Task → Answer → Option Workbench
  | .open generation request refresh, .opened result =>
    some (w.opened lower generation request refresh result)
  | .annotate cancel source, .annotated found => some (w.annotated cancel source found)
  | .highlight cancel source file, .highlighted found =>
    some (w.highlighted cancel source file found)
  | .releases cancel source, .released read cancelled stored =>
    if cancelled && !w.cancelled.contains cancel then none
    else some (w.released cancel source (Compare.releases source.snapshot read cancelled stored))
  | .blame cancel source paths, .blamed permit provider cancelled =>
    if cancelled && !w.cancelled.contains cancel then none
    else some (w.blamed sha256 cancel source
      (Compare.blame source.snapshot paths permit provider cancelled))
  | .saveBlame _ _ _, .saved => some w
  | _, _ => none

def step (lower : String → String) (sha256 : Bytes → Bytes) (w : Workbench) :
    Event → Option Workbench
  | .open request refresh blocked => some (if blocked then w else w.openPending request refresh)
  | .accept unsaved =>
    match w.offered with
    | none => some w
    | some o =>
      some (if unsaved then w else ({ w with offered := none } : Workbench).install lower o)
  | .select id => some (w.selectFile id)
  | .filterRelease index =>
    if index.all fun i => w.active.any fun a => i < a.snapshot.snapshot.overview.releases.length then
      some (w.filterRelease lower index)
    else none
  | .filterText query => some (({ w with query } : Workbench).filterFiles lower)
  | .toggleNotes index => some
      { w with releaseNotes := if index ∈ w.releaseNotes then w.releaseNotes.erase index
                               else index :: w.releaseNotes }
  | .answer k answer =>
    w.tasks[k]?.bind fun task =>
      ({ w with tasks := w.tasks.eraseIdx k } : Workbench).finish lower sha256 task answer

def system (lower : String → String) (sha256 : Bytes → Bytes) : Lts Workbench Event :=
  ⟨step lower sha256⟩

/-- `Workbench::new`. -/
def start : Workbench where
  active := none
  shown := none
  visibleFiles := []
  query := ""
  releaseFilter := none
  releaseNotes := []
  annotations := []
  verdict := .comment
  offered := none
  lastRequest := none
  loading := false
  openGeneration := 0
  openCancel := 0
  annotateCancel := 1
  highlightCancel := 2
  releasesPending := none
  blameBusy := false
  cancelled := []
  fresh := 3
  tasks := []

end Workbench
end Diffz
