import Diffz.Core.Snapshot

/-!
# Annotations (`crates/core/src/annotation.rs`, `crates/core/src/registry.rs`)

An annotator marks files and lines of a snapshot. `DiffCheck` is the one that is built in: it flags
added lines with a problem and joins the flagged lines that follow each other. The registry runs its
annotators in turn and drops what points outside of the snapshot.

A cancellation is read anew at every check, so what is read is a function of the check's number.
-/

set_option autoImplicit false

namespace Diffz

inductive Severity
  | note
  | info
  | warning
  | error
deriving DecidableEq, Repr

/-- The place of a severity in the derived order. -/
def Severity.rank : Severity → Nat
  | note => 0
  | info => 1
  | warning => 2
  | error => 3

/-- `max`. -/
def Severity.max (a b : Severity) : Severity := if a.rank ≤ b.rank then b else a

inductive Anchor
  | file (path : String)
  | lines (path : String) (side : Side) (start stop : Nat)
deriving DecidableEq, Repr

namespace Anchor

def path : Anchor → String
  | file path => path
  | lines path _ _ _ => path

def covers : Anchor → Side → Nat → Bool
  | file _, _, _ => false
  | lines _ s start stop, side, line => s = side && start ≤ line && line ≤ stop

end Anchor

structure Annotation where
  anchor : Anchor
  severity : Severity
  title : String
  body : Option String
  source : String
deriving DecidableEq, Repr

/-- `in_snapshot`: only the first file of the anchor's path is looked at. -/
def inSnapshot (s : Snapshot) (anchor : Anchor) : Bool :=
  match s.patch.files.find? fun f => f.displayPath = some anchor.path with
  | none => false
  | some f =>
    match anchor with
    | .file _ => true
    | .lines _ side start stop =>
      1 ≤ start && start ≤ stop && (f.line side start).isSome && (f.line side stop).isSome

/-! ## The built-in check -/

namespace DiffCheck

def id : String := "diff check"

/-- The whitespace a line begins with. -/
def indent (text : String) : List Char := text.toList.takeWhile fun c => c = ' ' || c = '\t'

/-- `problem`. -/
def problem (text : String) : Option (Severity × String) :=
  if ["<<<<<<< ", ">>>>>>> "].any (fun m => m.toList.isPrefixOf text.toList) ||
      text = "=======" || text = "<<<<<<<" || text = ">>>>>>>" then
    some (.error, "Conflict marker")
  else if text.toList.getLast?.any fun c => c = ' ' || c = '\t' then
    some (.warning, "Trailing whitespace")
  else if [' ', '\t'] <:+: indent text then
    some (.warning, "Space before tab in indentation")
  else none

/-- The line a row adds, with its problem. -/
def flag (row : PatchRow) : Option (Nat × Severity × String) :=
  match row.kind, row.newLine with
  | .added, some line => (problem row.text).map fun p => (line, p)
  | _, _ => none

def single (path : String) (line : Nat) (severity : Severity) (title : String) : Annotation :=
  { anchor := .lines path .right line line, severity, title, body := none, source := id }

/-- One row; `out` has the last annotation first. -/
def row (path : String) (out : List Annotation) (r : PatchRow) : List Annotation :=
  match flag r with
  | none => out
  | some (line, severity, title) =>
    match out with
    | [] => [single path line severity title]
    | last :: rest =>
      match last.anchor with
      | .file _ => single path line severity title :: last :: rest
      | .lines p side start stop =>
        if p = path ∧ last.title = title ∧ stop + 1 = line then
          { last with anchor := .lines p side start line } :: rest
        else single path line severity title :: last :: rest

/-- The loop over the files, the first of which is checked for a cancellation as check `k`. Every
file of a patch has a path. -/
def files (cancelled : Nat → Bool) : Nat → List Annotation → List FileChange →
    Except String (List Annotation)
  | _, out, [] => .ok out.reverse
  | k, out, f :: rest =>
    if cancelled k then .error "cancelled"
    else files cancelled (k + 1) (f.allRows.foldl (row (f.displayPath.getD "")) out) rest

/-- `DiffCheck::annotate`. -/
def annotate (s : Snapshot) (cancelled : Nat → Bool) : Except String (List Annotation) :=
  files cancelled 0 [] s.patch.files

end DiffCheck

/-! ## The registry -/

/-- `Annotator`. -/
structure Annotator where
  id : String
  annotate : Snapshot → (Nat → Bool) → Except String (List Annotation)

def DiffCheck.annotator : Annotator := ⟨DiffCheck.id, DiffCheck.annotate⟩

namespace Registry

/-- The loop over the annotators; `cancelled k` is what the registry reads before annotator `k`, and
`within k` what that annotator reads. -/
def annotateFrom (s : Snapshot) (cancelled : Nat → Bool) (within : Nat → Nat → Bool) :
    Nat → List Annotator → List Annotation × List String
  | _, [] => ([], [])
  | k, a :: rest =>
    if cancelled k then ([], [])
    else
      let (found, problems) := annotateFrom s cancelled within (k + 1) rest
      match a.annotate s (within k) with
      | .error e => (found, (a.id ++ ": " ++ e) :: problems)
      | .ok list =>
        let kept := list.filter fun n => inSnapshot s n.anchor
        let dropped := list.length - kept.length
        (kept ++ found,
          if 0 < dropped then
            (a.id ++ ": " ++ toString dropped ++ " annotations point outside this review") ::
              problems
          else problems)

def annotate (annotators : List Annotator) (s : Snapshot) (cancelled : Nat → Bool)
    (within : Nat → Nat → Bool) : List Annotation × List String :=
  annotateFrom s cancelled within 0 annotators

end Registry
end Diffz
