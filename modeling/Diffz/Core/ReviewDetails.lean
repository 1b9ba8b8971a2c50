import Mathlib.Data.String.Basic
import Diffz.Core.Patch
import Diffz.Lib.Bisect
import Diffz.Lib.Json
import Diffz.Lib.OrdMap

/-!
# Review details (`crates/core/src/review_details.rs`)

What a snapshot says about its review beside the patch: the description, the checks, the
conversation, and for a compare the releases in its range with the lines each of them last changed.
A blame range names its release by an index, so it means something for one release list only;
`releasesKey` is the digest such a list goes under.
-/

set_option autoImplicit false

namespace Diffz

inductive ReviewDecision
  | approved
  | changesRequested
deriving DecidableEq, Repr

structure Check where
  name : String
  kind : String
  status : String
  conclusion : Option String
  url : Option String
deriving DecidableEq, Repr

structure ConversationComment where
  id : Nat
  author : String
  body : String
  createdAt : Option String
deriving DecidableEq, Repr

structure ReleaseFile where
  path : String
  additions : Nat
  deletions : Nat
  previous : Option String
deriving DecidableEq, Repr

/-- One step of a compare: from the previous release, or the merge base, to `commit`. -/
structure Release where
  tag : Option String
  commit : String
  date : Option String
  commits : Nat
  files : List ReleaseFile
  notes : Option String
  url : Option String
  shas : List String
deriving DecidableEq, Repr

/-- Head lines `start..=stop`, last changed by `commit`, which release `release` added. -/
structure Blamed where
  start : Nat
  stop : Nat
  release : Nat
  commit : String
deriving DecidableEq, Repr

/-- Per path, the attributed head lines, or `none` where the blame could not be read. -/
abbrev BlameRead := OrdMap String (Option (List Blamed))

structure Overview where
  description : Option String
  author : Option String
  decision : Option ReviewDecision
  checks : List Check
  notices : List String
  capturedAt : Option Nat
  conversation : List ConversationComment
  releases : List Release
  blame : BlameRead
deriving DecidableEq

/-- `Overview::default`. -/
def Overview.empty : Overview where
  description := none
  author := none
  decision := none
  checks := []
  notices := []
  capturedAt := none
  conversation := []
  releases := []
  blame := .empty

/-! ## Attribution -/

/-- The release each commit came in, the last one that has it. -/
def shaReleases (releases : List Release) : OrdMap String Nat :=
  .ofList (releases.zipIdx.flatMap fun r => r.1.shas.map fun sha => (sha, r.2))

/-- `attribute`: keeps the blamed `(first line, last line, commit)` ranges whose commit one of the
releases added. -/
def attributeRanges (releases : List Release) (ranges : List (Nat × Nat × String)) : List Blamed :=
  let release := shaReleases releases
  let found := ranges.filterMap fun r =>
    (release.get r.2.2).map fun n =>
      { start := r.1, stop := r.2.1, release := n, commit := r.2.2 : Blamed }
  found.mergeSort fun a b => decide (a.start ≤ b.start)

/-- The blamed range holding head line `line` of `path`. -/
def blamed (blame : BlameRead) (path : String) (line : Nat) : Option Blamed :=
  match blame.get path with
  | some (some ranges) =>
    let point := bisect (fun b : Blamed => decide (b.stop < line)) ranges
    ranges[point]?.filter fun b => decide (b.start ≤ line)
  | _ => none

/-- The release an added row of `path` came from. -/
def rowRelease (blame : BlameRead) (path : String) (row : PatchRow) : Option Blamed :=
  if row.kind ≠ .added then none else row.newLine.bind (blamed blame path)

/-! ## Serialised forms -/

def ReviewDecision.toJson : ReviewDecision → Json
  | .approved => .str "Approved"
  | .changesRequested => .str "ChangesRequested"

def Check.toJson (c : Check) : Json :=
  .obj [("name", .str c.name), ("kind", .str c.kind), ("status", .str c.status),
    ("conclusion", .ofStr? c.conclusion), ("url", .ofStr? c.url)]

def ConversationComment.toJson (c : ConversationComment) : Json :=
  .obj [("id", .num c.id), ("author", .str c.author), ("body", .str c.body),
    ("created_at", .ofStr? c.createdAt)]

def ReleaseFile.toJson (f : ReleaseFile) : Json :=
  .obj ([("path", .str f.path), ("additions", .num f.additions), ("deletions", .num f.deletions)] ++
    skipNone "previous" (f.previous.map Json.str))

/-- A list under `skip_serializing_if = "Vec::is_empty"`. -/
def skipEmpty {α : Type} (toJson : α → Json) (l : List α) : Option Json :=
  if l.isEmpty then none else some (.arr (l.map toJson))

def Release.toJson (r : Release) : Json :=
  .obj ([("tag", .ofStr? r.tag), ("commit", .str r.commit), ("date", .ofStr? r.date),
    ("commits", .num r.commits), ("files", .arr (r.files.map ReleaseFile.toJson)),
    ("notes", .ofStr? r.notes), ("url", .ofStr? r.url)] ++
    skipNone "shas" (skipEmpty Json.str r.shas))

def Blamed.toJson (b : Blamed) : Json :=
  .obj [("start", .num b.start), ("end", .num b.stop), ("release", .num b.release),
    ("commit", .str b.commit)]

/-- `read_blame`: the entries that could be read. -/
def readBlame (b : BlameRead) : Json :=
  .obj (b.entries.filterMap fun e => e.2.map fun ranges => (e.1, .arr (ranges.map Blamed.toJson)))

def Overview.toJson (o : Overview) : Json :=
  .obj ([("description", .ofStr? o.description), ("author", .ofStr? o.author),
    ("decision", (o.decision.map ReviewDecision.toJson).getD .null),
    ("checks", .arr (o.checks.map Check.toJson)), ("notices", .arr (o.notices.map Json.str)),
    ("captured_at", .ofNat? o.capturedAt),
    ("conversation", .arr (o.conversation.map ConversationComment.toJson))] ++
    skipNone "releases" (skipEmpty Release.toJson o.releases) ++
    skipNone "blame" (if o.blame.isEmpty then none else some (readBlame o.blame)))

/-- A blame range's release index is meaningful only for this exact release list. -/
def releasesKey (sha256 : Bytes → Bytes) (releases : List Release) : String :=
  digest sha256 [asBytes "releases-v1", Json.toVec (.arr (releases.map Release.toJson))]

/-- The last verdict of each user decides; comments are none. -/
def reviewDecision (reviews : List (String × String)) : Option ReviewDecision :=
  let latest := OrdMap.ofList (reviews.filter fun r =>
    r.2 = "APPROVED" ∨ r.2 = "CHANGES_REQUESTED" ∨ r.2 = "DISMISSED")
  if latest.entries.any fun e => e.2 = "CHANGES_REQUESTED" then some .changesRequested
  else if latest.entries.any fun e => e.2 = "APPROVED" then some .approved
  else none

/-- The blame that a stored snapshot keeps: a file that could not be read is read again later. -/
def BlameRead.stored (b : BlameRead) : BlameRead := b.filter fun _ ranges => ranges.isSome

end Diffz
